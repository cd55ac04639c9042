import Faust.Propagate.Propagate
import Faust.Boxes.BoxTypeTheorems

/-!
# The results of the propagation, without the memoisation

`Propagates slotenv path box lsig r` says that `r` is a result of sending `lsig` into `box`.
It has one rule for the boxes whose outputs are read off their inputs, and one for each box
with parts. A slot without a signal may take any dummy input, so a box with such slots has
several results.

The rules are indexed by a condition `G` on the signals that generate the content of a
table: `Propagates (fun _ => True)` puts no condition on them.
-/

namespace Faust

open Faust.Tree

/-- The outputs of a box that has no parts and is not a slot. -/
def Box.outputs (libm : Libm) (path : List PathElement) : Box → List Tree → Option (List Tree)
  | .xtended p, lsig =>
    if lsig.length = p.arity then some [p.computeSigOutput libm lsig] else none
  | .int i, [] => some [sigInt i]
  | .real r, [] => some [sigReal r]
  | .waveform values, [] => some [sigInt values.length, sigWaveform values]
  | .fconst v, [] => some [sigFConst (leaf (.int v.type)) (leaf (.sym (.user v.name)))
      (leaf (.sym (.user v.file)))]
  | .fvar v, [] => some [sigFVar (leaf (.int v.type)) (leaf (.sym (.user v.name)))
      (leaf (.sym (.user v.file)))]
  | .cut, [_] => some []
  | .wire, [x] => some [x]
  | .prim0 p, [] => some [p.apply]
  | .prim1 p, [x] => some [p.apply x]
  | .prim2 p, [x, y] => some [p.apply x y]
  | .prim3 p, [x, y, z] => some [p.apply x y z]
  | .prim4 p, [x, y, z, u] => some [p.apply x y z u]
  | .prim5 p, [x, y, z, u, v] => some [p.apply x y z u v]
  | .ffun ff, lsig =>
    if lsig.length = ff.arity then some [sigFFun ff.tree (ofList lsig)] else none
  | .button label, [] => some [sigButton (normalizePath (.label label :: path))]
  | .checkbox label, [] => some [sigCheckbox (normalizePath (.label label :: path))]
  | .vslider label p, [] => some [sliderSignal sigVSlider label p path]
  | .hslider label p, [] => some [sliderSignal sigHSlider label p path]
  | .numEntry label p, [] => some [sliderSignal sigNumEntry label p path]
  | .vbargraph label min max, [x] =>
    some [sigVBargraph (normalizePath (.label label :: path)) (leaf min) (leaf max) x]
  | .hbargraph label min max, [x] =>
    some [sigHBargraph (normalizePath (.label label :: path)) (leaf min) (leaf max) x]
  | _, _ => none

/-- The signals that a table primitive generates the content of its table from. -/
def Box.generators : Box → List Tree → List Tree
  | .prim3 .sigReadOnlyTable, [_, init, _] => [init]
  | .prim5 .sigWriteReadTable, [_, init, _, _, _] => [init]
  | _, _ => []

/-- `Propagates G slotenv path box lsig r`: the propagation of `lsig` into `box` gives `r`,
and the tables on the way are generated by signals that satisfy `G`. -/
inductive Propagates (libm : Libm) (G : Tree → Prop) :
    SlotEnv → List PathElement → Box → List Tree → List Tree → Prop
  | outputs {slotenv path box lsig r} (h : box.outputs libm path lsig = some r)
      (hG : ∀ t ∈ box.generators lsig, G t) : Propagates libm G slotenv path box lsig r
  | slot {slotenv path id sig} (h : searchEnv id slotenv = some sig) :
      Propagates libm G slotenv path (.slot id) [] [sig]
  | dummy {slotenv path id} (h : searchEnv id slotenv = none) (i : ℤ) :
      Propagates libm G slotenv path (.slot id) [] [sigInput i]
  | symbolic {slotenv path slot body sig lsig r}
      (h : Propagates libm G ((slot, sig) :: slotenv) path body lsig r) :
      Propagates libm G slotenv path (.symbolic slot body) (sig :: lsig) r
  | group {slotenv path kind label t lsig r}
      (h : Propagates libm G slotenv (.group kind.code label :: path) t lsig r) :
      Propagates libm G slotenv path (.group kind label t) lsig r
  | seq {slotenv path t₁ t₂ lsig l₁ r} (h₁ : Propagates libm G slotenv path t₁ lsig l₁)
      (h₂ : Propagates libm G slotenv path t₂ l₁ r) :
      Propagates libm G slotenv path (.seq t₁ t₂) lsig r
  | par {slotenv path t₁ t₂ in₁ out₁ lsig l₁ l₂} (ht₁ : HasBoxType t₁ in₁ out₁)
      (h₁ : Propagates libm G slotenv path t₁ (lsig.take in₁) l₁)
      (h₂ : Propagates libm G slotenv path t₂ (lsig.drop in₁) l₂) :
      Propagates libm G slotenv path (.par t₁ t₂) lsig (l₁ ++ l₂)
  | split {slotenv path t₁ t₂ in₂ out₂ lsig l₁ l₂ r} (ht₂ : HasBoxType t₂ in₂ out₂)
      (h₁ : Propagates libm G slotenv path t₁ lsig l₁) (hs : Faust.split l₁ in₂ = .ok l₂)
      (h₂ : Propagates libm G slotenv path t₂ l₂ r) :
      Propagates libm G slotenv path (.split t₁ t₂) lsig r
  | merge {slotenv path t₁ t₂ in₂ out₂ lsig l₁ r} (ht₂ : HasBoxType t₂ in₂ out₂)
      (h₁ : Propagates libm G slotenv path t₁ lsig l₁)
      (h₂ : Propagates libm G slotenv path t₂ (mix l₁ in₂) r) :
      Propagates libm G slotenv path (.merge t₁ t₂) lsig r
  | recur {slotenv path t₁ t₂ in₁ out₁ in₂ out₂ lsig l₁ l₂} (ht₁ : HasBoxType t₁ in₁ out₁)
      (ht₂ : HasBoxType t₂ in₂ out₂)
      (h₁ : Propagates libm G (liftEnv slotenv) path t₂
        (makeMemSigProjList (debruijnRef 1) in₂) l₁)
      (h₂ : Propagates libm G (liftEnv slotenv) path t₁ (l₁ ++ listLift lsig) l₂) :
      Propagates libm G slotenv path (.recur t₁ t₂) lsig
        (makeSigProjList (debruijn (ofList l₂)) out₁)

/-! ## Widths -/

@[simp] theorem length_mix (l : List Tree) (n : ℕ) : (mix l n).length = n := by simp [mix]

@[simp] theorem length_makeSigProjList (t : Tree) (n : ℕ) :
    (makeSigProjList t n).length = n := by simp [makeSigProjList]

@[simp] theorem length_makeMemSigProjList (t : Tree) (n : ℕ) :
    (makeMemSigProjList t n).length = n := by simp [makeMemSigProjList]

@[simp] theorem length_listLift (l : List Tree) : (listLift l).length = l.length := by
  simp [listLift]

/-- Splitting the outputs of a box that has some: bus `b` takes line `b % nlines`. -/
theorem split_eq {l : List Tree} (hl : 0 < l.length) (n : ℕ) :
    split l n = .ok ((List.range n).map fun b =>
      l.get ⟨b % l.length, Nat.mod_lt b hl⟩) := by
  have hne : l.length ≠ 0 := by omega
  unfold split
  induction List.range n with
  | nil => rfl
  | cons b bs ih =>
    rw [List.mapM_cons, ih]
    simp only [dif_neg hne, List.map_cons]
    rfl

theorem length_of_split {l r : List Tree} {n : ℕ} (h : split l n = .ok r) : r.length = n := by
  by_cases hl : 0 < l.length
  · rw [split_eq hl] at h
    cases h
    simp
  · obtain rfl : l = [] := by simpa using hl
    cases n with
    | zero =>
      cases h
      rfl
    | succ n =>
      exfalso
      unfold split at h
      rw [List.range_succ_eq_map, List.mapM_cons] at h
      cases h

/-- The boxes without parts have as many outputs as their type says. -/
theorem length_outputs {libm : Libm} {path : List PathElement} {box : Box} {lsig r : List Tree}
    (h : box.outputs libm path lsig = some r) {m n : ℕ} (ht : HasBoxType box m n) :
    r.length = n := by
  unfold Box.outputs at h
  split at h <;> first
    | (split_ifs at h; cases h; cases ht; rfl)
    | (cases h; cases ht; rfl)
    | cases h

end Faust
