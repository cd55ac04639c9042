import Faust.Signals.Signals

/-!
# The order of a signal (`sigorderrules.cpp`)

The order tells numbers (0), foreign constants (1), user interface values (2) and audio signals (3)
apart. The inference throws on recursive groups outside of projections and on what is not a signal.
-/

namespace Faust

open Faust.Tree

/-- `xtended::infereSigOrder`. -/
def XtPrim.infereSigOrder : List ℕ → Option ℕ
  | [x] => some x
  | [x, y] => some (Nat.max x y)
  | _ => none

/-- The orders that do not depend on the order of a branch. -/
def fixedOrder : Sym → List Tree → Option ℕ
  | .sigWaveform, _ => some 3
  | .sigInput, [i] => if i.label.isInt then some 3 else none
  | .sigOutput, [i, _] => if i.label.isInt then some 3 else none
  | .sigDelay1, [_] => some 3
  | .sigPrefix, [_, _] => some 3
  | .sigFixDelay, [_, _] => some 3
  | .sigFConst, [_, _, _] => some 1
  | .sigFVar, [_, _, _] => some 2
  | .sigButton, [_] => some 2
  | .sigCheckbox, [_] => some 2
  | .sigVSlider, [_, _] => some 2
  | .sigHSlider, [_, _] => some 2
  | .sigNumEntry, [_, _] => some 2
  | .sigProj, [i, _] => if i.label.isInt then some 3 else none
  | .sigTable, [_, _, _] => some 3
  | .sigWRTbl, [_, _, _, _] => some 3
  | .sigRDTbl, [_, _] => some 3
  | .sigDocConstantTbl, [_, _] => some 3
  | .sigDocWriteTbl, [_, _, _, _] => some 3
  | .sigDocAccessTbl, [_, _] => some 3
  | .sigGen, [_] => some 3
  | .sigSelect2, [_, _, _] => some 3
  | .sigSelect3, [_, _, _, _] => some 3
  | _, _ => none

mutual
/-- `getSigOrder`. -/
def getSigOrder : Tree → Option ℕ
  | .node (.sym (.xtended _)) br => do XtPrim.infereSigOrder (← getSigOrders br)
  | .node (.int _) _ | .node (.double _) _ => some 0
  | .node (.sym .sigBinOp) [op, s1, s2] =>
    if op.label.isInt then do return max (← getSigOrder s1) (← getSigOrder s2) else none
  | .node (.sym .sigIntCast) [s1] | .node (.sym .sigFloatCast) [s1] => getSigOrder s1
  | .node (.sym .sigFFun) [_, ls] =>
    if ls = Tree.nil then some 1 else do return max 1 (← getSigOrder ls)
  | .node (.sym .sigHBargraph) [_, _, _, s1] | .node (.sym .sigVBargraph) [_, _, _, s1] =>
    getSigOrder s1
  | .node (.sym .sigAttach) [s1, _] => getSigOrder s1
  | .node (.sym .cons) [hd, tl] =>
    if tl.label = .sym .cons ∧ tl.branches.length = 2 then do
      return max (← getSigOrder hd) (← getSigOrder tl)
    else getSigOrder hd
  | .node (.sym s) br => fixedOrder s br
  | _ => none

/-- The orders of the arguments of a primitive. -/
def getSigOrders : List Tree → Option (List ℕ)
  | [] => some []
  | t :: ts => do return (← getSigOrder t) :: (← getSigOrders ts)
end

/-- A signal the inference recognizes. -/
def HasOrder (t : Tree) : Prop := (getSigOrder t).isSome

theorem getSigOrder_binOp (i : ℤ) (br : List Tree) (x y : Tree) :
    getSigOrder (.node (.sym .sigBinOp) [.node (.int i) br, x, y])
      = (do return max (← getSigOrder x) (← getSigOrder y) : Option ℕ) := by
  rw [getSigOrder, if_pos (by rfl)]

theorem getSigOrder_xtended (p : XtPrim) (br : List Tree) :
    getSigOrder (.node (.sym (.xtended p)) br)
      = (do XtPrim.infereSigOrder (← getSigOrders br) : Option ℕ) := by
  rw [getSigOrder]

theorem hasOrder_sigBinOp {op : BinOp} {x y : Tree} (hx : HasOrder x) (hy : HasOrder y) :
    HasOrder (sigBinOp op x y) := by
  obtain ⟨o, ho⟩ := Option.isSome_iff_exists.mp hx
  obtain ⟨o', ho'⟩ := Option.isSome_iff_exists.mp hy
  unfold HasOrder sigBinOp leaf
  rw [getSigOrder_binOp, ho, ho']
  rfl

theorem hasOrder_of_binOp {i : ℤ} {br : List Tree} {x y : Tree}
    (h : HasOrder (.node (.sym .sigBinOp) [.node (.int i) br, x, y])) :
    HasOrder x ∧ HasOrder y := by
  unfold HasOrder at h ⊢
  rw [getSigOrder_binOp] at h
  cases hx : getSigOrder x with
  | none => simp [hx] at h
  | some o =>
    cases hy : getSigOrder y with
    | none => simp [hx, hy] at h
    | some o' => exact ⟨rfl, rfl⟩

theorem infereSigOrder_le {l : List ℕ} {o k : ℕ} (hl : ∀ x ∈ l, x ≤ k)
    (h : XtPrim.infereSigOrder l = some o) : o ≤ k := by
  unfold XtPrim.infereSigOrder at h
  split at h
  · cases h
    exact hl _ (by simp)
  · next x y =>
    cases h
    exact Nat.max_le.mpr ⟨hl x (by simp), hl y (by simp)⟩
  · cases h

theorem fixedOrder_le {s : Sym} {br : List Tree} {o : ℕ} (h : fixedOrder s br = some o) :
    o ≤ 3 := by
  unfold fixedOrder at h
  split at h
  all_goals first
    | (cases h; done)
    | (cases h; omega)
    | (split at h <;> cases h; omega)

theorem getSigOrders_le {ts : List Tree} (hts : ∀ t ∈ ts, ∀ o, getSigOrder t = some o → o ≤ 3) :
    ∀ {l : List ℕ}, getSigOrders ts = some l → ∀ o ∈ l, o ≤ 3 := by
  induction ts with
  | nil =>
    intro l h
    cases h
    simp
  | cons t ts ih =>
    intro l h
    obtain ⟨o, ho, h⟩ := Option.bind_eq_some_iff.mp h
    obtain ⟨l', hl', h⟩ := Option.bind_eq_some_iff.mp h
    cases h
    intro x hx
    rcases List.mem_cons.mp hx with rfl | hx
    · exact hts t List.mem_cons_self _ ho
    · exact ih (fun u hu => hts u (List.mem_cons_of_mem _ hu)) hl' x hx

/-- Orders are between 0 and 3. -/
theorem getSigOrder_le {t : Tree} : ∀ {o : ℕ}, getSigOrder t = some o → o ≤ 3 := by
  induction t using Tree.induction with
  | h n br ih =>
    intro o h
    -- the order of a branch, and the greatest order of two of them
    have ih2 : ∀ {s₁ s₂ : Tree} {o : ℕ}, s₁ ∈ br → s₂ ∈ br →
        (do return max (← getSigOrder s₁) (← getSigOrder s₂) : Option ℕ) = some o → o ≤ 3 := by
      intro s₁ s₂ o h₁ h₂ h
      obtain ⟨o₁, ho₁, h⟩ := Option.bind_eq_some_iff.mp h
      obtain ⟨o₂, ho₂, h⟩ := Option.bind_eq_some_iff.mp h
      cases h
      have := ih s₁ h₁ ho₁
      have := ih s₂ h₂ ho₂
      omega
    unfold getSigOrder at h
    split at h
    · next heq =>
      obtain ⟨_, rfl⟩ := Tree.node.inj heq
      obtain ⟨l, hl, h⟩ := Option.bind_eq_some_iff.mp h
      exact infereSigOrder_le (getSigOrders_le (fun t ht _ => ih t ht) hl) h
    · cases h
      omega
    · cases h
      omega
    · next heq =>
      obtain ⟨_, rfl⟩ := Tree.node.inj heq
      split at h
      · exact ih2 (by simp) (by simp) h
      · cases h
    · next heq =>
      obtain ⟨_, rfl⟩ := Tree.node.inj heq
      exact ih _ (by simp) h
    · next heq =>
      obtain ⟨_, rfl⟩ := Tree.node.inj heq
      exact ih _ (by simp) h
    · next heq =>
      obtain ⟨_, rfl⟩ := Tree.node.inj heq
      split at h
      · cases h
        omega
      · obtain ⟨o₂, ho₂, h⟩ := Option.bind_eq_some_iff.mp h
        cases h
        have := ih _ (by simp) ho₂
        omega
    · next heq =>
      obtain ⟨_, rfl⟩ := Tree.node.inj heq
      exact ih _ (by simp) h
    · next heq =>
      obtain ⟨_, rfl⟩ := Tree.node.inj heq
      exact ih _ (by simp) h
    · next heq =>
      obtain ⟨_, rfl⟩ := Tree.node.inj heq
      exact ih _ (by simp) h
    · next heq =>
      obtain ⟨_, rfl⟩ := Tree.node.inj heq
      split at h
      · exact ih2 (by simp) (by simp) h
      · exact ih _ (by simp) h
    · exact fixedOrder_le h
    · cases h

theorem hasOrder_num {n : Node} (h : n.isNum = true) : HasOrder (leaf n) := by
  cases n with
  | int i => simp [HasOrder, leaf, getSigOrder]
  | double x => simp [HasOrder, leaf, getSigOrder]
  | sym s => simp [Node.isNum, Node.isInt, Node.isDouble] at h
  | pointer p => simp [Node.isNum, Node.isInt, Node.isDouble] at h

end Faust
