import Faust.Propagate.Propagates

/-!
# The propagation is sound for the box types

A typed box accepts any list of as many signals as it has inputs: the propagation meets no
error and returns as many signals as the box has outputs. The memoised results are results
of `Propagates`, so a result that is found again has the right width too.
-/

namespace Faust

open Faust.Tree

section
variable {libm : Libm}

/-! ## Widths of the results -/

/-- A result of the propagation is as wide as the type of the box says. -/
theorem Propagates.length_eq {G : Tree → Prop} {slotenv : SlotEnv} {path : List PathElement}
    {box : Box} {lsig r : List Tree} (h : Propagates libm G slotenv path box lsig r) :
    ∀ {m n : ℕ}, HasBoxType box m n → r.length = n := by
  induction h with
  | outputs h _ => exact fun ht => length_outputs h ht
  | slot _ => intro m n ht; cases ht; rfl
  | dummy _ _ => intro m n ht; cases ht; rfl
  | symbolic _ ih =>
    intro m n ht
    obtain ⟨u, -, hb⟩ := ht.symbolic_inv
    exact ih hb
  | group _ ih => exact fun ht => ih ht.group_inv
  | seq _ _ _ ih₂ =>
    intro m n ht
    obtain ⟨k, -, hb⟩ := ht.seq_inv
    exact ih₂ hb
  | par _ _ _ ih₁ ih₂ =>
    intro m n ht
    obtain ⟨m₁, n₁, m₂, n₂, ha, hb, -, rfl⟩ := ht.par_inv
    rw [List.length_append, ih₁ ha, ih₂ hb]
  | split _ _ _ _ _ ih₂ =>
    intro m n ht
    obtain ⟨v, x, -, hb, -⟩ := ht.split_inv
    exact ih₂ hb
  | merge _ _ _ _ ih₂ =>
    intro m n ht
    obtain ⟨v, x, -, hb, -⟩ := ht.merge_inv
    exact ih₂ hb
  | recur ht₁ _ _ _ _ _ =>
    intro m n ht
    obtain ⟨u, x, y, ha, -⟩ := ht.recur_inv
    rw [length_makeSigProjList]
    exact (ht₁.unique ha).2

/-! ## The memoised results -/

/-- Every memoised result is a result of the propagation. -/
def MemoSound (libm : Libm) (s : PropState) : Prop :=
  ∀ slotenv path box lsig r, s.table (slotenv, path, box, lsig) = some r →
    Propagates libm (fun _ => True) slotenv path box lsig r

theorem MemoSound.setTable {s : PropState} (h : MemoSound libm s) {slotenv : SlotEnv}
    {path : List PathElement} {box : Box} {lsig r : List Tree}
    (hr : Propagates libm (fun _ => True) slotenv path box lsig r) :
    MemoSound libm (s.setTable (slotenv, path, box, lsig) r) := by
  intro slotenv' path' box' lsig' r' hget
  by_cases heq : (slotenv', path', box', lsig') = (slotenv, path, box, lsig)
  · cases heq
    rw [PropState.setTable_self] at hget
    cases hget
    exact hr
  · rw [PropState.setTable_of_ne s heq] at hget
    exact h slotenv' path' box' lsig' r' hget

/-! ## Successful computations -/

/-- Run from a sound table, `m` succeeds with a value that satisfies `Q` and leaves a sound
table. -/
def Succeeds {α : Type} (libm : Libm) (m : PropM α) (Q : α → Prop) : Prop :=
  ∀ s, MemoSound libm s → ∃ a s', m s = .ok (a, s') ∧ Q a ∧ MemoSound libm s'

namespace Succeeds

variable {α β : Type}

theorem pure {a : α} {Q : α → Prop} (h : Q a) : Succeeds libm (Pure.pure a) Q :=
  fun s hs => ⟨a, s, rfl, h, hs⟩

theorem bind {m : PropM α} {Q : α → Prop} (h : Succeeds libm m Q) {f : α → PropM β}
    {R : β → Prop} (hf : ∀ a, Q a → Succeeds libm (f a) R) : Succeeds libm (m >>= f) R := by
  intro s hs
  obtain ⟨a, s₁, hm, ha, hs₁⟩ := h s hs
  obtain ⟨b, s₂, hfa, hb, hs₂⟩ := hf a ha s₁ hs₁
  refine ⟨b, s₂, ?_, hb, hs₂⟩
  have hrun : (m >>= f) s = (m s).bind fun p => f p.1 p.2 := rfl
  rw [hrun, hm]
  exact hfa

theorem assertInputs {lsig : List Tree} {n : ℕ} (h : lsig.length = n) :
    Succeeds libm (assertInputs lsig n) fun _ => True := by
  rw [Faust.assertInputs, if_pos h]
  exact pure trivial

theorem knownBoxType {box : Box} {m n : ℕ} (h : HasBoxType box m n) :
    Succeeds libm (knownBoxType box) fun p => p = (m, n) := by
  have hrun : Faust.knownBoxType box = Pure.pure (m, n) := by
    rw [Faust.knownBoxType, h]
  rw [hrun]
  exact pure rfl

theorem lift {r : Except PropError α} {a : α} (h : r = .ok a) :
    Succeeds libm (liftM r : PropM α) fun b => b = a := by
  intro s hs
  refine ⟨a, s, ?_, rfl, hs⟩
  rw [h]
  rfl

theorem nextDummyInput : Succeeds libm nextDummyInput fun _ => True :=
  fun _ hs => ⟨_, _, rfl, trivial, hs⟩

end Succeeds

/-- What the propagation of any list of the right width into `box` does. -/
def BoxSound (libm : Libm) (box : Box) : Prop :=
  ∀ {m n : ℕ} (slotenv : SlotEnv) (path : List PathElement) (lsig : List Tree),
    HasBoxType box m n → lsig.length = m →
      Succeeds libm (realPropagate libm box slotenv path lsig)
        (Propagates libm (fun _ => True) slotenv path box lsig)

/-- The memoisation adds nothing to the results. -/
theorem BoxSound.propagateWith {box : Box} (h : BoxSound libm box) {m n : ℕ}
    (slotenv : SlotEnv) (path : List PathElement) (lsig : List Tree)
    (ht : HasBoxType box m n) (hlen : lsig.length = m) :
    Succeeds libm (propagateWith (realPropagate libm box) box slotenv path lsig) fun r =>
      Propagates libm (fun _ => True) slotenv path box lsig r ∧ r.length = n := by
  intro s hs
  cases hget : s.table (slotenv, path, box, lsig) with
  | some r =>
    have hr := hs slotenv path box lsig r hget
    refine ⟨r, s, ?_, ⟨hr, hr.length_eq ht⟩, hs⟩
    simp only [Faust.propagateWith, bind, StateT.bind, get, getThe, MonadStateOf.get,
      StateT.get, Except.bind, Pure.pure, Except.pure, hget]
    rfl
  | none =>
    obtain ⟨r, s', hrun, hr, hs'⟩ := h slotenv path lsig ht hlen s hs
    refine ⟨r, s'.setTable (slotenv, path, box, lsig) r, ?_, ⟨hr, hr.length_eq ht⟩,
      hs'.setTable hr⟩
    simp only [Faust.propagateWith, bind, StateT.bind, get, getThe, MonadStateOf.get,
      StateT.get, Except.bind, Pure.pure, Except.pure, hget, hrun]
    rfl

theorem listRange_take {l : List Tree} {n : ℕ} (h : n ≤ l.length) :
    listRange l 0 n = .ok (l.take n) := by
  rw [listRange, if_pos ⟨Nat.zero_le n, h⟩, List.drop_zero, Nat.sub_zero]

theorem listRange_drop {l : List Tree} {m n : ℕ} (h : l.length = m + n) :
    listRange l m (m + n) = .ok (l.drop m) := by
  rw [listRange, if_pos ⟨Nat.le_add_right m n, h.ge⟩, Nat.add_sub_cancel_left,
    List.take_of_length_le (by rw [List.length_drop, h]; omega)]

/-- A box without parts checks the number of its inputs and reads its outputs off them. -/
theorem succeeds_outputs {box : Box} {slotenv : SlotEnv} {path : List PathElement}
    {lsig r : List Tree} {k : ℕ} (hlen : lsig.length = k)
    (h : box.outputs libm path lsig = some r) :
    Succeeds libm (do assertInputs lsig k; return r)
      (Propagates libm (fun _ => True) slotenv path box lsig) :=
  (Succeeds.assertInputs hlen).bind fun _ _ => .pure (.outputs h fun _ _ => trivial)

/-- The propagation into a typed box, by induction on the box. -/
theorem realPropagate_sound (box : Box) : BoxSound libm box := by
  induction box with
  | xtended p | ffun ff =>
    intro m n slotenv path lsig ht hlen
    cases ht
    rw [realPropagate]
    exact succeeds_outputs hlen (if_pos hlen)
  | int _ | real _ | waveform _ | fconst _ | fvar _ | prim0 _ | button _ | checkbox _
  | vslider _ _ | hslider _ _ | numEntry _ _ =>
    intro m n slotenv path lsig ht hlen
    cases ht
    obtain rfl := List.length_eq_zero_iff.mp hlen
    rw [realPropagate]
    exact succeeds_outputs rfl rfl
  | cut | wire =>
    intro m n slotenv path lsig ht hlen
    cases ht
    obtain ⟨x, rfl⟩ := List.length_eq_one_iff.mp hlen
    rw [realPropagate]
    exact succeeds_outputs rfl rfl
  | slot id =>
    intro m n slotenv path lsig ht hlen
    cases ht
    obtain rfl := List.length_eq_zero_iff.mp hlen
    rw [realPropagate]
    refine (Succeeds.assertInputs rfl).bind fun _ _ => ?_
    cases hs : searchEnv id slotenv with
    | some sig => exact .pure (.slot hs)
    | none => exact Succeeds.nextDummyInput.bind fun i _ => .pure (.dummy hs i)
  | symbolic slot body ih =>
    intro m n slotenv path lsig ht hlen
    obtain ⟨u, rfl, hb⟩ := ht.symbolic_inv
    match lsig, hlen with
    | sig :: lsig, hlen =>
      rw [realPropagate]
      intro s hs
      obtain ⟨r, s', hrun, ⟨hr, -⟩, hs'⟩ :=
        ih.propagateWith ((slot, sig) :: slotenv) path lsig hb (by simpa using hlen) s hs
      exact ⟨r, s', hrun, .symbolic hr, hs'⟩
  | patternVar _ | environment | other _ =>
    intro m n slotenv path lsig ht
    cases ht
  | prim1 p =>
    intro m n slotenv path lsig ht hlen
    cases ht
    match lsig, hlen with
    | [x], _ => exact .pure (.outputs rfl fun _ _ => trivial)
  | prim2 p =>
    intro m n slotenv path lsig ht hlen
    cases ht
    match lsig, hlen with
    | [x, y], _ => exact .pure (.outputs rfl fun _ _ => trivial)
  | prim3 p =>
    intro m n slotenv path lsig ht hlen
    cases ht
    match lsig, hlen with
    | [x, y, z], _ => exact .pure (.outputs rfl fun _ _ => trivial)
  | prim4 p =>
    intro m n slotenv path lsig ht hlen
    cases ht
    match lsig, hlen with
    | [x, y, z, u], _ => exact .pure (.outputs rfl fun _ _ => trivial)
  | prim5 p =>
    intro m n slotenv path lsig ht hlen
    cases ht
    match lsig, hlen with
    | [x, y, z, u, v], _ => exact .pure (.outputs rfl fun _ _ => trivial)
  | vbargraph _ _ _ | hbargraph _ _ _ =>
    intro m n slotenv path lsig ht hlen
    cases ht
    match lsig, hlen with
    | [x], _ => exact .pure (.outputs rfl fun _ _ => trivial)
  | group kind label t ih =>
    intro m n slotenv path lsig ht hlen s hs
    obtain ⟨r, s', hrun, ⟨hr, -⟩, hs'⟩ :=
      ih.propagateWith slotenv (.group kind.code label :: path) lsig ht.group_inv hlen s hs
    exact ⟨r, s', hrun, .group hr, hs'⟩
  | seq t₁ t₂ ih₁ ih₂ =>
    intro m n slotenv path lsig ht hlen
    obtain ⟨k, h₁, h₂⟩ := ht.seq_inv
    rw [realPropagate]
    refine (Succeeds.knownBoxType h₁).bind ?_
    rintro _ rfl
    refine (Succeeds.knownBoxType h₂).bind ?_
    rintro _ rfl
    simp only [ne_eq, not_true_eq_false, if_false]
    refine (ih₁.propagateWith slotenv path lsig h₁ hlen).bind ?_
    rintro l₁ ⟨hl₁, hk⟩ s hs
    obtain ⟨r, s', hrun, ⟨hr, -⟩, hs'⟩ := ih₂.propagateWith slotenv path l₁ h₂ hk s hs
    exact ⟨r, s', hrun, .seq hl₁ hr, hs'⟩
  | par t₁ t₂ ih₁ ih₂ =>
    intro m n slotenv path lsig ht hlen
    obtain ⟨m₁, n₁, m₂, n₂, h₁, h₂, rfl, rfl⟩ := ht.par_inv
    rw [realPropagate]
    refine (Succeeds.knownBoxType h₁).bind ?_
    rintro _ rfl
    refine (Succeeds.knownBoxType h₂).bind ?_
    rintro _ rfl
    refine (Succeeds.lift (listRange_take (by omega))).bind ?_
    rintro _ rfl
    refine (ih₁.propagateWith slotenv path _ h₁ (by simp [hlen])).bind ?_
    rintro l₁ ⟨hl₁, -⟩
    refine (Succeeds.lift (listRange_drop hlen)).bind ?_
    rintro _ rfl
    refine (ih₂.propagateWith slotenv path _ h₂ (by simp [hlen])).bind ?_
    rintro l₂ ⟨hl₂, -⟩
    exact .pure (.par h₁ hl₁ hl₂)
  | split t₁ t₂ ih₁ ih₂ =>
    intro m n slotenv path lsig ht hlen
    obtain ⟨v, x, h₁, h₂, hv, -, -⟩ := ht.split_inv
    rw [realPropagate]
    refine (Succeeds.knownBoxType h₁).bind ?_
    rintro _ rfl
    refine (Succeeds.knownBoxType h₂).bind ?_
    rintro _ rfl
    refine (ih₁.propagateWith slotenv path lsig h₁ hlen).bind ?_
    rintro l₁ ⟨hl₁, rfl⟩
    have hsplit := split_eq hv x
    refine (Succeeds.lift hsplit).bind ?_
    rintro l₂ rfl s hs
    obtain ⟨r, s', hrun, ⟨hr, -⟩, hs'⟩ :=
      ih₂.propagateWith slotenv path _ h₂ (length_of_split hsplit) s hs
    exact ⟨r, s', hrun, .split h₂ hl₁ hsplit hr, hs'⟩
  | merge t₁ t₂ ih₁ ih₂ =>
    intro m n slotenv path lsig ht hlen
    obtain ⟨v, x, h₁, h₂, -⟩ := ht.merge_inv
    rw [realPropagate]
    refine (Succeeds.knownBoxType h₁).bind ?_
    rintro _ rfl
    refine (Succeeds.knownBoxType h₂).bind ?_
    rintro _ rfl
    refine (ih₁.propagateWith slotenv path lsig h₁ hlen).bind ?_
    rintro l₁ ⟨hl₁, -⟩ s hs
    obtain ⟨r, s', hrun, ⟨hr, -⟩, hs'⟩ :=
      ih₂.propagateWith slotenv path (mix l₁ x) h₂ (length_mix l₁ x) s hs
    exact ⟨r, s', hrun, .merge h₂ hl₁ hr, hs'⟩
  | recur t₁ t₂ ih₁ ih₂ =>
    intro m n slotenv path lsig ht hlen
    obtain ⟨u, x, y, h₁, h₂, -, hu⟩ := ht.recur_inv
    rw [realPropagate]
    refine (Succeeds.knownBoxType h₁).bind ?_
    rintro _ rfl
    refine (Succeeds.knownBoxType h₂).bind ?_
    rintro _ rfl
    refine (ih₂.propagateWith (liftEnv slotenv) path _ h₂
      (length_makeMemSigProjList _ x)).bind ?_
    rintro l₁ ⟨hl₁, hlen₁⟩
    refine (ih₁.propagateWith (liftEnv slotenv) path _ h₁ ?_).bind ?_
    · rw [List.length_append, length_listLift, hlen₁, hlen, hu]
    rintro l₂ ⟨hl₂, -⟩
    exact .pure (.recur h₁ h₂ hl₁ hl₂)

/-! ## Any sequence of propagations -/

/-- The states that propagations into typed boxes reach. The number of dummy inputs may
change in between. -/
inductive PropState.Reachable (libm : Libm) : PropState → Prop
  | start (i : ℤ) : Reachable libm ⟨fun _ => none, i⟩
  | dummy {s : PropState} (i : ℤ) (hs : Reachable libm s) :
      Reachable libm { s with dummyInput := i }
  | call {s s' : PropState} {slotenv : SlotEnv} {path : List PathElement} {box : Box}
      {lsig r : List Tree} {m n : ℕ} (ht : HasBoxType box m n) (hlen : lsig.length = m)
      (hrun : propagate libm slotenv path box lsig s = .ok (r, s')) (hs : Reachable libm s) :
      Reachable libm s'

theorem PropState.Reachable.memoSound {s : PropState} (hs : s.Reachable libm) :
    MemoSound libm s := by
  induction hs with
  | start i => intro _ _ _ _ _ h; cases h
  | dummy i _ ih => exact ih
  | call ht hlen hrun _ ih =>
    obtain ⟨r', s'', hrun', -, hs''⟩ :=
      BoxSound.propagateWith (realPropagate_sound _) _ _ _ ht hlen _ ih
    rw [propagate, hrun'] at hrun
    cases hrun
    exact hs''

/-- From any reachable state, for any slot environment and path, a typed box propagates any
list of as many signals as it has inputs to as many signals as it has outputs, without an
error. -/
theorem realPropagate_succeeds {s : PropState} (hs : s.Reachable libm) {box : Box} {m n : ℕ}
    (ht : getBoxType box = .ok (some (m, n))) (slotenv : SlotEnv) (path : List PathElement)
    {lsig : List Tree} (hlen : lsig.length = m) :
    ∃ r s', realPropagate libm box slotenv path lsig s = .ok (r, s') ∧ r.length = n := by
  obtain ⟨r, s', hrun, hr, -⟩ := realPropagate_sound box slotenv path lsig ht hlen s hs.memoSound
  exact ⟨r, s', hrun, hr.length_eq ht⟩

end

/-- `+ ~ _`, with the sum of its input and of its output delayed as its output. -/
def integrator : Box := .recur (.prim2 (.sigBinOp .kAdd)) .wire

/-- The functions of the library that yield integers. -/
def Libm.rounding : Libm where
  unary
    | .floor, x => ⌊x⌋
    | .ceil, x => ⌈x⌉
    | _, _ => 0
  binary _ _ _ := 0

theorem realPropagate_succeeds_integrator :
    ∃ r s', realPropagate Libm.rounding (.merge (.split .wire (.par .wire .wire)) integrator) [] []
      [sigInput 0] ⟨fun _ => none, 0⟩ = .ok (r, s') ∧ r.length = 1 :=
  realPropagate_succeeds (.start 0) (by decide) [] [] rfl

end Faust
