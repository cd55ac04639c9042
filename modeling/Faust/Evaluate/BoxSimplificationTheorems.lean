import Mathlib.Logic.Relation
import Faust.Evaluate.BoxSimplification
import Faust.Lib.Outcome
import Faust.Propagate.DiagramTheorems

/-!
# What the simplification of a block diagram keeps

The numbers of inputs and outputs are kept in every case. The streams are kept as soon as each part
that is replaced by a number is this number at every sample. A simplification stops at a waveform.
-/

namespace Faust

open Faust.Tree Outcome

namespace BoxSimplification

/-! ## Compositions -/

/-- The operators of the composition algebra. -/
inductive Composition
  | seq | par | split | merge | recur

/-- The composition of two boxes. -/
def Composition.box : Composition → Box → Box → Box
  | seq => .seq
  | par => .par
  | split => .split
  | merge => .merge
  | recur => .recur

section
variable {a b a' b' : Box} {m n : ℕ}

/-- The parts of a composition that has a type have one. -/
theorem Composition.typed (c : Composition) (h : HasBoxType (c.box a b) m n) :
    (∃ m₁ n₁, HasBoxType a m₁ n₁) ∧ ∃ m₂ n₂, HasBoxType b m₂ n₂ := by
  cases c with
  | seq =>
    obtain ⟨k, ha, hb⟩ := h.seq_inv
    exact ⟨⟨_, _, ha⟩, ⟨_, _, hb⟩⟩
  | par =>
    obtain ⟨m₁, n₁, m₂, n₂, ha, hb, _⟩ := h.par_inv
    exact ⟨⟨_, _, ha⟩, ⟨_, _, hb⟩⟩
  | split =>
    obtain ⟨v, x, ha, hb, _⟩ := h.split_inv
    exact ⟨⟨_, _, ha⟩, ⟨_, _, hb⟩⟩
  | merge =>
    obtain ⟨v, x, ha, hb, _⟩ := h.merge_inv
    exact ⟨⟨_, _, ha⟩, ⟨_, _, hb⟩⟩
  | recur =>
    obtain ⟨u, x, y, ha, hb, _⟩ := h.recur_inv
    exact ⟨⟨_, _, ha⟩, ⟨_, _, hb⟩⟩

/-- The type of a composition depends on the types of its parts only. -/
theorem Composition.getBoxType_congr (c : Composition) (ha : getBoxType a' = getBoxType a)
    (hb : getBoxType b' = getBoxType b) : getBoxType (c.box a' b') = getBoxType (c.box a b) := by
  cases c <;> simp only [Composition.box, getBoxType, ha, hb]

end

/-! ## What is kept -/

/-- The type of a box, the slots it needs and the absence of tables are those of another box. -/
structure Keeps (b r : Box) : Prop where
  type : ∀ m n, HasBoxType b m n → HasBoxType r m n
  slots : ∀ l, b.SlotsBound l → r.SlotsBound l
  tables : b.TableFree → r.TableFree

theorem Keeps.refl (b : Box) : Keeps b b := ⟨fun _ _ h => h, fun _ h => h, id⟩

theorem Keeps.group {kind : GroupKind} {label : String} {b r : Box} (h : Keeps b r) :
    Keeps (.group kind label b) (.group kind label r) :=
  ⟨fun m n ht => h.type m n ht.group_inv, fun l hl => h.slots l hl, fun hfree => h.tables hfree⟩

theorem Keeps.symbolic {slot : ℤ} {b r : Box} (h : Keeps b r) :
    Keeps (.symbolic slot b) (.symbolic slot r) := by
  refine ⟨?_, fun l hl => h.slots _ hl, fun hfree => h.tables hfree⟩
  intro m n ht
  obtain ⟨u, rfl, hb⟩ := ht.symbolic_inv
  have hr : getBoxType r = .ok (some (u, n)) := h.type u n hb
  show ifTyped (getBoxType r) _ = _
  rw [hr]
  rfl

theorem Keeps.composition (c : Composition) {a b a' b' : Box} (ha : Keeps a a')
    (hb : Keeps b b') : Keeps (c.box a b) (c.box a' b') where
  type := by
    intro m n ht
    obtain ⟨⟨m₁, n₁, hta⟩, ⟨m₂, n₂, htb⟩⟩ := c.typed ht
    have heqa : getBoxType a' = getBoxType a := (ha.type _ _ hta).trans hta.symm
    have heqb : getBoxType b' = getBoxType b := (hb.type _ _ htb).trans htb.symm
    exact (c.getBoxType_congr heqa heqb).trans ht
  slots := by
    intro l hl
    cases c <;> exact ⟨ha.slots l hl.1, hb.slots l hl.2⟩
  tables := by
    intro hfree
    cases c <;> exact ⟨ha.tables hfree.1, hb.tables hfree.2⟩

section
variable {libm : Libm} {V : Type} (I : SigInterp libm V) (inputs : ℕ → ℕ → ℚ)

/-- The boxes have the same meaning. -/
def Transparent (b r : Box) : Prop :=
  ∀ σ path xs ys, Diagram I inputs r σ path xs ys ↔ Diagram I inputs b σ path xs ys

variable {I inputs}

theorem Transparent.refl (b : Box) : Transparent I inputs b b := fun _ _ _ _ => Iff.rfl

theorem Transparent.group {kind : GroupKind} {label : String} {b r : Box}
    (h : Transparent I inputs b r) :
    Transparent I inputs (.group kind label b) (.group kind label r) :=
  fun σ path xs ys => h σ (.group kind.code label :: path) xs ys

theorem Transparent.symbolic {slot : ℤ} {b r : Box} (h : Transparent I inputs b r) :
    Transparent I inputs (.symbolic slot b) (.symbolic slot r) := by
  intro σ path xs ys
  simp only [Diagram, h _ _ _ _]

/-- The meaning of a composition is made of the meanings of its parts. -/
theorem Transparent.composition (c : Composition) {a b a' b' : Box}
    (ha : Transparent I inputs a a') (hb : Transparent I inputs b b') :
    Transparent I inputs (c.box a b) (c.box a' b') := by
  intro σ path xs ys
  cases c <;> simp only [Composition.box, Diagram, ha _ _ _ _, hb _ _ _ _]

end

/-! ## The boxes that a simplification reaches -/

section
variable (libm : Libm) (before : Tree → Tree → Bool) (fuel : ℕ)

/-- The simplification of the box goes inside it: it is not known yet, and its signal, when it has
no input and one output, does not simplify to a number. -/
inductive GoesInside (box : Box) : State → State → Prop
  | wide {s : State} (hnew : s.simplified box = none) (h : ¬ HasBoxType box 0 1) :
      GoesInside box s s
  | signal {s s' : State} {sig : Tree} (hnew : s.simplified box = none)
      (hnumber : isNumber box = false) (h : HasBoxType box 0 1)
      (hrun : simplifiedSignal libm before fuel box s = .ok (sig, s'))
      (hsig : sig.label.isNum = false) : GoesInside box s s'

/-- The simplification of a box in a state calls for that of one of its parts. -/
inductive Calls : Box × State → Box × State → Prop
  | group {kind : GroupKind} {label : String} {b : Box} {s s' : State}
      (h : GoesInside libm before fuel (.group kind label b) s s') :
      Calls (.group kind label b, s) (b, s')
  | symbolic {slot : ℤ} {b : Box} {s s' : State}
      (h : GoesInside libm before fuel (.symbolic slot b) s s') :
      Calls (.symbolic slot b, s) (b, s')
  | first {c : Composition} {a b box : Box} {s s' : State} (hbox : c.box a b = box)
      (h : GoesInside libm before fuel box s s') : Calls (box, s) (a, s')
  | second {c : Composition} {a b box r : Box} {s s₁ s₂ : State} (hbox : c.box a b = box)
      (h : GoesInside libm before fuel box s s₁)
      (hrun : boxSimplification libm before fuel a s₁ = .ok (r, s₂)) : Calls (box, s) (b, s₂)

/-- The boxes that the simplification of a box reaches, with the states in which it does. -/
def Reached : Box × State → Box × State → Prop := Relation.ReflTransGen (Calls libm before fuel)

/-- A box on which the simplification does not stop: it is not a waveform, and when it has no input
and one output, its signal can be simplified. -/
def Passes (q : Box × State) : Prop :=
  q.2.simplified q.1 = none → (∀ values, q.1 ≠ .waveform values) ∧
    (HasBoxType q.1 0 1 → isNumber q.1 = false →
      ∃ sig s', simplifiedSignal libm before fuel q.1 q.2 = .ok (sig, s'))

variable {V : Type} (I : SigInterp libm V) (inputs : ℕ → ℕ → ℚ)

/-- A box that is what replaces it: if its signal simplifies to a number, then the box is this
number at every sample, whatever its free slots are and wherever it is displayed. -/
def Right (q : Box × State) : Prop :=
  q.2.simplified q.1 = none → isNumber q.1 = false → HasBoxType q.1 0 1 →
    ∀ sig s', simplifiedSignal libm before fuel q.1 q.2 = .ok (sig, s') → sig.label.isNum = true →
      ∀ σ path ys, Diagram I inputs q.1 σ path [] ys ↔ ys = [fun _ => I.lit sig.label]

/-- The results that are kept are right, if `W` holds. -/
structure Inv (W : Prop) (s : State) : Prop where
  memo : MemoSound libm s.propagation
  keeps : ∀ b r, s.simplified b = some r → Keeps b r
  transparent : W → ∀ b r, s.simplified b = some r → Transparent I inputs b r

variable {libm before fuel I inputs} {W : Prop} {box : Box} {s : State}

theorem GoesInside.unique {s₁ s₂ : State} (h₁ : GoesInside libm before fuel box s s₁)
    (h₂ : GoesInside libm before fuel box s s₂) : s₁ = s₂ := by
  cases h₁ with
  | wide _ hnot =>
    cases h₂ with
    | wide => rfl
    | signal _ _ h => exact absurd h hnot
  | signal _ _ h hrun =>
    cases h₂ with
    | wide _ hnot => exact absurd h hnot
    | signal _ _ _ hrun' =>
      rw [hrun] at hrun'
      cases hrun'
      rfl

/-- A box that the simplification does not enter is the only one that is reached. -/
theorem eq_of_reached (hnot : ∀ s', ¬ GoesInside libm before fuel box s s') {q : Box × State}
    (h : Reached libm before fuel (box, s) q) : q = (box, s) := by
  rcases Relation.ReflTransGen.cases_head h with heq | ⟨_, hcall, _⟩
  · exact heq.symm
  · cases hcall with
    | group h => exact absurd h (hnot _)
    | symbolic h => exact absurd h (hnot _)
    | first _ h => exact absurd h (hnot _)
    | second _ h => exact absurd h (hnot _)

/-! ## The signal of a box -/

theorem ends_runPropagation {α : Type} {x : PropM α} {Q : α → Prop} (hx : Succeeds libm x Q)
    (h : MemoSound libm s.propagation) : Ends (runPropagation x) s (fun _ => False) fun a s' =>
      Q a ∧ MemoSound libm s'.propagation ∧ s'.simplified = s.simplified := by
  obtain ⟨a, p, hrun, ha, hp⟩ := hx s.propagation h
  unfold Ends runPropagation
  rw [hrun]
  exact ⟨ha, hp, rfl⟩

theorem ends_runSimplification {α : Type} (x : Simplify.M α) :
    Ends (runSimplification x) s (fun _ => True) fun _ s' =>
      s'.propagation = s.propagation ∧ s'.simplified = s.simplified := by
  unfold Ends runSimplification
  cases x s.signals with
  | ok r => exact ⟨rfl, rfl⟩
  | error e => trivial

/-- The propagation into a box with one output gives one signal, which is simplified; the results
that are kept stay. -/
theorem ends_simplifiedSignal (h : Inv libm I inputs W s) (ht : HasBoxType box 0 1) :
    Ends (simplifiedSignal libm before fuel box) s (fun _ => True) fun _ s' =>
      Inv libm I inputs W s' := by
  have hlen : (makeSigInputList 0).length = 0 := rfl
  have hsound : BoxSound libm box := realPropagate_sound box
  have hpropagate := hsound.propagateWith [] [] _ ht hlen
  apply ((ends_runPropagation hpropagate h.memo).imp nofun fun _ _ hp => hp).bind
  intro lsignals s₁ hp
  obtain ⟨⟨_, hone⟩, hmemo, hkept⟩ := hp
  match lsignals, hone with
  | [sig], _ =>
    apply (ends_runSimplification _).mono
    intro _ s₂ hs₂
    obtain ⟨hprop, hsame⟩ := hs₂
    have heq : s₂.simplified = s.simplified := hsame.trans hkept
    exact ⟨hprop ▸ hmemo, heq ▸ h.keeps, heq ▸ h.transparent⟩

/-- The result of a simplification is kept. -/
theorem Inv.setSimplified (h : Inv libm I inputs W s) {r : Box} (hr : Keeps box r)
    (ht : W → Transparent I inputs box r) : Inv libm I inputs W (s.setSimplified box r) where
  memo := h.memo
  keeps := by
    intro b r' hb
    by_cases heq : b = box
    · subst heq
      simp only [State.setSimplified, Function.update_self, Option.some.injEq] at hb
      exact hb ▸ hr
    · simp only [State.setSimplified, Function.update_of_ne heq] at hb
      exact h.keeps b r' hb
  transparent := by
    intro hW b r' hb
    by_cases heq : b = box
    · subst heq
      simp only [State.setSimplified, Function.update_self, Option.some.injEq] at hb
      exact hb ▸ ht hW
    · simp only [State.setSimplified, Function.update_of_ne heq] at hb
      exact h.transparent hW b r' hb

/-! ## One box -/

variable (libm before fuel) in
/-- The simplification of a box reaches one on which it stops. -/
def Stops (box : Box) (s : State) : Prop :=
  ∃ q, Reached libm before fuel (box, s) q ∧ ¬ Passes libm before fuel q

variable (libm before fuel I inputs W) in
/-- The simplification of a box that began in the state `s` has a result. -/
structure Result (box : Box) (s : State) (r : Box) (s' : State) : Prop where
  passes : ∀ q, Reached libm before fuel (box, s) q → Passes libm before fuel q
  inv : Inv libm I inputs W s'
  keeps : Keeps box r
  transparent : W → Transparent I inputs box r

variable (libm before fuel I inputs W) in
/-- The simplification of what is in a box, which began in the state `s`, has a result. -/
structure InsideResult (box : Box) (s : State) (r : Box) (s' : State) : Prop where
  notWaveform : ∀ values, box ≠ .waveform values
  passes : ∀ q, Reached libm before fuel (box, s) q → q = (box, s) ∨ Passes libm before fuel q
  inv : Inv libm I inputs W s'
  keeps : Keeps box r
  transparent : W → Transparent I inputs box r

/-- A box that is replaced by a number. -/
theorem keeps_number {r : Box} (ht : HasBoxType box 0 1) (hr : isNumber r = true) :
    Keeps box r := by
  refine ⟨?_, ?_, ?_⟩
  · intro m n h
    obtain ⟨rfl, rfl⟩ := ht.unique h
    cases r <;> first | rfl | cases hr
  · intro l _
    cases r <;> trivial
  · intro _
    cases r <;> trivial

theorem transparent_number {n : Node} {r : Box} (ht : HasBoxType box 0 1)
    (hright : ∀ σ path ys, Diagram I inputs box σ path [] ys ↔ ys = [fun _ => I.lit n])
    (hr : ∀ σ path xs ys, Diagram I inputs r σ path xs ys ↔ xs = [] ∧ ys = [fun _ => I.lit n]) :
    Transparent I inputs box r := by
  intro σ path xs ys
  rw [hr]
  constructor
  · intro h
    obtain ⟨rfl, hys⟩ := h
    exact (hright σ path ys).2 hys
  · intro h
    obtain rfl : xs = [] := List.length_eq_zero_iff.1 (Diagram.length ht h).1
    exact ⟨rfl, (hright σ path ys).1 h⟩

theorem numericBoxSimplification_number {inside : M Box} (hone : HasBoxType box 0 1)
    (hnumber : isNumber box = true) :
    numericBoxSimplification libm before fuel inside box = pure box := by
  unfold numericBoxSimplification
  rw [show getBoxType box = .ok (some (0, 1)) from hone]
  exact if_pos hnumber

theorem numericBoxSimplification_wide {inside : M Box} {m n : ℕ} (ht : HasBoxType box m n)
    (hwide : ¬ HasBoxType box 0 1) :
    numericBoxSimplification libm before fuel inside box = inside := by
  unfold numericBoxSimplification
  split
  · next heq => exact absurd heq hwide
  · rfl
  · next hnone =>
    exact absurd ht (hnone _)

theorem numericBoxSimplification_signal {inside : M Box} (hone : HasBoxType box 0 1)
    (hnumber : isNumber box = false) :
    numericBoxSimplification libm before fuel inside box =
      simplifiedSignal libm before fuel box >>= fun s => numberOr inside s.label := by
  unfold numericBoxSimplification
  rw [show getBoxType box = .ok (some (0, 1)) from hone, hnumber]
  rfl

/-- A box that is a number is its own result. -/
theorem result_number (h : Inv libm I inputs W s) (hone : HasBoxType box 0 1)
    (hnumber : isNumber box = true) :
    Result libm before fuel I inputs W box s box s := by
  have hnot : ∀ s', ¬ GoesInside libm before fuel box s s' := by
    intro s' hgoes
    cases hgoes with
    | wide _ hnot => exact hnot hone
    | signal _ hfalse =>
      rw [hnumber] at hfalse
      cases hfalse
  refine ⟨?_, h, .refl box, fun _ => .refl box⟩
  intro q hq _
  obtain rfl := eq_of_reached hnot hq
  refine ⟨?_, fun _ hfalse => ?_⟩
  · intro values heq
    cases box <;> cases hnumber
    all_goals cases heq
  · rw [hnumber] at hfalse
    cases hfalse

/-- A number that the signal of a box simplifies to replaces the box. -/
theorem result_signal {s₁ : State} {sig : Tree} {r : Box} (h₁ : Inv libm I inputs W s₁)
    (hone : HasBoxType box 0 1) (hnew : s.simplified box = none) (hnumber : isNumber box = false)
    (hright : W → Right libm before fuel I inputs (box, s))
    (hrun : simplifiedSignal libm before fuel box s = .ok (sig, s₁))
    (hnum : sig.label.isNum = true) (hr : isNumber r = true)
    (hdiagram : ∀ σ path xs ys, Diagram I inputs r σ path xs ys ↔
      xs = [] ∧ ys = [fun _ => I.lit sig.label]) :
    Result libm before fuel I inputs W box s r s₁ := by
  have hnot : ∀ s', ¬ GoesInside libm before fuel box s s' := by
    intro s' hgoes
    cases hgoes with
    | wide _ hnot => exact hnot hone
    | signal _ _ _ hrun' hsig =>
      rw [hrun] at hrun'
      cases hrun'
      rw [hnum] at hsig
      cases hsig
  refine ⟨?_, h₁, keeps_number hone hr, ?_⟩
  · intro q hq _
    obtain rfl := eq_of_reached hnot hq
    refine ⟨?_, fun _ _ => ⟨sig, s₁, hrun⟩⟩
    intro values heq
    rw [show box = .waveform values from heq] at hone
    cases hone
  · intro hW
    exact transparent_number hone (hright hW hnew hnumber hone sig s₁ hrun hnum) hdiagram

/-- What is done inside a box says nothing yet of the box itself. -/
theorem InsideResult.result {r : Box} {s' : State}
    (h : InsideResult libm before fuel I inputs W box s r s')
    (hsignal : HasBoxType box 0 1 → isNumber box = false →
      ∃ sig s', simplifiedSignal libm before fuel box s = .ok (sig, s')) :
    Result libm before fuel I inputs W box s r s' := by
  refine ⟨?_, h.inv, h.keeps, h.transparent⟩
  intro q hq
  rcases h.passes q hq with rfl | hpass
  · exact fun _ => ⟨h.notWaveform, hsignal⟩
  · exact hpass

/-- The simplification of the signal of a box fails, or it is known how it ends. -/
theorem ends_signal (h : Inv libm I inputs W s) (hone : HasBoxType box 0 1)
    (hnew : s.simplified box = none) (hnumber : isNumber box = false) :
    Ends (simplifiedSignal libm before fuel box) s (fun _ => Stops libm before fuel box s)
      fun sig s₁ => simplifiedSignal libm before fuel box s = .ok (sig, s₁) ∧
        Inv libm I inputs W s₁ := by
  apply (ends_simplifiedSignal h hone).run.imp
  · intro e he
    refine ⟨(box, s), .refl, fun hpass => ?_⟩
    obtain ⟨sig, s', hok⟩ := (hpass hnew).2 hone hnumber
    rw [he.1] at hok
    cases hok
  · exact fun _ _ hp => hp

theorem ends_numericBoxSimplification (h : Inv libm I inputs W s) {m n : ℕ}
    (ht : HasBoxType box m n) (hnew : s.simplified box = none)
    (hright : W → Right libm before fuel I inputs (box, s)) {inside : M Box}
    (hinside : ∀ s₁, GoesInside libm before fuel box s s₁ → Inv libm I inputs W s₁ →
      Ends inside s₁ (fun _ => Stops libm before fuel box s)
        (InsideResult libm before fuel I inputs W box s)) :
    Ends (numericBoxSimplification libm before fuel inside box) s
      (fun _ => Stops libm before fuel box s) (Result libm before fuel I inputs W box s) := by
  by_cases hone : HasBoxType box 0 1
  · cases hnumber : isNumber box with
    | true =>
      rw [numericBoxSimplification_number hone hnumber]
      exact Ends.pure (result_number h hone hnumber)
    | false =>
      rw [numericBoxSimplification_signal hone hnumber]
      apply (ends_signal h hone hnew hnumber).bind
      intro sig s₁ hsig
      obtain ⟨hrun, h₁⟩ := hsig
      have hgo : sig.label.isNum = false → Ends inside s₁
          (fun _ => Stops libm before fuel box s) (Result libm before fuel I inputs W box s) := by
        intro hsym
        apply (hinside s₁ (.signal hnew hnumber hone hrun hsym) h₁).mono
        exact fun r s' hr => hr.result fun _ _ => ⟨sig, s₁, hrun⟩
      cases hlabel : sig.label with
      | double x =>
        refine Ends.pure
          (result_signal h₁ hone hnew hnumber hright hrun (by rw [hlabel]; rfl) rfl ?_)
        intro σ path xs ys
        rw [hlabel]
        exact Iff.rfl
      | int i =>
        refine Ends.pure
          (result_signal h₁ hone hnew hnumber hright hrun (by rw [hlabel]; rfl) rfl ?_)
        intro σ path xs ys
        rw [hlabel]
        exact Iff.rfl
      | sym _ => exact hgo (by rw [hlabel]; rfl)
      | pointer _ => exact hgo (by rw [hlabel]; rfl)
  · rw [numericBoxSimplification_wide ht hone]
    apply (hinside s (.wide hnew hone) h).mono
    exact fun r s' hr => hr.result fun htwo => absurd htwo hone

/-- The simplification of a box from what is done inside it. -/
theorem ends_of_inside (h : Inv libm I inputs W s) {m n : ℕ} (ht : HasBoxType box m n)
    (hright : W → Right libm before fuel I inputs (box, s))
    (hinside : ∀ s₁, GoesInside libm before fuel box s s₁ → Inv libm I inputs W s₁ →
      Ends (insideBoxSimplification libm before fuel box) s₁
        (fun _ => Stops libm before fuel box s)
        (InsideResult libm before fuel I inputs W box s)) :
    Ends (boxSimplification libm before fuel box) s (fun _ => Stops libm before fuel box s)
      (Result libm before fuel I inputs W box s) := by
  unfold boxSimplification boxSimplificationWith
  apply Ends.get_eq.bind
  intro _ _ hget
  rw [hget.1, hget.2]
  cases hnew : s.simplified box with
  | some r =>
    have hnot : ∀ s', ¬ GoesInside libm before fuel box s s' := by
      intro s' hgoes
      cases hgoes with
      | wide hnone =>
        rw [hnew] at hnone
        cases hnone
      | signal hnone =>
        rw [hnew] at hnone
        cases hnone
    refine Ends.pure ⟨?_, h, h.keeps box r hnew, fun hW => h.transparent hW box r hnew⟩
    intro q hq hnone
    obtain rfl := eq_of_reached hnot hq
    rw [hnew] at hnone
    cases hnone
  | none =>
    apply (ends_numericBoxSimplification h ht hnew hright hinside).bind
    intro r s' hr
    apply Ends.modify_bind
    exact Ends.pure ⟨hr.passes, hr.inv.setSimplified hr.keeps hr.transparent, hr.keeps,
      hr.transparent⟩

/-! ## All boxes -/

theorem GoesInside.new {s' : State} (h : GoesInside libm before fuel box s s') :
    s.simplified box = none := by
  cases h with
  | wide hnew => exact hnew
  | signal hnew => exact hnew

theorem Stops.of_calls {b : Box} {s' : State}
    (hcall : Calls libm before fuel (box, s) (b, s')) (h : Stops libm before fuel b s') :
    Stops libm before fuel box s := by
  obtain ⟨q, hq, hstop⟩ := h
  exact ⟨q, .head hcall hq, hstop⟩

/-- A box without parts, other than a waveform. -/
theorem insideResult_self {s₁ : State} (h₁ : Inv libm I inputs W s₁)
    (hcalls : ∀ q, ¬ Calls libm before fuel (box, s) q) (hwave : ∀ values, box ≠ .waveform values) :
    InsideResult libm before fuel I inputs W box s box s₁ := by
  refine ⟨hwave, ?_, h₁, .refl box, fun _ => .refl box⟩
  intro q hq
  rcases Relation.ReflTransGen.cases_head hq with heq | ⟨_, hcall, _⟩
  · exact Or.inl heq.symm
  · exact absurd hcall (hcalls _)

variable (libm before fuel I inputs W) in
/-- What is to be proved of every box. -/
def Simplifies (box : Box) : Prop :=
  ∀ {m n : ℕ} {s : State}, Inv libm I inputs W s → HasBoxType box m n →
    (W → ∀ q, Reached libm before fuel (box, s) q → Right libm before fuel I inputs q) →
    Ends (boxSimplification libm before fuel box) s (fun _ => Stops libm before fuel box s)
      (Result libm before fuel I inputs W box s)

/-- Boxes without parts. -/
theorem simplifies_self (hcalls : ∀ s q, ¬ Calls libm before fuel (box, s) q)
    (hwave : ∀ values, box ≠ .waveform values)
    (hrun : insideBoxSimplification libm before fuel box = pure box) :
    Simplifies libm before fuel I inputs W box := by
  intro m n s h ht hright
  apply ends_of_inside h ht fun hW => hright hW _ .refl
  intro s₁ _ h₁
  rw [hrun]
  exact Ends.pure (insideResult_self h₁ (hcalls s) hwave)

theorem simplifies_waveform (values : List Node) :
    Simplifies libm before fuel I inputs W (.waveform values) := by
  intro m n s h ht hright
  apply ends_of_inside h ht fun hW => hright hW _ .refl
  intro s₁ hgoes _
  exact Ends.throw ⟨_, .refl, fun hpass => (hpass hgoes.new).1 values rfl⟩

theorem simplifies_group {kind : GroupKind} {label : String} {b : Box}
    (ih : Simplifies libm before fuel I inputs W b) :
    Simplifies libm before fuel I inputs W (.group kind label b) := by
  intro m n s h ht hright
  apply ends_of_inside h ht fun hW => hright hW _ .refl
  intro s₁ hgoes h₁
  have hcall := Calls.group hgoes
  show Ends (boxSimplification libm before fuel b >>= fun r => pure (Box.group kind label r)) s₁ _ _
  apply ((ih h₁ ht.group_inv fun hW q hq => hright hW q (.head hcall hq)).imp
    (fun _ hstop => hstop.of_calls hcall) fun _ _ hr => hr).bind
  intro r s₂ hr
  refine Ends.pure ⟨nofun, ?_, hr.inv, hr.keeps.group, fun hW => (hr.transparent hW).group⟩
  intro q hq
  rcases Relation.ReflTransGen.cases_head hq with heq | ⟨_, hcall', hq'⟩
  · exact Or.inl heq.symm
  · cases hcall' with
    | group hgoes' =>
      rw [← hgoes.unique hgoes'] at hq'
      exact Or.inr (hr.passes q hq')
    | @first c => cases c <;> contradiction
    | @second c => cases c <;> contradiction

theorem simplifies_symbolic {slot : ℤ} {b : Box}
    (ih : Simplifies libm before fuel I inputs W b) :
    Simplifies libm before fuel I inputs W (.symbolic slot b) := by
  intro m n s h ht hright
  apply ends_of_inside h ht fun hW => hright hW _ .refl
  intro s₁ hgoes h₁
  obtain ⟨u, _, hb⟩ := ht.symbolic_inv
  have hcall := Calls.symbolic hgoes
  show Ends (boxSimplification libm before fuel b >>= fun r => pure (Box.symbolic slot r)) s₁ _ _
  apply ((ih h₁ hb fun hW q hq => hright hW q (.head hcall hq)).imp
    (fun _ hstop => hstop.of_calls hcall) fun _ _ hr => hr).bind
  intro r s₂ hr
  refine Ends.pure ⟨nofun, ?_, hr.inv, hr.keeps.symbolic, fun hW => (hr.transparent hW).symbolic⟩
  intro q hq
  rcases Relation.ReflTransGen.cases_head hq with heq | ⟨_, hcall', hq'⟩
  · exact Or.inl heq.symm
  · cases hcall' with
    | symbolic hgoes' =>
      rw [← hgoes.unique hgoes'] at hq'
      exact Or.inr (hr.passes q hq')
    | @first c => cases c <;> contradiction
    | @second c => cases c <;> contradiction

theorem simplifies_composition (c : Composition) {a b : Box}
    (iha : Simplifies libm before fuel I inputs W a)
    (ihb : Simplifies libm before fuel I inputs W b) :
    Simplifies libm before fuel I inputs W (c.box a b) := by
  intro m n s h ht hright
  apply ends_of_inside h ht fun hW => hright hW _ .refl
  intro s₁ hgoes h₁
  obtain ⟨⟨_, _, hta⟩, ⟨_, _, htb⟩⟩ := c.typed ht
  have hfirst := Calls.first rfl hgoes
  have hinside : insideBoxSimplification libm before fuel (c.box a b) =
      boxSimplification libm before fuel a >>= fun r₁ =>
        boxSimplification libm before fuel b >>= fun r₂ => pure (c.box r₁ r₂) := by
    cases c <;> rfl
  rw [hinside]
  apply ((iha h₁ hta fun hW q hq => hright hW q (.head hfirst hq)).run.imp
    (fun _ hstop => hstop.2.of_calls hfirst) fun _ _ hr => hr).bind
  intro r₁ s₂ hr₁
  obtain ⟨hrun, hr₁⟩ := hr₁
  have hsecond : Calls libm before fuel (c.box a b, s) (b, s₂) := .second rfl hgoes hrun
  apply ((ihb hr₁.inv htb fun hW q hq => hright hW q (.head hsecond hq)).imp
    (fun _ hstop => hstop.of_calls hsecond) fun _ _ hr => hr).bind
  intro r₂ s₃ hr₂
  refine Ends.pure ⟨?_, ?_, hr₂.inv, .composition c hr₁.keeps hr₂.keeps,
    fun hW => .composition c (hr₁.transparent hW) (hr₂.transparent hW)⟩
  · intro values heq
    cases c <;> cases heq
  · intro q hq
    rcases Relation.ReflTransGen.cases_head hq with heq | ⟨_, hcall, hq'⟩
    · exact Or.inl heq.symm
    · right
      have hinj : ∀ {c' : Composition} {a' b' : Box}, c'.box a' b' = c.box a b →
          a' = a ∧ b' = b := by
        intro c' a' b' heq
        cases c <;> cases c' <;> cases heq <;> exact ⟨rfl, rfl⟩
      generalize hbox : c.box a b = box at hcall hgoes
      cases hcall with
      | group => cases c <;> cases hbox
      | symbolic => cases c <;> cases hbox
      | first heq hgoes' =>
        obtain ⟨rfl, rfl⟩ := hinj (heq.trans hbox.symm)
        rw [← hgoes.unique hgoes'] at hq'
        exact hr₁.passes q hq'
      | second heq hgoes' hrun' =>
        obtain ⟨rfl, rfl⟩ := hinj (heq.trans hbox.symm)
        rw [← hgoes.unique hgoes', hrun] at hrun'
        cases hrun'
        exact hr₂.passes q hq'

/-- Every box, by induction on it. -/
theorem simplifies (box : Box) : Simplifies libm before fuel I inputs W box := by
  induction box with
  | group kind label b ih => exact simplifies_group ih
  | symbolic slot b ih => exact simplifies_symbolic ih
  | seq a b iha ihb => exact simplifies_composition .seq iha ihb
  | par a b iha ihb => exact simplifies_composition .par iha ihb
  | split a b iha ihb => exact simplifies_composition .split iha ihb
  | merge a b iha ihb => exact simplifies_composition .merge iha ihb
  | recur a b iha ihb => exact simplifies_composition .recur iha ihb
  | waveform values => exact simplifies_waveform values
  | patternVar | environment | other =>
    intro m n s _ ht
    cases ht
  | _ =>
    refine simplifies_self ?_ (fun _ heq => ?_) rfl
    · intro s q hcall
      cases hcall with
      | @first c => cases c <;> contradiction
      | @second c => cases c <;> contradiction
    · cases heq

/-! ## The states that a simplification reaches -/

theorem Inv.of_goesInside (h : Inv libm I inputs W s) {s' : State}
    (hgoes : GoesInside libm before fuel box s s') : Inv libm I inputs W s' := by
  cases hgoes with
  | wide => exact h
  | signal _ _ hone hrun =>
    have hends : Ends (simplifiedSignal libm before fuel box) s _ _ :=
      ends_simplifiedSignal h hone
    unfold Ends at hends
    rw [hrun] at hends
    exact hends

/-- The boxes that are reached have a type, and the results that are kept stay right. -/
theorem reached_inv (h : Inv libm I inputs W s) {m n : ℕ} (ht : HasBoxType box m n)
    (hright : W → ∀ q, Reached libm before fuel (box, s) q → Right libm before fuel I inputs q)
    {q : Box × State} (hq : Reached libm before fuel (box, s) q) :
    Inv libm I inputs W q.2 ∧ ∃ m' n', HasBoxType q.1 m' n' := by
  induction hq with
  | refl => exact ⟨h, m, n, ht⟩
  | @tail q₁ q₂ hq₁ hcall ih =>
    obtain ⟨h₁, m', n', ht₁⟩ := ih
    cases hcall with
    | group hgoes => exact ⟨h₁.of_goesInside hgoes, _, _, ht₁.group_inv⟩
    | symbolic hgoes =>
      obtain ⟨u, _, hb⟩ := ht₁.symbolic_inv
      exact ⟨h₁.of_goesInside hgoes, _, _, hb⟩
    | @first c _ _ _ _ _ hbox hgoes =>
      subst hbox
      exact ⟨h₁.of_goesInside hgoes, (c.typed ht₁).1⟩
    | @second c a _ _ _ _ s₁ s₂ hbox hgoes hrun =>
      subst hbox
      obtain ⟨_, _, hta⟩ := (c.typed ht₁).1
      have hfirst := Calls.first rfl hgoes
      have hends := simplifies a (h₁.of_goesInside hgoes) hta fun hW q hq =>
        hright hW q ((hq₁.tail hfirst).trans hq)
      unfold Ends at hends
      rw [hrun] at hends
      exact ⟨hends.inv, (c.typed ht₁).2⟩

/-! ## What the simplification of a block diagram is for -/

variable (libm before fuel I inputs) in
/-- The simplification of a box gives a box of the same type and of the same meaning. -/
def Kept (q : Box × State) : Prop :=
  ∃ r s', boxSimplification libm before fuel q.1 q.2 = .ok (r, s') ∧
    (∀ m n, HasBoxType q.1 m n → HasBoxType r m n) ∧ Transparent I inputs q.1 r

variable (I inputs) in
/-- Propagating any `m` signals through the box `r` yields signals that denote the same streams as
propagating them through the box. What generates the content of a table must not depend on an
enclosing recursion. -/
def SameSignals (box r : Box) (m : ℕ) : Prop :=
  ∀ path lsig, lsig.length = m → (∀ t ∈ lsig, t.CausalSignal) → ∀ p₁ p₂ : PropState,
    p₁.Reachable libm → p₂.Reachable libm → ∃ l₁ p₁' l₂ p₂',
      propagate libm [] path box lsig p₁ = .ok (l₁, p₁') ∧
      propagate libm [] path r lsig p₂ = .ok (l₂, p₂') ∧
      ((box.TableFree ∨ Propagates libm isClosed [] path box lsig l₁ ∧
          Propagates libm isClosed [] path r lsig l₂) →
        ∀ ρ, l₂.map (I.stream inputs ρ) = l₁.map (I.stream inputs ρ))

/-- The signals of boxes of the same meaning denote the same streams. -/
theorem sameSignals_of_transparent {r : Box} {m n : ℕ} (ht : HasBoxType box m n)
    (hb : box.SlotsBound []) (hkeeps : Keeps box r) (htrans : Transparent I inputs box r) :
    SameSignals I inputs box r m := by
  intro path lsig hlen hl p₁ p₂ hp₁ hp₂
  have hr : HasBoxType r m n := hkeeps.type m n ht
  obtain ⟨l₁, p₁', hrun₁, ⟨h₁, _⟩, _⟩ :=
    BoxSound.propagateWith (realPropagate_sound box) [] path lsig ht hlen p₁ hp₁.memoSound
  obtain ⟨l₂, p₂', hrun₂, ⟨h₂, _⟩, _⟩ :=
    BoxSound.propagateWith (realPropagate_sound r) [] path lsig hr hlen p₂ hp₂.memoSound
  refine ⟨l₁, p₁', l₂, p₂', hrun₁, hrun₂, ?_⟩
  intro hclosed ρ
  have hmeets : Meets I inputs [] path box lsig l₁ ∧ Meets I inputs [] path r lsig l₂ := by
    rcases hclosed with hfree | ⟨hc₁, hc₂⟩
    · exact ⟨(h₁.of_tableFree hfree).meets ht hlen hb (by simp) hl,
        (h₂.of_tableFree (hkeeps.tables hfree)).meets hr hlen (hkeeps.slots _ hb) (by simp) hl⟩
    · exact ⟨hc₁.meets ht hlen hb (by simp) hl,
        hc₂.meets hr hlen (hkeeps.slots _ hb) (by simp) hl⟩
  -- both are the streams of the one diagram
  have hbox := (hmeets.2.diagram ρ (l₂.map (I.stream inputs ρ))).2 rfl
  rw [htrans] at hbox
  exact (hmeets.1.diagram ρ _).1 hbox

theorem inv_start (hs : s.propagation.Reachable libm) (hnew : ∀ b, s.simplified b = none) :
    Inv libm I inputs W s where
  memo := hs.memoSound
  keeps := by
    intro b r hb
    rw [hnew] at hb
    cases hb
  transparent := by
    intro _ b r hb
    rw [hnew] at hb
    cases hb

/-- A number that the signal of a box simplifies to is the result. -/
theorem boxSimplification_signal {sig : Tree} {s₁ : State} (hone : HasBoxType box 0 1)
    (hnew : s.simplified box = none) (hnumber : isNumber box = false)
    (hrun : simplifiedSignal libm before fuel box s = .ok (sig, s₁)) {r : Box} {s' : State}
    (h : boxSimplification libm before fuel box s = .ok (r, s')) :
    (∀ x, sig.label = .double x → r = .real x) ∧ ∀ i, sig.label = .int i → r = .int i := by
  have hends : Ends (boxSimplification libm before fuel box) s (fun _ => True) fun r _ =>
      (∀ x, sig.label = .double x → r = .real x) ∧ ∀ i, sig.label = .int i → r = .int i := by
    unfold boxSimplification boxSimplificationWith
    apply Ends.get_eq.bind
    intro _ _ hget
    rw [hget.1, hget.2, hnew]
    show Ends (numericBoxSimplification libm before fuel _ box >>= fun r =>
      modify (·.setSimplified box r) >>= fun _ => pure r) s _ _
    rw [numericBoxSimplification_signal hone hnumber]
    have hsignal : Ends (simplifiedSignal libm before fuel box) s (fun _ => True) fun sig' _ =>
        sig' = sig := by
      unfold Ends
      rw [hrun]
    have hnumberOr : Ends (simplifiedSignal libm before fuel box >>= fun s =>
        numberOr (insideBoxSimplification libm before fuel box) s.label) s (fun _ => True)
        fun r _ => (∀ x, sig.label = .double x → r = .real x) ∧
          ∀ i, sig.label = .int i → r = .int i := by
      apply hsignal.bind
      intro sig' s₂ heq
      rw [heq]
      cases hlabel : sig.label with
      | double x => exact Ends.pure ⟨fun y hy => by cases hy; rfl, nofun⟩
      | int i => exact Ends.pure ⟨nofun, fun j hj => by cases hj; rfl⟩
      | sym _ =>
        unfold Ends
        split
        · exact ⟨nofun, nofun⟩
        · trivial
      | pointer _ =>
        unfold Ends
        split
        · exact ⟨nofun, nofun⟩
        · trivial
    apply hnumberOr.bind
    intro r' s₂ hr'
    apply Ends.modify_bind
    exact Ends.pure hr'
  unfold Ends at hends
  rw [h] at hends
  exact hends

variable (I inputs) in
/-- From a state that propagations reach and in which no result is kept, a simplification succeeds
exactly when it stops at none of the boxes that it reaches. -/
theorem boxSimplification_total_iff {m n : ℕ} (ht : getBoxType box = .ok (some (m, n)))
    (h : Inv libm I inputs False s) :
    (∃ r s', boxSimplification libm before fuel box s = .ok (r, s')) ↔
      ∀ q, Reached libm before fuel (box, s) q → Passes libm before fuel q := by
  rcases (simplifies box h ht (fun hfalse => hfalse.elim)).cases with
    ⟨r, s', hrun, hr⟩ | ⟨e, hrun, q, hq, hstop⟩
  · exact ⟨fun _ => hr.passes, fun _ => ⟨r, s', hrun⟩⟩
  · constructor
    · intro hok
      obtain ⟨r, s', hok⟩ := hok
      rw [hrun] at hok
      cases hok
    · intro hpass
      exact absurd (hpass q hq) hstop

/-- A box that is simplified to a box of the same meaning is the number that replaces it. -/
theorem Kept.right {q : Box × State} (h : Kept libm before fuel I inputs q) :
    Right libm before fuel I inputs q := by
  intro hnew hnumber hone sig s₁ hrun hnum σ path ys
  obtain ⟨r, s', hr, _, htrans⟩ := h
  obtain ⟨hdouble, hint⟩ := boxSimplification_signal hone hnew hnumber hrun hr
  rw [← htrans σ path [] ys]
  cases hlabel : sig.label with
  | double x =>
    rw [hdouble x hlabel]
    exact ⟨fun hd => hd.2, fun hys => ⟨rfl, hys⟩⟩
  | int i =>
    rw [hint i hlabel]
    exact ⟨fun hd => hd.2, fun hys => ⟨rfl, hys⟩⟩
  | sym _ =>
    rw [hlabel] at hnum
    cases hnum
  | pointer _ =>
    rw [hlabel] at hnum
    cases hnum

/-- Every box that a simplification reaches is simplified without an error to a box of the same type
and of the same meaning, exactly when no waveform is reached, every signal that is computed on the
way can be simplified, and every box whose signal simplifies to a number is this number. The signals
of the result then denote the same streams. -/
theorem boxSimplification_iff {m n : ℕ} (ht : getBoxType box = .ok (some (m, n)))
    (hb : box.SlotsBound []) (hs : s.propagation.Reachable libm)
    (hnew : ∀ b, s.simplified b = none) :
    ((∀ q, Reached libm before fuel (box, s) q → Kept libm before fuel I inputs q) ↔
        ∀ q, Reached libm before fuel (box, s) q →
          Passes libm before fuel q ∧ Right libm before fuel I inputs q) ∧
      ((∀ q, Reached libm before fuel (box, s) q →
          Passes libm before fuel q ∧ Right libm before fuel I inputs q) →
        ∃ r s', boxSimplification libm before fuel box s = .ok (r, s') ∧
          getBoxType r = .ok (some (m, n)) ∧ SameSignals I inputs box r m) := by
  have hresult : ∀ q, Reached libm before fuel (box, s) q →
      (∀ q, Reached libm before fuel (box, s) q →
        Passes libm before fuel q ∧ Right libm before fuel I inputs q) →
      ∃ r s', boxSimplification libm before fuel q.1 q.2 = .ok (r, s') ∧ Keeps q.1 r ∧
        Transparent I inputs q.1 r := by
    intro q hq hall
    obtain ⟨hinv, m', n', ht'⟩ := reached_inv (W := True) (inv_start hs hnew) ht
      (fun _ q hq => (hall q hq).2) hq
    rcases (simplifies q.1 hinv ht' fun _ q' hq' => (hall q' (hq.trans hq')).2).cases with
      ⟨r, s', hrun, hr⟩ | ⟨e, _, q', hq', hstop⟩
    · exact ⟨r, s', hrun, hr.keeps, hr.transparent trivial⟩
    · exact absurd (hall q' (hq.trans hq')).1 hstop
  refine ⟨⟨?_, ?_⟩, ?_⟩
  · intro hkept q hq
    have hinv : Inv libm I inputs False s := inv_start hs hnew
    obtain ⟨r, s', hrun, _⟩ := hkept (box, s) .refl
    have hpass := (boxSimplification_total_iff I inputs ht hinv).1 ⟨r, s', hrun⟩
    exact ⟨hpass q hq, (hkept q hq).right⟩
  · intro hall q hq
    obtain ⟨r, s', hrun, hkeeps, htrans⟩ := hresult q hq hall
    exact ⟨r, s', hrun, hkeeps.type, htrans⟩
  · intro hall
    obtain ⟨r, s', hrun, hkeeps, htrans⟩ := hresult (box, s) .refl hall
    exact ⟨r, s', hrun, hkeeps.type m n ht, sameSignals_of_transparent ht hb hkeeps htrans⟩

end

/-- A state in which nothing is kept. -/
def start : State where
  propagation := ⟨fun _ => none, 0⟩
  signals := ⟨fun _ => none, fun _ => none⟩
  simplified := fun _ => none

/-- A waveform has a type and signals, but its simplification is an error. -/
theorem boxSimplification_waveform :
    getBoxType (.waveform [.int 1, .int 2]) = .ok (some (0, 2)) ∧
      (∃ r s', propagate Libm.rounding [] [] (.waveform [.int 1, .int 2]) [] start.propagation =
        .ok (r, s')) ∧
      ∀ fuel, boxSimplification Libm.rounding (fun _ _ => false) fuel
        (.waveform [.int 1, .int 2]) start = .error .unrecognized :=
  ⟨rfl, ⟨_, _, rfl⟩, fun _ => rfl⟩

end BoxSimplification

end Faust
