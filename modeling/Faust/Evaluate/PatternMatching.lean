import Faust.Evaluate.Eval
import Faust.Evaluate.PatternMatcherTheorems

/-!
# Matching with the automaton of some rules

Every rule that is still active when the arguments have been read matches them, and the variables
that were recorded for it are those of its patterns. When no automaton that is merged loses a
transition, the active rules are all the rules that match.
-/

namespace Faust.PatternMatcher

open Eval Residuals Faust.Tree

variable {before : TransKind → TransKind → Bool}

/-! ## What a pattern matches -/

/-- The variables of a pattern that matches a term, with the paths of their values. A variable
matches again whatever its value was before. -/
def Pattern.matched : Pattern → List ℕ → Tree → Option (List (Tree × List ℕ))
  | .var id, p, _ => some [(id, p)]
  | .op n x0 x1, p, X =>
    match isBoxPatternOp X with
    | some (n1, X0, X1) =>
      if n = n1 then
        (x0.matched (p ++ [0]) X0).bind fun b0 => (x1.matched (p ++ [1]) X1).map (b0 ++ ·)
      else none
    | none => none
  | .cst x, _, X => if X = x then some [] else none

/-- The variables of the patterns of a rule that match the arguments read so far. -/
def matchedArgs : List Pattern → List Tree → Option (List (List (Tree × List ℕ)))
  | _, [] => some []
  | [], _ :: _ => none
  | x :: xs, X :: Xs => (x.matched [] X).bind fun b => (matchedArgs xs Xs).map (b :: ·)

/-! ## Runs -/

/-- The variables recorded when a state is left, as by `add_subst`. -/
def State.marks (state : State) : Subst :=
  state.rules.filterMap fun r => r.id.map fun id => (r.r, id, r.p)

/-- What `apply_pattern_matcher_internal` comes to on a term: the next state and the variables
recorded. -/
def State.apply (state : State) (X : Tree) : Option (State × Subst) :=
  match _h : isBoxPatternOp X with
  | some (n, x0, x1) =>
    match follow (.op n) state.trans with
    | some state' =>
      (state'.apply x0).bind fun r0 => (r0.1.apply x1).map fun r1 =>
        (r1.1, state.marks ++ r0.2 ++ r1.2)
    | none => (follow .var state.trans).map (·, state.marks)
  | none =>
    match follow (.cst X) state.trans with
    | some state' => some (state', state.marks)
    | none => (follow .var state.trans).map (·, state.marks)
termination_by X.size
decreasing_by
  · exact (size_of_isBoxPatternOp _h).1
  · exact (size_of_isBoxPatternOp _h).2

/-- The symbol that a term begins with. -/
def symbolOf (X : Tree) : TransKind :=
  match isBoxPatternOp X with
  | some (n, _, _) => .op n
  | none => .cst X

lemma symbolOf_of_none {X : Tree} (h : isBoxPatternOp X = none) : symbolOf X = .cst X := by
  rw [symbolOf, h]

lemma symbolOf_of_some {X x0 x1 : Tree} {n : Node} (h : isBoxPatternOp X = some (n, x0, x1)) :
    symbolOf X = .op n := by
  rw [symbolOf, h]

lemma apply_of_cst {state state' : State} {X : Tree} (hX : isBoxPatternOp X = none)
    (h : follow (symbolOf X) state.trans = some state') :
    state.apply X = some (state', state.marks) := by
  rw [symbolOf_of_none hX] at h
  unfold State.apply
  split
  · simp_all
  · simp_all

lemma apply_of_none {state : State} {X : Tree} (h : follow (symbolOf X) state.trans = none) :
    state.apply X = (follow .var state.trans).map (·, state.marks) := by
  unfold State.apply
  split
  · next n x0 x1 hX =>
    rw [symbolOf_of_some hX] at h
    rw [h]
  · next hX =>
    rw [symbolOf_of_none hX] at h
    rw [h]

/-- The arguments are read in turn. -/
def State.applyArgs (state : State) : List Tree → Option (State × List Subst)
  | [] => some (state, [])
  | X :: Xs => (state.apply X).bind fun r => (r.1.applyArgs Xs).map fun rs => (rs.1, r.2 :: rs.2)

/-- The variables recorded for a rule. -/
def entries (r : ℕ) (subst : Subst) : List (Tree × List ℕ) :=
  (subst.filter (·.1 = r)).map (·.2)

/-! ## What is left after a term -/

/-- The variables of an item that matches a term. -/
def Item.matched : Item → Tree → Option (List (Tree × List ℕ))
  | .any, _ => some []
  | .pat x p, X => x.matched p X

/-- What is left of a list of items after a term. -/
def consume (X : Tree) : List Item → Option (List Item)
  | [] => none
  | it :: l => (it.matched X).map fun _ => l

/-- What is left of the rules after a term. -/
def rest (ρ : Residual) (X : Tree) : Residual := fun r => (ρ r).bind (consume X)

/-- The constants of a pattern are not composite terms. -/
def Pattern.Proper : Pattern → Prop
  | .var _ => True
  | .op _ x0 x1 => x0.Proper ∧ x1.Proper
  | .cst x => isBoxPatternOp x = none

lemma proper_pattern (x : Tree) : (pattern x).Proper := by
  fun_induction pattern x with
  | case1 => trivial
  | case2 x _ n x0 x1 _ ih0 ih1 => exact ⟨ih0, ih1⟩
  | case3 x _ h => exact h

/-- The constants of an item are not composite terms. -/
def Item.Proper : Item → Prop
  | .any => True
  | .pat x _ => x.Proper

/-- The constants of what is left are not composite terms. -/
def Proper (ρ : Residual) : Prop := ∀ r l, ρ r = some l → ∀ it ∈ l, it.Proper

lemma Item.proper_after {it : Item} (h : it.Proper) {k : TransKind} {l : List Item}
    (hk : it.after k = some l) : ∀ it' ∈ l, it'.Proper := by
  have hany : ∀ it' ∈ List.replicate (arity k) Item.any, it'.Proper := by
    intro it' hit'
    rw [List.eq_of_mem_replicate hit']
    trivial
  cases it with
  | any =>
    cases hk
    exact hany
  | pat x p =>
    cases x with
    | var id =>
      cases hk
      exact hany
    | op n x0 x1 =>
      rw [Item.after] at hk
      split_ifs at hk
      cases hk
      simp only [List.mem_cons, List.not_mem_nil, or_false, forall_eq_or_imp, forall_eq]
      exact h
    | cst x =>
      rw [Item.after] at hk
      split_ifs at hk
      cases hk
      simp

lemma Proper.deriv {ρ : Residual} (h : Proper ρ) (k : TransKind) :
    Proper (PatternMatcher.deriv ρ k) := by
  intro r l' hl' it' hit'
  obtain ⟨it, l, l0, hl, hl0, rfl⟩ := deriv_eq_some hl'
  have hproper := h r _ hl
  rcases List.mem_append.mp hit' with hit' | hit'
  · exact Item.proper_after (hproper it List.mem_cons_self) hl0 it' hit'
  · exact hproper it' (List.mem_cons_of_mem _ hit')

lemma rest_eq_some {ρ : Residual} {X : Tree} {r : ℕ} {l : List Item} (h : rest ρ X r = some l) :
    ∃ it b, ρ r = some (it :: l) ∧ it.matched X = some b := by
  obtain ⟨l1, hl1, h⟩ := Option.bind_eq_some_iff.mp h
  cases l1 with
  | nil => cases h
  | cons it l1 =>
    obtain ⟨b, hb, rfl⟩ := Option.map_eq_some_iff.mp h
    exact ⟨it, b, hl1, hb⟩

lemma rest_of_cons {ρ : Residual} {r : ℕ} {it : Item} {l : List Item} (h : ρ r = some (it :: l))
    (X : Tree) : rest ρ X r = (it.matched X).map fun _ => l := by
  rw [rest, h]
  rfl

lemma Proper.rest {ρ : Residual} (h : Proper ρ) (X : Tree) : Proper (PatternMatcher.rest ρ X) := by
  intro r l hl it hit
  obtain ⟨it', b, hl', -⟩ := rest_eq_some hl
  exact h r _ hl' it (List.mem_cons_of_mem _ hit)

/-- A term that is not composite is read as a constant. -/
lemma deriv_cst {ρ : Residual} {X : Tree} (hX : isBoxPatternOp X = none) :
    deriv ρ (.cst X) = rest ρ X := by
  funext r
  cases hl : ρ r with
  | none => rw [deriv, rest, hl]; rfl
  | some l =>
    cases l with
    | nil => rw [deriv, rest, hl]; rfl
    | cons it l =>
      rw [deriv_of_cons hl, rest_of_cons hl]
      cases it with
      | any => rfl
      | pat x p =>
        cases x with
        | var id => rfl
        | op n x0 x1 =>
          rw [Item.after, Item.matched, Pattern.matched, hX]
          rfl
        | cst x =>
          rw [Item.after, Item.matched, Pattern.matched]
          by_cases h : X = x
          · rw [if_pos h, if_pos (congrArg TransKind.cst h)]
            rfl
          · rw [if_neg h, if_neg fun hx => h (TransKind.cst.inj hx)]
            rfl

lemma rest_of_none {ρ : Residual} {r : ℕ} (h : ρ r = none) (X : Tree) : rest ρ X r = none := by
  rw [rest, h]
  rfl

lemma rest_rest_of_cons {ρ : Residual} {r : ℕ} {it0 it1 : Item} {l : List Item}
    (h : ρ r = some (it0 :: it1 :: l)) (x0 x1 : Tree) :
    rest (rest ρ x0) x1 r
      = (it0.matched x0).bind fun _ => (it1.matched x1).map fun _ => l := by
  have h0 := rest_of_cons h x0
  cases hm : it0.matched x0 with
  | none =>
    rw [hm] at h0
    exact rest_of_none h0 x1
  | some b =>
    rw [hm] at h0
    exact rest_of_cons h0 x1

/-- A composite term is read as its operator, and then the two subterms. -/
lemma deriv_op {ρ : Residual} (hρ : Proper ρ) {X x0 x1 : Tree} {n : Node}
    (hX : isBoxPatternOp X = some (n, x0, x1)) :
    rest (rest (deriv ρ (.op n)) x0) x1 = rest ρ X := by
  funext r
  cases hl : ρ r with
  | none =>
    rw [rest_of_none hl]
    exact rest_of_none (rest_of_none (by rw [deriv, hl]; rfl) x0) x1
  | some l =>
    cases l with
    | nil =>
      have hnil : rest ρ X r = none := by
        rw [rest, hl]
        rfl
      rw [hnil]
      exact rest_of_none (rest_of_none (by rw [deriv, hl]; rfl) x0) x1
    | cons it l =>
      have hproper := hρ r _ hl it List.mem_cons_self
      have hderiv := deriv_of_cons hl (.op n)
      rw [rest_of_cons hl]
      cases it with
      | any => exact rest_rest_of_cons hderiv x0 x1
      | pat x p =>
        cases x with
        | var id => exact rest_rest_of_cons hderiv x0 x1
        | op n1 y0 y1 =>
          rw [Item.matched, Pattern.matched, hX]
          by_cases hn : n1 = n
          · subst hn
            rw [Item.after, if_pos rfl] at hderiv
            rw [rest_rest_of_cons hderiv, Item.matched, Item.matched]
            show _ = Option.map (fun _ => l) (if n1 = n1 then _ else none)
            rw [if_pos rfl, Option.map_bind]
            congr 1
            funext b0
            rw [Function.comp_apply, Option.map_map]
            rfl
          · rw [Item.after, if_neg fun h => hn (TransKind.op.inj h).symm] at hderiv
            show _ = Option.map (fun _ => l) (if n1 = n then _ else none)
            rw [if_neg hn]
            exact rest_of_none (rest_of_none hderiv x0) x1
        | cst x =>
          -- the constant is not composite
          have hx : X ≠ x := by
            intro hx
            rw [hx, show isBoxPatternOp x = none from hproper] at hX
            cases hX
          rw [Item.matched, Pattern.matched, if_neg hx]
          exact rest_of_none (rest_of_none hderiv x0) x1

/-! ## What is recorded -/

/-- What a marker records. -/
def recorded (m : Rule) : Option (ℕ × Tree × List ℕ) := m.id.map fun id => (m.r, id, m.p)

/-- The variable that is matched first. -/
def headVar : List Item → List (Tree × List ℕ)
  | .pat (.var id) p :: _ => [(id, p)]
  | _ => []

@[simp] lemma entries_append (r : ℕ) (subst subst' : Subst) :
    entries r (subst ++ subst') = entries r subst ++ entries r subst' := by
  simp [entries]

lemma entries_recorded_of_ne {r : ℕ} {rules : List Rule} (h : ∀ m ∈ rules, m.r ≠ r) :
    entries r (rules.filterMap recorded) = [] := by
  rw [entries, List.map_eq_nil_iff, List.filter_eq_nil_iff]
  intro a ha
  obtain ⟨m, hm, hrec⟩ := List.mem_filterMap.mp ha
  obtain ⟨id, -, rfl⟩ := Option.map_eq_some_iff.mp hrec
  simpa using h m hm

lemma entries_recorded_cons (r : ℕ) (m : Rule) (rules : List Rule) :
    entries r ((m :: rules).filterMap recorded)
      = entries r ([m].filterMap recorded) ++ entries r (rules.filterMap recorded) := by
  rw [← entries_append, ← List.filterMap_append]
  rfl

/-- In a list of markers of different rules, a rule has one marker. -/
lemma entries_recorded {rules : List Rule} (hsorted : rules.Pairwise (·.r < ·.r)) {m : Rule}
    (hm : m ∈ rules) :
    entries m.r (rules.filterMap recorded) = entries m.r ([m].filterMap recorded) := by
  induction rules with
  | nil => cases hm
  | cons m1 rules ih =>
    rw [entries_recorded_cons]
    rcases List.mem_cons.mp hm with rfl | hm
    · rw [entries_recorded_of_ne fun m' hm' => (List.rel_of_pairwise_cons hsorted hm').ne',
        List.append_nil]
    · have hlt := List.rel_of_pairwise_cons hsorted hm
      rw [ih hsorted.of_cons hm, entries_recorded_of_ne (by simpa using hlt.ne), List.nil_append]

lemma entries_marker (r : ℕ) (l : List Item) :
    entries r ([marker r l].filterMap recorded) = headVar l := by
  unfold marker headVar
  split
  · simp [recorded, entries]
  · simp [recorded, entries]

lemma entries_marks {S : Set ℕ} {state : State} {ρ : Residual} (h : SoundAt before S state ρ)
    {r : ℕ} (hr : state.Active r) {l : List Item} (hl : ρ r = some l) :
    entries r state.marks = headVar l := by
  obtain ⟨m, hm, rfl⟩ := hr
  obtain ⟨-, l', hl', hmark⟩ := h.marked m hm
  rw [hl] at hl'
  cases hl'
  calc entries m.r state.marks = entries m.r ([m].filterMap recorded) :=
        entries_recorded h.sorted hm
    _ = entries m.r ([marker m.r l].filterMap recorded) := by rw [← hmark]
    _ = headVar l := entries_marker m.r l

/-! ## Sound runs -/

lemma Item.matched_of_var {it : Item} (h : it.kind = .var) (X : Tree) (l : List Item) :
    it.matched X = some (headVar (it :: l)) := by
  cases it with
  | any => rfl
  | pat x p => cases x <;> first | rfl | cases h

lemma Item.matched_of_cst {it : Item} {X : Tree} (hX : isBoxPatternOp X = none)
    {b : List (Tree × List ℕ)} (h : it.matched X = some b) (l : List Item) :
    b = headVar (it :: l) := by
  cases it with
  | any =>
    cases h
    rfl
  | pat x p =>
    cases x with
    | var id =>
      cases h
      rfl
    | op n x0 x1 =>
      rw [Item.matched, Pattern.matched, hX] at h
      cases h
    | cst x =>
      rw [Item.matched, Pattern.matched] at h
      split_ifs at h
      cases h
      rfl

lemma Item.after_op {it : Item} {n : Node} {l : List Item} (h : it.after (.op n) = some l) :
    ∃ it0 it1, l = [it0, it1] := by
  cases it with
  | any =>
    cases h
    exact ⟨.any, .any, rfl⟩
  | pat x p =>
    cases x with
    | var id =>
      cases h
      exact ⟨.any, .any, rfl⟩
    | op n x0 x1 =>
      rw [Item.after] at h
      split_ifs at h
      cases h
      exact ⟨_, _, rfl⟩
    | cst x =>
      rw [Item.after, if_neg (by simp)] at h
      cases h

/-- What matches the subterms of a composite term, behind the operator, matches the term. -/
lemma Item.matched_op {it it0 it1 : Item} {n : Node} (h : it.after (.op n) = some [it0, it1])
    {X x0 x1 : Tree} (hX : isBoxPatternOp X = some (n, x0, x1)) {b0 b1 : List (Tree × List ℕ)}
    (h0 : it0.matched x0 = some b0) (h1 : it1.matched x1 = some b1) (l : List Item) :
    it.matched X = some (headVar (it :: l) ++ b0 ++ b1) := by
  cases it with
  | any =>
    cases h
    cases h0
    cases h1
    rfl
  | pat x p =>
    cases x with
    | var id =>
      cases h
      cases h0
      cases h1
      rfl
    | op n1 y0 y1 =>
      rw [Item.after] at h
      split_ifs at h with hn
      cases hn
      cases h
      rw [Item.matched] at h0 h1
      rw [Item.matched, Pattern.matched, hX]
      show (if n = n then _ else none) = some ([] ++ b0 ++ b1)
      rw [if_pos rfl, h0, Option.bind_some, h1]
      rfl
    | cst x =>
      rw [Item.after, if_neg (by simp)] at h
      cases h

lemma SoundAt.residual {S : Set ℕ} {state : State} {ρ : Residual} (h : SoundAt before S state ρ)
    {r : ℕ} (hr : state.Active r) : r ∈ S ∧ ∃ l, ρ r = some l := by
  obtain ⟨m, hm, rfl⟩ := hr
  obtain ⟨hS, l, hl, -⟩ := h.marked m hm
  exact ⟨hS, l, hl⟩

/-- What is known of a state that a term leads to, and of what is recorded on the way. -/
structure Leads (before : TransKind → TransKind → Bool) (S : Set ℕ) (state : State) (ρ : Residual)
    (X : Tree) (state' : State) (subst : Subst) : Prop where
  sound : Sound before S state' (rest ρ X)
  active : ∀ r, state'.Active r → state.Active r
  entries : ∀ r it l, state'.Active r → ρ r = some (it :: l) →
    it.matched X = some (entries r subst)

/-- The transition on variables. -/
lemma leads_var {S : Set ℕ} {state state' : State} {ρ : Residual} (h : Sound before S state ρ)
    (hvar : follow .var state.trans = some state') (X : Tree) :
    Leads before S state ρ X state' state.marks where
  sound := by
    apply Sound.mono_residual _ (h.next hvar)
    intro r l hl
    obtain ⟨it, hl, hit⟩ := deriv_var_eq_some hl
    rw [rest_of_cons hl, Item.matched_of_var hit X l]
    rfl
  active := h.here.nested .var state' hvar
  entries r it l hr hl := by
    obtain ⟨-, l', hl'⟩ := (h.next hvar).here.residual hr
    obtain ⟨it', hit', hkind⟩ := deriv_var_eq_some hl'
    rw [hl] at hit'
    cases hit'
    rw [entries_marks h.here (h.here.nested .var state' hvar r hr) hl]
    exact Item.matched_of_var hkind X l

/-- The transition on a constant. -/
lemma leads_cst {S : Set ℕ} {state state' : State} {ρ : Residual} (h : Sound before S state ρ)
    {X : Tree} (hX : isBoxPatternOp X = none) (hcst : follow (.cst X) state.trans = some state') :
    Leads before S state ρ X state' state.marks where
  sound := deriv_cst hX ▸ h.next hcst
  active := h.here.nested _ state' hcst
  entries r it l hr hl := by
    have hsound : Sound before S state' (rest ρ X) := deriv_cst hX ▸ h.next hcst
    obtain ⟨-, l', hl'⟩ := hsound.here.residual hr
    obtain ⟨it', b, hit', hb⟩ := rest_eq_some hl'
    rw [hl] at hit'
    cases hit'
    rw [entries_marks h.here (h.here.nested _ state' hcst r hr) hl, hb,
      Item.matched_of_cst hX hb l]

/-- The transition on an operator, and the runs over the subterms. -/
lemma leads_op {S : Set ℕ} {state state1 state2 state3 : State} {ρ : Residual} (hρ : Proper ρ)
    (h : Sound before S state ρ) {X x0 x1 : Tree} {n : Node}
    (hX : isBoxPatternOp X = some (n, x0, x1)) (hop : follow (.op n) state.trans = some state1)
    {subst0 subst1 : Subst} (h0 : Leads before S state1 (deriv ρ (.op n)) x0 state2 subst0)
    (h1 : Leads before S state2 (rest (deriv ρ (.op n)) x0) x1 state3 subst1) :
    Leads before S state ρ X state3 (state.marks ++ subst0 ++ subst1) where
  sound := deriv_op hρ hX ▸ h1.sound
  active r hr := h.here.nested _ state1 hop r (h0.active r (h1.active r hr))
  entries r it l hr hl := by
    have hr2 := h1.active r hr
    have hr1 := h0.active r hr2
    obtain ⟨-, l', hl'⟩ := (h.next hop).here.residual hr1
    obtain ⟨it', l1, l0, hl1, hl0, rfl⟩ := deriv_eq_some hl'
    rw [hl] at hl1
    cases hl1
    obtain ⟨it0, it1, rfl⟩ := Item.after_op hl0
    have hb0 := h0.entries r it0 (it1 :: l) hr2 hl'
    have hrest := rest_of_cons hl' x0
    rw [hb0] at hrest
    have hb1 := h1.entries r it1 l hr hrest
    rw [entries_append, entries_append, entries_marks h.here (h.here.nested _ _ hop r hr1) hl]
    exact Item.matched_op hl0 hX hb0 hb1 l

/-- A run from a sound state ends in a sound state. -/
theorem leads_apply {S : Set ℕ} {state state' : State} {ρ : Residual} (hρ : Proper ρ)
    (h : Sound before S state ρ) {X : Tree} {subst : Subst}
    (hX : state.apply X = some (state', subst)) : Leads before S state ρ X state' subst := by
  fun_induction State.apply state X generalizing ρ state' subst with
  | case1 state X n x0 x1 hop state1 hfollow ih0 ih1 =>
    obtain ⟨r0, hr0, hmap⟩ := Option.bind_eq_some_iff.mp hX
    obtain ⟨r1, hr1, hr⟩ := Option.map_eq_some_iff.mp hmap
    cases hr
    have h0 := ih0 (hρ.deriv _) (h.next hfollow) hr0
    exact leads_op hρ h hop hfollow h0 (ih1 r0 ((hρ.deriv _).rest x0) h0.sound hr1)
  | case2 state X n x0 x1 hop hnone =>
    obtain ⟨v, hv, hr⟩ := Option.map_eq_some_iff.mp hX
    cases hr
    exact leads_var h hv X
  | case3 state X hop state1 hfollow =>
    cases hX
    exact leads_cst h hop hfollow
  | case4 state X hop hnone =>
    obtain ⟨v, hv, hr⟩ := Option.map_eq_some_iff.mp hX
    cases hr
    exact leads_var h hv X

/-! ## Exact runs -/

section
variable {S : Set ℕ} {state : State} {ρ : Residual}

lemma ExactAt.rest_cst (h : ExactAt S state ρ) {X : Tree} (hX : isBoxPatternOp X = none)
    (hk : follow (.cst X) state.trans = none) {r : ℕ} (hr : r ∈ S) :
    rest ρ X r = deriv ρ .var r := by
  rw [← deriv_cst hX, h.deriv_eq hk hr]
  exact Option.map_id'

lemma ExactAt.rest_op (hρ : Proper ρ) (h : ExactAt S state ρ) {X x0 x1 : Tree} {n : Node}
    (hX : isBoxPatternOp X = some (n, x0, x1)) (hk : follow (.op n) state.trans = none) {r : ℕ}
    (hr : r ∈ S) : rest ρ X r = deriv ρ .var r := by
  rw [← deriv_op hρ hX]
  have hderiv := h.deriv_eq hk hr
  cases hvar : deriv ρ .var r with
  | none =>
    rw [hvar] at hderiv
    exact rest_of_none (rest_of_none hderiv x0) x1
  | some l =>
    rw [hvar] at hderiv
    exact rest_rest_of_cons hderiv x0 x1

/-- What a run from an exact state comes to. -/
def Finds (S : Set ℕ) (ρ : Residual) (X : Tree) : Option (State × Subst) → Prop
  | some r => Exact S r.1 (rest ρ X)
  | none => ∀ r ∈ S, rest ρ X r = none

lemma finds_var (h : Exact S state ρ) {X : Tree}
    (hrest : ∀ r ∈ S, rest ρ X r = deriv ρ .var r) :
    Finds S ρ X ((follow .var state.trans).map (·, state.marks)) := by
  cases hvar : follow .var state.trans with
  | none =>
    intro r hr
    rw [hrest r hr]
    exact h.here.deriv_eq_none hvar hvar hr
  | some v => exact Exact.congr hrest (h.next hvar)

/-- A run from an exact state ends in an exact state, or no rule matches. -/
theorem finds_apply (hρ : Proper ρ) (hs : Sound before S state ρ) (h : Exact S state ρ)
    (X : Tree) : Finds S ρ X (state.apply X) := by
  fun_induction State.apply state X generalizing ρ with
  | case1 state X n x0 x1 hop state1 hfollow ih0 ih1 =>
    have hρ1 := hρ.deriv (.op n)
    have h0 := ih0 hρ1 (hs.next hfollow) (h.next hfollow)
    cases hr0 : state1.apply x0 with
    | none =>
      rw [hr0] at h0
      intro r hr
      rw [← deriv_op hρ hop]
      exact rest_of_none (h0 r hr) x1
    | some r0 =>
      rw [hr0] at h0
      have hs0 := (leads_apply hρ1 (hs.next hfollow) hr0).sound
      have h1 := ih1 r0 (hρ1.rest x0) hs0 h0
      rw [Option.bind_some]
      cases hr1 : r0.1.apply x1 with
      | none =>
        rw [hr1] at h1
        intro r hr
        rw [← deriv_op hρ hop]
        exact h1 r hr
      | some r1 =>
        rw [hr1] at h1
        show Exact S r1.1 (rest ρ X)
        rw [← deriv_op hρ hop]
        exact h1
  | case2 state X n x0 x1 hop hnone =>
    exact finds_var h fun r hr => h.here.rest_op hρ hop hnone hr
  | case3 state X hop state1 hfollow =>
    show Exact S state1 (rest ρ X)
    rw [← deriv_cst hop]
    exact h.next hfollow
  | case4 state X hop hnone => exact finds_var h fun r hr => h.here.rest_cst hop hnone hr

end

/-! ## The automaton of some rules -/

/-- The patterns of the rules, as they are read. -/
def patterns (rules : List (List Tree)) : List (List Pattern) := rules.map (·.map pattern)

lemma residuals_eq_some {rules : List (List Tree)} {r : ℕ} {l : List Item}
    (h : residuals (patterns rules) r = some l) :
    ∃ ps, rules[r]? = some ps ∧ l = (ps.map pattern).map (Item.pat · []) := by
  obtain ⟨xs, hxs, rfl⟩ := Option.map_eq_some_iff.mp h
  rw [patterns, List.getElem?_map] at hxs
  obtain ⟨ps, hps, rfl⟩ := Option.map_eq_some_iff.mp hxs
  exact ⟨ps, hps, rfl⟩

lemma residuals_of_getElem? {rules : List (List Tree)} {r : ℕ} {ps : List Tree}
    (h : rules[r]? = some ps) :
    residuals (patterns rules) r = some ((ps.map pattern).map (Item.pat · [])) := by
  rw [residuals, patterns, List.getElem?_map, h]
  rfl

lemma proper_residuals (rules : List (List Tree)) : Proper (residuals (patterns rules)) := by
  intro r l hl it hit
  obtain ⟨ps, -, rfl⟩ := residuals_eq_some hl
  rw [List.map_map] at hit
  obtain ⟨x, -, rfl⟩ := List.mem_map.mp hit
  exact proper_pattern x

lemma sound_empty (S : Set ℕ) (ρ : Residual) : Sound before S (.mk [] []) ρ := by
  apply Along.of_next
  · refine ⟨List.Pairwise.nil, List.Pairwise.nil, ?_, ?_, ?_⟩
    · intro m hm
      cases hm
    · intro k hk
      cases hk
    · intro k state' hk
      cases hk
  · intro k state' hk
    cases hk

lemma exact_empty (ρ : Residual) : Exact {i | i < 0} (.mk [] []) ρ := by
  apply Along.of_next
  · exact ⟨fun r hr => absurd hr (Nat.not_lt_zero r), fun r hr => absurd hr (Nat.not_lt_zero r)⟩
  · intro k state' hk
    cases hk

/-- The automaton of any rules is sound. -/
theorem sound_automaton (hb : StrictOrder before) (rules : List (List Pattern)) :
    Sound before {i | i < rules.length} (automaton before rules) (residuals rules) := by
  have h : Sound before {i | i < 0 + rules.length} (automaton before rules) (residuals rules) :=
    sound_addRules hb rules (fun i => by rw [Nat.zero_add]) (sound_empty _ _)
  rw [Nat.zero_add] at h
  exact h

/-- The automaton of rules that can be merged is exact. -/
theorem exact_automaton (hb : StrictOrder before) (rules : List (List Pattern))
    (hmerge : ∀ r, Mergeable {i | i < r} {r} (residuals rules)) :
    Exact {i | i < rules.length} (automaton before rules) (residuals rules) := by
  have h : Exact {i | i < 0 + rules.length} (automaton before rules) (residuals rules) :=
    exact_addRules hb rules (fun i => by rw [Nat.zero_add]) (sound_empty _ _) (exact_empty _)
      hmerge
  rw [Nat.zero_add] at h
  exact h

/-! ## Runs over the arguments -/

section
variable {S : Set ℕ} {ρ : Residual}

/-- What is known of a state that some arguments lead to. -/
structure LeadsArgs (before : TransKind → TransKind → Bool) (S : Set ℕ) (state : State)
    (ρ : Residual) (Xs : List Tree) (state' : State) (substs : List Subst) : Prop where
  sound : Sound before S state' (Xs.foldl rest ρ)
  active : ∀ r, state'.Active r → state.Active r
  matched : ∀ r xs, state'.Active r → ρ r = some (xs.map (Item.pat · [])) →
    matchedArgs xs Xs = some (substs.map (PatternMatcher.entries r))

theorem leads_applyArgs {state state' : State} {Xs : List Tree} {substs : List Subst}
    (hρ : Proper ρ) (h : Sound before S state ρ)
    (hX : state.applyArgs Xs = some (state', substs)) :
    LeadsArgs before S state ρ Xs state' substs := by
  induction Xs generalizing state ρ substs with
  | nil =>
    cases hX
    refine ⟨h, fun r hr => hr, ?_⟩
    intro r xs _ _
    cases xs <;> rfl
  | cons X Xs ih =>
    obtain ⟨r0, hr0, hmap⟩ := Option.bind_eq_some_iff.mp hX
    obtain ⟨rs, hrs, hr⟩ := Option.map_eq_some_iff.mp hmap
    cases hr
    have h0 := leads_apply hρ h hr0
    have h1 := ih (hρ.rest X) h0.sound hrs
    refine ⟨h1.sound, fun r hr => h0.active r (h1.active r hr), ?_⟩
    intro r xs hr hl
    obtain ⟨-, l', hl'⟩ := h0.sound.here.residual (h1.active r hr)
    cases xs with
    | nil =>
      obtain ⟨it, b, hnil, -⟩ := rest_eq_some hl'
      rw [hl] at hnil
      cases hnil
    | cons x xs =>
      have hx : x.matched [] X = some (entries r r0.2) :=
        h0.entries r (.pat x []) _ (h1.active r hr) hl
      have hrest : rest ρ X r = some (xs.map (Item.pat · [])) := by
        rw [rest_of_cons hl, Item.matched, hx]
        rfl
      rw [matchedArgs, hx, Option.bind_some, h1.matched r xs hr hrest]
      rfl

lemma foldl_rest_of_none {r : ℕ} (h : ρ r = none) (Xs : List Tree) : Xs.foldl rest ρ r = none := by
  induction Xs generalizing ρ with
  | nil => exact h
  | cons X Xs ih => exact ih (rest_of_none h X)

/-- Something is left of a rule after the arguments when it matches them. -/
lemma isSome_foldl_rest {r : ℕ} {xs : List Pattern} (Xs : List Tree)
    (h : ρ r = some (xs.map (Item.pat · []))) :
    (Xs.foldl rest ρ r).isSome = (matchedArgs xs Xs).isSome := by
  induction Xs generalizing ρ xs with
  | nil =>
    rw [List.foldl_nil, h]
    cases xs <;> rfl
  | cons X Xs ih =>
    rw [List.foldl_cons]
    cases xs with
    | nil =>
      rw [foldl_rest_of_none (by rw [rest, h]; rfl)]
      rfl
    | cons x xs =>
      have hrest := rest_of_cons h X
      rw [matchedArgs]
      cases hx : x.matched [] X with
      | none =>
        rw [Item.matched, hx] at hrest
        rw [foldl_rest_of_none hrest]
        rfl
      | some b =>
        rw [Item.matched, hx] at hrest
        rw [ih hrest, Option.bind_some, Option.isSome_map]

/-- What a run from an exact state comes to. -/
def FindsArgs (S : Set ℕ) (ρ : Residual) (Xs : List Tree) : Option (State × List Subst) → Prop
  | some rs => Exact S rs.1 (Xs.foldl rest ρ)
  | none => ∀ r ∈ S, Xs.foldl rest ρ r = none

theorem finds_applyArgs {state : State} (hρ : Proper ρ) (hs : Sound before S state ρ)
    (h : Exact S state ρ) (Xs : List Tree) : FindsArgs S ρ Xs (state.applyArgs Xs) := by
  induction Xs generalizing state ρ with
  | nil => exact h
  | cons X Xs ih =>
    have h0 := finds_apply hρ hs h X
    rw [State.applyArgs]
    cases hr0 : state.apply X with
    | none =>
      rw [hr0] at h0
      intro r hr
      exact foldl_rest_of_none (h0 r hr) Xs
    | some r0 =>
      rw [hr0] at h0
      have h1 := ih (hρ.rest X) (leads_apply hρ hs hr0).sound h0
      rw [Option.bind_some]
      cases hrs : r0.1.applyArgs Xs with
      | none =>
        rw [hrs] at h1
        exact h1
      | some rs =>
        rw [hrs] at h1
        exact h1

end

/-! ## The rules that are found -/

section
variable (address : Tree → ℕ) (symbol : Node → ℕ) (rules : List (List Tree))

/-- The automaton of the patterns of some rules. -/
def matcher : State := automaton (precedes address symbol) (patterns rules)

/-- Whatever the rules, the arguments and the order of the addresses: the rules that are active in
the state that is reached, in their order, match all the arguments, and what was recorded for them
are the variables of their patterns. -/
theorem matcher_sound {Xs : List Tree} {state : State} {substs : List Subst}
    (h : (matcher address symbol rules).applyArgs Xs = some (state, substs)) :
    state.rules.Pairwise (·.r < ·.r) ∧ ∀ r, state.Active r → ∃ ps, rules[r]? = some ps ∧
      matchedArgs (ps.map pattern) Xs = some (substs.map (entries r)) := by
  have hsound := sound_automaton (strictOrder_precedes address symbol) (patterns rules)
  have hleads := leads_applyArgs (proper_residuals rules) hsound h
  refine ⟨hleads.sound.here.sorted, ?_⟩
  intro r hr
  obtain ⟨-, l, hl⟩ := hsound.here.residual (hleads.active r hr)
  obtain ⟨ps, hps, rfl⟩ := residuals_eq_some hl
  exact ⟨ps, hps, hleads.matched r _ hr hl⟩

/-- The variable `x` of a pattern. -/
def patX : Tree := boxTree .patVar [leaf (.sym (.user "x"))]

/-- The patterns `(x, 0)` and `(0, x)`. -/
def twoRules : List (List Tree) := [[patX, leaf (.int 0)], [leaf (.int 0), patX]]

lemma pattern_patX : pattern patX = .var (leaf (.sym (.user "x"))) := by
  rw [pattern]
  rfl

lemma pattern_zero : pattern (leaf (.int 0)) = .cst (leaf (.int 0)) := by
  rw [pattern]
  rfl

/-- The automaton of these rules: behind the constant, the second rule and the completion of the
first one are merged. -/
def twoStates : State :=
  .mk [⟨0, some (leaf (.sym (.user "x"))), []⟩, ⟨1, none, []⟩]
    [(.var, .mk [⟨0, none, []⟩] [(.cst (leaf (.int 0)), .mk [⟨0, none, []⟩] [])]),
      (.cst (leaf (.int 0)),
        .mk [⟨0, none, []⟩, ⟨1, some (leaf (.sym (.user "x"))), []⟩]
          [(.var, .mk [⟨1, none, []⟩] []),
            (.cst (leaf (.int 0)), .mk [⟨0, none, []⟩, ⟨1, none, []⟩] [])])]

lemma matcher_twoRules : matcher (fun _ => 0) (fun _ => 0) twoRules = twoStates := by
  simp [matcher, twoRules, patterns, pattern_patX, pattern_zero, automaton, addRules, trie,
    Pattern.makeState, nil_mergeState, mergeState, mergeRules, mergeTrans, mergeTransSymbol,
    mergeSymbol, newState, completion, makeVarState, arity, twoStates]

/-- The second rule is active after `0` and `1`, where `x` is `1`. -/
theorem matcher_sound_two : ∃ state substs,
    (matcher (fun _ => 0) (fun _ => 0) twoRules).applyArgs [leaf (.int 0), leaf (.int 1)]
      = some (state, substs) ∧ state.Active 1 ∧
    (state.rules.Pairwise (·.r < ·.r) ∧ ∀ r, state.Active r → ∃ ps, twoRules[r]? = some ps ∧
      matchedArgs (ps.map pattern) [leaf (.int 0), leaf (.int 1)]
        = some (substs.map (entries r))) := by
  have hrun : (matcher (fun _ => 0) (fun _ => 0) twoRules).applyArgs
      [leaf (.int 0), leaf (.int 1)] = some (.mk [⟨1, none, []⟩] [],
        [[(0, leaf (.sym (.user "x")), [])], [(1, leaf (.sym (.user "x")), [])]]) := by
    rw [State.applyArgs, matcher_twoRules, apply_of_cst rfl rfl, Option.bind_some,
      State.applyArgs, apply_of_none rfl]
    rfl
  exact ⟨_, _, hrun, ⟨_, List.mem_singleton_self _, rfl⟩, matcher_sound _ _ _ hrun⟩

/-- When no automaton that is merged loses a transition, a rule is active in the state that the
arguments lead to exactly when it matches them. -/
theorem matcher_exact
    (hmerge : ∀ r, Mergeable {i | i < r} {r} (residuals (patterns rules))) (Xs : List Tree)
    {r : ℕ} {ps : List Tree} (hps : rules[r]? = some ps) :
    (matchedArgs (ps.map pattern) Xs).isSome ↔
      ∃ rs, (matcher address symbol rules).applyArgs Xs = some rs ∧ rs.1.Active r := by
  have hb := strictOrder_precedes address symbol
  have hρ := proper_residuals rules
  have hsound := sound_automaton hb (patterns rules)
  have hfinds := finds_applyArgs hρ hsound (exact_automaton hb (patterns rules) hmerge) Xs
  have hleft := isSome_foldl_rest Xs (residuals_of_getElem? hps)
  have hr : r ∈ {i | i < (patterns rules).length} := by
    rw [patterns, List.length_map]
    exact (List.getElem?_eq_some_iff.mp hps).1
  rw [← hleft]
  constructor
  · intro hsome
    obtain ⟨l, hl⟩ := Option.isSome_iff_exists.mp hsome
    cases hrun : (automaton (precedes address symbol) (patterns rules)).applyArgs Xs with
    | none =>
      rw [hrun] at hfinds
      rw [hfinds r hr] at hl
      cases hl
    | some rs =>
      rw [hrun] at hfinds
      exact ⟨rs, hrun, hfinds.here.active r hr l hl⟩
  · rintro ⟨rs, hrun, hactive⟩
    obtain ⟨-, l, hl⟩ := (leads_applyArgs hρ hsound hrun).sound.here.residual hactive
    rw [hl]
    rfl

/-- One of the rules `(x, 0)` and `(0, x)` matches `0` and `0`, and is active. -/
theorem matcher_exact_two :
    (matchedArgs ([patX, leaf (.int 0)].map pattern) [leaf (.int 0), leaf (.int 0)]).isSome ↔
      ∃ rs, (matcher (fun _ => 0) (fun _ => 0) twoRules).applyArgs
        [leaf (.int 0), leaf (.int 0)] = some rs ∧ rs.1.Active 0 :=
  matcher_exact _ _ twoRules (mergeable_of_length_le_two (le_refl 2)) _ rfl

/-- The patterns `(x, 1)`, `(x, 2)` and `(0, 3)`. -/
def threeRules : List (List Tree) :=
  [[patX, leaf (.int 1)], [patX, leaf (.int 2)], [leaf (.int 0), leaf (.int 3)]]

lemma pattern_int (i : ℤ) : pattern (leaf (.int i)) = .cst (leaf (.int i)) := by
  rw [pattern]
  rfl

/-- Of the transitions that the third rule has to be merged with, on 1 and on 2, only the first one
is merged: the arguments 0 and 2, which match the second rule, match no rule any more. -/
theorem matcher_threeRules :
    (matchedArgs ([patX, leaf (.int 2)].map pattern) [leaf (.int 0), leaf (.int 2)]).isSome ∧
      (matcher (fun _ => 0) (fun _ => 0) threeRules).applyArgs
        [leaf (.int 0), leaf (.int 2)] = none := by
  have hleaf : ∀ i j : ℤ, leaf (.int i) = leaf (.int j) ↔ i = j := by simp [leaf]
  have hmatcher : ∃ v, matcher (fun _ => 0) (fun _ => 0) threeRules
      = .mk [⟨0, some (leaf (.sym (.user "x"))), []⟩, ⟨1, some (leaf (.sym (.user "x"))), []⟩,
          ⟨2, none, []⟩]
        [(.var, v), (.cst (leaf (.int 0)),
          .mk [⟨0, none, []⟩, ⟨1, none, []⟩, ⟨2, none, []⟩]
            [(.cst (leaf (.int 3)), .mk [⟨2, none, []⟩] []),
              (.cst (leaf (.int 1)), .mk [⟨0, none, []⟩] [])])] := by
    simp [matcher, threeRules, patterns, pattern_patX, pattern_int, automaton, addRules, trie,
      Pattern.makeState, nil_mergeState, mergeState, mergeRules, mergeTrans, mergeTransSymbol,
      mergeTransVar, mergeCompletions, mergeSymbol, newState, completion, makeVarState, arity,
      hleaf, precedes]
  obtain ⟨v, hv⟩ := hmatcher
  constructor
  · rw [List.map_cons, List.map_singleton, pattern_patX, pattern_int]
    rfl
  · rw [hv, State.applyArgs, apply_of_cst rfl rfl, Option.bind_some, State.applyArgs,
      apply_of_none rfl]
    rfl

end

end Faust.PatternMatcher
