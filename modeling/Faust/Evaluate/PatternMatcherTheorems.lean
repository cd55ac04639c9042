import Faust.Evaluate.PatternMatcher
import Faust.Lib.Residuals

/-!
# What the automaton matches

What is left to match of the patterns of a rule is a list of patterns, and of arguments that may be
anything, its residual; after the symbol of a transition it is the derivative for the symbol. A
state is sound when the rules in it have residuals there, and exact when, besides, no rule with a
residual is missing.
-/

namespace Faust.PatternMatcher

open Eval Residuals Faust.Tree

/-! ## The transitions of a state -/

/-- The state that a symbol leads to. -/
def follow (k : TransKind) : Transitions → Option State
  | [] => none
  | (k1, state) :: ts => if k = k1 then some state else follow k ts

/-- The symbols of some transitions. -/
def keys (ts : Transitions) : List TransKind := ts.map Prod.fst

lemma follow_cons_self (k : TransKind) (state : State) (ts : Transitions) :
    follow k ((k, state) :: ts) = some state := by
  rw [follow, if_pos rfl]

lemma follow_cons_of_ne {k k1 : TransKind} (h : k ≠ k1) (state : State) (ts : Transitions) :
    follow k ((k1, state) :: ts) = follow k ts := by
  rw [follow, if_neg h]

lemma follow_eq_none {k : TransKind} {ts : Transitions} (h : k ∉ keys ts) : follow k ts = none := by
  induction ts with
  | nil => rfl
  | cons t ts ih =>
    obtain ⟨k1, state⟩ := t
    have hk := List.ne_and_not_mem_of_not_mem_cons h
    rw [follow_cons_of_ne hk.1]
    exact ih hk.2

lemma mem_keys_of_follow {k : TransKind} {ts : Transitions} {state : State}
    (h : follow k ts = some state) : k ∈ keys ts := by
  by_contra hk
  rw [follow_eq_none hk] at h
  cases h

lemma follow_of_mem_keys {k : TransKind} {ts : Transitions} (h : k ∈ keys ts) :
    ∃ state, follow k ts = some state := by
  induction ts with
  | nil => cases h
  | cons t ts ih =>
    obtain ⟨k1, state⟩ := t
    by_cases hk : k = k1
    · subst hk
      exact ⟨state, follow_cons_self ..⟩
    · rw [follow_cons_of_ne hk]
      exact ih (List.mem_of_ne_of_mem hk h)

/-- The symbols that come later in the transitions of a state: only the first transition is on
variables, and the constants as the operators are in order. -/
def Later (before : TransKind → TransKind → Bool) (k1 k2 : TransKind) : Prop :=
  k1 ≠ k2 ∧ k2 ≠ .var ∧ before k2 k1 = false

/-- The order of the transitions of a state. -/
def Ordered (before : TransKind → TransKind → Bool) (ts : Transitions) : Prop :=
  (keys ts).Pairwise (Later before)

variable {before : TransKind → TransKind → Bool}

lemma Ordered.var_notMem {t : TransKind × State} {ts : Transitions}
    (h : Ordered before (t :: ts)) : .var ∉ keys ts := by
  intro hv
  exact (List.rel_of_pairwise_cons h hv).2.1 rfl

lemma Ordered.tail {t : TransKind × State} {ts : Transitions} (h : Ordered before (t :: ts)) :
    Ordered before ts := List.Pairwise.of_cons h

/-! ## The transitions after a merge -/

lemma keys_mergeCompletions (ts : Transitions) (state : State) :
    keys (mergeCompletions before ts state) = keys ts := by
  induction ts with
  | nil => rw [mergeCompletions]
  | cons t ts ih =>
    obtain ⟨k, state1⟩ := t
    rw [mergeCompletions]
    exact congrArg (k :: ·) ih

lemma follow_mergeCompletions (k : TransKind) (ts : Transitions) (state : State) :
    follow k (mergeCompletions before ts state)
      = (follow k ts).map fun state1 => mergeState before state1 (completion k state) := by
  induction ts with
  | nil =>
    rw [mergeCompletions]
    rfl
  | cons t ts ih =>
    obtain ⟨k1, state1⟩ := t
    rw [mergeCompletions]
    by_cases hk : k = k1
    · subst hk
      rw [follow_cons_self, follow_cons_self, Option.map_some]
    · rw [follow_cons_of_ne hk, follow_cons_of_ne hk, ih]

/-- What the loop of `merge_trans_cst` and `merge_trans_op` makes of the state that the symbol leads
to. -/
def mergeNext (before : TransKind → TransKind → Bool) (k : TransKind) (state : State)
    (v : Option State) : Option State → State
  | some state1 => mergeState before state1 state
  | none => newState before k state v

lemma follow_mergeSymbol {ts : Transitions} {k : TransKind} (h : Ordered before ts)
    (state : State) (v : Option State) (k' : TransKind) :
    follow k' (mergeSymbol before ts k state v)
      = if k' = k then some (mergeNext before k state v (follow k ts)) else follow k' ts := by
  induction ts with
  | nil =>
    rw [mergeSymbol]
    rfl
  | cons t ts ih =>
    obtain ⟨k1, state1⟩ := t
    rw [mergeSymbol]
    split_ifs with hk hk' hb hk' hk'
    · subst hk hk'
      rw [follow_cons_self, follow_cons_self, mergeNext]
    · subst hk
      rw [follow_cons_of_ne hk', follow_cons_of_ne hk']
    · subst hk'
      -- the symbol is not among the later ones, which do not precede this one
      have hnone : follow k' ts = none := by
        apply follow_eq_none
        intro hmem
        have hlater := (List.rel_of_pairwise_cons h hmem).2.2
        rw [hb] at hlater
        cases hlater
      rw [follow_cons_self, follow_cons_of_ne hk, hnone, mergeNext]
    · rw [follow_cons_of_ne hk']
    · subst hk'
      rw [follow_cons_of_ne hk, follow_cons_of_ne hk, ih h.tail, if_pos rfl]
    · by_cases hk1 : k' = k1
      · subst hk1
        rw [follow_cons_self, follow_cons_self]
      · rw [follow_cons_of_ne hk1, follow_cons_of_ne hk1, ih h.tail, if_neg hk']

lemma mem_keys_mergeSymbol {ts : Transitions} {k : TransKind} {state : State} {v : Option State}
    {k' : TransKind} :
    k' ∈ keys (mergeSymbol before ts k state v) ↔ k' = k ∨ k' ∈ keys ts := by
  induction ts with
  | nil =>
    rw [mergeSymbol]
    simp [keys]
  | cons t ts ih =>
    obtain ⟨k1, state1⟩ := t
    rw [mergeSymbol]
    split_ifs with hk hb
    · subst hk
      simp [keys]
    · simp [keys]
    · show k' ∈ k1 :: keys (mergeSymbol before ts k state v) ↔ k' = k ∨ k' ∈ k1 :: keys ts
      rw [List.mem_cons, List.mem_cons, ih]
      tauto

/-- The comparison of symbols is a strict order, and nothing precedes a variable. -/
structure StrictOrder (before : TransKind → TransKind → Bool) : Prop where
  irrefl : ∀ a, before a a = false
  trans : ∀ a b c, before a b → before b c → before a c
  var : ∀ a, before a .var = false

lemma strictOrder_precedes (address : Tree → ℕ) (symbol : Node → ℕ) :
    StrictOrder (precedes address symbol) where
  irrefl a := by cases a <;> simp [precedes]
  trans a b c := by
    cases a <;> cases b <;> cases c <;> simp only [precedes, decide_eq_true_eq] <;> grind
  var a := by cases a <;> rfl

lemma StrictOrder.asymm (hb : StrictOrder before) {a b : TransKind} (h : before a b) :
    before b a = false := by
  by_contra hba
  have haa := hb.trans a b a h (by simpa using hba)
  rw [hb.irrefl] at haa
  cases haa

lemma ordered_mergeSymbol (hb : StrictOrder before) {ts : Transitions} {k : TransKind}
    {state : State} {v : Option State} (hk : k ≠ .var) (hvar : .var ∉ keys ts)
    (h : Ordered before ts) : Ordered before (mergeSymbol before ts k state v) := by
  induction ts with
  | nil =>
    rw [mergeSymbol]
    exact List.pairwise_singleton _ _
  | cons t ts ih =>
    obtain ⟨k1, state1⟩ := t
    have hvar := List.ne_and_not_mem_of_not_mem_cons hvar
    rw [mergeSymbol]
    split_ifs with hk1 hlt
    · exact h
    · apply List.Pairwise.cons _ h
      intro k2 hk2
      rcases List.mem_cons.mp hk2 with rfl | hk2
      · exact ⟨hk1, Ne.symm hvar.1, hb.asymm hlt⟩
      · -- what comes later does not precede the first one
        have hlater := List.rel_of_pairwise_cons h hk2
        have hge : before k2 k = false := by
          by_contra hlt'
          have h21 := hb.trans k2 k k1 (by simpa using hlt') hlt
          rw [hlater.2.2] at h21
          cases h21
        refine ⟨?_, hlater.2.1, hge⟩
        intro hkk
        subst hkk
        rw [hlater.2.2] at hlt
        cases hlt
    · apply List.Pairwise.cons _ (ih hvar.2 h.tail)
      intro k2 hk2
      rcases mem_keys_mergeSymbol.mp hk2 with hk2 | hk2
      · subst hk2
        exact ⟨Ne.symm hk1, hk, by simpa using hlt⟩
      · exact List.rel_of_pairwise_cons h hk2

/-! ### `merge_trans` -/

lemma mergeTrans_nil (ts : Transitions) : mergeTrans before ts [] = ts := by
  rw [mergeTrans]

lemma nil_mergeTrans (ts : Transitions) : mergeTrans before [] ts = ts := by
  cases ts with
  | nil => rw [mergeTrans]
  | cons t ts => rw [mergeTrans]; simp

/-- The state that a variable leads to, after a merge with a state. -/
def mergeVar (before : TransKind → TransKind → Bool) (v : Option State) (state : State) : State :=
  mergeState before (v.getD (.mk [] [])) state

/-- The transitions that are not on variables. -/
def symbolTrans : Transitions → Transitions
  | (.var, _) :: ts => ts
  | ts => ts

lemma symbolTrans_cons {k : TransKind} (hk : k ≠ .var) (state : State) (ts : Transitions) :
    symbolTrans ((k, state) :: ts) = (k, state) :: ts := by
  rw [symbolTrans]
  intro _ _ h
  cases h
  exact hk rfl

lemma follow_symbolTrans {k : TransKind} (hk : k ≠ .var) (ts : Transitions) :
    follow k (symbolTrans ts) = follow k ts := by
  cases ts with
  | nil => rfl
  | cons t ts =>
    obtain ⟨k1, state⟩ := t
    by_cases hk1 : k1 = .var
    · subst hk1
      rw [symbolTrans, follow_cons_of_ne hk]
    · rw [symbolTrans_cons hk1]

lemma Ordered.symbolTrans {ts : Transitions} (h : Ordered before ts) :
    Ordered before (symbolTrans ts) := by
  cases ts with
  | nil => exact h
  | cons t ts =>
    obtain ⟨k1, state⟩ := t
    by_cases hk1 : k1 = .var
    · subst hk1
      exact h.tail
    · rw [symbolTrans_cons hk1]
      exact h

lemma Ordered.var_notMem_symbolTrans {ts : Transitions} (h : Ordered before ts) :
    .var ∉ keys (PatternMatcher.symbolTrans ts) := by
  cases ts with
  | nil => exact List.not_mem_nil
  | cons t ts =>
    obtain ⟨k1, state⟩ := t
    by_cases hk1 : k1 = .var
    · subst hk1
      exact h.var_notMem
    · rw [symbolTrans_cons hk1]
      intro hv
      rcases List.mem_cons.mp hv with hv | hv
      · exact hk1 hv.symm
      · exact h.var_notMem hv

/-- A transition on variables comes first. -/
lemma Ordered.follow_var {k : TransKind} (hk : k ≠ .var) {state : State} {ts : Transitions}
    (h : Ordered before ((k, state) :: ts)) : follow .var ((k, state) :: ts) = none := by
  rw [follow_cons_of_ne (Ne.symm hk)]
  exact follow_eq_none h.var_notMem

lemma mergeTransVar_eq {ts : Transitions} (h : Ordered before ts) (state : State) :
    mergeTransVar before ts state = (.var, mergeVar before (follow .var ts) state)
      :: mergeCompletions before (symbolTrans ts) state := by
  cases ts with
  | nil =>
    rw [mergeTransVar]
    · rfl
    · simp
  | cons t ts =>
    obtain ⟨k1, state1⟩ := t
    by_cases hk1 : k1 = .var
    · subst hk1
      rw [mergeTransVar, follow_cons_self]
      rfl
    · rw [mergeTransVar, h.follow_var hk1, symbolTrans_cons hk1]
      · rfl
      · intro _ _ heq
        cases heq
        exact hk1 rfl

/-- The transition on variables, if there is one. -/
def varTrans (ts : Transitions) : Transitions := ((follow .var ts).map (TransKind.var, ·)).toList

lemma mergeTransSymbol_eq {ts : Transitions} (h : Ordered before ts) (k : TransKind)
    (state : State) :
    mergeTransSymbol before ts k state
      = varTrans ts ++ mergeSymbol before (symbolTrans ts) k state (follow .var ts) := by
  cases ts with
  | nil =>
    rw [mergeTransSymbol]
    · rfl
    · simp
  | cons t ts =>
    obtain ⟨k1, state1⟩ := t
    by_cases hk1 : k1 = .var
    · subst hk1
      rw [mergeTransSymbol, varTrans, follow_cons_self]
      rfl
    · rw [mergeTransSymbol, varTrans, h.follow_var hk1, symbolTrans_cons hk1]
      · rfl
      · intro _ _ heq
        cases heq
        exact hk1 rfl

lemma mergeTrans_var {ts : Transitions} (hts : ts ≠ []) (state : State) (rest : Transitions) :
    mergeTrans before ts ((.var, state) :: rest) = mergeTransVar before ts state := by
  cases ts with
  | nil => exact absurd rfl hts
  | cons t ts =>
    rw [mergeTrans]
    simp

lemma mergeTrans_symbol {ts : Transitions} (hts : ts ≠ []) {k : TransKind} (hk : k ≠ .var)
    (state : State) (rest : Transitions) :
    mergeTrans before ts ((k, state) :: rest) = mergeTransSymbol before ts k state := by
  cases ts with
  | nil => exact absurd rfl hts
  | cons t ts =>
    rw [mergeTrans]
    · exact hk
    · simp

lemma follow_mergeTrans_var {ts : Transitions} (h : Ordered before ts) (hts : ts ≠ [])
    (state : State) (rest : Transitions) (k : TransKind) :
    follow k (mergeTrans before ts ((.var, state) :: rest))
      = if k = .var then some (mergeVar before (follow .var ts) state)
        else (follow k ts).map fun state1 => mergeState before state1 (completion k state) := by
  rw [mergeTrans_var hts, mergeTransVar_eq h]
  split_ifs with hk
  · subst hk
    rw [follow_cons_self]
  · rw [follow_cons_of_ne hk, follow_mergeCompletions, follow_symbolTrans hk]

lemma follow_varTrans_append {k : TransKind} (hk : k ≠ .var) (ts ts' : Transitions) :
    follow k (varTrans ts ++ ts') = follow k ts' := by
  unfold varTrans
  cases follow .var ts with
  | none => rfl
  | some v => exact follow_cons_of_ne hk ..

lemma follow_var_varTrans_append {ts ts' : Transitions} (h : .var ∉ keys ts') :
    follow .var (varTrans ts ++ ts') = follow .var ts := by
  unfold varTrans
  cases follow .var ts with
  | none => exact follow_eq_none h
  | some v => exact follow_cons_self ..

lemma follow_mergeTrans_symbol {ts : Transitions} (h : Ordered before ts) (hts : ts ≠ [])
    {k0 : TransKind} (hk0 : k0 ≠ .var) (state : State) (rest : Transitions) (k : TransKind) :
    follow k (mergeTrans before ts ((k0, state) :: rest))
      = if k = k0 then some (mergeNext before k0 state (follow .var ts) (follow k0 ts))
        else follow k ts := by
  rw [mergeTrans_symbol hts hk0, mergeTransSymbol_eq h]
  by_cases hk : k = .var
  · subst hk
    have hvar : .var ∉ keys (mergeSymbol before (symbolTrans ts) k0 state (follow .var ts)) := by
      rw [mem_keys_mergeSymbol, not_or]
      exact ⟨Ne.symm hk0, h.var_notMem_symbolTrans⟩
    rw [follow_var_varTrans_append hvar, if_neg (Ne.symm hk0)]
  · rw [follow_varTrans_append hk, follow_mergeSymbol h.symbolTrans, follow_symbolTrans hk0,
      follow_symbolTrans hk]

lemma ordered_var_cons (hb : StrictOrder before) {ts : Transitions} (h : Ordered before ts)
    (hvar : .var ∉ keys ts) (state : State) : Ordered before ((.var, state) :: ts) := by
  apply List.Pairwise.cons _ h
  intro k hk
  have hne : k ≠ .var := fun hk' => hvar (hk' ▸ hk)
  exact ⟨Ne.symm hne, hne, hb.var k⟩

lemma ordered_varTrans_append (hb : StrictOrder before) (ts : Transitions) {ts' : Transitions}
    (h : Ordered before ts') (hvar : .var ∉ keys ts') : Ordered before (varTrans ts ++ ts') := by
  unfold varTrans
  cases follow .var ts with
  | none => exact h
  | some v => exact ordered_var_cons hb h hvar v

lemma ordered_mergeTrans (hb : StrictOrder before) {ts1 ts2 : Transitions}
    (h1 : Ordered before ts1) (h2 : Ordered before ts2) :
    Ordered before (mergeTrans before ts1 ts2) := by
  cases ts2 with
  | nil =>
    rw [mergeTrans_nil]
    exact h1
  | cons t rest =>
    obtain ⟨k, state⟩ := t
    by_cases hts : ts1 = []
    · rw [hts, nil_mergeTrans]
      exact h2
    have hvar := h1.var_notMem_symbolTrans
    by_cases hk : k = .var
    · rw [hk, mergeTrans_var hts, mergeTransVar_eq h1]
      apply ordered_var_cons hb
      · rw [Ordered, keys_mergeCompletions]
        exact h1.symbolTrans
      · rw [keys_mergeCompletions]
        exact hvar
    · rw [mergeTrans_symbol hts hk, mergeTransSymbol_eq h1]
      apply ordered_varTrans_append hb _ (ordered_mergeSymbol hb hk hvar h1.symbolTrans)
      rw [mem_keys_mergeSymbol, not_or]
      exact ⟨Ne.symm hk, hvar⟩

lemma mem_keys_iff {k : TransKind} {ts : Transitions} :
    k ∈ keys ts ↔ (follow k ts).isSome := by
  constructor
  · intro hk
    obtain ⟨state, hstate⟩ := follow_of_mem_keys hk
    rw [hstate]
    rfl
  · intro hk
    obtain ⟨state, hstate⟩ := Option.isSome_iff_exists.mp hk
    exact mem_keys_of_follow hstate

lemma mem_keys_mergeTrans {ts1 : Transitions} (h : Ordered before ts1) (hts : ts1 ≠ [])
    {k k0 : TransKind} {state0 : State} {rest : Transitions} :
    k ∈ keys (mergeTrans before ts1 ((k0, state0) :: rest)) ↔ k ∈ keys ts1 ∨ k = k0 := by
  rw [mem_keys_iff, mem_keys_iff]
  by_cases hk0 : k0 = .var
  · subst hk0
    rw [follow_mergeTrans_var h hts]
    split_ifs with hk
    · simp [hk]
    · simp [hk]
  · rw [follow_mergeTrans_symbol h hts hk0]
    split_ifs with hk
    · simp [hk]
    · simp [hk]

lemma mem_keys_of_mergeTrans {ts1 ts2 : Transitions} (h : Ordered before ts1) {k : TransKind}
    (hk : k ∈ keys (mergeTrans before ts1 ts2)) : k ∈ keys ts1 ∨ k ∈ keys ts2 := by
  cases ts2 with
  | nil =>
    rw [mergeTrans_nil] at hk
    exact .inl hk
  | cons t rest =>
    by_cases hts : ts1 = []
    · rw [hts, nil_mergeTrans] at hk
      exact .inr hk
    · rcases (mem_keys_mergeTrans h hts).mp hk with hk | rfl
      · exact .inl hk
      · exact .inr List.mem_cons_self

/-- A merge with one transition has the symbols of both. -/
lemma mem_keys_mergeTrans_of_or {ts1 ts2 : Transitions} (h : Ordered before ts1)
    (hlen : ts2.length ≤ 1) {k : TransKind} (hk : k ∈ keys ts1 ∨ k ∈ keys ts2) :
    k ∈ keys (mergeTrans before ts1 ts2) := by
  cases ts2 with
  | nil =>
    rw [mergeTrans_nil]
    exact hk.resolve_right List.not_mem_nil
  | cons t rest =>
    have hrest : rest = [] := List.eq_nil_of_length_eq_zero (by simpa using hlen)
    subst hrest
    by_cases hts : ts1 = []
    · rw [hts, nil_mergeTrans]
      rw [hts] at hk
      exact hk.resolve_left List.not_mem_nil
    · rw [mem_keys_mergeTrans h hts]
      exact hk.imp_right List.mem_singleton.mp

/-! ## Residuals -/

/-- What is left to match of an argument: anything, or a pattern whose path is `p`. -/
inductive Item
  | any
  | pat (x : Pattern) (p : List ℕ)

/-- The symbol that a pattern begins with. -/
def Pattern.kind : Pattern → TransKind
  | .var _ => .var
  | .op n _ _ => .op n
  | .cst x => .cst x

/-- The symbol that is expected next. -/
def Item.kind : Item → TransKind
  | .any => .var
  | .pat x _ => x.kind

/-- What is left of an item after a symbol. -/
def Item.after (k : TransKind) : Item → Option (List Item)
  | .any | .pat (.var _) _ => some (List.replicate (arity k) .any)
  | .pat (.op n x0 x1) p =>
    if k = .op n then some [.pat x0 (p ++ [0]), .pat x1 (p ++ [1])] else none
  | .pat (.cst x) _ => if k = .cst x then some [] else none

/-- What is left of the patterns of a rule after a symbol. -/
def after (k : TransKind) : List Item → Option (List Item)
  | [] => none
  | it :: l => (it.after k).map (· ++ l)

/-- What is left of the rules that can still match. -/
abbrev Residual := ℕ → Option (List Item)

/-- What is left of the rules after a symbol. -/
def deriv (ρ : Residual) (k : TransKind) : Residual := fun r => (ρ r).bind (after k)

/-- The marker of a rule, when `l` is left. -/
def marker (r : ℕ) : List Item → Rule
  | .pat (.var id) p :: _ => ⟨r, some id, p⟩
  | _ => ⟨r, none, []⟩

lemma Item.after_var {it : Item} (h : it.kind = .var) (k : TransKind) :
    it.after k = some (List.replicate (arity k) .any) := by
  cases it with
  | any => rfl
  | pat x p => cases x <;> first | rfl | cases h

lemma Item.kind_eq_of_after {it : Item} {k : TransKind} {l : List Item} (h : it.after k = some l)
    (hk : it.kind ≠ .var) : it.kind = k := by
  cases it with
  | any => exact absurd rfl hk
  | pat x p =>
    cases x with
    | var id => exact absurd rfl hk
    | op n x0 x1 =>
      rw [Item.after] at h
      split_ifs at h with hkn
      exact hkn.symm
    | cst x =>
      rw [Item.after] at h
      split_ifs at h with hkx
      exact hkx.symm

lemma deriv_eq_some {ρ : Residual} {k : TransKind} {r : ℕ} {l' : List Item}
    (h : deriv ρ k r = some l') :
    ∃ it l l0, ρ r = some (it :: l) ∧ it.after k = some l0 ∧ l' = l0 ++ l := by
  obtain ⟨l, hl, hk⟩ := Option.bind_eq_some_iff.mp h
  cases l with
  | nil => cases hk
  | cons it l =>
    obtain ⟨l0, hl0, rfl⟩ := Option.map_eq_some_iff.mp hk
    exact ⟨it, l, l0, hl, hl0, rfl⟩

lemma deriv_of_cons {ρ : Residual} {r : ℕ} {it : Item} {l : List Item} (h : ρ r = some (it :: l))
    (k : TransKind) : deriv ρ k r = (it.after k).map (· ++ l) := by
  rw [deriv, h]
  rfl

lemma deriv_of_var {ρ : Residual} {r : ℕ} {it : Item} {l : List Item} (h : ρ r = some (it :: l))
    (hk : it.kind = .var) (k : TransKind) :
    deriv ρ k r = some (List.replicate (arity k) .any ++ l) := by
  rw [deriv_of_cons h, Item.after_var hk]
  rfl

/-- After a variable, only what begins with a variable is left. -/
lemma deriv_var_eq_some {ρ : Residual} {r : ℕ} {l : List Item} (h : deriv ρ .var r = some l) :
    ∃ it, ρ r = some (it :: l) ∧ it.kind = .var := by
  obtain ⟨it, l1, l0, hl, hl0, rfl⟩ := deriv_eq_some h
  have hk : it.kind = .var := by
    by_contra hk
    exact hk (Item.kind_eq_of_after hl0 hk)
  rw [Item.after_var hk] at hl0
  cases hl0
  exact ⟨it, hl, hk⟩

/-- What is left after a variable is left, behind the arguments of the symbol, after any symbol. -/
lemma deriv_of_deriv_var {ρ : Residual} {r : ℕ} {l : List Item} (h : deriv ρ .var r = some l)
    (k : TransKind) : deriv ρ k r = some (List.replicate (arity k) .any ++ l) := by
  obtain ⟨it, hl, hk⟩ := deriv_var_eq_some h
  exact deriv_of_var hl hk k

/-! ## Sound states -/

lemma mem_mergeRules {rules1 rules2 : List Rule} {m : Rule} :
    m ∈ mergeRules rules1 rules2 ↔ m ∈ rules1 ∨ m ∈ rules2 := List.mem_merge

lemma sorted_mergeRules {rules1 rules2 : List Rule} (h1 : rules1.Pairwise (·.r < ·.r))
    (h2 : rules2.Pairwise (·.r < ·.r)) (hne : ∀ m1 ∈ rules1, ∀ m2 ∈ rules2, m1.r ≠ m2.r) :
    (mergeRules rules1 rules2).Pairwise (·.r < ·.r) := by
  have hle : (mergeRules rules1 rules2).Pairwise fun m1 m2 => decide (m1.r ≤ m2.r) := by
    apply List.pairwise_merge
    · simp only [decide_eq_true_eq]
      omega
    · simp only [Bool.or_eq_true, decide_eq_true_eq]
      omega
    · exact h1.imp fun h => by simpa using h.le
    · exact h2.imp fun h => by simpa using h.le
  have happend : (rules1 ++ rules2).Pairwise (·.r ≠ ·.r) :=
    List.pairwise_append.mpr ⟨h1.imp fun h => h.ne, h2.imp fun h => h.ne, hne⟩
  have hnodup : (mergeRules rules1 rules2).Pairwise (·.r ≠ ·.r) :=
    (List.merge_perm_append _).symm.pairwise happend fun h => h.symm
  apply hle.imp₂ _ hnodup
  intro m1 m2 hle hne
  have hle : m1.r ≤ m2.r := by simpa using hle
  omega

lemma rules_mergeState (state1 state2 : State) :
    (mergeState before state1 state2).rules = mergeRules state1.rules state2.rules := by
  rw [mergeState, rules_mk]

lemma trans_mergeState (state1 state2 : State) :
    (mergeState before state1 state2).trans
      = mergeTrans before state1.trans state2.trans := by
  rw [mergeState, trans_mk]

/-- The rule is active in the state. -/
def State.Active (state : State) (r : ℕ) : Prop := ∃ m ∈ state.rules, m.r = r

lemma active_mergeState {state1 state2 : State} {r : ℕ} :
    (mergeState before state1 state2).Active r ↔ state1.Active r ∨ state2.Active r := by
  unfold State.Active
  rw [rules_mergeState]
  simp only [mem_mergeRules, or_and_right, exists_or]

lemma active_makeVarState {state : State} {r : ℕ} (n : ℕ) :
    (makeVarState state n).Active r ↔ state.Active r := by
  cases n with
  | zero => rfl
  | succ n =>
    unfold State.Active
    rw [makeVarState, rules_mk]
    simp

lemma active_completion {state : State} {r : ℕ} (k : TransKind) :
    (completion k state).Active r ↔ state.Active r := active_makeVarState (arity k)

/-- A state of the rules in `S`, of which `ρ` is left: the markers in it are those of rules that can
still match, and its transitions are on symbols that these rules begin with. -/
structure SoundAt (before : TransKind → TransKind → Bool) (S : Set ℕ) (state : State)
    (ρ : Residual) : Prop where
  ordered : Ordered before state.trans
  sorted : state.rules.Pairwise (·.r < ·.r)
  marked : ∀ m ∈ state.rules, m.r ∈ S ∧ ∃ l, ρ m.r = some l ∧ m = marker m.r l
  tight : ∀ k ∈ keys state.trans, ∃ r ∈ S, ∃ it l, ρ r = some (it :: l) ∧ it.kind = k
  /-- no rule comes back -/
  nested : ∀ k state', follow k state.trans = some state' →
    ∀ r, state'.Active r → state.Active r

/-- The transition of a state on a symbol. -/
abbrev step (state : State) (k : TransKind) : Option State := follow k state.trans

/-- All that a state leads to is sound. -/
abbrev Sound (before : TransKind → TransKind → Bool) (S : Set ℕ) : State → Residual → Prop :=
  Along step deriv (SoundAt before S)

lemma SoundAt.mono {S S' : Set ℕ} (hS : S ⊆ S') {state : State} {ρ : Residual}
    (h : SoundAt before S state ρ) : SoundAt before S' state ρ where
  ordered := h.ordered
  sorted := h.sorted
  marked m hm := ⟨hS (h.marked m hm).1, (h.marked m hm).2⟩
  tight k hk := by
    obtain ⟨r, hr, hit⟩ := h.tight k hk
    exact ⟨r, hS hr, hit⟩
  nested := h.nested

lemma Sound.mono {S S' : Set ℕ} (hS : S ⊆ S') {state : State} {ρ : Residual}
    (h : Sound before S state ρ) : Sound before S' state ρ :=
  Along.mono (fun _ _ => SoundAt.mono hS) h

/-- A state stays sound when more is left. -/
lemma Sound.mono_residual {S : Set ℕ} {state : State} {ρ ρ' : Residual}
    (hρ : ∀ r l, ρ r = some l → ρ' r = some l) (h : Sound before S state ρ) :
    Sound before S state ρ' := by
  refine Along.of_invariant (Q := fun state ρ' =>
    ∃ ρ, (∀ r l, ρ r = some l → ρ' r = some l) ∧ Sound before S state ρ) ?_ ?_ ⟨ρ, hρ, h⟩
  · intro state ρ' ⟨ρ, hρ, h⟩
    have hhere := h.here
    refine ⟨hhere.ordered, hhere.sorted, ?_, ?_, hhere.nested⟩
    · intro m hm
      obtain ⟨hS, l, hl, hmark⟩ := hhere.marked m hm
      exact ⟨hS, l, hρ m.r l hl, hmark⟩
    · intro k hk
      obtain ⟨r, hr, it, l, hl, hit⟩ := hhere.tight k hk
      exact ⟨r, hr, it, l, hρ r _ hl, hit⟩
  · intro state ρ' k state' ⟨ρ, hρ, h⟩ hk
    refine ⟨deriv ρ k, ?_, h.next hk⟩
    intro r l hl
    obtain ⟨l1, hl1, hl⟩ := Option.bind_eq_some_iff.mp hl
    rw [deriv, hρ r l1 hl1]
    exact hl

lemma step_singleton {k0 k : TransKind} {rules : List Rule} {next state' : State}
    (h : step (.mk rules [(k0, next)]) k = some state') : k = k0 ∧ state' = next := by
  by_cases hk : k = k0
  · subst hk
    rw [step, trans_mk, follow_cons_self] at h
    cases h
    exact ⟨rfl, rfl⟩
  · rw [step, trans_mk, follow_cons_of_ne hk] at h
    cases h

lemma sound_makeVarState {S : Set ℕ} {state : State} {ρ ρ' : Residual}
    (h : Sound before S state ρ) (hne : ∃ r ∈ S, ∃ l, ρ r = some l) (n : ℕ)
    (hρ : ∀ r l, ρ r = some l → ρ' r = some (List.replicate n .any ++ l)) :
    Sound before S (makeVarState state n) ρ' := by
  induction n generalizing ρ' with
  | zero => exact h.mono_residual hρ
  | succ n ih =>
    rw [makeVarState]
    apply Along.of_next
    · refine ⟨List.pairwise_singleton _ _, ?_, ?_, ?_, ?_⟩
      · exact List.pairwise_map.mpr h.here.sorted
      · intro m' hm'
        obtain ⟨m, hm, rfl⟩ := List.mem_map.mp hm'
        obtain ⟨hS, l, hl, -⟩ := h.here.marked m hm
        exact ⟨hS, _, hρ m.r l hl, rfl⟩
      · intro k hk
        obtain ⟨r, hr, l, hl⟩ := hne
        exact ⟨r, hr, .any, _, hρ r l hl, (List.mem_singleton.mp hk).symm⟩
      · intro k state' hk r hr
        obtain ⟨rfl, rfl⟩ := step_singleton hk
        exact (active_makeVarState (n + 1)).mpr ((active_makeVarState n).mp hr)
    · intro k state' hk
      obtain ⟨rfl, rfl⟩ := step_singleton hk
      apply ih
      intro r l hl
      rw [deriv_of_cons (hρ r l hl)]
      rfl

lemma sound_completion {S : Set ℕ} {state state' : State} {ρ : Residual}
    (h : Sound before S state ρ) (hvar : follow .var state.trans = some state')
    (k : TransKind) : Sound before S (completion k state') (deriv ρ k) := by
  apply sound_makeVarState (h.next hvar) _ (arity k) fun _ _ hl => deriv_of_deriv_var hl k
  obtain ⟨r, hr, it, l, hl, hit⟩ := h.here.tight .var (mem_keys_of_follow hvar)
  exact ⟨r, hr, _, deriv_of_var hl hit .var⟩

/-! ### The states that a merge leads to -/

/-- What a symbol leads to, after a merge of transitions. The second transitions come from a trie,
where the last conditions are needed. -/
inductive Merged (before : TransKind → TransKind → Bool) (k : TransKind) (ts1 ts2 : Transitions) :
    State → Prop
  | left {state1 : State} (h1 : follow k ts1 = some state1)
      (h2 : ts2.length ≤ 1 → follow k ts2 = none ∧ follow .var ts2 = none) :
      Merged before k ts1 ts2 state1
  | right {state2 : State} (h1 : follow k ts1 = none) (hvar : follow .var ts1 = none)
      (h2 : follow k ts2 = some state2) : Merged before k ts1 ts2 state2
  | both {state1 state2 : State} (h1 : follow k ts1 = some state1)
      (h2 : follow k ts2 = some state2) :
      Merged before k ts1 ts2 (mergeState before state1 state2)
  | completed {state1 state2 : State} (h1 : follow k ts1 = some state1)
      (h2 : follow .var ts2 = some state2) (hk : ts2.length ≤ 1 → follow k ts2 = none) :
      Merged before k ts1 ts2 (mergeState before state1 (completion k state2))
  | added {state1 state2 : State} (h1 : follow .var ts1 = some state1)
      (hk : follow k ts1 = none) (h2 : follow k ts2 = some state2) :
      Merged before k ts1 ts2 (mergeState before state2 (completion k state1))

lemma nil_mergeState (state : State) : mergeState before (.mk [] []) state = state := by
  obtain ⟨rules, ts⟩ := state
  rw [mergeState, rules_mk, rules_mk, trans_mk, trans_mk, nil_mergeTrans, mergeRules,
    List.nil_merge]

lemma merged_of_follow {k : TransKind} {ts1 ts2 : Transitions} {state : State}
    (h1 : Ordered before ts1) (h2 : Ordered before ts2)
    (h : follow k (mergeTrans before ts1 ts2) = some state) : Merged before k ts1 ts2 state := by
  cases ts2 with
  | nil =>
    rw [mergeTrans_nil] at h
    exact .left h fun _ => ⟨rfl, rfl⟩
  | cons t rest =>
    obtain ⟨k0, state0⟩ := t
    by_cases hts : ts1 = []
    · rw [hts, nil_mergeTrans] at h
      subst hts
      exact .right rfl rfl h
    by_cases hk0 : k0 = .var
    · subst hk0
      rw [follow_mergeTrans_var h1 hts] at h
      split_ifs at h with hk
      · subst hk
        cases h
        cases hv : follow .var ts1 with
        | none =>
          rw [mergeVar, Option.getD_none, nil_mergeState]
          exact .right hv hv (follow_cons_self ..)
        | some v => exact .both hv (follow_cons_self ..)
      · obtain ⟨state1, hstate1, rfl⟩ := Option.map_eq_some_iff.mp h
        apply Merged.completed hstate1 (follow_cons_self ..)
        intro hlen
        have hrest : rest = [] := List.eq_nil_of_length_eq_zero (by simpa using hlen)
        rw [hrest, follow_cons_of_ne hk]
        rfl
    · rw [follow_mergeTrans_symbol h1 hts hk0] at h
      split_ifs at h with hk
      · subst hk
        cases h
        have hstate0 : follow k ((k, state0) :: rest) = some state0 := follow_cons_self ..
        cases hstate1 : follow k ts1 with
        | none =>
          rw [mergeNext]
          cases hv : follow .var ts1 with
          | none =>
            rw [newState]
            exact .right hstate1 hv hstate0
          | some v =>
            rw [newState]
            exact .added hv hstate1 hstate0
        | some state1 => exact .both hstate1 hstate0
      · apply Merged.left h
        intro hlen
        have hrest : rest = [] := List.eq_nil_of_length_eq_zero (by simpa using hlen)
        rw [hrest, follow_cons_of_ne hk, follow_cons_of_ne (Ne.symm hk0)]
        exact ⟨rfl, rfl⟩

lemma soundAt_mergeState (hb : StrictOrder before) {S1 S2 : Set ℕ} (hS : ∀ r ∈ S1, r ∉ S2)
    {state1 state2 : State} {ρ : Residual} (h1 : Sound before S1 state1 ρ)
    (h2 : Sound before S2 state2 ρ) :
    SoundAt before (S1 ∪ S2) (mergeState before state1 state2) ρ where
  ordered := by
    rw [trans_mergeState]
    exact ordered_mergeTrans hb h1.here.ordered h2.here.ordered
  sorted := by
    rw [rules_mergeState]
    apply sorted_mergeRules h1.here.sorted h2.here.sorted
    intro m1 hm1 m2 hm2 hr
    exact hS m1.r (h1.here.marked m1 hm1).1 (hr ▸ (h2.here.marked m2 hm2).1)
  marked m hm := by
    rw [rules_mergeState, mem_mergeRules] at hm
    rcases hm with hm | hm
    · exact ⟨.inl (h1.here.marked m hm).1, (h1.here.marked m hm).2⟩
    · exact ⟨.inr (h2.here.marked m hm).1, (h2.here.marked m hm).2⟩
  tight k hk := by
    rw [trans_mergeState] at hk
    rcases mem_keys_of_mergeTrans h1.here.ordered hk with hk | hk
    · obtain ⟨r, hr, hit⟩ := h1.here.tight k hk
      exact ⟨r, .inl hr, hit⟩
    · obtain ⟨r, hr, hit⟩ := h2.here.tight k hk
      exact ⟨r, .inr hr, hit⟩
  nested k state' hk r hr := by
    have hnested1 := h1.here.nested
    have hnested2 := h2.here.nested
    rw [trans_mergeState] at hk
    rw [active_mergeState]
    cases merged_of_follow h1.here.ordered h2.here.ordered hk with
    | left hstate1 => exact .inl (hnested1 _ _ hstate1 r hr)
    | right _ _ hstate2 => exact .inr (hnested2 _ _ hstate2 r hr)
    | both hstate1 hstate2 =>
      exact (active_mergeState.mp hr).imp (hnested1 _ _ hstate1 r) (hnested2 _ _ hstate2 r)
    | completed hstate1 hstate2 =>
      rw [active_mergeState, active_completion] at hr
      exact hr.imp (hnested1 _ _ hstate1 r) (hnested2 _ _ hstate2 r)
    | added hstate1 _ hstate2 =>
      rw [active_mergeState, active_completion] at hr
      exact hr.symm.imp (hnested1 _ _ hstate1 r) (hnested2 _ _ hstate2 r)

/-- A merge of states of different rules is sound. -/
theorem sound_mergeState (hb : StrictOrder before) {S1 S2 : Set ℕ} (hS : ∀ r ∈ S1, r ∉ S2)
    {state1 state2 : State} {ρ : Residual} (h1 : Sound before S1 state1 ρ)
    (h2 : Sound before S2 state2 ρ) :
    Sound before (S1 ∪ S2) (mergeState before state1 state2) ρ := by
  refine Along.of_invariant (Q := fun state ρ => Sound before (S1 ∪ S2) state ρ ∨
    ∃ S S' state1 state2, S ∪ S' = S1 ∪ S2 ∧ (∀ r ∈ S, r ∉ S') ∧ Sound before S state1 ρ ∧
      Sound before S' state2 ρ ∧ state = mergeState before state1 state2) ?_ ?_
    (.inr ⟨S1, S2, state1, state2, rfl, hS, h1, h2, rfl⟩)
  · intro state ρ h
    rcases h with h | ⟨S, S', state1, state2, hSS, hS, h1, h2, rfl⟩
    · exact h.here
    · rw [← hSS]
      exact soundAt_mergeState hb hS h1 h2
  · intro state ρ k state' h hk
    rcases h with h | ⟨S, S', state1, state2, hSS, hS, h1, h2, rfl⟩
    · exact .inl (h.next hk)
    · rw [step, trans_mergeState] at hk
      cases merged_of_follow h1.here.ordered h2.here.ordered hk with
      | left hstate1 =>
        exact .inl (Sound.mono (hSS ▸ Set.subset_union_left) (h1.next hstate1))
      | right _ _ hstate2 =>
        exact .inl (Sound.mono (hSS ▸ Set.subset_union_right) (h2.next hstate2))
      | both hstate1 hstate2 =>
        exact .inr ⟨S, S', _, _, hSS, hS, h1.next hstate1, h2.next hstate2, rfl⟩
      | completed hstate1 hstate2 =>
        exact .inr ⟨S, S', _, _, hSS, hS, h1.next hstate1,
          sound_completion h2 hstate2 k, rfl⟩
      | added hstate1 _ hstate2 =>
        exact .inr ⟨S', S, _, _, Set.union_comm S' S ▸ hSS, fun r hr hr' => hS r hr' hr,
          h2.next hstate2, sound_completion h1 hstate1 k, rfl⟩

/-! ## Exact states -/

/-- A state where every rule in `S` that can still match is active and has a transition. -/
structure ExactAt (S : Set ℕ) (state : State) (ρ : Residual) : Prop where
  active : ∀ r ∈ S, ∀ l, ρ r = some l → state.Active r
  head : ∀ r ∈ S, ∀ it l, ρ r = some (it :: l) → it.kind ∈ keys state.trans

/-- All that a state leads to is exact. -/
abbrev Exact (S : Set ℕ) : State → Residual → Prop := Along step deriv (ExactAt S)

/-- A pattern without the names of its variables. -/
def Pattern.shape : Pattern → Pattern
  | .var _ => .var nil
  | .op n x0 x1 => .op n x0.shape x1.shape
  | .cst x => .cst x

/-- What an item matches. -/
def Item.shape : Item → Pattern
  | .any => .var nil
  | .pat x _ => x.shape

/-- The rules in `S` that can still match go on in the same way. -/
def SameShape (S : Set ℕ) (ρ : Residual) : Prop :=
  ∀ r ∈ S, ∀ r' ∈ S, ∀ l l', ρ r = some l → ρ r' = some l' → l.map Item.shape = l'.map Item.shape

/-- What is left of a shape after a symbol. -/
def Pattern.after (k : TransKind) : Pattern → Option (List Pattern)
  | .var _ => some (List.replicate (arity k) (.var nil))
  | .op n x0 x1 => if k = .op n then some [x0, x1] else none
  | .cst x => if k = .cst x then some [] else none

lemma Item.shape_after (it : Item) (k : TransKind) :
    (it.after k).map (·.map Item.shape) = it.shape.after k := by
  have hany : (List.replicate (arity k) Item.any).map Item.shape
      = List.replicate (arity k) (.var nil) := List.map_replicate
  cases it with
  | any => exact congrArg some hany
  | pat x p =>
    cases x with
    | var id => exact congrArg some hany
    | op n x0 x1 =>
      rw [Item.after, Item.shape, Pattern.shape, Pattern.after]
      split_ifs <;> rfl
    | cst x =>
      rw [Item.after, Item.shape, Pattern.shape, Pattern.after]
      split_ifs <;> rfl

lemma Item.kind_shape (it : Item) : it.shape.kind = it.kind := by
  cases it with
  | any => rfl
  | pat x p => cases x <;> rfl

lemma SameShape.deriv {S : Set ℕ} {ρ : Residual} (h : SameShape S ρ) (k : TransKind) :
    SameShape S (deriv ρ k) := by
  intro r hr r' hr' l l' hl hl'
  obtain ⟨it, l1, l0, hl1, hl0, rfl⟩ := deriv_eq_some hl
  obtain ⟨it', l1', l0', hl1', hl0', rfl⟩ := deriv_eq_some hl'
  have hshape := h r hr r' hr' _ _ hl1 hl1'
  rw [List.map_cons, List.map_cons, List.cons.injEq] at hshape
  have hafter : some (l0.map Item.shape) = some (l0'.map Item.shape) := by
    calc some (l0.map Item.shape) = (it.after k).map (·.map Item.shape) := by rw [hl0]; rfl
      _ = (it'.after k).map (·.map Item.shape) := by
        rw [Item.shape_after, Item.shape_after, hshape.1]
      _ = some (l0'.map Item.shape) := by rw [hl0']; rfl
  rw [List.map_append, List.map_append, Option.some.inj hafter, hshape.2]

/-- Rules that begin with the same symbol have at most one transition. -/
lemma length_trans_le_one {S : Set ℕ} {state : State} {ρ : Residual}
    (h : SoundAt before S state ρ) (hshape : SameShape S ρ) : state.trans.length ≤ 1 := by
  have heq : ∀ k ∈ keys state.trans, ∀ k' ∈ keys state.trans, k = k' := by
    intro k hk k' hk'
    obtain ⟨r, hr, it, l, hl, rfl⟩ := h.tight k hk
    obtain ⟨r', hr', it', l', hl', rfl⟩ := h.tight k' hk'
    have hcons := hshape r hr r' hr' _ _ hl hl'
    rw [List.map_cons, List.map_cons, List.cons.injEq] at hcons
    rw [← Item.kind_shape it, hcons.1, Item.kind_shape]
  cases hts : state.trans with
  | nil => exact Nat.zero_le 1
  | cons t ts =>
    cases ts with
    | nil => exact le_refl 1
    | cons t' ts =>
      have hordered := h.ordered
      rw [hts] at hordered heq
      have hlater := List.rel_of_pairwise_cons hordered (List.mem_cons_self (a := t'.1))
      exact absurd (heq t.1 (by simp [keys]) t'.1 (by simp [keys])) hlater.1

/-- Where a rule in `S2` begins with a symbol that no rule in `S1` begins with, the rules in `S1`
that begin with a variable go on in the same way. -/
def Mergeable (S1 S2 : Set ℕ) (ρ : Residual) : Prop :=
  ∀ w : List TransKind, ∀ r ∈ S2, ∀ it l, w.foldl deriv ρ r = some (it :: l) → it.kind ≠ .var →
    (∀ r1 ∈ S1, ∀ it1 l1, w.foldl deriv ρ r1 = some (it1 :: l1) → it1.kind ≠ it.kind) →
    SameShape S1 (deriv (w.foldl deriv ρ) .var)

lemma Mergeable.deriv {S1 S2 : Set ℕ} {ρ : Residual} (h : Mergeable S1 S2 ρ) (k : TransKind) :
    Mergeable S1 S2 (deriv ρ k) := fun w => h (k :: w)

lemma SameShape.foldl {S : Set ℕ} {ρ : Residual} (h : SameShape S ρ) (w : List TransKind) :
    SameShape S (w.foldl PatternMatcher.deriv ρ) := by
  induction w generalizing ρ with
  | nil => exact h
  | cons k w ih => exact ih (h.deriv k)

lemma SameShape.mergeable {S : Set ℕ} {ρ : Residual} (h : SameShape S ρ) (S2 : Set ℕ) :
    Mergeable S S2 ρ := fun w _ _ _ _ _ _ _ => (h.foldl w).deriv .var

/-! ### Rules of which nothing is left -/

lemma ExactAt.congr {S : Set ℕ} {state : State} {ρ ρ' : Residual} (hρ : ∀ r ∈ S, ρ' r = ρ r)
    (h : ExactAt S state ρ) : ExactAt S state ρ' where
  active r hr l hl := h.active r hr l (by rw [← hρ r hr, hl])
  head r hr it l hl := h.head r hr it l (by rw [← hρ r hr, hl])

lemma Exact.congr {S : Set ℕ} {state : State} {ρ ρ' : Residual} (hρ : ∀ r ∈ S, ρ' r = ρ r)
    (h : Exact S state ρ) : Exact S state ρ' := by
  refine Along.of_invariant (Q := fun state ρ' => ∃ ρ, (∀ r ∈ S, ρ' r = ρ r) ∧ Exact S state ρ)
    ?_ ?_ ⟨ρ, hρ, h⟩
  · intro state ρ' ⟨ρ, hρ, h⟩
    exact h.here.congr hρ
  · intro state ρ' k state' ⟨ρ, hρ, h⟩ hk
    refine ⟨deriv ρ k, ?_, h.next hk⟩
    intro r hr
    rw [deriv, deriv, hρ r hr]

lemma ExactAt.union {S S' : Set ℕ} {state : State} {ρ : Residual} (hρ : ∀ r ∈ S', ρ r = none)
    (h : ExactAt S state ρ) : ExactAt (S ∪ S') state ρ where
  active r hr l hl := by
    rcases hr with hr | hr
    · exact h.active r hr l hl
    · rw [hρ r hr] at hl
      cases hl
  head r hr it l hl := by
    rcases hr with hr | hr
    · exact h.head r hr it l hl
    · rw [hρ r hr] at hl
      cases hl

/-- A state stays exact with rules that cannot match any more. -/
lemma Exact.union {S S' : Set ℕ} {state : State} {ρ : Residual} (hρ : ∀ r ∈ S', ρ r = none)
    (h : Exact S state ρ) : Exact (S ∪ S') state ρ := by
  refine Along.of_invariant (Q := fun state ρ => (∀ r ∈ S', ρ r = none) ∧ Exact S state ρ)
    ?_ ?_ ⟨hρ, h⟩
  · intro state ρ ⟨hρ, h⟩
    exact h.here.union hρ
  · intro state ρ k state' ⟨hρ, h⟩ hk
    refine ⟨?_, h.next hk⟩
    intro r hr
    rw [deriv, hρ r hr]
    rfl

lemma ExactAt.kind_ne {S : Set ℕ} {state : State} {ρ : Residual} (h : ExactAt S state ρ)
    {k : TransKind} (hk : follow k state.trans = none) {r : ℕ} (hr : r ∈ S) {it : Item}
    {l : List Item} (hl : ρ r = some (it :: l)) : it.kind ≠ k := by
  intro hit
  obtain ⟨state', hstate'⟩ := follow_of_mem_keys (hit ▸ h.head r hr it l hl)
  rw [hk] at hstate'
  cases hstate'

/-- After a symbol without a transition, only what begins with a variable is left. -/
lemma ExactAt.deriv_eq {S : Set ℕ} {state : State} {ρ : Residual} (h : ExactAt S state ρ)
    {k : TransKind} (hk : follow k state.trans = none) {r : ℕ} (hr : r ∈ S) :
    deriv ρ k r = (deriv ρ .var r).map (List.replicate (arity k) .any ++ ·) := by
  cases hvar : deriv ρ .var r with
  | some l => exact deriv_of_deriv_var hvar k
  | none =>
    cases hl' : deriv ρ k r with
    | none => rfl
    | some l' =>
      obtain ⟨it, l, l0, hl, hl0, rfl⟩ := deriv_eq_some hl'
      have hit : it.kind = .var := by
        by_contra hit
        exact h.kind_ne hk hr hl (Item.kind_eq_of_after hl0 hit)
      rw [deriv_of_var hl hit] at hvar
      cases hvar

lemma ExactAt.deriv_eq_none {S : Set ℕ} {state : State} {ρ : Residual} (h : ExactAt S state ρ)
    {k : TransKind} (hk : follow k state.trans = none) (hvar : follow .var state.trans = none)
    {r : ℕ} (hr : r ∈ S) : deriv ρ k r = none := by
  rw [h.deriv_eq hk hr, Option.map_eq_none_iff]
  by_contra hsome
  obtain ⟨l, hl⟩ := Option.ne_none_iff_exists'.mp hsome
  obtain ⟨it, hl, hit⟩ := deriv_var_eq_some hl
  exact h.kind_ne hvar hr hl hit

lemma exact_makeVarState {S : Set ℕ} {state : State} {ρ ρ' : Residual} (h : Exact S state ρ)
    (n : ℕ)
    (hρ : ∀ r ∈ S, ρ' r = (ρ r).map (List.replicate n .any ++ ·)) :
    Exact S (makeVarState state n) ρ' := by
  induction n generalizing ρ' with
  | zero =>
    apply Exact.congr _ h
    intro r hr
    rw [hρ r hr]
    exact Option.map_id'
  | succ n ih =>
    rw [makeVarState]
    apply Along.of_next
    · refine ⟨?_, ?_⟩
      · intro r hr l' hl'
        rw [hρ r hr] at hl'
        obtain ⟨l, hl, -⟩ := Option.map_eq_some_iff.mp hl'
        exact (active_makeVarState (n + 1)).mpr (h.here.active r hr l hl)
      · intro r hr it l' hl'
        rw [hρ r hr] at hl'
        obtain ⟨l, -, hl⟩ := Option.map_eq_some_iff.mp hl'
        cases hl
        exact List.mem_singleton_self _
    · intro k state' hk
      obtain ⟨rfl, rfl⟩ := step_singleton hk
      apply ih
      intro r hr
      rw [deriv, hρ r hr]
      cases ρ r <;> rfl

lemma exact_completion {S : Set ℕ} {state state' : State} {ρ : Residual} (h : Exact S state ρ)
    {k : TransKind} (hk : follow k state.trans = none)
    (hvar : follow .var state.trans = some state') :
    Exact S (completion k state') (deriv ρ k) :=
  exact_makeVarState (h.next hvar) (arity k) fun _ hr => h.here.deriv_eq hk hr

/-! ### Merges -/

lemma exactAt_mergeState {S1 S2 : Set ℕ} {state1 state2 : State} {ρ : Residual}
    (hordered : Ordered before state1.trans) (h1 : ExactAt S1 state1 ρ)
    (h2 : ExactAt S2 state2 ρ) (hlen : state2.trans.length ≤ 1) :
    ExactAt (S1 ∪ S2) (mergeState before state1 state2) ρ where
  active r hr l hl := by
    rw [active_mergeState]
    exact hr.imp (fun hr => h1.active r hr l hl) fun hr => h2.active r hr l hl
  head r hr it l hl := by
    rw [trans_mergeState]
    apply mem_keys_mergeTrans_of_or hordered hlen
    exact hr.imp (fun hr => h1.head r hr it l hl) fun hr => h2.head r hr it l hl

/-- What is merged into a state that only the rules that begin with a variable lead to goes on in
one way. -/
lemma Mergeable.sameShape {S1 S2 : Set ℕ} {state1 state2 : State} {ρ : Residual}
    (h : Mergeable S1 S2 ρ) (h1 : ExactAt S1 state1 ρ) (h2 : SoundAt before S2 state2 ρ)
    {k : TransKind} (hk : k ≠ .var) (hk1 : follow k state1.trans = none)
    (hk2 : k ∈ keys state2.trans) : SameShape S1 (PatternMatcher.deriv ρ k) := by
  obtain ⟨r, hr, it, l, hl, rfl⟩ := h2.tight k hk2
  have hvar : SameShape S1 (PatternMatcher.deriv ρ .var) :=
    h [] r hr it l hl hk fun r1 hr1 it1 l1 hl1 => h1.kind_ne hk1 hr1 hl1
  intro r1 hr1 r1' hr1' l1 l1' hl1 hl1'
  rw [h1.deriv_eq hk1 hr1] at hl1
  rw [h1.deriv_eq hk1 hr1'] at hl1'
  obtain ⟨l0, hl0, rfl⟩ := Option.map_eq_some_iff.mp hl1
  obtain ⟨l0', hl0', rfl⟩ := Option.map_eq_some_iff.mp hl1'
  rw [List.map_append, List.map_append, hvar r1 hr1 r1' hr1' l0 l0' hl0 hl0']

/-- What `merge_state` keeps: the rules of both automata are found, if the second one is in trie
form and so is all that is merged on the way. -/
theorem exact_mergeState {S1 S2 : Set ℕ} {state1 state2 : State} {ρ : Residual}
    (hs1 : Sound before S1 state1 ρ) (hs2 : Sound before S2 state2 ρ) (h1 : Exact S1 state1 ρ)
    (h2 : Exact S2 state2 ρ) (hshape : SameShape S2 ρ) (hmerge : Mergeable S1 S2 ρ) :
    Exact (S1 ∪ S2) (mergeState before state1 state2) ρ := by
  refine Along.of_invariant (Q := fun state ρ => Exact (S1 ∪ S2) state ρ ∨
    ∃ S S' state1 state2, S ∪ S' = S1 ∪ S2 ∧ Sound before S state1 ρ ∧ Sound before S' state2 ρ ∧
      Exact S state1 ρ ∧ Exact S' state2 ρ ∧ SameShape S' ρ ∧ Mergeable S S' ρ ∧
      state = mergeState before state1 state2) ?_ ?_
    (.inr ⟨S1, S2, state1, state2, rfl, hs1, hs2, h1, h2, hshape, hmerge, rfl⟩)
  · intro state ρ h
    rcases h with h | ⟨S, S', state1, state2, hSS, hs1, hs2, h1, h2, hshape, -, rfl⟩
    · exact h.here
    · rw [← hSS]
      exact exactAt_mergeState hs1.here.ordered h1.here h2.here
        (length_trans_le_one hs2.here hshape)
  · intro state ρ k state' h hk
    rcases h with h | ⟨S, S', state1, state2, hSS, hs1, hs2, h1, h2, hshape, hmerge, rfl⟩
    · exact .inl (h.next hk)
    have hlen := length_trans_le_one hs2.here hshape
    rw [step, trans_mergeState] at hk
    cases merged_of_follow hs1.here.ordered hs2.here.ordered hk with
    | left hstate1 hnone =>
      rw [← hSS]
      exact .inl (Exact.union (fun r hr => h2.here.deriv_eq_none (hnone hlen).1 (hnone hlen).2 hr)
        (h1.next hstate1))
    | right hnone hvar hstate2 =>
      rw [← hSS, Set.union_comm]
      exact .inl (Exact.union (fun r hr => h1.here.deriv_eq_none hnone hvar hr)
        (h2.next hstate2))
    | both hstate1 hstate2 =>
      exact .inr ⟨S, S', _, _, hSS, hs1.next hstate1, hs2.next hstate2, h1.next hstate1,
        h2.next hstate2, hshape.deriv k, hmerge.deriv k, rfl⟩
    | completed hstate1 hstate2 hnone =>
      exact .inr ⟨S, S', _, _, hSS, hs1.next hstate1, sound_completion hs2 hstate2 k,
        h1.next hstate1, exact_completion h2 (hnone hlen) hstate2, hshape.deriv k,
        hmerge.deriv k, rfl⟩
    | added hstate1 hnone hstate2 =>
      have hkvar : k ≠ .var := by
        intro hkvar
        rw [hkvar, hstate1] at hnone
        cases hnone
      exact .inr ⟨S', S, _, _, Set.union_comm S' S ▸ hSS, hs2.next hstate2,
        sound_completion hs1 hstate1 k, h2.next hstate2, exact_completion h1 hnone hstate1,
        hmerge.sameShape h1.here hs2.here hkvar hnone (mem_keys_of_follow hstate2),
        (hshape.deriv k).mergeable S, rfl⟩

/-! ## The automaton of some rules -/

lemma marker_r (r : ℕ) (l : List Item) : (marker r l).r = r := by
  unfold marker
  split <;> rfl

lemma sound_single {r : ℕ} {ρ : Residual} {it : Item} {l : List Item}
    (hl : ρ r = some (it :: l)) {next : State} (h : Sound before {r} next (deriv ρ it.kind)) :
    Sound before {r} (.mk [marker r (it :: l)] [(it.kind, next)]) ρ := by
  have hr := marker_r r (it :: l)
  apply Along.of_next
  · refine ⟨List.pairwise_singleton _ _, List.pairwise_singleton _ _, ?_, ?_, ?_⟩
    · intro m hm
      rw [rules_mk, List.mem_singleton] at hm
      subst hm
      rw [hr]
      exact ⟨rfl, it :: l, hl, rfl⟩
    · intro k hk
      exact ⟨r, rfl, it, l, hl, (List.mem_singleton.mp hk).symm⟩
    · intro k state' hk r' hr'
      obtain ⟨rfl, rfl⟩ := step_singleton hk
      obtain ⟨m, hm, rfl⟩ := hr'
      exact ⟨_, List.mem_singleton_self _, hr.trans (h.here.marked m hm).1.symm⟩
  · intro k state' hk
    obtain ⟨rfl, rfl⟩ := step_singleton hk
    exact h

lemma exact_single {r : ℕ} {ρ : Residual} {it : Item} {l : List Item}
    (hl : ρ r = some (it :: l)) {next : State} (h : Exact {r} next (deriv ρ it.kind)) :
    Exact {r} (.mk [marker r (it :: l)] [(it.kind, next)]) ρ := by
  apply Along.of_next
  · refine ⟨?_, ?_⟩
    · intro r' hr' l' hl'
      exact ⟨_, List.mem_singleton_self _, (marker_r r _).trans hr'.symm⟩
    · intro r' hr' it' l' hl'
      rw [Set.mem_singleton_iff.mp hr', hl] at hl'
      cases hl'
      exact List.mem_singleton_self _
  · intro k state' hk
    obtain ⟨rfl, rfl⟩ := step_singleton hk
    exact h

section
variable {r : ℕ} {G : State → Residual → Prop}

/-- What holds of a state with one transition holds of the trie of a pattern. -/
lemma makeState_along (x : Pattern)
    (hsingle : ∀ ρ it l next, ρ r = some (it :: l) → G next (deriv ρ it.kind) →
      G (.mk [marker r (it :: l)] [(it.kind, next)]) ρ)
    {p : List ℕ} {next : State} {ρ : Residual} {l : List Item}
    (hl : ρ r = some (.pat x p :: l)) (h : ∀ ρ', ρ' r = some l → G next ρ') :
    G (x.makeState r p next) ρ := by
  induction x generalizing p next ρ l with
  | var id => exact hsingle _ _ _ _ hl (h _ (deriv_of_cons hl _))
  | op n x0 x1 ih0 ih1 =>
    apply hsingle _ _ _ _ hl
    have hderiv : deriv ρ (.op n) r = some (.pat x0 (p ++ [0]) :: .pat x1 (p ++ [1]) :: l) := by
      rw [deriv_of_cons hl, Item.after, if_pos rfl]
      rfl
    exact ih0 hderiv fun ρ' hl' => ih1 hl' h
  | cst x =>
    apply hsingle _ _ _ _ hl
    apply h
    rw [deriv_of_cons hl, Item.kind, Pattern.kind, Item.after, if_pos rfl]
    rfl

/-- What holds of a state with one transition, or with none, holds of the trie of a rule. -/
lemma trie_along (ps : List Pattern)
    (hnil : ∀ ρ, ρ r = some [] → G (.mk [⟨r, none, []⟩] []) ρ)
    (hsingle : ∀ ρ it l next, ρ r = some (it :: l) → G next (deriv ρ it.kind) →
      G (.mk [marker r (it :: l)] [(it.kind, next)]) ρ)
    {ρ : Residual} (hl : ρ r = some (ps.map (Item.pat · []))) : G (trie r ps) ρ := by
  induction ps generalizing ρ with
  | nil => exact hnil ρ hl
  | cons x ps ih => exact makeState_along x hsingle hl fun ρ' hl' => ih hl'

end

lemma sound_trie {r : ℕ} (ps : List Pattern) {ρ : Residual}
    (hl : ρ r = some (ps.map (Item.pat · []))) : Sound before {r} (trie r ps) ρ := by
  apply trie_along (G := Sound before {r}) ps _ _ hl
  · intro ρ hl
    apply Along.of_next
    · refine ⟨List.Pairwise.nil, List.pairwise_singleton _ _, ?_, ?_, ?_⟩
      · intro m hm
        rw [rules_mk, List.mem_singleton] at hm
        subst hm
        exact ⟨rfl, [], hl, rfl⟩
      · intro k hk
        cases hk
      · intro k state' hk
        cases hk
    · intro k state' hk
      cases hk
  · intro ρ it l next hl h
    exact sound_single hl h

lemma exact_trie {r : ℕ} (ps : List Pattern) {ρ : Residual}
    (hl : ρ r = some (ps.map (Item.pat · []))) : Exact {r} (trie r ps) ρ := by
  apply trie_along (G := Exact {r}) ps _ _ hl
  · intro ρ hl
    apply Along.of_next
    · refine ⟨?_, ?_⟩
      · intro r' hr' l' hl'
        exact ⟨_, List.mem_singleton_self _, hr'.symm⟩
      · intro r' hr' it' l' hl'
        rw [Set.mem_singleton_iff.mp hr', hl] at hl'
        cases hl'
    · intro k state' hk
      cases hk
  · intro ρ it l next hl h
    exact exact_single hl h

/-- What is left of the rules at the start. -/
def residuals (rules : List (List Pattern)) : Residual :=
  fun r => (rules[r]?).map fun ps => ps.map (Item.pat · [])

/-- The rules with the numbers from 0 to `r`. -/
lemma rules_succ (r : ℕ) : {i | i < r + 1} = {i | i < r} ∪ {r} := by
  ext i
  show i < r + 1 ↔ i < r ∨ i = r
  omega

lemma notMem_singleton (r : ℕ) : ∀ i ∈ {i | i < r}, i ∉ ({r} : Set ℕ) :=
  fun _ hlt heq => Nat.ne_of_lt hlt heq

lemma sound_addRules (hb : StrictOrder before) {ρ : Residual} (rules : List (List Pattern))
    {state : State} {r : ℕ} (hρ : ∀ i, ρ (r + i) = residuals rules i)
    (h : Sound before {i | i < r} state ρ) :
    Sound before {i | i < r + rules.length} (addRules before state r rules) ρ := by
  induction rules generalizing state r with
  | nil => exact h
  | cons ps rules ih =>
    rw [addRules, List.length_cons, show r + (rules.length + 1) = r + 1 + rules.length by omega]
    apply ih
    · intro i
      rw [show r + 1 + i = r + (i + 1) by omega, hρ]
      rfl
    · rw [rules_succ]
      exact sound_mergeState hb (notMem_singleton r) h (sound_trie ps (hρ 0))

lemma sameShape_singleton (r : ℕ) (ρ : Residual) : SameShape {r} ρ := by
  intro r1 hr1 r2 hr2 l1 l2 hl1 hl2
  rw [Set.mem_singleton_iff.mp hr1] at hl1
  rw [Set.mem_singleton_iff.mp hr2, hl1] at hl2
  rw [Option.some.inj hl2]

lemma exact_addRules (hb : StrictOrder before) {ρ : Residual} (rules : List (List Pattern))
    {state : State} {r : ℕ} (hρ : ∀ i, ρ (r + i) = residuals rules i)
    (hs : Sound before {i | i < r} state ρ) (h : Exact {i | i < r} state ρ)
    (hmerge : ∀ r, Mergeable {i | i < r} {r} ρ) :
    Exact {i | i < r + rules.length} (addRules before state r rules) ρ := by
  induction rules generalizing state r with
  | nil => exact h
  | cons ps rules ih =>
    have hs' : Sound before {r} (trie r ps) ρ := sound_trie ps (hρ 0)
    rw [addRules, List.length_cons, show r + (rules.length + 1) = r + 1 + rules.length by omega]
    apply ih
    · intro i
      rw [show r + 1 + i = r + (i + 1) by omega, hρ]
      rfl
    · rw [rules_succ]
      exact sound_mergeState hb (notMem_singleton r) hs hs'
    · rw [rules_succ]
      exact exact_mergeState hs hs' h (exact_trie ps (hρ 0)) (sameShape_singleton r ρ) (hmerge r)

/-- Nothing is left of a rule that is not there. -/
lemma foldl_deriv_of_none {ρ : Residual} {r : ℕ} (h : ρ r = none) (w : List TransKind) :
    w.foldl deriv ρ r = none := by
  induction w generalizing ρ with
  | nil => exact h
  | cons k w ih =>
    apply ih
    rw [deriv, h]
    rfl

/-- Of two rules, no automaton that is merged loses a transition. -/
lemma mergeable_of_length_le_two {rules : List (List Pattern)} (h : rules.length ≤ 2) (r : ℕ) :
    Mergeable {i | i < r} {r} (residuals rules) := by
  have hshape : r < rules.length → SameShape {i | i < r} (residuals rules) := by
    intro hr r1 hr1 r2 hr2 l1 l2 hl1 hl2
    have heq : r1 = r2 := by
      have hr1 : r1 < r := hr1
      have hr2 : r2 < r := hr2
      omega
    rw [heq, hl2] at hl1
    rw [Option.some.inj hl1]
  intro w r' hr' it l hl
  rw [Set.mem_singleton_iff.mp hr'] at hl
  have hr : r < rules.length := by
    by_contra hr
    rw [foldl_deriv_of_none (by simp [residuals, hr])] at hl
    cases hl
  exact (hshape hr).mergeable {r} w r rfl it l hl

end Faust.PatternMatcher
