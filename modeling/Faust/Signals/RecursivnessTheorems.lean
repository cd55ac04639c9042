import Faust.Signals.SymlistTheorems
import Mathlib.Algebra.Order.BigOperators.Group.List
import Mathlib.Tactic.Ring

/-!
# The levels that `annotate` gives

The number that `annotate` computes for a signal is a level: the position of the outermost open
recursion that the signal refers to. It is kept as a property of the signal, so it is right on all
the paths to the signal when these give the same level.
-/

namespace Faust.Recursivness

open Faust.Tree Outcome

section
variable {recDefs : List (Tree × Tree)} {env : List Tree} {s t r : Tree} {m n : ℕ}

/-! ## Levels -/

theorem position_eq (env : List Tree) (t : Tree) (p : ℕ) :
    position env t (p + 1) = if t ∈ env then position env t p + 1 else 0 := by
  induction env generalizing p with
  | nil => rfl
  | cons r env ih =>
    rw [position, position]
    by_cases h : r = t
    · simp [h]
    · rw [if_neg h, if_neg h, ih]
      have hne : t ≠ r := fun heq => h heq.symm
      simp [hne]

theorem position_of_notMem {p : ℕ} (h : t ∉ env) : position env t p = 0 := by
  induction env generalizing p with
  | nil => rfl
  | cons r env ih =>
    rw [List.mem_cons, not_or] at h
    rw [position, if_neg (fun heq => h.1 heq.symm), ih h.2]

theorem position_pos (h : t ∈ env) : 0 < position env t 1 := by
  rw [position_eq env t 0, if_pos h]
  omega

/-- Recursions in `env` are one further in `r :: env`. -/
theorem position_cons (hne : t ≠ r) (h : t ∈ env) :
    position (r :: env) t 1 = position env t 1 + 1 := by
  rw [position, if_neg (fun heq => hne heq.symm), position_eq, if_pos h]

theorem Refers.mem (h : Refers recDefs env s r) : r ∈ env := by
  induction h with
  | here h => exact h
  | subsignal _ _ _ _ ih => exact ih
  | definition _ _ _ ih => exact ih

/-- An open recursion refers to itself alone. -/
theorem Refers.eq_of_open (h : Refers recDefs env s r) (hs : s ∈ env)
    (hrec : (isRec recDefs s).isSome) : r = s := by
  cases h with
  | here _ => rfl
  | subsignal ht _ _ _ => simp [ht] at hrec
  | definition _ hn _ => exact absurd hs hn

theorem isLevel_open (hs : s ∈ env) (hrec : (isRec recDefs s).isSome) :
    IsLevel recDefs env s (position env s 1) := by
  constructor
  · exact Or.inr ⟨s, .here hs, rfl⟩
  · rintro p (rfl | ⟨r, hr, rfl⟩)
    · exact Nat.zero_le _
    · rw [hr.eq_of_open hs hrec]

/-- The level of a signal is the greatest one of its subsignals. -/
theorem isLevel_subsignals {ss : List Tree} (ht : isRec recDefs t = none) (hn : t ∉ env)
    (hss : getSubSignals recDefs t = some ss)
    (hle : ∀ s ∈ ss, ∃ m ≤ n, IsLevel recDefs env s m)
    (hmem : n = 0 ∨ ∃ s ∈ ss, IsLevel recDefs env s n) : IsLevel recDefs env t n := by
  constructor
  · rcases hmem with rfl | ⟨s, hs, hlevel⟩
    · exact Or.inl rfl
    · rcases hlevel.1 with rfl | ⟨r, hr, hpos⟩
      · exact Or.inl rfl
      · exact Or.inr ⟨r, .subsignal ht hss hs hr, hpos⟩
  · rintro p (rfl | ⟨r, hr, rfl⟩)
    · exact Nat.zero_le _
    · cases hr with
      | here h => exact absurd h hn
      | definition hrec _ _ => simp [ht] at hrec
      | @subsignal _ s _ ss' _ hss' hs hr =>
        obtain rfl := Option.some.inj (hss.symm.trans hss')
        obtain ⟨m, hm, hlevel⟩ := hle s hs
        exact (hlevel.2 (Or.inr ⟨r, hr, rfl⟩)).trans hm

theorem Refers.of_cons (h : Refers recDefs (t :: env) s r) (hne : r ≠ t) :
    Refers recDefs env s r := by
  induction h with
  | here h => exact .here ((List.mem_cons.1 h).resolve_left hne)
  | subsignal ht hss hs _ ih => exact .subsignal ht hss hs (ih hne)
  | definition ht hn _ ih =>
    exact .definition ht (fun hmem => hn (List.mem_cons_of_mem _ hmem)) (ih hne)

/-- What a signal refers to is referred to not through `t`, or by the definition of `t`. -/
theorem Refers.cons {body : Tree} (ht : isRec recDefs t = some body)
    (h : Refers recDefs env s r) :
    Refers recDefs (t :: env) s r ∨ Refers recDefs (t :: env) body r := by
  induction h with
  | here h => exact Or.inl (.here (List.mem_cons_of_mem _ h))
  | subsignal hu hss hs _ ih => exact ih.imp_left fun h => .subsignal hu hss hs h
  | @definition u body' r hu hn _ ih =>
    by_cases heq : u = t
    · subst heq
      obtain rfl := Option.some.inj (hu.symm.trans ht)
      exact Or.inr (ih.elim id id)
    · exact ih.imp_left fun h => .definition hu (by simp [heq, hn]) h

/-- The level of a recursion is one less than that of its definition. -/
theorem isLevel_definition {body : Tree} (ht : isRec recDefs t = some body) (hn : t ∉ env)
    (h : IsLevel recDefs (t :: env) body m) : IsLevel recDefs env t (m - 1) := by
  have hpos : ∀ r ∈ env, position (t :: env) r 1 = position env r 1 + 1 := fun r hr =>
    position_cons (fun heq => hn (heq ▸ hr)) hr
  constructor
  · rcases h.1 with rfl | ⟨r, hr, rfl⟩
    · exact Or.inl rfl
    · by_cases heq : r = t
      · subst heq
        exact Or.inl (by simp [position])
      · have hmem := (List.mem_cons.1 hr.mem).resolve_left heq
        refine Or.inr ⟨r, .definition ht hn (hr.of_cons heq), ?_⟩
        rw [hpos r hmem]
        omega
  · rintro p (rfl | ⟨r, hr, rfl⟩)
    · exact Nat.zero_le _
    · have hbody : Refers recDefs (t :: env) body r := by
        cases hr with
        | here h => exact absurd h hn
        | subsignal hnone _ _ _ => simp [ht] at hnone
        | definition hbody' _ hr =>
          obtain rfl := Option.some.inj (ht.symm.trans hbody')
          exact (hr.cons ht).elim id id
      have hle := h.2 (Or.inr ⟨r, hbody, rfl⟩)
      rw [hpos r hr.mem] at hle
      omega

end

/-! ## A visit -/

section
variable (recDefs : List (Tree × Tree)) (root : Tree)

/-- What is visited for the value of a signal. -/
inductive Next (t : Tree) : Tree → Prop
  | subsignal {s : Tree} {ss : List Tree} (ht : isRec recDefs t = none)
      (hss : getSubSignals recDefs t = some ss) (hs : s ∈ ss) : Next t s
  | definition {body : Tree} (ht : isRec recDefs t = some body) : Next t body

/-- What holds of the annotations while the signals of `ρ` are visited. -/
structure Inv (ρ : List Tree) (A : RecursivnessProp) : Prop where
  /-- A signal that has been visited has its level. -/
  outer : ∀ s n, A s = some n → s ∉ ρ → ∀ ρ', Path recDefs root ρ' s → s ∉ ρ' →
    IsLevel recDefs (openRecs recDefs ρ') s n
  /-- A signal that has been met inside itself has its level there. -/
  inner : ∀ s n, A s = some n → ∀ ρ₁ ρ₀, ρ = ρ₁ ++ s :: ρ₀ → s ∉ ρ₀ →
    isRec recDefs s = none ∧ ∀ ρ₂, Path recDefs root (ρ₂ ++ s :: ρ₀) s →
      IsLevel recDefs (openRecs recDefs (ρ₂ ++ s :: ρ₀)) s n
  closed : ∀ s t, (A s).isSome → s ∉ ρ → Next recDefs s t → (A t).isSome ∨ t ∈ ρ

/-- A visit of a signal, in the state `A`: its level is computed, and nothing is forgotten. -/
def Visits (ρ : List Tree) (s : Tree) (A : RecursivnessProp) (n : ℕ) (A' : RecursivnessProp) :
    Prop :=
  IsLevel recDefs (openRecs recDefs ρ) s n ∧ Inv recDefs root ρ A' ∧
    (∀ t, (A t).isSome → (A' t).isSome) ∧ ((A' s).isSome ∨ s ∈ ρ)

variable {recDefs root} {ρ : List Tree} {A A' : RecursivnessProp} {s t : Tree} {n : ℕ}

theorem mem_openRecs : t ∈ openRecs recDefs ρ ↔ t ∈ ρ ∧ (isRec recDefs t).isSome :=
  List.mem_filter

theorem openRecs_cons_rec {body : Tree} (h : isRec recDefs t = some body) :
    openRecs recDefs (t :: ρ) = t :: openRecs recDefs ρ := by
  rw [openRecs, List.filter_cons_of_pos (by simp [h])]
  rfl

theorem openRecs_cons_none (h : isRec recDefs t = none) :
    openRecs recDefs (t :: ρ) = openRecs recDefs ρ := by
  rw [openRecs, List.filter_cons_of_neg (by simp [h])]
  rfl

/-- A list that has an element has it last somewhere. -/
theorem exists_last_mem (h : s ∈ ρ) : ∃ ρ₁ ρ₀, ρ = ρ₁ ++ s :: ρ₀ ∧ s ∉ ρ₀ := by
  induction ρ with
  | nil => simp at h
  | cons t ρ ih =>
    by_cases hs : s ∈ ρ
    · obtain ⟨ρ₁, ρ₀, rfl, hn⟩ := ih hs
      exact ⟨t :: ρ₁, ρ₀, rfl, hn⟩
    · rcases List.mem_cons.1 h with rfl | h
      · exact ⟨[], ρ, rfl, hs⟩
      · exact absurd h hs

/-- A signal that has no value yet begins to be visited. -/
theorem Inv.push (h : Inv recDefs root ρ A) (hs : A s = none) : Inv recDefs root (s :: ρ) A where
  outer t n ht hn := h.outer t n ht fun hmem => hn (List.mem_cons_of_mem _ hmem)
  inner t n ht ρ₁ ρ₀ heq hn := by
    have hne : t ≠ s := by
      intro hts
      rw [hts, hs] at ht
      cases ht
    cases ρ₁ with
    | nil =>
      obtain ⟨rfl, _⟩ := List.cons.inj heq
      exact absurd rfl hne
    | cons u ρ₁ => exact h.inner t n ht ρ₁ ρ₀ (List.cons.inj heq).2 hn
  closed t u ht hn hu :=
    (h.closed t u ht (fun hmem => hn (List.mem_cons_of_mem _ hmem)) hu).imp_right
      (List.mem_cons_of_mem _)

/-- A signal that has been visited gets its value. -/
theorem Inv.pop (hsame : SameLevels recDefs root) (hinner : SameInnerLevels recDefs root)
    (h : Inv recDefs root (s :: ρ) A) (hpath : Path recDefs root ρ s)
    (hrec : (isRec recDefs s).isSome → s ∉ ρ)
    (hlevel : IsLevel recDefs (openRecs recDefs ρ) s n)
    (hnext : ∀ t, Next recDefs s t → (A t).isSome ∨ t ∈ s :: ρ) :
    Inv recDefs root ρ (Function.update A s (some n)) := by
  have hother : ∀ t, t ≠ s → Function.update A s (some n) t = A t := fun t ht =>
    Function.update_of_ne ht _ _
  have hmore : ∀ t, (A t).isSome ∨ t ∈ s :: ρ →
      (Function.update A s (some n) t).isSome ∨ t ∈ ρ := by
    intro t ht
    by_cases hts : t = s
    · rw [hts, Function.update_self]
      exact Or.inl rfl
    · rw [hother t hts]
      exact ht.imp_right fun hmem => (List.mem_cons.1 hmem).resolve_left hts
  constructor
  · intro t m ht hn ρ' hρ' hn'
    by_cases hts : t = s
    · subst hts
      rw [Function.update_self, Option.some.injEq] at ht
      exact hsame ρ ρ' t m hpath hρ' hn hn' (ht ▸ hlevel)
    · rw [hother t hts] at ht
      exact h.outer t m ht (by simp [hts, hn]) ρ' hρ' hn'
  · intro t m ht ρ₁ ρ₀ heq hn
    by_cases hts : t = s
    · subst hts
      rw [Function.update_self, Option.some.injEq] at ht
      have hmem : t ∈ ρ := by simp [heq]
      have hnone : isRec recDefs t = none := by
        by_contra hsome
        exact hrec (Option.isSome_iff_ne_none.2 hsome) hmem
      subst heq
      exact ⟨hnone, fun ρ₂ hρ₂ => hinner ρ₀ ρ₁ ρ₂ t m hpath hρ₂ hn hnone (ht ▸ hlevel)⟩
    · rw [hother t hts] at ht
      exact h.inner t m ht (s :: ρ₁) ρ₀ (by rw [heq]; rfl) hn
  · intro t u ht hn hu
    apply hmore
    by_cases hts : t = s
    · subst hts
      exact hnext u hu
    · rw [hother t hts] at ht
      exact h.closed t u ht (by simp [hts, hn]) hu

/-- The value of a signal that has one already. -/
theorem Inv.known (h : Inv recDefs root ρ A) (hpath : Path recDefs root ρ s) (hs : A s = some n) :
    Visits recDefs root ρ s A n A := by
  refine ⟨?_, h, fun _ ht => ht, Or.inl (by rw [hs]; rfl)⟩
  by_cases hmem : s ∈ ρ
  · obtain ⟨ρ₁, ρ₀, heq, hn⟩ := exists_last_mem hmem
    subst heq
    exact (h.inner s n hs ρ₁ ρ₀ rfl hn).2 ρ₁ hpath
  · exact h.outer s n hs hmem ρ hpath hmem

/-- The loop of `annotate`. -/
theorem ends_levels {E : Failure → Prop}
    {visit : Tree → StateT RecursivnessProp (Except Failure) ℕ} {ss : List Tree} {k : ℕ} (hA : Inv recDefs root ρ A)
    (hvisit : ∀ s ∈ ss, ∀ A, Inv recDefs root ρ A →
      Ends (visit s) A E fun n A' => Visits recDefs root ρ s A n A') :
    Ends (ss.foldlM (fun rmax s => max rmax <$> visit s) k) A E fun n A' =>
      Inv recDefs root ρ A' ∧ (∀ t, (A t).isSome → (A' t).isSome) ∧
        (∀ s ∈ ss, (A' s).isSome ∨ s ∈ ρ) ∧ k ≤ n ∧
        (∀ s ∈ ss, ∃ m ≤ n, IsLevel recDefs (openRecs recDefs ρ) s m) ∧
        (n = k ∨ ∃ s ∈ ss, IsLevel recDefs (openRecs recDefs ρ) s n) := by
  induction ss generalizing k A with
  | nil => exact Ends.pure ⟨hA, fun _ ht => ht, by simp, le_rfl, by simp, Or.inl rfl⟩
  | cons s ss ih =>
    rw [List.foldlM_cons]
    apply Ends.bind (Q := fun k' A' => ∃ m, k' = max k m ∧ Visits recDefs root ρ s A m A')
    · apply Ends.map
      apply (hvisit s List.mem_cons_self A hA).mono
      intro m A' h
      exact ⟨m, rfl, h⟩
    · intro k' A' h
      obtain ⟨m, rfl, hlevel, hA', hmore, hs⟩ := h
      apply (ih hA' fun t ht => hvisit t (List.mem_cons_of_mem _ ht)).mono
      intro n A'' h
      obtain ⟨hA'', hmore', hss, hle, hlevels, hmax⟩ := h
      refine ⟨hA'', fun t ht => hmore' t (hmore t ht), ?_, (le_max_left k m).trans hle, ?_, ?_⟩
      · intro t ht
        rcases List.mem_cons.1 ht with rfl | ht
        · exact hs.imp_left (hmore' t)
        · exact hss t ht
      · intro t ht
        rcases List.mem_cons.1 ht with rfl | ht
        · exact ⟨m, (le_max_right k m).trans hle, hlevel⟩
        · exact hlevels t ht
      · rcases hmax with hmax | ⟨t, ht, hmax⟩
        · rcases max_choice k m with hk | hm
          · exact Or.inl (hmax.trans hk)
          · refine Or.inr ⟨s, List.mem_cons_self, ?_⟩
            rw [hmax, hm]
            exact hlevel
        · exact Or.inr ⟨t, List.mem_cons_of_mem _ ht, hmax⟩

/-! ## The fuel of a visit -/

theorem Path.mem_treesOf (h : Path recDefs root ρ s) : s ∈ treesOf recDefs root := by
  induction h with
  | root => exact mem_treesOf_self root
  | subsignal _ _ hss hs ih => exact mem_treesOf_getSubSignals ih hss hs
  | definition _ hr _ _ => exact mem_treesOf_isRec hr

/-- The sizes of the signals are at most this. -/
def sizeBound (recDefs : List (Tree × Tree)) (root : Tree) : ℕ :=
  ((treesOf recDefs root).map size).sum

theorem Path.size_le (h : Path recDefs root ρ s) : s.size ≤ sizeBound recDefs root :=
  List.single_le_sum (by simp) _ (List.mem_map_of_mem h.mem_treesOf)

/-- The number of recursions that are not open. -/
def pending (recDefs : List (Tree × Tree)) (ρ : List Tree) : ℕ :=
  ((recDefs.map Prod.fst).toFinset.filter fun r => r ∉ ρ).card

theorem pending_cons_le (t : Tree) (ρ : List Tree) :
    pending recDefs (t :: ρ) ≤ pending recDefs ρ := by
  apply Finset.card_le_card
  intro r hr
  rw [Finset.mem_filter, List.mem_cons, not_or] at hr
  exact Finset.mem_filter.2 ⟨hr.1, hr.2.2⟩

theorem mem_recDefs {body : Tree} (h : isRec recDefs t = some body) :
    t ∈ (recDefs.map Prod.fst).toFinset := by
  unfold isRec at h
  split at h
  · obtain ⟨d, hd, _⟩ := Option.map_eq_some_iff.1 h
    have heq := List.find?_some hd
    rw [List.mem_toFinset, ← of_decide_eq_true heq]
    exact List.mem_map_of_mem (List.mem_of_find?_eq_some hd)
  · cases h

theorem pending_cons_lt {body : Tree} (h : isRec recDefs t = some body) (hn : t ∉ ρ) :
    pending recDefs (t :: ρ) < pending recDefs ρ := by
  apply Finset.card_lt_card
  refine ⟨fun r hr => ?_, fun hsub => ?_⟩
  · rw [Finset.mem_filter, List.mem_cons, not_or] at hr
    exact Finset.mem_filter.2 ⟨hr.1, hr.2.2⟩
  · have hmem := hsub (Finset.mem_filter.2 ⟨mem_recDefs h, hn⟩)
    exact (Finset.mem_filter.1 hmem).2 List.mem_cons_self

/-! ## The traversal -/

theorem size_lt_of_getSubSignals {ss : List Tree} (ht : isRec recDefs t = none)
    (hss : getSubSignals recDefs t = some ss) (hs : s ∈ ss) : s.size < t.size := by
  unfold getSubSignals at hss
  split at hss
  · simp [ht] at hss
  · exact size_lt_of_mem_getSubSignals hss hs

variable {subsignals : Tree → Option (List Tree)}

/-- `annotate`, with enough fuel for the recursions that are not open and for the signal. -/
theorem ends_annotate (haccepted : Accepted recDefs root) (horder : IsOrder recDefs subsignals)
    (hsame : SameLevels recDefs root) (hinner : SameInnerLevels recDefs root) (fuel : ℕ)
    (hpath : Path recDefs root ρ s) (hA : Inv recDefs root ρ A)
    (hfuel : pending recDefs ρ * (sizeBound recDefs root + 1) + s.size ≤ fuel) :
    Ends (annotate recDefs subsignals fuel (openRecs recDefs ρ) s) A (fun _ => False)
      fun n A' => Visits recDefs root ρ s A n A' := by
  induction fuel generalizing ρ s A with
  | zero =>
    have := s.size_pos
    omega
  | succ fuel ih =>
    rw [annotate]
    apply Ends.bind (Ends.get (Q := fun B B' => A = B ∧ A = B') ⟨rfl, rfl⟩)
    intro B B' hB
    obtain ⟨rfl, rfl⟩ := hB
    split
    · next n hn => exact .pure (hA.known hpath hn)
    next hnone =>
    split
    · next body hbody =>
      have hmem : s ∈ openRecs recDefs ρ ↔ s ∈ ρ := by simp [mem_openRecs, hbody]
      have hrec : (isRec recDefs s).isSome := by rw [hbody]; rfl
      dsimp only
      split
      · -- the recursion is open
        next hpos =>
        have hs : s ∈ openRecs recDefs ρ := by
          by_contra hn
          rw [position_of_notMem hn] at hpos
          omega
        exact .pure ⟨isLevel_open hs hrec, hA, fun _ ht => ht, Or.inr (hmem.1 hs)⟩
      · next hpos =>
        have hs : s ∉ openRecs recDefs ρ := fun hs => hpos (position_pos hs)
        have hn : s ∉ ρ := fun h => hs (hmem.2 h)
        have hpath' : Path recDefs root (s :: ρ) body := .definition hpath hbody hn
        have hbound : pending recDefs (s :: ρ) * (sizeBound recDefs root + 1) + body.size ≤
            fuel := by
          have hlt := pending_cons_lt hbody hn
          have hmul : (pending recDefs (s :: ρ) + 1) * (sizeBound recDefs root + 1) ≤
              pending recDefs ρ * (sizeBound recDefs root + 1) := Nat.mul_le_mul_right _ hlt
          have hexp : (pending recDefs (s :: ρ) + 1) * (sizeBound recDefs root + 1) =
              pending recDefs (s :: ρ) * (sizeBound recDefs root + 1) +
                (sizeBound recDefs root + 1) := by ring
          have := hpath'.size_le
          have := s.size_pos
          omega
        rw [← openRecs_cons_rec hbody]
        apply Ends.bind (ih hpath' (hA.push hnone) hbound)
        intro m A₁ h
        obtain ⟨hlevel, hA₁, hmore, hbody'⟩ := h
        rw [openRecs_cons_rec hbody] at hlevel
        have hlevel' := isLevel_definition hbody hs hlevel
        apply Ends.bind (Ends.modify (Q := fun _ A₂ =>
          A₂ = Function.update A₁ s (some (m - 1))) rfl)
        intro _ A₂ hA₂
        subst hA₂
        refine .pure ⟨hlevel', hA₁.pop hsame hinner hpath (fun _ => hn) hlevel' ?_, ?_, ?_⟩
        · intro t ht
          cases ht with
          | subsignal hnone' _ _ => simp [hbody] at hnone'
          | definition ht =>
            obtain rfl := Option.some.inj (hbody.symm.trans ht)
            exact hbody'
        · intro t ht
          by_cases hts : t = s
          · simp [hts]
          · rw [Function.update_of_ne hts]
            exact hmore t ht
        · simp
    · next hrec =>
      obtain ⟨ss, hss⟩ := Option.isSome_iff_exists.1 (haccepted ρ s hpath hrec)
      have hrel := horder s
      rw [hss] at hrel
      split
      · next heq => rw [heq] at hrel; cases hrel
      next v heq =>
      rw [heq] at hrel
      have hperm : v.Perm ss := by cases hrel; assumption
      have hopen : openRecs recDefs (s :: ρ) = openRecs recDefs ρ := openRecs_cons_none hrec
      have hs : s ∉ openRecs recDefs (s :: ρ) := by simp [mem_openRecs, hrec]
      have hvisit : ∀ t ∈ v, ∀ A, Inv recDefs root (s :: ρ) A →
          Ends (annotate recDefs subsignals fuel (openRecs recDefs ρ) t) A (fun _ => False)
            fun n A' => Visits recDefs root (s :: ρ) t A n A' := by
        intro t ht A hA
        rw [← hopen]
        have ht := hperm.mem_iff.1 ht
        apply ih (.subsignal hpath hrec hss ht) hA
        have hpending : pending recDefs (s :: ρ) ≤ pending recDefs ρ := pending_cons_le s ρ
        have hle := Nat.mul_le_mul_right (sizeBound recDefs root + 1) hpending
        have := size_lt_of_getSubSignals hrec hss ht
        omega
      apply Ends.bind (ends_levels (hA.push hnone) hvisit)
      intro n A₁ h
      obtain ⟨hA₁, hmore, hall, _, hle, hmax⟩ := h
      have hlevel : IsLevel recDefs (openRecs recDefs (s :: ρ)) s n := by
        apply isLevel_subsignals hrec hs hss
        · intro t ht
          exact hle t (hperm.mem_iff.2 ht)
        · exact hmax.imp_right fun ⟨t, ht, hlevel⟩ => ⟨t, hperm.mem_iff.1 ht, hlevel⟩
      rw [hopen] at hlevel
      apply Ends.bind (Ends.modify (Q := fun _ A₂ => A₂ = Function.update A₁ s (some n)) rfl)
      intro _ A₂ hA₂
      subst hA₂
      refine .pure ⟨hlevel, hA₁.pop hsame hinner hpath (by simp [hrec]) hlevel ?_, ?_, ?_⟩
      · intro t ht
        cases ht with
        | definition hbody => simp [hrec] at hbody
        | subsignal _ hss' ht =>
          obtain rfl := Option.some.inj (hss.symm.trans hss')
          exact hall t (hperm.mem_iff.2 ht)
      · intro t ht
        by_cases hts : t = s
        · simp [hts]
        · rw [Function.update_of_ne hts]
          exact hmore t ht
      · simp

/-- Once the root is annotated, all that is visited is. -/
theorem Inv.annotated (h : Inv recDefs root [] A) (hroot : (A root).isSome)
    (hpath : Path recDefs root ρ s) : (A s).isSome := by
  have hnext : ∀ {t u}, (A t).isSome → Next recDefs t u → (A u).isSome := fun ht hu =>
    (h.closed _ _ ht List.not_mem_nil hu).resolve_right List.not_mem_nil
  induction hpath with
  | root => exact hroot
  | subsignal _ ht hss hs ih => exact hnext ih (.subsignal ht hss hs)
  | definition _ hr _ ih => exact hnext ih (.definition hr)

theorem annotatesLevels_of_same (haccepted : Accepted recDefs root)
    (horder : IsOrder recDefs subsignals) (hsame : SameLevels recDefs root)
    (hinner : SameInnerLevels recDefs root) : AnnotatesLevels recDefs subsignals root := by
  refine ⟨pending recDefs [] * (sizeBound recDefs root + 1) + root.size, fun fuel hfuel => ?_⟩
  have hstart : Inv recDefs root [] fun _ => none := by
    constructor
    · intro s n hs
      cases hs
    · intro s n hs
      cases hs
    · intro s t hs
      cases hs
  have hends : Ends (annotate recDefs subsignals fuel [] root) (fun _ => none) _ _ :=
    ends_annotate haccepted horder hsame hinner fuel .root hstart hfuel
  rcases hends.cases with ⟨n, A, heq, _, hA, _, hroot⟩ | ⟨_, _, hfalse⟩
  · refine ⟨A, by unfold recursivnessAnnotation; rw [heq]; rfl, ?_⟩
    intro ρ s hpath hs
    have hroot : (A root).isSome := hroot.resolve_right List.not_mem_nil
    obtain ⟨r, hr⟩ := Option.isSome_iff_exists.1 (hA.annotated hroot hpath)
    exact ⟨r, hr, hA.outer s r hr List.not_mem_nil ρ hpath hs⟩
  · exact hfalse.elim

theorem isOrder_getSubSignals : IsOrder recDefs (getSubSignals recDefs) := by
  intro t
  cases getSubSignals recDefs t with
  | none => exact .none
  | some ss => exact .some (.refl ss)

/-- What is annotated has one level. -/
theorem SameLevels.of_annotatesLevels (h : AnnotatesLevels recDefs subsignals root) :
    SameLevels recDefs root := by
  intro ρ ρ' s n hρ hρ' hs hs' hn
  obtain ⟨m, hm⟩ := h
  obtain ⟨prop, _, hprop⟩ := hm m le_rfl
  obtain ⟨r, hr, hlevel⟩ := hprop ρ s hρ hs
  obtain ⟨r', hr', hlevel'⟩ := hprop ρ' s hρ' hs'
  have hrn : r = n := hlevel.unique hn
  rw [hr, Option.some.injEq] at hr'
  rwa [← hrn, hr']

end

/-- Whatever the order of the visit, the annotation of a signal gives to each subsignal its level,
when a subsignal has the same level on all the paths that lead to it, and wherever it is met inside
itself. The first condition is necessary. -/
theorem annotatesLevels (recDefs : List (Tree × Tree)) (root : Tree)
    (haccepted : Accepted recDefs root) :
    (SameLevels recDefs root ∧ SameInnerLevels recDefs root →
      ∀ subsignals, IsOrder recDefs subsignals → AnnotatesLevels recDefs subsignals root) ∧
    ((∀ subsignals, IsOrder recDefs subsignals → AnnotatesLevels recDefs subsignals root) →
      SameLevels recDefs root) :=
  ⟨fun h _ horder => annotatesLevels_of_same haccepted horder h.1 h.2,
    fun h => .of_annotatesLevels (h _ isOrder_getSubSignals)⟩

/-! ## Loops -/

/-- The paths that go one signal further. -/
def nextPaths (recDefs : List (Tree × Tree)) (x : List Tree × Tree) : List (List Tree × Tree) :=
  match isRec recDefs x.2 with
  | some body => if x.2 ∈ x.1 then [] else [(x.2 :: x.1, body)]
  | none => ((getSubSignals recDefs x.2).getD []).map fun s => (x.2 :: x.1, s)

theorem Path.mem_of_closed {recDefs : List (Tree × Tree)} {root s : Tree} {ρ : List Tree}
    {l : List (List Tree × Tree)} (h : Path recDefs root ρ s) (hroot : ([], root) ∈ l)
    (hclosed : ∀ x ∈ l, ∀ y ∈ nextPaths recDefs x, y ∈ l) : (ρ, s) ∈ l := by
  induction h with
  | root => exact hroot
  | subsignal _ ht hss hs ih =>
    apply hclosed _ ih
    simp only [nextPaths, ht, hss, Option.getD_some]
    exact List.mem_map_of_mem hs
  | definition _ hr hn ih =>
    apply hclosed _ ih
    simp only [nextPaths, hr, if_neg hn]
    exact List.mem_singleton_self _

/-- `X[0]`. -/
def loopOutput : Tree := sigProj 0 (symRef (.user "X"))

/-- `X[0]@1`. -/
def loopDelay : Tree := .node (.sym .sigFixDelay) [loopOutput, sigInt 1]

/-- `X = (X[0]@1 + in)`. -/
def loopBody : Tree := ofList [sigAdd loopDelay (sigInput 0)]

def loopDefs : List (Tree × Tree) := [(symRef (.user "X"), loopBody)]

/-- The paths from `X[0]`. -/
def loopPaths : List (List Tree × Tree) :=
  let X := symRef (.user "X")
  let sum := sigAdd loopDelay (sigInput 0)
  [([], loopOutput), ([loopOutput], X), ([X, loopOutput], loopBody),
    ([loopBody, X, loopOutput], sum), ([loopBody, X, loopOutput], nil),
    ([sum, loopBody, X, loopOutput], loopDelay), ([sum, loopBody, X, loopOutput], sigInput 0),
    ([loopDelay, sum, loopBody, X, loopOutput], loopOutput),
    ([loopDelay, sum, loopBody, X, loopOutput], sigInt 1),
    ([loopOutput, loopDelay, sum, loopBody, X, loopOutput], X)]

theorem annotatesLevels_loop :
    AnnotatesLevels loopDefs (getSubSignals loopDefs) loopOutput := by
  have hmem : ∀ {ρ s}, Path loopDefs loopOutput ρ s → (ρ, s) ∈ loopPaths := fun h =>
    h.mem_of_closed (by decide +kernel) (by decide +kernel)
  apply (annotatesLevels loopDefs loopOutput _).1 ⟨_, _⟩ _ isOrder_getSubSignals
  · intro ρ t ht
    have hall : ∀ x ∈ loopPaths, isRec loopDefs x.2 = none →
        (getSubSignals loopDefs x.2).isSome := by decide +kernel
    exact hall _ (hmem ht)
  · -- the paths to a signal that do not go through it are one
    intro ρ ρ' s n hρ hρ' hs hs' hn
    have hall : ∀ x ∈ loopPaths, ∀ y ∈ loopPaths, x.2 = y.2 → x.2 ∉ x.1 → y.2 ∉ y.1 →
        x.1 = y.1 := by decide +kernel
    have heq : ρ = ρ' := hall _ (hmem hρ) _ (hmem hρ') rfl hs hs'
    exact heq ▸ hn
  · intro ρ ρ₁ ρ₂ s n h₁ h₂ hs hrec hn
    have hall : ∀ x ∈ loopPaths, ∀ y ∈ loopPaths, x.2 = y.2 → x.2 ∈ x.1 → y.2 ∈ y.1 →
        x.1 = y.1 := by decide +kernel
    have heq : ρ₁ ++ s :: ρ = ρ₂ ++ s :: ρ :=
      hall _ (hmem h₁) _ (hmem h₂) rfl (by simp) (by simp)
    exact heq ▸ hn

/-- The outputs `X[0]` and `X[0]@1`. -/
def loopOutputs : Tree := ofList [loopOutput, loopDelay]

/-- The subsignals in reverse order. -/
def reversed (t : Tree) : Option (List Tree) := (getSubSignals loopDefs t).map List.reverse

/-- The signal `X[0]@1` is at level one when it is met first in the definition of `X`, and at level
zero when it is met first as an output. -/
theorem loopDelay_order :
    ( recursivnessAnnotation loopDefs (getSubSignals loopDefs) 20 loopOutputs).map
      (fun prop => prop loopDelay) = .ok (some 1) ∧
    ( recursivnessAnnotation loopDefs reversed 20 loopOutputs).map
      (fun prop => prop loopDelay) = .ok (some 0) ∧
    IsOrder loopDefs (getSubSignals loopDefs) ∧ IsOrder loopDefs reversed ∧
    ¬ ∀ subsignals, IsOrder loopDefs subsignals →
      AnnotatesLevels loopDefs subsignals loopOutputs := by
  refine ⟨by decide +kernel, by decide +kernel, isOrder_getSubSignals, ?_, ?_⟩
  · intro t
    rw [reversed]
    cases getSubSignals loopDefs t with
    | none => exact .none
    | some ss => exact .some (List.reverse_perm ss)
  · intro hall
    have hsame := SameLevels.of_annotatesLevels (hall _ isOrder_getSubSignals)
    have hnil : Path loopDefs loopOutputs [loopOutputs] (ofList [loopDelay]) :=
      .subsignal .root rfl rfl (by decide +kernel)
    have houter : Path loopDefs loopOutputs [ofList [loopDelay], loopOutputs] loopDelay :=
      .subsignal hnil rfl rfl (by decide +kernel)
    have hoff : Path loopDefs loopOutputs [loopOutputs] loopOutput :=
      .subsignal .root rfl rfl (by decide +kernel)
    have hX : Path loopDefs loopOutputs [loopOutput, loopOutputs] (symRef (.user "X")) :=
      .subsignal hoff rfl rfl (by decide +kernel)
    have hbody : Path loopDefs loopOutputs _ loopBody := .definition hX rfl (by decide +kernel)
    have hsum : Path loopDefs loopOutputs _ (sigAdd loopDelay (sigInput 0)) :=
      .subsignal hbody rfl rfl (by decide +kernel)
    have hinner : Path loopDefs loopOutputs _ loopDelay :=
      .subsignal hsum rfl rfl (by decide +kernel)
    have hzero : IsLevel loopDefs (openRecs loopDefs [ofList [loopDelay], loopOutputs])
        loopDelay 0 := by
      refine ⟨Or.inl rfl, ?_⟩
      rintro p (rfl | ⟨r, hr, _⟩)
      · exact le_rfl
      · cases hr.mem
    have hlevel := hsame _ _ _ _ houter hinner (by decide +kernel) (by decide +kernel) hzero
    have hopen : openRecs loopDefs [sigAdd loopDelay (sigInput 0), loopBody,
        symRef (.user "X"), loopOutput, loopOutputs] = [symRef (.user "X")] := by decide +kernel
    rw [hopen] at hlevel
    -- the delay refers to `X` through its operand
    have hrefers : Refers loopDefs [symRef (.user "X")] loopDelay (symRef (.user "X")) :=
      .subsignal rfl rfl List.mem_cons_self
        (.subsignal rfl rfl List.mem_cons_self (.here List.mem_cons_self))
    have hle := hlevel.2 (Or.inr ⟨_, hrefers, rfl⟩)
    exact absurd hle (by decide +kernel)

end Faust.Recursivness
