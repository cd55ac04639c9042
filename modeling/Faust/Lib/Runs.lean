import Mathlib.Data.List.Induction
import Mathlib.Data.List.Nodup

/-!
# Runs of a list

The runs of a list of keyed values: consecutive values of one key are put together. The runs are
kept with the last one first. A key has one run only exactly when the list never leaves the key
and comes back to it.
-/

namespace Runs

variable {α β : Type}

/-! ## Keys that never come back -/

/-- The keys never come back: no key stands before and after another one. -/
def NoReturn (keys : List α) : Prop := ∀ a b, [a, b, a].Sublist keys → a = b

/-- A pair below the end of a list, when the first of the two is not last. -/
theorem pair_sublist {ks : List α} {a : α} (hmem : a ∈ ks) (hlast : ks.getLast? ≠ some a) :
    ∃ b, b ≠ a ∧ [a, b].Sublist ks := by
  induction ks using List.reverseRecOn with
  | nil => cases hmem
  | append_singleton ks b _ =>
    have hb : b ≠ a := by
      intro h
      simp [h] at hlast
    have hin : a ∈ ks := by
      rcases List.mem_append.1 hmem with h | h
      · exact h
      · exact absurd (by simpa using h) hb.symm
    refine ⟨b, hb, ?_⟩
    have hpair := (List.singleton_sublist.2 hin).append (List.Sublist.refl [b])
    simpa using hpair

/-- What stands in a list with one more element stands before it, or ends with it. -/
theorem sublist_concat {l ks : List α} {k : α} (h : l.Sublist (ks ++ [k])) :
    l.Sublist ks ∨ ∃ l', l = l' ++ [k] ∧ l'.Sublist ks := by
  obtain ⟨l₁, l₂, rfl, h₁, h₂⟩ := List.sublist_append_iff.1 h
  rcases List.sublist_singleton.1 h₂ with rfl | rfl
  · exact Or.inl (by simpa using h₁)
  · exact Or.inr ⟨l₁, rfl, h₁⟩

/-- A key that is added a second time in a row does not come back. -/
theorem NoReturn.concat_last {ks : List α} {k : α} (h : NoReturn ks)
    (hlast : ks.getLast? = some k) : NoReturn (ks ++ [k]) := by
  intro a b hsub
  rcases sublist_concat hsub with hsub | ⟨l, heq, hl⟩
  · exact h a b hsub
  · obtain ⟨rfl, rfl⟩ : [a, b] = l ∧ a = k := by
      simpa using List.append_inj' (show [a, b] ++ [a] = l ++ [k] from heq) rfl
    obtain ⟨ks', rfl⟩ := List.getLast?_eq_some_iff.1 hlast
    rcases sublist_concat hl with hl | ⟨l, heq, _⟩
    · exact h a b (by simpa using hl.append (List.Sublist.refl [a]))
    · have := List.append_inj' (show [a] ++ [b] = l ++ [a] from heq) rfl
      simp_all

/-! ## Runs -/

variable [DecidableEq α]

/-- The runs, with one more value. -/
def add (rs : List (α × List β)) (p : α × β) : List (α × List β) :=
  match rs with
  | [] => [(p.1, [p.2])]
  | (a, bs) :: rest => if a = p.1 then (a, bs ++ [p.2]) :: rest else (p.1, [p.2]) :: rs

/-- The runs of a list. -/
def runs (l : List (α × β)) : List (α × List β) := l.foldl add []

/-- The values of a key. -/
def valuesOf (a : α) (l : List (α × β)) : List β := (l.filter fun p => p.1 = a).map Prod.snd

@[simp] theorem runs_nil : runs ([] : List (α × β)) = [] := rfl

theorem runs_concat (l : List (α × β)) (p : α × β) : runs (l ++ [p]) = add (runs l) p := by
  simp [runs]

theorem valuesOf_concat (a : α) (l : List (α × β)) (p : α × β) :
    valuesOf a (l ++ [p]) = valuesOf a l ++ if p.1 = a then [p.2] else [] := by
  unfold valuesOf
  by_cases h : p.1 = a <;> simp [h]

/-- The values of a key, run by run. -/
theorem values_of_runs (a : α) (l : List (α × β)) :
    (((runs l).filter fun r => r.1 = a).reverse.flatMap Prod.snd) = valuesOf a l := by
  induction l using List.reverseRecOn with
  | nil => rfl
  | append_singleton l p ih =>
    rw [runs_concat, valuesOf_concat, ← ih]
    cases hr : runs l with
    | nil => by_cases hp : p.1 = a <;> simp [add, hp]
    | cons r rest =>
      obtain ⟨b, bs⟩ := r
      by_cases hb : b = p.1
      · by_cases hp : p.1 = a <;> simp [add, hb, hp]
      · rw [add, if_neg hb]
        by_cases hp : p.1 = a <;> simp [hp]

/-- When no other run has its key, a run has all the values of its key. -/
theorem eq_valuesOf {l : List (α × β)} (hnodup : ((runs l).map Prod.fst).Nodup) {a : α}
    {bs : List β} (h : (a, bs) ∈ runs l) : bs = valuesOf a l := by
  have hone : (runs l).filter (fun r => r.1 = a) = [(a, bs)] := by
    generalize runs l = rs at hnodup h
    induction rs with
    | nil => cases h
    | cons r rs ih =>
      rw [List.map_cons, List.nodup_cons] at hnodup
      rcases List.mem_cons.1 h with rfl | h
      · have hnone : rs.filter (fun r => r.1 = a) = [] := by
          rw [List.filter_eq_nil_iff]
          intro r hr hra
          exact hnodup.1 (List.mem_map.2 ⟨r, hr, by simpa using hra⟩)
        simp [hnone]
      · have hne : r.1 ≠ a := fun he => hnodup.1 (List.mem_map.2 ⟨_, h, he.symm⟩)
        simpa [hne] using ih hnodup.2 h
  rw [← values_of_runs, hone]
  simp

/-- The values of the runs of a key are values of the key. -/
theorem subset_valuesOf {l : List (α × β)} {a : α} {bs : List β} (h : (a, bs) ∈ runs l) :
    bs ⊆ valuesOf a l := by
  intro b hb
  rw [← values_of_runs]
  simp only [List.mem_flatMap, List.mem_reverse, List.mem_filter, decide_eq_true_eq]
  exact ⟨(a, bs), ⟨h, rfl⟩, hb⟩

/-- Each value of a key is in a run of the key. -/
theorem exists_run {l : List (α × β)} {a : α} {b : β} (h : b ∈ valuesOf a l) :
    ∃ bs, (a, bs) ∈ runs l ∧ b ∈ bs := by
  rw [← values_of_runs] at h
  simp only [List.mem_flatMap, List.mem_reverse, List.mem_filter, decide_eq_true_eq] at h
  obtain ⟨⟨a', bs⟩, ⟨hmem, rfl⟩, hb⟩ := h
  exact ⟨bs, hmem, hb⟩

/-- No run is empty. -/
theorem run_ne_nil {l : List (α × β)} {a : α} {bs : List β} (h : (a, bs) ∈ runs l) :
    bs ≠ [] := by
  induction l using List.reverseRecOn generalizing a bs with
  | nil => cases h
  | append_singleton l p ih =>
    rw [runs_concat] at h
    cases hr : runs l with
    | nil =>
      rw [hr, add] at h
      simp_all
    | cons r rest =>
      obtain ⟨b, cs⟩ := r
      rw [hr] at h ih
      unfold add at h
      simp only at h
      split at h
      · rcases List.mem_cons.1 h with h | h
        · simp_all
        · exact ih (List.mem_cons_of_mem _ h)
      · rcases List.mem_cons.1 h with h | h
        · simp_all
        · exact ih h

/-! ## Keys -/

/-- The keys of the runs. -/
def keys (l : List (α × β)) : List α := (runs l).map Prod.fst

theorem keys_concat (l : List (α × β)) (p : α × β) :
    keys (l ++ [p]) = if (keys l).head? = some p.1 then keys l else p.1 :: keys l := by
  unfold keys
  rw [runs_concat]
  cases hr : runs l with
  | nil => simp [add]
  | cons r rest =>
    obtain ⟨b, bs⟩ := r
    by_cases hb : b = p.1 <;> simp [add, hb]

theorem mem_keys {l : List (α × β)} {a : α} : a ∈ keys l ↔ a ∈ l.map Prod.fst := by
  induction l using List.reverseRecOn with
  | nil => rfl
  | append_singleton l p ih =>
    rw [keys_concat, List.map_append, List.mem_append, ← ih]
    split
    · next h =>
      have hmem : p.1 ∈ keys l := List.mem_of_mem_head? h
      constructor
      · exact Or.inl
      · rintro (h | h)
        · exact h
        · obtain rfl : a = p.1 := by simpa using h
          exact hmem
    · simp [or_comm]

/-- The key of the last value is that of the first run. -/
theorem head?_keys (l : List (α × β)) : (keys l).head? = (l.map Prod.fst).getLast? := by
  induction l using List.reverseRecOn with
  | nil => rfl
  | append_singleton l p ih =>
    rw [keys_concat]
    split
    · next h => simp [h]
    · simp

/-- A key has one run only when the keys never come back. -/
theorem nodup_keys_iff (l : List (α × β)) : (keys l).Nodup ↔ NoReturn (l.map Prod.fst) := by
  induction l using List.reverseRecOn with
  | nil => simp [keys, NoReturn]
  | append_singleton l p ih =>
    have hmap : (l ++ [p]).map Prod.fst = l.map Prod.fst ++ [p.1] := by simp
    have hprefix : NoReturn (l.map Prod.fst ++ [p.1]) → NoReturn (l.map Prod.fst) :=
      fun h a b hsub => h a b (hsub.trans (List.sublist_append_left _ _))
    rw [keys_concat, head?_keys, hmap]
    split
    · next hlast =>
      rw [ih]
      exact ⟨fun h => h.concat_last hlast, hprefix⟩
    · next hlast =>
      rw [List.nodup_cons, ih, mem_keys]
      constructor
      · rintro ⟨hmem, h⟩ a b hsub
        rcases sublist_concat hsub with hsub | ⟨l', heq, hl⟩
        · exact h a b hsub
        · obtain ⟨rfl, rfl⟩ : [a, b] = l' ∧ a = p.1 := by
            simpa using List.append_inj' (show [a, b] ++ [a] = l' ++ [p.1] from heq) rfl
          exact absurd (hl.subset (by simp)) hmem
      · intro h
        refine ⟨fun hmem => ?_, hprefix h⟩
        obtain ⟨b, hb, hpair⟩ := pair_sublist hmem hlast
        have hback := hpair.append (List.Sublist.refl [p.1])
        exact hb (h p.1 b (by simpa using hback)).symm

end Runs
