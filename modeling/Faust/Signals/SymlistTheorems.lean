import Faust.Signals.Recursivness
import Faust.Signals.Subtrees
import Faust.Lib.Outcome
import Faust.Lib.OrderedSet
import Mathlib.Data.Finset.Card

/-!
# The symbols that `symlist` collects

A traversal does not come back to the signals that it has visited, so what it returns for a signal
inside a cycle is only a part of what the signal leads to. The parts are complete together, and
only what a whole traversal has returned is kept as a property.
-/

namespace Faust.Recursivness

open Faust.Tree Outcome

/-! ## Sets of symbols -/

section
variable {address : Tree → ℕ}

/-- The union is that of ordered lists. -/
theorem setUnion_eq (A B : List Tree) : setUnion address A B =
    OrderedList.union (fun a b => address a < address b) A B := by
  fun_induction setUnion address A B with
  | case1 B => simp [OrderedList.union]
  | case2 A _ => cases A <;> simp [OrderedList.union]
  | case3 A b B ih => simp [OrderedList.union, ih]
  | case4 a A b B hne hlt ih => simp [OrderedList.union, hne, hlt, ih]
  | case5 a A b B hne hlt ih => simp [OrderedList.union, hne, hlt, ih]

@[simp] theorem mem_setUnion {A B : List Tree} {t : Tree} :
    t ∈ setUnion address A B ↔ t ∈ A ∨ t ∈ B := by
  rw [setUnion_eq, OrderedList.mem_union]

/-- The list is strictly increasing. -/
def Increasing (address : Tree → ℕ) (S : List Tree) : Prop :=
  S.Pairwise fun a b => address a < address b

theorem Increasing.setUnion {A B : List Tree}
    (hinj : ∀ a ∈ A, ∀ b ∈ B, address a = address b → a = b) (hA : Increasing address A)
    (hB : Increasing address B) : Increasing address (setUnion address A B) := by
  have : IsTrans Tree fun a b => address a < address b := ⟨fun _ _ _ => lt_trans⟩
  rw [setUnion_eq]
  refine OrderedList.increasing_union (fun a ha b hb hne hlt => ?_) hA hB
  -- the addresses of different trees are different
  have hne' : address a ≠ address b := fun heq => hne (hinj a ha b hb heq)
  omega

end

/-! ## The trees of a graph -/

section
variable (recDefs : List (Tree × Tree))

/-- The trees of the graph of a signal. -/
def treesOf (sig : Tree) : List Tree := subtreesOf (sig :: recDefs.map Prod.snd)

variable {recDefs}

theorem mem_treesOf_self (sig : Tree) : sig ∈ treesOf recDefs sig :=
  mem_subtreesOf List.mem_cons_self (mem_subtrees_self sig)

theorem mem_treesOf_isRec {sig t body : Tree} (h : isRec recDefs t = some body) :
    body ∈ treesOf recDefs sig := by
  unfold isRec at h
  split at h
  · obtain ⟨d, hd, rfl⟩ := Option.map_eq_some_iff.1 h
    have hmem := List.mem_map_of_mem (f := Prod.snd) (List.mem_of_find?_eq_some hd)
    exact mem_subtreesOf (List.mem_cons_of_mem _ hmem) (mem_subtrees_self _)
  · simp at h

theorem mem_treesOf_getSubSignals {sig t c : Tree} {ss : List Tree}
    (ht : t ∈ treesOf recDefs sig) (hss : getSubSignals recDefs t = some ss) (hc : c ∈ ss) :
    c ∈ treesOf recDefs sig := by
  unfold getSubSignals at hss
  split at hss
  · obtain ⟨body, hbody, rfl⟩ := Option.map_eq_some_iff.1 hss
    rw [List.mem_singleton.1 hc]
    exact mem_treesOf_isRec hbody
  · exact subtreesOf_trans _ ht (mem_subtrees_of_getSubSignals hss hc)

theorem mem_treesOf_below {sig t c : Tree} (ht : t ∈ treesOf recDefs sig)
    (hc : c ∈ below recDefs t) : c ∈ treesOf recDefs sig := by
  unfold below at hc
  split at hc
  · next body hbody =>
    exact subtreesOf_trans _ (mem_treesOf_isRec hbody) (mem_subtrees_listElements hc)
  · cases hss : getSubSignals recDefs t with
    | none => simp [hss] at hc
    | some ss =>
      rw [hss] at hc
      exact mem_treesOf_getSubSignals ht hss hc

/-! ## A traversal -/

variable (recDefs)

/-- All the symbols that the signal leads to are in the set. -/
def AllIn (S : List Tree) (sig : Tree) : Prop :=
  ∀ r, Reaches recDefs sig r → (isRec recDefs r).isSome → r ∈ S

/-- The signal has been visited, or what it leads to is known. -/
def Met (visited : Finset Tree) (S : List Tree) (sig : Tree) : Prop :=
  sig ∈ visited ∨ AllIn recDefs S sig

/-- A traversal of some signals goes from `visited` to `visited'`, and finds the symbols `S`. -/
structure Collects (visited visited' : Finset Tree) (sigs S : List Tree) : Prop where
  subset : visited ⊆ visited'
  sound : ∀ r ∈ S, (isRec recDefs r).isSome ∧ ∃ s ∈ sigs, Reaches recDefs s r
  symbol : ∀ t ∈ visited', t ∉ visited → (isRec recDefs t).isSome → t ∈ S
  closed : ∀ t ∈ visited', t ∉ visited → ∀ c ∈ below recDefs t, Met recDefs visited' S c
  met : ∀ s ∈ sigs, Met recDefs visited' S s

variable {recDefs} {visited visited' visited'' : Finset Tree} {S S' sigs : List Tree}

theorem AllIn.mono (h : S ⊆ S') {sig : Tree} (hs : AllIn recDefs S sig) : AllIn recDefs S' sig :=
  fun r hr hrec => h (hs r hr hrec)

theorem AllIn.step {sig c : Tree} (hs : AllIn recDefs S sig) (hc : c ∈ below recDefs sig) :
    AllIn recDefs S c := fun r hr hrec => hs r (.head hc hr) hrec

theorem Met.mono (hv : visited ⊆ visited') (h : S ⊆ S') {sig : Tree}
    (hs : Met recDefs visited S sig) : Met recDefs visited' S' sig :=
  hs.imp (fun hmem => hv hmem) fun hall => hall.mono h

/-- Nothing is visited, nothing is found. -/
theorem Collects.nil : Collects recDefs visited visited [] [] where
  subset := Finset.Subset.refl _
  sound := by simp
  symbol t ht hn := absurd ht hn
  closed t ht hn := absurd ht hn
  met := by simp

/-- One traversal after another. -/
theorem Collects.append {address : Tree → ℕ} {sigs' : List Tree}
    (h : Collects recDefs visited visited' sigs S)
    (h' : Collects recDefs visited' visited'' sigs' S') :
    Collects recDefs visited visited'' (sigs ++ sigs') (setUnion address S S') := by
  have hleft : S ⊆ setUnion address S S' := fun t ht => mem_setUnion.2 (Or.inl ht)
  have hright : S' ⊆ setUnion address S S' := fun t ht => mem_setUnion.2 (Or.inr ht)
  constructor
  · exact h.subset.trans h'.subset
  · intro r hr
    rcases mem_setUnion.1 hr with hr | hr
    · obtain ⟨hrec, s, hs, hreach⟩ := h.sound r hr
      exact ⟨hrec, s, List.mem_append_left _ hs, hreach⟩
    · obtain ⟨hrec, s, hs, hreach⟩ := h'.sound r hr
      exact ⟨hrec, s, List.mem_append_right _ hs, hreach⟩
  · intro t ht hn hrec
    by_cases hv : t ∈ visited'
    · exact hleft (h.symbol t hv hn hrec)
    · exact hright (h'.symbol t ht hv hrec)
  · intro t ht hn c hc
    by_cases hv : t ∈ visited'
    · exact (h.closed t hv hn c hc).mono h'.subset hleft
    · exact (h'.closed t ht hv c hc).mono (Finset.Subset.refl _) hright
  · intro s hs
    rcases List.mem_append.1 hs with hs | hs
    · exact (h.met s hs).mono h'.subset hleft
    · exact (h'.met s hs).mono (Finset.Subset.refl _) hright

/-- A signal is visited, then what is below it. -/
theorem Collects.visit {sig : Tree} (hn : sig ∉ visited) {U : List Tree}
    (hU : ∀ r, r ∈ U ↔ (isRec recDefs sig).isSome ∧ r = sig)
    (h : Collects recDefs (insert sig visited) visited' (below recDefs sig) S)
    (hS' : ∀ r, r ∈ S' ↔ r ∈ U ∨ r ∈ S) : Collects recDefs visited visited' [sig] S' := by
  have hsub : S ⊆ S' := fun r hr => (hS' r).2 (Or.inr hr)
  have hmem : sig ∈ visited' := h.subset (Finset.mem_insert_self _ _)
  constructor
  · exact (Finset.subset_insert _ _).trans h.subset
  · intro r hr
    rcases (hS' r).1 hr with hr | hr
    · obtain ⟨hrec, rfl⟩ := (hU r).1 hr
      exact ⟨hrec, r, List.mem_singleton_self r, .refl⟩
    · obtain ⟨hrec, s, hs, hreach⟩ := h.sound r hr
      exact ⟨hrec, sig, List.mem_singleton_self sig, .head hs hreach⟩
  · intro t ht hnt hrec
    by_cases heq : t = sig
    · subst heq
      exact (hS' t).2 (Or.inl ((hU t).2 ⟨hrec, rfl⟩))
    · exact hsub (h.symbol t ht (by simp [heq, hnt]) hrec)
  · intro t ht hnt c hc
    by_cases heq : t = sig
    · subst heq
      exact (h.met c hc).mono (Finset.Subset.refl _) hsub
    · exact (h.closed t ht (by simp [heq, hnt]) c hc).mono (Finset.Subset.refl _) hsub
  · intro s hs
    rw [List.mem_singleton.1 hs]
    exact Or.inl hmem

/-- A whole traversal finds all the symbols. -/
theorem Collects.all {sig : Tree} (h : Collects recDefs ∅ visited' [sig] S) :
    AllIn recDefs S sig := by
  have hmet : ∀ t, Reaches recDefs sig t → Met recDefs visited' S t := by
    intro t ht
    induction ht with
    | refl => exact h.met sig (List.mem_singleton_self sig)
    | @tail u v _ hv ih =>
      rcases ih with hu | hu
      · exact h.closed u hu (Finset.notMem_empty u) v hv
      · exact Or.inr (hu.step hv)
  intro r hr hrec
  rcases hmet r hr with hv | hall
  · exact h.symbol r hv (Finset.notMem_empty r) hrec
  · exact hall r .refl hrec

/-! ## `symlist` -/

variable {address : Tree → ℕ}

/-- The loops of `symlistVisit`. -/
theorem ends_unions (hinj : DistinctSymbols recDefs address) {E : Failure → Prop}
    {visit : Tree → StateT (Finset Tree) (Except Failure) (List Tree)} {U : List Tree}
    (hU : Increasing address U) (hrec : ∀ r ∈ U, (isRec recDefs r).isSome)
    (hvisit : ∀ s ∈ sigs, ∀ v, visited ⊆ v → Ends (visit s) v E fun S v' =>
      Increasing address S ∧ Collects recDefs v v' [s] S) :
    Ends (unions address visit U sigs) visited E fun S' v' =>
      Increasing address S' ∧ ∃ S, Collects recDefs visited v' sigs S ∧
        ∀ r, r ∈ S' ↔ r ∈ U ∨ r ∈ S := by
  induction sigs generalizing U visited with
  | nil => exact Ends.pure ⟨hU, [], .nil, by simp⟩
  | cons s sigs ih =>
    show Ends (setUnion address U <$> visit s >>= fun U => unions address visit U sigs) _ _ _
    apply Ends.bind (Q := fun U' v' => Increasing address U' ∧ ∃ S,
      Collects recDefs visited v' [s] S ∧ setUnion address U S = U')
    · apply Ends.map
      apply (hvisit s List.mem_cons_self visited (Finset.Subset.refl _)).mono
      intro S v' h
      refine ⟨hU.setUnion ?_ h.1, S, h.2, rfl⟩
      intro a ha b hb
      exact hinj a b (hrec a ha) (h.2.sound b hb).1
    · intro U' v' h
      obtain ⟨hU', S, hS, rfl⟩ := h
      have hrec' : ∀ r ∈ setUnion address U S, (isRec recDefs r).isSome := fun r hr =>
        (mem_setUnion.1 hr).elim (hrec r) fun hr => (hS.sound r hr).1
      apply (ih hU' hrec' fun t ht v hv =>
        hvisit t (List.mem_cons_of_mem _ ht) v (hS.subset.trans hv)).mono
      intro S' v'' h'
      obtain ⟨hS', S₁, hS₁, hmem⟩ := h'
      refine ⟨hS', setUnion address S S₁, hS.append hS₁, fun r => ?_⟩
      rw [hmem, mem_setUnion, mem_setUnion]
      tauto

theorem mem_treesOf_reaches {sig t : Tree} (h : Reaches recDefs sig t) :
    t ∈ treesOf recDefs sig := by
  induction h with
  | refl => exact mem_treesOf_self sig
  | tail _ hv ih => exact mem_treesOf_below ih hv

/-- The properties are right: each is the list of the symbols of its signal. -/
def Exact (recDefs : List (Tree × Tree)) (address : Tree → ℕ) (prop : SymListProp) : Prop :=
  ∀ t S, prop t = some S → IsSymlist recDefs address t S

/-- `symlistVisit`. It fails on what is no signal, or without fuel for all the signals that have not
been visited. -/
theorem ends_symlistVisit (hinj : DistinctSymbols recDefs address) {root : Tree} {prop : SymListProp}
    (hprop : Exact recDefs address prop) (fuel : ℕ) {sig : Tree} (hsig : Reaches recDefs root sig) :
    Ends (symlistVisit recDefs address prop fuel sig) visited
      (fun _ => Recognized recDefs root →
        fuel ≤ ((treesOf recDefs root).toFinset \ visited).card)
      fun S v' => Increasing address S ∧ Collects recDefs visited v' [sig] S := by
  induction fuel generalizing sig visited with
  | zero => exact .throw fun _ => Nat.zero_le _
  | succ fuel ih =>
    rw [symlistVisit]
    split
    · -- the symbols are a property of the signal
      next S hS =>
      obtain ⟨hinc, hmem⟩ := hprop sig S hS
      refine .pure ⟨hinc, Finset.Subset.refl _, ?_, fun t ht hn => absurd ht hn,
        fun t ht hn => absurd ht hn, ?_⟩
      · intro r hr
        exact ⟨((hmem r).1 hr).2, sig, List.mem_singleton_self sig, ((hmem r).1 hr).1⟩
      · intro s hs
        rw [List.mem_singleton.1 hs]
        exact Or.inr fun r hr hrec => (hmem r).2 ⟨hr, hrec⟩
    apply Ends.bind (Ends.get (Q := fun v v' => visited = v ∧ visited = v') ⟨rfl, rfl⟩)
    intro v v' hv
    obtain ⟨rfl, rfl⟩ := hv
    split
    · -- the signal has been visited
      next hvisited =>
      refine .pure ⟨List.Pairwise.nil, Finset.Subset.refl _, by simp, fun t ht hn => absurd ht hn,
        fun t ht hn => absurd ht hn, ?_⟩
      intro s hs
      rw [List.mem_singleton.1 hs]
      exact Or.inl hvisited
    · next hn =>
      apply Ends.bind (Ends.modify (Q := fun _ v' => insert sig visited = v') rfl)
      intro _ v' hv
      subst hv
      have hless : ((treesOf recDefs root).toFinset \ insert sig visited).card <
          ((treesOf recDefs root).toFinset \ visited).card := by
        apply Finset.card_lt_card
        refine ⟨Finset.sdiff_subset_sdiff (Finset.Subset.refl _) (Finset.subset_insert _ _), ?_⟩
        intro hsub
        have hmem : sig ∈ (treesOf recDefs root).toFinset \ visited :=
          Finset.mem_sdiff.2 ⟨List.mem_toFinset.2 (mem_treesOf_reaches hsig), hn⟩
        exact (Finset.mem_sdiff.1 (hsub hmem)).2 (Finset.mem_insert_self _ _)
      have hvisit : ∀ s ∈ below recDefs sig, ∀ v, insert sig visited ⊆ v →
          Ends (symlistVisit recDefs address prop fuel s) v
            (fun _ => Recognized recDefs root →
              fuel + 1 ≤ ((treesOf recDefs root).toFinset \ visited).card)
            fun S v' => Increasing address S ∧ Collects recDefs v v' [s] S := by
        intro s hs v hv
        apply (ih (hsig.tail hs)).imp _ fun _ _ h => h
        intro _ hfuel hroot
        have hle := Finset.card_le_card
          (Finset.sdiff_subset_sdiff (Finset.Subset.refl (treesOf recDefs root).toFinset) hv)
        have := hfuel hroot
        omega
      split
      · next body hbody =>
        have hbelow : below recDefs sig = listElements body := by rw [below, hbody]
        rw [← hbelow]
        apply (ends_unions hinj (List.pairwise_singleton _ sig) (by simp [hbody]) hvisit).mono
        intro S' v' h
        obtain ⟨hinc, S, hS, hmem⟩ := h
        exact ⟨hinc, hS.visit hn (by simp [hbody]) hmem⟩
      · next hnone =>
        split
        · next hss =>
          apply Ends.throw
          intro hroot
          have := hroot sig hsig hnone
          rw [hss] at this
          cases this
        · next ss hss =>
          have hbelow : below recDefs sig = ss := by rw [below, hnone, hss]; rfl
          rw [← hbelow]
          apply (ends_unions hinj List.Pairwise.nil (by simp) hvisit).mono
          intro S' v' h
          obtain ⟨hinc, S, hS, hmem⟩ := h
          exact ⟨hinc, hS.visit hn (by simp [hnone]) hmem⟩

/-- `symlist`, when the properties are right. -/
theorem ends_symlist (hinj : DistinctSymbols recDefs address) (sig : Tree) {prop : SymListProp}
    (hprop : Exact recDefs address prop) (fuel : ℕ) :
    Ends (symlist recDefs address fuel sig) prop
      (fun _ => Recognized recDefs sig → fuel ≤ (treesOf recDefs sig).length)
      fun S prop' => IsSymlist recDefs address sig S ∧ Exact recDefs address prop' := by
  unfold symlist
  apply Ends.bind (Ends.get (Q := fun p p' => prop = p ∧ prop = p') ⟨rfl, rfl⟩)
  intro p p' hp
  obtain ⟨rfl, rfl⟩ := hp
  split
  · next S hS => exact .pure ⟨hprop sig S hS, hprop⟩
  · have hrefl : Reaches recDefs sig sig := .refl
    have hvisit : Ends (symlistVisit recDefs address prop fuel sig) ∅ _ _ :=
      ends_symlistVisit hinj hprop fuel hrefl
    rcases hvisit.cases with ⟨S, v', heq, hinc, hS⟩ | ⟨e, heq, hfail⟩
    · rw [heq]
      have hlist : IsSymlist recDefs address sig S := by
        refine ⟨hinc, fun r => ⟨fun hr => ?_, fun hr => hS.all r hr.1 hr.2⟩⟩
        obtain ⟨hrec, s, hs, hreach⟩ := hS.sound r hr
        rw [List.mem_singleton.1 hs] at hreach
        exact ⟨hreach, hrec⟩
      refine ⟨hlist, fun t S' hS' => ?_⟩
      have hS' : Function.update prop sig (some S) t = some S' := hS'
      by_cases ht : t = sig
      · subst ht
        rw [Function.update_self, Option.some.injEq] at hS'
        exact hS' ▸ hlist
      · rw [Function.update_of_ne ht] at hS'
        exact hprop t S' hS'
    · rw [heq]
      intro hsig
      have hle := hfail hsig
      rw [Finset.sdiff_empty] at hle
      exact hle.trans (List.toFinset_card_le _)

theorem SymlistRun.exact (hinj : DistinctSymbols recDefs address) {prop : SymListProp}
    (h : SymlistRun recDefs address prop) : Exact recDefs address prop := by
  induction h with
  | start => intro t S hS; cases hS
  | @call prop prop' fuel sig S _ hs ih =>
    rcases (ends_symlist hinj sig ih fuel).cases with ⟨S', p, heq, _, hexact⟩ | ⟨e, heq, _⟩
    · rw [hs, Except.ok.injEq, Prod.mk.injEq] at heq
      exact heq.2 ▸ hexact
    · rw [hs] at heq
      cases heq

end

/-- After any calls, `symlist` comes to its end, and collects the symbols that a signal leads to. -/
theorem symlist_exact (recDefs : List (Tree × Tree)) (address : Tree → ℕ)
    (hinj : DistinctSymbols recDefs address) (prop : SymListProp)
    (hprop : SymlistRun recDefs address prop) (sig : Tree) (hsig : Recognized recDefs sig) :
    ∃ n, ∀ fuel ≥ n, ∃ S prop', symlist recDefs address fuel sig prop = .ok (S, prop') ∧
      IsSymlist recDefs address sig S := by
  refine ⟨(treesOf recDefs sig).length + 1, fun fuel hfuel => ?_⟩
  rcases (ends_symlist hinj sig (hprop.exact hinj) fuel).cases with
    ⟨S, prop', heq, hlist, _⟩ | ⟨e, _, hfail⟩
  · exact ⟨S, prop', heq, hlist⟩
  · have := hfail hsig
    omega

/-- A list of signals that holds what is below its signals holds what they lead to. -/
theorem Reaches.mem_of_closed {recDefs : List (Tree × Tree)} {sig t : Tree} {ts : List Tree}
    (h : Reaches recDefs sig t) (hsig : sig ∈ ts)
    (hbelow : ∀ t ∈ ts, ∀ c ∈ below recDefs t, c ∈ ts) : t ∈ ts := by
  induction h with
  | refl => exact hsig
  | tail _ hv ih => exact hbelow _ ih _ hv

/-- `X = (Y[0] + in)` and `Y = (X[0] + in)`. -/
def mutualDefs : List (Tree × Tree) :=
  [(symRef (.user "X"), ofList [sigAdd (sigProj 0 (symRef (.user "Y"))) (sigInput 0)]),
    (symRef (.user "Y"), ofList [sigAdd (sigProj 0 (symRef (.user "X"))) (sigInput 0)])]

/-- Addresses where `Y` is before `X`. -/
def mutualAddress (t : Tree) : ℕ := if t = symRef (.user "X") then 1 else 0

/-- What `X[0]` leads to. -/
def mutualSignals : List Tree :=
  [sigProj 0 (symRef (.user "X")), symRef (.user "X"),
    sigAdd (sigProj 0 (symRef (.user "Y"))) (sigInput 0), sigInput 0,
    sigProj 0 (symRef (.user "Y")), symRef (.user "Y"),
    sigAdd (sigProj 0 (symRef (.user "X"))) (sigInput 0)]

theorem symlist_mutual : ∃ n, ∀ fuel ≥ n, ∃ S prop',
    symlist mutualDefs mutualAddress fuel (sigProj 0 (symRef (.user "X"))) (fun _ => none) =
      .ok (S, prop') ∧
      IsSymlist mutualDefs mutualAddress (sigProj 0 (symRef (.user "X"))) S := by
  have hsymbols : ∀ t, (isRec mutualDefs t).isSome →
      t = symRef (.user "X") ∨ t = symRef (.user "Y") := by
    intro t ht
    unfold isRec at ht
    split at ht
    · rw [Option.isSome_map, List.find?_isSome] at ht
      obtain ⟨d, hd, heq⟩ := ht
      simp only [mutualDefs, List.mem_cons, List.not_mem_nil, or_false] at hd
      rcases hd with rfl | rfl
      · exact Or.inl (of_decide_eq_true heq).symm
      · exact Or.inr (of_decide_eq_true heq).symm
    · cases ht
  apply symlist_exact mutualDefs mutualAddress _ _ .start
  · intro t ht
    have hmem : t ∈ mutualSignals := ht.mem_of_closed (by decide +kernel) (by decide +kernel)
    have hall : ∀ t ∈ mutualSignals, isRec mutualDefs t = none →
        (getSubSignals mutualDefs t).isSome := by decide +kernel
    exact hall t hmem
  · intro a b ha hb
    rcases hsymbols a ha with rfl | rfl <;> rcases hsymbols b hb with rfl | rfl <;> decide +kernel

end Faust.Recursivness
