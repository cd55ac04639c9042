import Mathlib.Data.Finset.Max
import Faust.Parallelize.SortGraph

/-!
# The loops are sorted

A loop is placed again at each level at which it is met, so it ends at the length of the
longest path that leads to it, and what it depends on ends deeper.
-/

namespace Faust.CodeLoops

open LoopGraph DepGraph

variable {L : CodeLoops} {root : ℕ}

/-! ## Sets of loops -/

@[simp] lemma mem_insertLoops {s qs : List ℕ} {l : ℕ} :
    l ∈ insertLoops s qs ↔ l ∈ s ∨ l ∈ qs := by
  unfold insertLoops
  induction qs generalizing s with
  | nil => simp
  | cons q qs ih =>
    rw [List.foldl_cons, ih, mem_insertLoop, List.mem_cons]
    tauto

lemma getD_modify {V : List (List ℕ)} {f : List ℕ → List ℕ} {i : ℕ} (hi : i < V.length) (j : ℕ) :
    (V.modify i f).getD j [] = if i = j then f (V.getD j []) else V.getD j [] := by
  rw [List.getD_eq_getElem?_getD, List.getElem?_modify, List.getD_eq_getElem?_getD]
  by_cases h : i = j
  · subst h
    simp [List.getElem?_eq_getElem hi]
  · simp [h]

lemma length_resize {V : List (List ℕ)} {n : ℕ} (h : V.length ≤ n) : (resize V n).length = n := by
  simp only [resize, List.length_append, List.length_take, List.length_replicate]
  omega

lemma getD_resize {V : List (List ℕ)} {n : ℕ} (h : V.length ≤ n) (j : ℕ) :
    (resize V n).getD j [] = V.getD j [] := by
  rw [resize, List.take_of_length_le h]
  by_cases hj : j < V.length
  · rw [List.getD_append _ _ _ _ hj]
  · rw [List.getD_append_right _ _ _ _ (by omega), List.getD_eq_default V _ (by omega)]
    by_cases hk : j - V.length < n - V.length
    · rw [List.getD_eq_getElem _ _ (by simpa using hk), List.getElem_replicate]
    · rw [List.getD_eq_default _ _ (by simpa using hk)]

lemma lt_length_of_mem_getD {V : List (List ℕ)} {j l : ℕ} (h : l ∈ V.getD j []) :
    j < V.length := by
  by_contra hj
  rw [List.getD_eq_default _ _ (by omega)] at h
  cases h

/-! ## Placing the loops -/

/-- The levels hold the loops by their field `fOrder`. -/
structure Placed (L : CodeLoops) (root n : ℕ) (s : Levels) : Prop where
  length : s.V.length = n
  nodup : ∀ j, (s.V.getD j []).Nodup
  mem : ∀ j l, l ∈ s.V.getD j [] ↔ Reach L.backward root l ∧ s.fOrder l = j

lemma Placed.setOrder {n l order : ℕ} {s : Levels} (h : Placed L root n s) (hn : n ≤ order + 1)
    (hl : Reach L.backward root l) : Placed L root (order + 1) (setOrder l order s) := by
  obtain ⟨hlength, hnodup, hmem⟩ := h
  have hle : s.V.length ≤ order + 1 := by omega
  set V := resize s.V (order + 1) with hV
  have hVlength : V.length = order + 1 := length_resize hle
  have hget : ∀ j, V.getD j [] = s.V.getD j [] := getD_resize hle
  set V' := if 0 ≤ s.fOrder l then V.modify (s.fOrder l).toNat (·.erase l) else V with hV'
  -- after this `l` is at no level
  have hremoved : V'.length = order + 1 ∧ (∀ j, (V'.getD j []).Nodup) ∧
      ∀ j x, x ∈ V'.getD j [] ↔ x ≠ l ∧ x ∈ s.V.getD j [] := by
    by_cases h0 : 0 ≤ s.fOrder l
    · have hat : l ∈ s.V.getD (s.fOrder l).toNat [] := (hmem _ l).mpr ⟨hl, by omega⟩
      have hlt : (s.fOrder l).toNat < V.length := by
        have := lt_length_of_mem_getD hat
        omega
      rw [hV', if_pos h0]
      refine ⟨by rw [List.length_modify, hVlength], fun j => ?_, fun j x => ?_⟩
      · rw [getD_modify hlt, hget]
        split
        · exact (hnodup j).erase l
        · exact hnodup j
      · rw [getD_modify hlt, hget]
        split
        · rw [(hnodup j).mem_erase_iff]
        · rename_i hj
          constructor
          · intro hx
            refine ⟨fun hxl => hj ?_, hx⟩
            have := ((hmem j x).mp hx).2
            rw [hxl] at this
            omega
          · exact fun hx => hx.2
    · rw [hV', if_neg h0]
      refine ⟨hVlength, fun j => by rw [hget]; exact hnodup j, fun j x => ?_⟩
      rw [hget]
      constructor
      · intro hx
        refine ⟨fun hxl => ?_, hx⟩
        have := ((hmem j x).mp hx).2
        rw [hxl] at this
        omega
      · exact fun hx => hx.2
  obtain ⟨hlength', hnodup', hmem'⟩ := hremoved
  have hlt : order < V'.length := by omega
  have hstate : CodeLoops.setOrder l order s =
      ⟨Function.update s.fOrder l order, V'.modify order (insertLoop l)⟩ := rfl
  rw [hstate]
  refine ⟨by rw [List.length_modify, hlength'], fun j => ?_, fun j x => ?_⟩
  · rw [getD_modify hlt]
    split
    · exact nodup_insertLoop (hnodup' j)
    · exact hnodup' j
  · rw [getD_modify hlt]
    show _ ↔ _ ∧ Function.update s.fOrder l (order : ℤ) x = j
    by_cases hx : x = l
    · subst hx
      rw [Function.update_self]
      split
      · rename_i hj
        subst hj
        simp [hl]
      · rename_i hj
        rw [hmem']
        simp only [ne_eq, not_true_eq_false, false_and, false_iff, not_and]
        omega
    · rw [Function.update_of_ne hx]
      split
      · rw [mem_insertLoop, hmem', hmem]
        tauto
      · rw [hmem', hmem]
        tauto

lemma setOrder_fOrder (l order : ℕ) (s : Levels) :
    (setOrder l order s).fOrder = Function.update s.fOrder l order := rfl

/-- What one level does. -/
lemma setLevel_spec {order : ℕ} : ∀ (T1 T2 : List ℕ) {n : ℕ} {s : Levels},
    Placed L root n s → n ≤ order + 1 → (T1 = [] → n = order + 1) →
    (∀ l ∈ T1, Reach L.backward root l) →
    Placed L root (order + 1) (L.setLevel order T1 T2 s).2 ∧
    (∀ l, l ∈ (L.setLevel order T1 T2 s).1 ↔ l ∈ T2 ∨ ∃ p ∈ T1, l ∈ L.backward p) ∧
    ∀ l, (L.setLevel order T1 T2 s).2.fOrder l = if l ∈ T1 then (order : ℤ) else s.fOrder l := by
  intro T1
  induction T1 with
  | nil =>
    intro T2 n s h _ hn _
    obtain rfl := hn rfl
    exact ⟨h, by simp [setLevel], by simp [setLevel]⟩
  | cons p T1 ih =>
    intro T2 n s h hle _ hreach
    have hp := h.setOrder hle (hreach p List.mem_cons_self)
    obtain ⟨hplaced, hmem, horder⟩ := ih (insertLoops T2 (L.backward p)) hp le_rfl
      (fun _ => rfl) fun l hl => hreach l (List.mem_cons_of_mem p hl)
    have hstep : L.setLevel order (p :: T1) T2 s =
        L.setLevel order T1 (insertLoops T2 (L.backward p)) (CodeLoops.setOrder p order s) := rfl
    rw [hstep]
    refine ⟨hplaced, fun l => ?_, fun l => ?_⟩
    · rw [hmem, mem_insertLoops]
      simp only [List.mem_cons, exists_eq_or_imp]
      tauto
    · rw [horder, setOrder_fOrder]
      by_cases hl : l ∈ T1
      · rw [if_pos hl, if_pos (List.mem_cons_of_mem p hl)]
      · rw [if_neg hl]
        by_cases hlp : l = p
        · rw [hlp, Function.update_self, if_pos List.mem_cons_self]
        · rw [Function.update_of_ne hlp, if_neg (by simp [hlp, hl])]

/-! ## The levels -/

/-- The longest path to `l` has `j` steps. -/
def Deepest (L : CodeLoops) (root j l : ℕ) : Prop :=
  AtDepth L.backward root j l ∧ ∀ j' > j, ¬ AtDepth L.backward root j' l

/-- The invariant of `sortGraph` before level `k`. -/
structure Sorting (L : CodeLoops) (root k : ℕ) (T1 : List ℕ) (s : Levels) : Prop where
  placed : Placed L root k s
  mem : ∀ l, l ∈ T1 ↔ AtDepth L.backward root k l
  fOrder : ∀ l, Reach L.backward root l → ∀ j : ℕ, s.fOrder l = j ↔
    j < k ∧ AtDepth L.backward root j l ∧ ∀ j' > j, j' < k → ¬ AtDepth L.backward root j' l

lemma Sorting.next {k : ℕ} {T1 : List ℕ} {s : Levels} (h : Sorting L root k T1 s)
    (hne : T1 ≠ []) :
    Sorting L root (k + 1) (L.setLevel k T1 [] s).1 (L.setLevel k T1 [] s).2 := by
  obtain ⟨hplaced, hmem, horder⟩ := setLevel_spec T1 [] h.placed (Nat.le_succ k)
    (fun hnil => absurd hnil hne) fun l hl => ((h.mem l).mp hl).reach
  refine ⟨hplaced, fun l => ?_, fun l hl j => ?_⟩
  · rw [hmem]
    simp only [List.not_mem_nil, false_or, h.mem]
    rfl
  · rw [horder]
    by_cases hk : l ∈ T1
    · -- `l` is met again, at level `k`
      have hdepth := (h.mem l).mp hk
      rw [if_pos hk]
      constructor
      · intro hj
        obtain rfl : k = j := by exact_mod_cast hj
        exact ⟨by omega, hdepth, fun j' _ _ => by omega⟩
      · rintro ⟨hj, -, hdeeper⟩
        by_contra hjk
        have hjk : j < k := by omega
        exact hdeeper k hjk (by omega) hdepth
    · have hdepth := fun hc => hk ((h.mem l).mpr hc)
      rw [if_neg hk, h.fOrder l hl]
      constructor
      · rintro ⟨hj, hat, hdeeper⟩
        refine ⟨by omega, hat, fun j' hj' hk' => ?_⟩
        by_cases hjk : j' = k
        · exact hjk ▸ hdepth
        · exact hdeeper j' hj' (by omega)
      · rintro ⟨hj, hat, hdeeper⟩
        have hjk : j ≠ k := fun hjk => hdepth (hjk ▸ hat)
        exact ⟨by omega, hat, fun j' hj' hk' => hdeeper j' hj' (by omega)⟩

/-- The loop over the levels ends, and leaves each loop at its level. -/
lemma sortLevels_spec {n : ℕ} (hn : ∀ k v, AtDepth L.backward root k v → k ≤ n) :
    ∀ {fuel k : ℕ} {T1 : List ℕ} {s : Levels}, Sorting L root k T1 s → T1 ≠ [] → n < fuel + k →
    ∃ s', L.sortLevels fuel k T1 s = some s' ∧ (∀ j, (s'.V.getD j []).Nodup) ∧
      ∀ j l, l ∈ s'.V.getD j [] ↔ Deepest L root j l := by
  intro fuel
  induction fuel with
  | zero =>
    intro k T1 s h hne hlt
    obtain ⟨l, hl⟩ := List.exists_mem_of_ne_nil T1 hne
    have := hn k l ((h.mem l).mp hl)
    omega
  | succ fuel ih =>
    intro k T1 s h hne hlt
    have hnext := h.next hne
    rw [sortLevels]
    by_cases hmore : 0 < (L.setLevel k T1 [] s).1.length
    · simp only [hmore, if_true]
      exact ih hnext (List.ne_nil_of_length_pos hmore) (by omega)
    · -- nothing is met at level `k + 1`
      simp only [hmore, if_false, Option.some.injEq, exists_eq_left']
      have hnil : (L.setLevel k T1 [] s).1 = [] := List.eq_nil_of_length_eq_zero (by omega)
      have hend : ∀ j l, k < j → ¬ AtDepth L.backward root j l := by
        intro j
        induction j with
        | zero => omega
        | succ j ihj =>
          intro l hj hat
          by_cases hjk : j = k
          · subst hjk
            rw [← hnext.mem, hnil] at hat
            cases hat
          · obtain ⟨u, hu, -⟩ := hat
            exact ihj u (by omega) hu
      refine ⟨hnext.placed.nodup, fun j l => ?_⟩
      rw [hnext.placed.mem]
      constructor
      · rintro ⟨hreach, horder⟩
        obtain ⟨hj, hat, hdeeper⟩ := (hnext.fOrder l hreach j).mp horder
        refine ⟨hat, fun j' hj' => ?_⟩
        by_cases hk' : j' < k + 1
        · exact hdeeper j' hj' hk'
        · exact hend j' l (by omega)
      · rintro ⟨hat, hdeeper⟩
        refine ⟨hat.reach, (hnext.fOrder l hat.reach j).mpr ⟨?_, hat, fun j' hj' _ => hdeeper j' hj'⟩⟩
        by_contra hj
        exact hend j l (by omega) hat

/-- `resetOrder` ends, and leaves no order behind. -/
lemma resetOrder_spec {rank : ℕ → ℕ}
    (hrank : ∀ u v, Reach L.backward root u → v ∈ L.backward u → rank v < rank u) :
    ∀ {fuel l : ℕ} {o : ℕ → ℤ}, rank l < fuel → Reach L.backward root l →
    ∃ o', L.resetOrder fuel l o = some o' ∧ (∀ x, Reach L.backward l x → o' x = -1) ∧
      ∀ x, o x = -1 → o' x = -1 := by
  intro fuel
  induction fuel with
  | zero => omega
  | succ fuel ih =>
    intro l o hlt hl
    -- the loops on which `l` depends, one after the other
    have hfold : ∀ (qs : List ℕ) (o : ℕ → ℤ), (∀ q ∈ qs, q ∈ L.backward l) →
        ∃ o', qs.foldlM (fun o p => L.resetOrder fuel p o) o = some o' ∧
          (∀ q ∈ qs, ∀ x, Reach L.backward q x → o' x = -1) ∧ ∀ x, o x = -1 → o' x = -1 := by
      intro qs
      induction qs with
      | nil => exact fun o _ => ⟨o, rfl, nofun, fun x hx => hx⟩
      | cons q qs ihq =>
        intro o hqs
        have hq := hqs q List.mem_cons_self
        obtain ⟨o₁, ho₁, hreach₁, hkeep₁⟩ :=
          @ih q o (by have := hrank l q hl hq; omega) (hl.step hq)
        obtain ⟨o₂, ho₂, hreach₂, hkeep₂⟩ := ihq o₁ fun q' hq' => hqs q' (List.mem_cons_of_mem q hq')
        refine ⟨o₂, by rw [List.foldlM_cons, ho₁]; exact ho₂, fun q' hq' x hx => ?_,
          fun x hx => hkeep₂ x (hkeep₁ x hx)⟩
        rcases List.mem_cons.mp hq' with rfl | hq'
        · exact hkeep₂ x (hreach₁ x hx)
        · exact hreach₂ q' hq' x hx
    obtain ⟨o', ho', hreach, hkeep⟩ := hfold (L.backward l) (Function.update o l (-1)) fun _ => id
    refine ⟨o', ho', fun x hx => ?_, fun x hx => ?_⟩
    · rcases Relation.ReflTransGen.cases_head hx with rfl | ⟨q, hq, hqx⟩
      · exact hkeep l (Function.update_self _ _ _)
      · exact hreach q hq x hqx
    · refine hkeep x ?_
      by_cases hxl : x = l
      · rw [hxl, Function.update_self]
      · rw [Function.update_of_ne hxl, hx]

/-- The levels of `sortGraph` before the empty ones are erased. -/
lemma sortGraph_levels (h : Acyclic L.backward root) (fOrder : ℕ → ℤ) :
    ∃ n, ∀ fuel ≥ n, ∃ V : List (List ℕ),
      L.sortGraph fuel root fOrder = some (V.filter fun level => !L.isEmptyLevel level) ∧
      (∀ j, (V.getD j []).Nodup) ∧ ∀ j l, l ∈ V.getD j [] ↔ Deepest L root j l := by
  obtain ⟨rank, hrank⟩ := h.exists_rank
  obtain ⟨n, hn⟩ := h.exists_bound
  refine ⟨max (rank root + 1) (n + 1), fun fuel hfuel => ?_⟩
  have hrankroot : rank root < fuel := by omega
  obtain ⟨o, ho, hreset, -⟩ := resetOrder_spec hrank (o := fOrder) hrankroot .refl
  have hstart : Sorting L root 0 [root] ⟨o, []⟩ := by
    refine ⟨⟨rfl, fun j => by simp, fun j l => ?_⟩, fun l => List.mem_singleton, fun l hl j => ?_⟩
    · simp only [List.getD_nil, List.not_mem_nil, false_iff, not_and]
      intro hl
      rw [hreset l hl]
      omega
    · show o l = j ↔ _
      rw [hreset l hl]
      simp
  have hlt : n < fuel + 0 := by omega
  obtain ⟨s, hs, hnodup, hmem⟩ := sortLevels_spec hn hstart (List.cons_ne_nil _ _) hlt
  refine ⟨s.V, ?_, hnodup, hmem⟩
  rw [sortGraph, ho]
  show (do let s ← L.sortLevels fuel 0 [root] ⟨o, []⟩; _) = _
  rw [hs]
  rfl

/-! ## The result of `sortGraph` -/

lemma Deepest.reach {j l : ℕ} (h : Deepest L root j l) : Reach L.backward root l := h.1.reach

lemma Deepest.unique {j j' l : ℕ} (h : Deepest L root j l) (h' : Deepest L root j' l) :
    j = j' := by
  by_contra hne
  rcases Nat.lt_or_gt_of_ne hne with hlt | hgt
  · exact h.2 j' hlt h'.1
  · exact h'.2 j hgt h.1

/-- A loop that is met at some level stays at a level at least as deep. -/
lemma exists_deepest (h : Acyclic L.backward root) {k l : ℕ} (hk : AtDepth L.backward root k l) :
    ∃ j ≥ k, Deepest L root j l := by
  obtain ⟨n, hn⟩ := h.exists_bound
  have hind : ∀ m k, n - k = m → AtDepth L.backward root k l → ∃ j ≥ k, Deepest L root j l := by
    intro m
    induction m using Nat.strong_induction_on with
    | _ m ih =>
      intro k hm hk
      by_cases hdeeper : ∃ j > k, AtDepth L.backward root j l
      · obtain ⟨j, hj, hat⟩ := hdeeper
        have := hn j l hat
        obtain ⟨j', hj', hdeep⟩ := ih (n - j) (by omega) j rfl hat
        exact ⟨j', by omega, hdeep⟩
      · push Not at hdeeper
        exact ⟨k, le_rfl, hk, hdeeper⟩
  exact hind _ k rfl hk

lemma deepest_root (h : Acyclic L.backward root) : Deepest L root 0 root := by
  refine ⟨rfl, fun j hj hat => ?_⟩
  obtain ⟨k, rfl⟩ : ∃ k, j = k + 1 := ⟨j - 1, by omega⟩
  obtain ⟨u, hu, hroot⟩ := hat
  exact h.not_trans root .refl (Relation.TransGen.tail' hu.reach hroot)

/-- The level of the root is erased when the root is empty. -/
def shift (L : CodeLoops) (root : ℕ) : ℕ := if L.isEmpty root then 1 else 0

/-- Every loop but the root has code. -/
def AllCode (L : CodeLoops) (root : ℕ) : Prop :=
  ∀ l, Reach L.backward root l → l ≠ root → L.isEmpty l = false

/-- `sortGraph` returns, and leaves each loop at the level of the longest path to it. -/
theorem sortGraph_spec (h : Acyclic L.backward root) (hcode : AllCode L root)
    (fOrder : ℕ → ℤ) : ∃ n, ∀ fuel ≥ n, ∃ V, L.sortGraph fuel root fOrder = some V ∧
      (∀ j, (V.getD j []).Nodup) ∧
      ∀ j l, l ∈ V.getD j [] ↔ Deepest L root (j + shift L root) l := by
  obtain ⟨n, hn⟩ := sortGraph_levels h fOrder
  refine ⟨n, fun fuel hfuel => ?_⟩
  obtain ⟨V, hV, hnodup, hmem⟩ := hn fuel hfuel
  -- the root is alone at its level
  have hroot : V.getD 0 [] = [root] := by
    refine List.perm_singleton.mp ((List.perm_ext_iff_of_nodup (hnodup 0) (by simp)).mpr ?_)
    intro l
    rw [hmem, List.mem_singleton]
    constructor
    · exact fun hl => hl.1
    · rintro rfl
      exact deepest_root h
  obtain ⟨level, V', rfl⟩ : ∃ level V', V = level :: V' := by
    cases V with
    | nil => simp at hroot
    | cons level V' => exact ⟨level, V', rfl⟩
  obtain rfl : level = [root] := hroot
  have hother : V'.filter (fun level => !L.isEmptyLevel level) = V' := by
    refine List.filter_eq_self.mpr fun level hlevel => ?_
    obtain ⟨j, hj, rfl⟩ := List.mem_iff_getElem.mp hlevel
    have hmem' : ∀ l, l ∈ V'[j] ↔ Deepest L root (j + 1) l := by
      intro l
      rw [← hmem (j + 1) l, List.getD_cons_succ, List.getD_eq_getElem _ _ hj]
    unfold isEmptyLevel
    split
    · rename_i l heq
      have hl := (hmem' l).mp (by rw [heq]; exact List.mem_singleton_self l)
      rw [hcode l hl.reach]
      · rfl
      · rintro rfl
        have := hl.unique (deepest_root h)
        omega
    · rfl
  rw [List.filter_cons, hother] at hV
  refine ⟨_, hV, fun j => ?_, fun j l => ?_⟩
  · cases hempty : L.isEmpty root with
    | true => simpa [isEmptyLevel, hempty] using hnodup (j + 1)
    | false => simpa [isEmptyLevel, hempty] using hnodup j
  · cases hempty : L.isEmpty root with
    | true => simpa [isEmptyLevel, hempty, shift] using hmem (j + 1) l
    | false => simpa [isEmptyLevel, hempty, shift] using hmem j l

section Sorted

variable {V : List (List ℕ)} (h : Acyclic L.backward root) (hcode : AllCode L root)
  (hnodup : ∀ j, (V.getD j []).Nodup)
  (hmem : ∀ j l, l ∈ V.getD j [] ↔ Deepest L root (j + shift L root) l)

include h hmem in
/-- What a loop depends on is at a deeper level. -/
lemma sorted_deeper (k v : ℕ) (hv : v ∈ V.getD k []) (u : ℕ) (hu : u ∈ L.backward v) :
    ∃ j > k, u ∈ V.getD j [] := by
  have hat : AtDepth L.backward root (k + shift L root + 1) u := ⟨v, ((hmem k v).mp hv).1, hu⟩
  obtain ⟨j, hj, hdeep⟩ := exists_deepest h hat
  refine ⟨j - shift L root, by omega, (hmem _ u).mpr ?_⟩
  rwa [Nat.sub_add_cancel (by omega)]

lemma mem_emission {l : ℕ} : l ∈ emission V ↔ ∃ j, l ∈ V.getD j [] := by
  rw [emission, List.mem_flatten]
  constructor
  · rintro ⟨level, hlevel, hl⟩
    obtain ⟨j, hj, rfl⟩ := List.mem_iff_getElem.mp (List.mem_reverse.mp hlevel)
    exact ⟨j, by rwa [List.getD_eq_getElem _ _ hj]⟩
  · rintro ⟨j, hl⟩
    have hj := lt_length_of_mem_getD hl
    rw [List.getD_eq_getElem _ _ hj] at hl
    exact ⟨V[j], List.mem_reverse.mpr (List.getElem_mem hj), hl⟩

include h hcode hmem in
/-- The loops that are generated are those that are reached and have code. -/
lemma sorted_mem (l : ℕ) :
    l ∈ emission V ↔ Reach L.backward root l ∧ L.isEmpty l = false := by
  rw [mem_emission]
  constructor
  · rintro ⟨j, hl⟩
    have hdeep := (hmem j l).mp hl
    refine ⟨hdeep.reach, ?_⟩
    by_cases hlr : l = root
    · subst hlr
      have hlevel := hdeep.unique (deepest_root h)
      by_contra hempty
      rw [shift, if_pos (by simpa using hempty)] at hlevel
      omega
    · exact hcode l hdeep.reach hlr
  · rintro ⟨hl, hempty⟩
    obtain ⟨k, hk⟩ := hl.atDepth
    have hle : ∃ k ≥ shift L root, AtDepth L.backward root k l := by
      unfold shift
      split
      · rename_i hroot
        refine ⟨k, ?_, hk⟩
        -- an empty root is not `l`
        by_contra hk0
        obtain rfl : k = 0 := by omega
        obtain rfl : l = root := hk
        rw [hroot] at hempty
        cases hempty
      · exact ⟨k, Nat.zero_le k, hk⟩
    obtain ⟨k, hk, hat⟩ := hle
    obtain ⟨j, hj, hdeep⟩ := exists_deepest h hat
    refine ⟨j - shift L root, (hmem _ l).mpr ?_⟩
    rwa [Nat.sub_add_cancel (by omega)]

include hnodup hmem in
lemma sorted_nodup : V.flatten.Nodup := by
  rw [List.nodup_flatten]
  constructor
  · intro level hlevel
    obtain ⟨j, hj, rfl⟩ := List.mem_iff_getElem.mp hlevel
    rw [← List.getD_eq_getElem _ [] hj]
    exact hnodup j
  · rw [List.pairwise_iff_getElem]
    intro i j hi hj hij l hli hlj
    rw [← List.getD_eq_getElem _ [] hi] at hli
    rw [← List.getD_eq_getElem _ [] hj] at hlj
    have := ((hmem i l).mp hli).unique ((hmem j l).mp hlj)
    omega

/-- Levels of which each comes after the deeper ones. -/
lemma respects_emission {succ : ℕ → List ℕ} : ∀ {V : List (List ℕ)},
    (∀ k, ∀ v ∈ V.getD k [], ∀ u ∈ succ v, ∃ j > k, u ∈ V.getD j []) →
    Respects succ (emission V) := by
  intro V
  induction V with
  | nil => exact fun _ => respects_nil
  | cons level V ih =>
    intro hdeeper
    have hsplit : emission (level :: V) = emission V ++ level := by
      simp [emission]
    rw [hsplit]
    refine Respects.append (ih fun k v hv u hu => ?_) fun v hv u hu => ?_
    · obtain ⟨j, hj, huj⟩ := hdeeper (k + 1) v hv u hu
      obtain ⟨j, rfl⟩ : ∃ i, j = i + 1 := ⟨j - 1, by omega⟩
      exact ⟨j, by omega, huj⟩
    · obtain ⟨j, hj, huj⟩ := hdeeper 0 v hv u hu
      obtain ⟨j, rfl⟩ : ∃ i, j = i + 1 := ⟨j - 1, by omega⟩
      exact mem_emission.mpr ⟨j, huj⟩

end Sorted

/-! ## The depth first visit -/

/-- The loops with code on which a loop depends. -/
def codeDeps (L : CodeLoops) (l : ℕ) : List ℕ := (L.backward l).filter fun q => !L.isEmpty q

/-- The invariant of `sortDeepFirstDAG`. The loops on the stack have been visited, and are not
yet in the result. -/
structure Visiting (L : CodeLoops) (root : ℕ) (stack : ℕ → Prop) (r : List ℕ × List ℕ) :
    Prop where
  reach : ∀ l ∈ r.1, Reach L.backward root l
  nodup : r.2.Nodup
  mem : ∀ l, l ∈ r.2 ↔ l ∈ r.1 ∧ ¬ stack l ∧ L.isEmpty l = false
  closed : ∀ l ∈ r.1, ¬ stack l → ∀ q ∈ L.backward l, q ∈ r.1 ∧ ¬ stack q
  respects : Respects L.codeDeps r.2

/-- Going into a loop. -/
lemma Visiting.push {stack : ℕ → Prop} {visited result : List ℕ} {l : ℕ}
    (h : Visiting L root stack (visited, result)) (hl : Reach L.backward root l)
    (hnew : l ∉ visited) :
    Visiting L root (fun x => stack x ∨ x = l) (insertLoop l visited, result) := by
  refine ⟨fun x hx => ?_, h.nodup, fun x => ?_, fun x hx hstack q hq => ?_, h.respects⟩
  · rcases mem_insertLoop.mp hx with rfl | hx
    · exact hl
    · exact h.reach x hx
  · rw [h.mem, mem_insertLoop]
    constructor
    · rintro ⟨hx, hstack, hcode⟩
      refine ⟨.inr hx, ?_, hcode⟩
      rintro (hs | rfl)
      · exact hstack hs
      · exact hnew hx
    · rintro ⟨hx, hstack, hcode⟩
      push Not at hstack
      exact ⟨hx.resolve_left hstack.2, hstack.1, hcode⟩
  · push Not at hstack
    obtain ⟨hqv, hqs⟩ :=
      h.closed x ((mem_insertLoop.mp hx).resolve_left hstack.2) hstack.1 q hq
    refine ⟨mem_insertLoop.mpr (.inr hqv), ?_⟩
    rintro (hs | rfl)
    · exact hqs hs
    · exact hnew hqv

/-- Coming back from a loop. -/
lemma Visiting.pop {stack : ℕ → Prop} {visited result : List ℕ} {l : ℕ}
    (h : Visiting L root (fun x => stack x ∨ x = l) (visited, result)) (hl : l ∈ visited)
    (hstack : ¬ stack l) (hdeps : ∀ q ∈ L.backward l, q ∈ visited ∧ ¬ stack q ∧ q ≠ l) :
    Visiting L root stack (visited, if L.isEmpty l then result else result ++ [l]) := by
  have hnot : l ∉ result := fun hmem => ((h.mem l).mp hmem).2.1 (.inr rfl)
  have hclosed : ∀ x ∈ visited, ¬ stack x → ∀ q ∈ L.backward x, q ∈ visited ∧ ¬ stack q := by
    intro x hx hsx q hq
    by_cases hxl : x = l
    · subst hxl
      exact ⟨(hdeps q hq).1, (hdeps q hq).2.1⟩
    · obtain ⟨hqv, hqs⟩ := h.closed x hx (by simp [hsx, hxl]) q hq
      exact ⟨hqv, fun hs => hqs (.inl hs)⟩
  cases hempty : L.isEmpty l with
  | true =>
    refine ⟨h.reach, h.nodup, fun x => ?_, hclosed, h.respects⟩
    simp only [if_true]
    rw [h.mem]
    refine and_congr_right fun _ => ?_
    by_cases hxl : x = l
    · simp [hxl, hempty]
    · simp [hxl]
  | false =>
    refine ⟨h.reach, ?_, fun x => ?_, hclosed, ?_⟩
    · simp only [Bool.false_eq_true, if_false]
      refine List.nodup_append.mpr ⟨h.nodup, List.nodup_singleton l, fun a ha b hb hab => ?_⟩
      rw [hab, List.mem_singleton.mp hb] at ha
      exact hnot ha
    · simp only [Bool.false_eq_true, if_false]
      rw [List.mem_append, List.mem_singleton, h.mem]
      by_cases hxl : x = l
      · simp [hxl, hempty, hl, hstack]
      · simp [hxl]
    · simp only [Bool.false_eq_true, if_false]
      refine h.respects.snoc fun u hu => ?_
      obtain ⟨hu, hcode⟩ := List.mem_filter.mp hu
      obtain ⟨huv, hus, hul⟩ := hdeps u hu
      exact (h.mem u).mpr ⟨huv, by simp [hus, hul], by simpa using hcode⟩

/-- A visit of a loop below the loops of the stack. -/
lemma sortDeepFirstDAG_spec (h : Acyclic L.backward root) {rank : ℕ → ℕ}
    (hrank : ∀ u v, Reach L.backward root u → v ∈ L.backward u → rank v < rank u) :
    ∀ {fuel l : ℕ} {stack : ℕ → Prop} {r : List ℕ × List ℕ}, rank l < fuel →
    Reach L.backward root l → Visiting L root stack r →
    (∀ s, stack s → Relation.TransGen (Edge L.backward) s l ∧ Reach L.backward root s) →
    ∃ r', L.sortDeepFirstDAG fuel l r = some r' ∧ Visiting L root stack r' ∧ l ∈ r'.1 ∧
      r.1 ⊆ r'.1 := by
  intro fuel
  induction fuel with
  | zero => omega
  | succ fuel ih =>
    rintro l stack ⟨visited, result⟩ hlt hl hvis hstack
    rw [sortDeepFirstDAG]
    by_cases hold : l ∈ visited
    · rw [if_pos hold]
      exact ⟨_, rfl, hvis, hold, List.Subset.refl _⟩
    rw [if_neg hold]
    -- the loops on which `l` depends, with `l` on the stack
    have hfold : ∀ (qs : List ℕ) (r : List ℕ × List ℕ), (∀ q ∈ qs, q ∈ L.backward l) →
        Visiting L root (fun x => stack x ∨ x = l) r →
        ∃ r', qs.foldlM (fun r p => L.sortDeepFirstDAG fuel p r) r = some r' ∧
          Visiting L root (fun x => stack x ∨ x = l) r' ∧ (∀ q ∈ qs, q ∈ r'.1) ∧
          r.1 ⊆ r'.1 := by
      intro qs
      induction qs with
      | nil => exact fun r _ hr => ⟨r, rfl, hr, nofun, List.Subset.refl _⟩
      | cons q qs ihq =>
        intro r hqs hr
        have hq := hqs q List.mem_cons_self
        obtain ⟨r₁, hr₁, hvis₁, hmem₁, hsub₁⟩ := @ih q (fun x => stack x ∨ x = l) r
          (by have := hrank l q hl hq; omega) (hl.step hq) hr fun s hs => by
            rcases hs with hs | rfl
            · exact ⟨(hstack s hs).1.tail hq, (hstack s hs).2⟩
            · exact ⟨.single hq, hl⟩
        obtain ⟨r₂, hr₂, hvis₂, hmem₂, hsub₂⟩ :=
          ihq r₁ (fun q' hq' => hqs q' (List.mem_cons_of_mem q hq')) hvis₁
        refine ⟨r₂, by rw [List.foldlM_cons, hr₁]; exact hr₂, hvis₂, fun q' hq' => ?_,
          List.Subset.trans hsub₁ hsub₂⟩
        rcases List.mem_cons.mp hq' with rfl | hq'
        · exact hsub₂ hmem₁
        · exact hmem₂ q' hq'
    obtain ⟨⟨visited', result'⟩, hrun, hvis', hmem', hsub'⟩ :=
      hfold (L.backward l) (insertLoop l visited, result) (fun _ => id) (hvis.push hl hold)
    have hlv : l ∈ visited' := hsub' (mem_insertLoop.mpr (.inl rfl))
    have hnot : ∀ x, Reach L.backward l x → ¬ stack x := by
      intro x hx hs
      obtain ⟨hsl, hsr⟩ := hstack x hs
      exact h.not_trans x hsr (hsl.trans_left hx)
    refine ⟨_, by rw [hrun]; rfl, hvis'.pop hlv (hnot l .refl) fun q hq => ?_, hlv,
      fun x hx => hsub' (mem_insertLoop.mpr (.inr hx))⟩
    refine ⟨hmem' q hq, hnot q (Relation.ReflTransGen.single hq), ?_⟩
    rintro rfl
    exact h.not_trans q hl (.single hq)

/-- What `sortDeepFirstDAG` leaves. -/
theorem sortDeepFirstDAG_root (h : Acyclic L.backward root) :
    ∃ n, ∀ fuel ≥ n, ∃ visited result, L.sortDeepFirstDAG fuel root ([], []) =
      some (visited, result) ∧ result.Nodup ∧
      (∀ l, l ∈ result ↔ Reach L.backward root l ∧ L.isEmpty l = false) ∧
      Respects L.codeDeps result := by
  obtain ⟨rank, hrank⟩ := h.exists_rank
  refine ⟨rank root + 1, fun fuel hfuel => ?_⟩
  have hstart : Visiting L root (fun _ => False) ([], []) :=
    ⟨nofun, List.nodup_nil, by simp, nofun, respects_nil⟩
  obtain ⟨⟨visited, result⟩, hrun, hvis, hroot, -⟩ :=
    sortDeepFirstDAG_spec h hrank hfuel .refl hstart nofun
  refine ⟨visited, result, hrun, hvis.nodup, fun l => ?_, hvis.respects⟩
  have hall : ∀ l, Reach L.backward root l → l ∈ visited := by
    intro l hl
    unfold Reach at hl
    induction hl with
    | refl => exact hroot
    | tail _ hq ih => exact (hvis.closed _ ih id _ hq).1
  rw [hvis.mem]
  simp only [not_false_eq_true, true_and]
  exact and_congr_left fun _ => ⟨hvis.reach l, hall l⟩

lemma respects_backward (h : Acyclic L.backward root) (hcode : AllCode L root) {l : List ℕ}
    (hreach : ∀ v ∈ l, Reach L.backward root v) (hl : Respects L.codeDeps l) :
    Respects L.backward l := by
  intro before v after heq u hu
  have hv := hreach v (by rw [heq]; exact List.mem_append_right _ List.mem_cons_self)
  refine hl before v after heq u (List.mem_filter.mpr ⟨hu, ?_⟩)
  rw [hcode u (hv.step hu)]
  · rfl
  · rintro rfl
    exact h.not_edge_back .refl hv hu

/-- Both sorts return, with every loop that has code once, after what it depends on. -/
theorem loops_sorted (h : Acyclic L.backward root) (hcode : AllCode L root) (fOrder : ℕ → ℤ) :
    ∃ n, ∀ fuel ≥ n,
      (∃ V, L.sortGraph fuel root fOrder = some V ∧ (emission V).Nodup ∧
        (∀ l, l ∈ emission V ↔ Reach L.backward root l ∧ L.isEmpty l = false) ∧
        Respects L.backward (emission V)) ∧
      ∃ visited result, L.sortDeepFirstDAG fuel root ([], []) = some (visited, result) ∧
        result.Nodup ∧ (∀ l, l ∈ result ↔ Reach L.backward root l ∧ L.isEmpty l = false) ∧
        Respects L.backward result := by
  obtain ⟨n, hn⟩ := sortGraph_spec h hcode fOrder
  obtain ⟨m, hm⟩ := sortDeepFirstDAG_root h
  refine ⟨max n m, fun fuel hfuel => ⟨?_, ?_⟩⟩
  · obtain ⟨V, hV, hnodup, hmem⟩ := hn fuel (by omega)
    refine ⟨V, hV, ?_, sorted_mem h hcode hmem, respects_emission (sorted_deeper h hmem)⟩
    exact (List.reverse_perm V).flatten.nodup_iff.mpr (sorted_nodup hnodup hmem)
  · obtain ⟨visited, result, hrun, hnodup, hmem, hres⟩ := hm fuel (by omega)
    exact ⟨visited, result, hrun, hnodup, hmem,
      respects_backward h hcode (fun v hv => ((hmem v).mp hv).1) hres⟩

/-- A root without code, and a long and a short way to loop 1. -/
def ladder : CodeLoops where
  backward
    | 5 => [3, 4]
    | 4 => [1, 2]
    | 3 => [1]
    | 2 => [1]
    | _ => []
  isEmpty l := l == 5
  nodup_backward l := by split <;> decide

/-- The loops are generated in the order 1, 2, 3, 4 or 1, 3, 2, 4. -/
theorem loops_sorted_ladder : ∃ n, ∀ fuel ≥ n,
    (∃ V, ladder.sortGraph fuel 5 (fun _ => 0) = some V ∧ Respects ladder.backward (emission V)) ∧
    ∃ visited result, ladder.sortDeepFirstDAG fuel 5 ([], []) = some (visited, result) ∧
      Respects ladder.backward result := by
  have hlt : ∀ u, ∀ v ∈ ladder.backward u, v < u := by
    intro u v hv
    unfold ladder at hv
    dsimp only at hv
    split at hv <;> simp at hv <;> omega
  have hcode : AllCode ladder 5 := fun l _ hl => by simpa [ladder] using hl
  obtain ⟨n, hn⟩ := loops_sorted (acyclic_of_lt hlt 5) hcode fun _ => 0
  refine ⟨n, fun fuel hfuel => ?_⟩
  obtain ⟨⟨V, hV, -, -, hres⟩, visited, result, hrun, -, -, hres'⟩ := hn fuel hfuel
  exact ⟨⟨V, hV, hres⟩, visited, result, hrun, hres'⟩

example : ladder.sortGraph 5 5 (fun _ => 0) = some [[3, 4], [2], [1]] := by decide

/-! ## The graph of the scheduler -/

/-- Some loop is at the first level that is kept. -/
lemma exists_first (h : Acyclic L.backward root) {l : ℕ} (hl : Reach L.backward root l)
    (hempty : L.isEmpty l = false) : ∃ l, Deepest L root (shift L root) l := by
  unfold shift
  split
  · rename_i hroot
    obtain ⟨rank, hrank⟩ := h.exists_rank
    -- among the loops that the root depends on, the one with the largest rank
    have hne : L.backward root ≠ [] := by
      intro hnil
      rcases Relation.ReflTransGen.cases_head hl with rfl | ⟨q, hq, -⟩
      · rw [hroot] at hempty
        cases hempty
      · have hq : q ∈ L.backward root := hq
        rw [hnil] at hq
        cases hq
    obtain ⟨u, hu, hmax⟩ : ∃ u ∈ L.backward root, ∀ v ∈ L.backward root, rank v ≤ rank u := by
      obtain ⟨u, hu, hmax⟩ := (L.backward root).toFinset.exists_max_image rank
        (by rwa [List.toFinset_nonempty_iff])
      exact ⟨u, List.mem_toFinset.mp hu, fun v hv => hmax v (List.mem_toFinset.mpr hv)⟩
    refine ⟨u, ⟨root, rfl, hu⟩, fun j hj hat => ?_⟩
    have hbelow : ∀ k v, AtDepth L.backward root (k + 2) v → rank v < rank u := by
      intro k
      induction k with
      | zero =>
        rintro v ⟨w, ⟨r, rfl, hw⟩, hv⟩
        exact (hrank w v (Reach.step .refl hw) hv).trans_le (hmax w hw)
      | succ k ih =>
        rintro v ⟨w, hw, hv⟩
        exact (hrank w v hw.reach hv).trans (ih w hw)
    obtain ⟨k, rfl⟩ : ∃ k, j = k + 2 := ⟨j - 2, by omega⟩
    exact absurd (hbelow k u hat) (lt_irrefl _)
  · exact ⟨root, deepest_root h⟩

/-- The levels that `sortGraph` returns make a `LoopGraph`, unless there is no code at all. -/
theorem sortGraph_loopGraph (h : Acyclic L.backward root) (hcode : AllCode L root)
    (fOrder : ℕ → ℤ) {l : ℕ} (hl : Reach L.backward root l) (hempty : L.isEmpty l = false) :
    ∃ n, ∀ fuel ≥ n, ∃ G : LoopGraph, L.sortGraph fuel root fOrder = some G.levels ∧
      G.backward = L.backward := by
  obtain ⟨n, hn⟩ := sortGraph_spec h hcode fOrder
  refine ⟨n, fun fuel hfuel => ?_⟩
  obtain ⟨V, hV, hnodup, hmem⟩ := hn fuel hfuel
  obtain ⟨first, hfirst⟩ := exists_first h hl hempty
  have hhead : first ∈ V.headD [] := by
    have hget : first ∈ V.getD 0 [] := (hmem 0 first).mpr (by rwa [Nat.zero_add])
    cases V with
    | nil => cases hget
    | cons level V => exact hget
  refine ⟨⟨V, L.backward, List.ne_nil_of_mem hhead, sorted_nodup hnodup hmem, L.nodup_backward,
    sorted_deeper h hmem, fun k p hp => ?_⟩, hV, rfl⟩
  have hdeep := (hmem (k + 1) p).mp hp
  obtain ⟨q, hq, hpq⟩ : ∃ q, AtDepth L.backward root (k + shift L root) q ∧
      p ∈ L.backward q := by
    have hat := hdeep.1
    rw [Nat.add_right_comm] at hat
    exact hat
  obtain ⟨j, hj, hdeepq⟩ := exists_deepest h hq
  refine ⟨q, ?_, hpq⟩
  have hqV : q ∈ V.getD (j - shift L root) [] :=
    (hmem _ q).mpr (by rwa [Nat.sub_add_cancel (by omega)])
  have hlt := lt_length_of_mem_getD hqV
  rw [List.getD_eq_getElem _ _ hlt] at hqV
  exact List.mem_flatten.mpr ⟨_, List.getElem_mem hlt, hqV⟩

end Faust.CodeLoops
