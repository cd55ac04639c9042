import Faust.Tlib.RecursiveTree

/-!
# Laws of apertures, lifting and substitution

A reference under `d` binders whose level is `l` points `l - d` binders out of the tree: it is bound
in the tree when this is 0 or less. The aperture bounds how far out the references point, and
`liftn` and `substitute`, which stop at the trees that the aperture says are out of reach, are
replacements of the references alone.
-/

namespace Faust.Tree

/-- The tree has a reference that points `j` binders out. -/
inductive Refers : Tree → ℤ → Prop
  | debruijnRef (l : ℤ) : Refers (debruijnRef l) l
  | debruijn {b : Tree} {j : ℤ} (h : Refers b j) : Refers (debruijn b) (j - 1)
  | branch {n : Node} {br : List Tree} {t : Tree} {j : ℤ} (hn : Plain n) (ht : t ∈ br)
      (h : Refers t j) : Refers (.node n br) j

mutual
/-- The tree, under `d` binders, with `f d' l` for each reference of level `l` under `d'` binders. -/
def mapRefs (f : ℤ → ℤ → Tree) : Tree → ℤ → Tree
  | .node n br, d =>
    match n, br with
    | .sym .debruijnRef, [.node (.int l) _] => f d l
    | .sym .debruijn, [body] => debruijn (mapRefs f body (d + 1))
    | n, br => .node n (mapRefsOf f br d)

/-- `mapRefs` on every branch. -/
def mapRefsOf (f : ℤ → ℤ → Tree) : List Tree → ℤ → List Tree
  | [], _ => []
  | t :: ts, d => mapRefs f t d :: mapRefsOf f ts d
end

/-! ## References that are replaced -/

section
variable (f : ℤ → ℤ → Tree)

theorem mapRefsOf_eq_map (ts : List Tree) (d : ℤ) : mapRefsOf f ts d = ts.map (mapRefs f · d) := by
  induction ts with
  | nil => rfl
  | cons t ts ih => rw [mapRefsOf, ih, List.map_cons]

theorem mapRefs_debruijnRef (l d : ℤ) : mapRefs f (debruijnRef l) d = f d l := rfl

theorem mapRefs_debruijn (b : Tree) (d : ℤ) :
    mapRefs f (debruijn b) d = debruijn (mapRefs f b (d + 1)) := rfl

theorem mapRefs_plain {n : Node} (hn : Plain n) (br : List Tree) (d : ℤ) :
    mapRefs f (.node n br) d = .node n (br.map (mapRefs f · d)) := by
  rw [← mapRefsOf_eq_map]
  conv_lhs => unfold mapRefs
  split
  · exact absurd rfl hn.2.1
  · exact absurd rfl hn.1
  · rfl

theorem mapRefs_symRef (v : Sym) (d : ℤ) : mapRefs f (symRef v) d = symRef v := by
  show Tree.node (.sym .symRec) [mapRefs f (leaf (.sym v)) d] = symRef v
  have hleaf : mapRefs f (leaf (.sym v)) d = leaf (.sym v) := by
    unfold leaf mapRefs
    split
    · simp_all
    · simp_all
    · rfl
  rw [hleaf]
  rfl

end

variable {V : Sym → Prop} {t : Tree}

/-! ## Apertures -/

/-- The aperture bounds how far out the references point. -/
theorem WellFormed.aperture_le_iff (ht : WellFormed V t) :
    ∀ {k : ℤ}, 0 ≤ k → (t.aperture ≤ k ↔ ∀ j, Refers t j → j ≤ k) := by
  induction ht with
  | debruijnRef l hl =>
    intro k hk
    rw [aperture_debruijnRef]
    constructor
    · intro h j hj
      generalize hu : Tree.debruijnRef l = u at hj
      cases hj with
      | debruijnRef l' =>
        cases hu
        exact h
      | debruijn h => cases hu
      | branch hn _ _ =>
        cases hu
        exact absurd rfl hn.2.1
    · intro h
      exact h l (.debruijnRef l)
  | debruijn b hb ih =>
    intro k hk
    have hbody := @ih (k + 1) (by omega)
    rw [aperture_debruijn]
    constructor
    · intro h j hj
      generalize hu : Tree.debruijn b = u at hj
      cases hj with
      | debruijnRef l' => cases hu
      | @debruijn b' j' h' =>
        cases hu
        have := hbody.mp (by omega) j' h'
        omega
      | branch hn _ _ =>
        cases hu
        exact absurd rfl hn.1
    · intro h
      have hle : b.aperture ≤ k + 1 := by
        rw [hbody]
        intro j hj
        have := h (j - 1) (.debruijn hj)
        omega
      omega
  | symRef v hv =>
    intro k hk
    rw [aperture_symRef]
    constructor
    · intro _ j hj
      generalize hu : Tree.symRef v = u at hj
      cases hj with
      | debruijnRef l' => cases hu
      | debruijn h => cases hu
      | branch hn _ _ =>
        cases hu
        exact absurd rfl hn.2.2
    · intro _
      exact hk
  | plain n br hn hbr ih =>
    intro k hk
    rw [aperture_node hn, maxAperture_le_iff hk]
    constructor
    · intro h j hj
      generalize hu : Tree.node n br = u at hj
      cases hj with
      | debruijnRef l' =>
        cases hu
        exact absurd rfl hn.2.1
      | debruijn h' =>
        cases hu
        exact absurd rfl hn.1
      | @branch n' br' t j hn' ht' h' =>
        cases hu
        exact (ih t ht' hk).mp (h t ht') j h'
    · intro h t ht'
      exact (ih t ht' hk).mpr fun j hj => h j (.branch hn ht' hj)

/-! ## Lifting -/

theorem WellFormed.liftn (ht : WellFormed V t) :
    ∀ {k : ℤ}, 0 < k → WellFormed V (liftn t k) := by
  induction ht with
  | debruijnRef l hl =>
    intro k _
    rw [liftn_debruijnRef hl]
    split
    · exact .debruijnRef l hl
    · exact .debruijnRef (l + 1) (by omega)
  | debruijn b hb ih =>
    intro k hk
    rw [liftn_debruijn hb hk]
    exact .debruijn _ (ih (by omega))
  | symRef v hv =>
    intro k _
    rw [liftn_symRef]
    exact .symRef v hv
  | plain n br hn hbr ih =>
    intro k hk
    rw [liftn_plain hn]
    refine .plain n _ hn fun u hu => ?_
    obtain ⟨t, ht', rfl⟩ := List.mem_map.mp hu
    exact ih t ht' hk

/-- `liftn` adds one to the references that point at least `k` binders out, and to no other. -/
theorem WellFormed.liftn_eq_mapRefs (ht : WellFormed V t) :
    ∀ {k : ℤ} (d : ℤ), 0 ≤ d → d < k →
      Tree.liftn t k =
        mapRefs (fun d' l => Tree.debruijnRef (if k - d ≤ l - d' then l + 1 else l)) t d := by
  induction ht with
  | debruijnRef l hl =>
    intro k d _ _
    rw [liftn_debruijnRef hl, mapRefs_debruijnRef]
    by_cases h : l < k
    · rw [if_pos h, if_neg (by omega)]
    · rw [if_neg h, if_pos (by omega)]
  | debruijn b hb ih =>
    intro k d hd hk
    rw [liftn_debruijn hb (by omega), mapRefs_debruijn, ih (d + 1) (by omega) (by omega)]
    have hsub : k + 1 - (d + 1) = k - d := by omega
    rw [hsub]
  | symRef v hv =>
    intro k d _ _
    rw [liftn_symRef, mapRefs_symRef]
  | plain n br hn hbr ih =>
    intro k d hd hk
    rw [liftn_plain hn, mapRefs_plain _ hn]
    exact congrArg _ (List.map_congr_left fun t ht' => ih t ht' d hd hk)

/-- Two lifts commute, the second threshold of the inner binders being one further out. -/
theorem WellFormed.liftn_liftn (ht : WellFormed V t) :
    ∀ {k j : ℤ}, 0 < k → k ≤ j →
      Tree.liftn (Tree.liftn t k) (j + 1) = Tree.liftn (Tree.liftn t j) k := by
  induction ht with
  | debruijnRef l hl =>
    intro k j hk hkj
    rw [liftn_debruijnRef hl, liftn_debruijnRef hl]
    -- a reference below both thresholds, between them, or above both
    by_cases hlk : l < k
    · rw [if_pos hlk, if_pos (by omega), liftn_debruijnRef hl, liftn_debruijnRef hl,
        if_pos (by omega), if_pos hlk]
    · by_cases hlj : l < j
      · rw [if_neg hlk, if_pos hlj, liftn_debruijnRef (by omega), liftn_debruijnRef hl,
          if_pos (by omega), if_neg hlk]
      · rw [if_neg hlk, if_neg hlj, liftn_debruijnRef (by omega), liftn_debruijnRef (by omega),
          if_neg (by omega), if_neg (by omega)]
  | debruijn b hb ih =>
    intro k j hk hkj
    rw [liftn_debruijn hb hk, liftn_debruijn hb (by omega),
      liftn_debruijn (hb.liftn (by omega)) (by omega), liftn_debruijn (hb.liftn (by omega)) hk,
      ih (by omega) (by omega)]
  | symRef v hv =>
    intro k j _ _
    simp only [liftn_symRef]
  | plain n br hn hbr ih =>
    intro k j hk hkj
    rw [liftn_plain hn, liftn_plain hn, liftn_plain hn, liftn_plain hn, List.map_map, List.map_map]
    exact congrArg _ (List.map_congr_left fun t ht' => ih t ht' hk hkj)

/-! ## Substitution -/

/-- After a lift, no reference points at the threshold any more. -/
theorem WellFormed.substitute_liftn (ht : WellFormed V t) (id : Tree) :
    ∀ {n : ℤ}, 0 < n → substitute (Tree.liftn t n) n id = Tree.liftn t n := by
  induction ht with
  | debruijnRef l hl =>
    intro n _
    rw [liftn_debruijnRef hl]
    split
    · rw [substitute_debruijnRef, if_neg (by omega)]
    · rw [substitute_debruijnRef, if_neg (by omega)]
  | debruijn b hb ih =>
    intro n hn
    rw [liftn_debruijn hb hn, substitute_debruijn, ih (by omega)]
  | symRef v hv =>
    intro n hn
    rw [liftn_symRef, substitute_symRef v hn]
  | plain n br hplain hbr ih =>
    intro k hk
    rw [liftn_plain hplain, substitute_plain hplain _ hk, List.map_map]
    exact congrArg _ (List.map_congr_left fun t ht' => ih t ht' hk)

/-- `substitute` replaces the references that point `n` binders out, and no other. -/
theorem WellFormed.substitute_eq_mapRefs (ht : WellFormed V t) (id : Tree) :
    ∀ {n : ℤ} (d : ℤ), 0 ≤ d → d < n →
      substitute t n id =
        mapRefs (fun d' l => if l - d' = n - d then id else Tree.debruijnRef l) t d := by
  induction ht with
  | debruijnRef l hl =>
    intro n d _ _
    rw [substitute_debruijnRef, mapRefs_debruijnRef]
    by_cases h : l = n
    · rw [if_pos h, if_pos (by omega)]
    · rw [if_neg h, if_neg (by omega)]
  | debruijn b hb ih =>
    intro n d hd hn
    rw [substitute_debruijn, mapRefs_debruijn, ih (d + 1) (by omega) (by omega)]
    have hsub : n + 1 - (d + 1) = n - d := by omega
    rw [hsub]
  | symRef v hv =>
    intro n d _ hn
    rw [substitute_symRef v (by omega), mapRefs_symRef]
  | plain n br hplain hbr ih =>
    intro k d hd hk
    rw [substitute_plain hplain _ (by omega), mapRefs_plain _ hplain]
    exact congrArg _ (List.map_congr_left fun t ht' => ih t ht' d hd hk)

/-! ## The laws -/

/-- The aperture, the lifts and the substitutions of a well-formed tree, at any level a caller can
give. -/
theorem aperture_liftn_substitute (ht : WellFormed V t) :
    (t.aperture ≤ 0 ↔ ∀ j, Refers t j → j ≤ 0) ∧
    (∀ k, 0 < k →
      liftn t k = mapRefs (fun d l => debruijnRef (if k ≤ l - d then l + 1 else l)) t 0) ∧
    (t.isClosed → lift t = t) ∧
    (∀ k j, 0 < k → k ≤ j → liftn (liftn t k) (j + 1) = liftn (liftn t j) k) ∧
    (∀ n id, 0 < n → substitute (liftn t n) n id = liftn t n) ∧
    ∀ n id, 0 < n →
      substitute t n id = mapRefs (fun d l => if l - d = n then id else debruijnRef l) t 0 := by
  refine ⟨ht.aperture_le_iff le_rfl, ?_, ?_, ?_, ?_, ?_⟩
  · intro k hk
    have h := ht.liftn_eq_mapRefs 0 le_rfl hk
    rwa [Int.sub_zero] at h
  · intro hclosed
    exact liftn_of_closed hclosed 1
  · intro k j hk hkj
    exact ht.liftn_liftn hk hkj
  · intro n id hn
    exact ht.substitute_liftn id hn
  · intro n id hn
    have h := ht.substitute_eq_mapRefs id 0 le_rfl hn
    rwa [Int.sub_zero] at h

/-- A binder with a bound reference and a free one: the free one is lifted, then replaced. -/
theorem aperture_liftn_substitute_delay :
    let t := debruijn (.node (.sym .sigDelay1) [debruijnRef 1, debruijnRef 2])
    (¬ t.aperture ≤ 0) ∧
      liftn t 1 = debruijn (.node (.sym .sigDelay1) [debruijnRef 1, debruijnRef 3]) ∧
      (liftn t 1 = mapRefs (fun d l => debruijnRef (if 1 ≤ l - d then l + 1 else l)) t 0) := by
  intro t
  have ht : WellFormed (fun _ => False) t := by
    refine .debruijn _ (.plain _ _ (by decide) fun u hu => ?_)
    rcases List.mem_cons.mp hu with rfl | hu
    · exact .debruijnRef 1 (by decide)
    · obtain rfl := List.mem_singleton.mp hu
      exact .debruijnRef 2 (by decide)
  refine ⟨by decide, by decide, ?_⟩
  exact (aperture_liftn_substitute ht).2.1 1 (by decide)

end Faust.Tree
