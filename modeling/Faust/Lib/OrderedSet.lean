import Mathlib.Data.Finset.Basic
import Mathlib.Data.List.Sort

/-!
# Finite sets as ordered lists

A finite set of elements that are compared by a strict total order `lt`, as the strictly increasing
list of its elements. The operations go along the lists and compare heads; each of them gives the
ordered list of the set that the operation is named after.
-/

namespace Faust

variable {α : Type*} [DecidableEq α] (lt : α → α → Prop) [DecidableRel lt]

namespace OrderedList

/-- Whether `e` is met before an element that comes after it. -/
def contains (e : α) : List α → Bool
  | [] => false
  | a :: l => if a = e then true else if lt e a then false else contains e l

/-- The list with `e` at its place. -/
def insert (e : α) : List α → List α
  | [] => [e]
  | a :: l => if lt e a then e :: a :: l else if e = a then a :: l else a :: insert e l

/-- The list without `e`. -/
def erase (e : α) : List α → List α
  | [] => []
  | a :: l => if lt e a then a :: l else if e = a then l else a :: erase e l

/-- The elements of both lists, those of both lists once. -/
def union : List α → List α → List α
  | [], B => B
  | A, [] => A
  | a :: A, b :: B =>
    if a = b then a :: union A B
    else if lt a b then a :: union A (b :: B)
    else b :: union (a :: A) B

/-- The elements that are in both lists. -/
def inter : List α → List α → List α
  | [], _ => []
  | _, [] => []
  | a :: A, b :: B =>
    if a = b then a :: inter A B
    else if lt a b then inter A (b :: B)
    else inter (a :: A) B

/-- The elements of the first list that are not in the second one. -/
def diff : List α → List α → List α
  | [], _ => []
  | A, [] => A
  | a :: A, b :: B =>
    if a = b then diff A B
    else if lt a b then a :: diff A (b :: B)
    else diff (a :: A) B

/-- The list that is filled with the elements of another one. -/
def ofItems (l : List α) : List α := l.foldl (fun s e => insert lt e s) []

variable {lt} {e t : α} {l A B : List α}

/-! ## Members -/

omit [DecidableEq α] [DecidableRel lt] in
/-- An element before the head of an increasing list is not in the list. -/
theorem notMem_of_lt [IsStrictTotalOrder α lt] {a : α} (hl : (a :: l).Pairwise lt)
    (he : lt e a) : e ∉ a :: l := by
  intro hmem
  rcases List.mem_cons.1 hmem with rfl | hmem
  · exact irrefl_of lt e he
  · exact asymm_of lt he ((List.pairwise_cons.1 hl).1 e hmem)

omit [DecidableEq α] [DecidableRel lt] in
/-- An element that is neither the head nor before it comes after it. -/
theorem lt_of_not [IsStrictTotalOrder α lt] {a b : α} (hne : a ≠ b) (hlt : ¬ lt a b) : lt b a := by
  rcases trichotomous_of lt a b with h | h | h
  · exact absurd h hlt
  · exact absurd h hne
  · exact h

theorem mem_insert : t ∈ insert lt e l ↔ t = e ∨ t ∈ l := by
  fun_induction insert lt e l with
  | case1 => simp
  | case2 a l _ => simp only [List.mem_cons]
  | case3 l _ => simp only [List.mem_cons]; tauto
  | case4 a l _ _ ih => simp only [List.mem_cons, ih]; tauto

theorem mem_union : t ∈ union lt A B ↔ t ∈ A ∨ t ∈ B := by
  fun_induction union lt A B with
  | case1 B => simp
  | case2 A _ => simp
  | case3 A b B ih => simp only [List.mem_cons, ih]; tauto
  | case4 a A b B _ _ ih => simp only [List.mem_cons, ih]; tauto
  | case5 a A b B _ _ ih => simp only [List.mem_cons, ih]; tauto

theorem mem_ofItems : t ∈ ofItems lt l ↔ t ∈ l := by
  have hfold : ∀ s, t ∈ l.foldl (fun s e => insert lt e s) s ↔ t ∈ s ∨ t ∈ l := by
    induction l with
    | nil => simp
    | cons a l ih =>
      intro s
      rw [List.foldl_cons, ih, mem_insert, List.mem_cons]
      tauto
  rw [ofItems, hfold]
  simp

section
variable [IsStrictTotalOrder α lt]

theorem contains_iff (hl : l.Pairwise lt) : contains lt e l = true ↔ e ∈ l := by
  fun_induction contains lt e l with
  | case1 => simp
  | case2 l => simp
  | case3 a l _ hlt => simpa using notMem_of_lt hl hlt
  | case4 a l hne _ ih =>
    rw [ih (List.pairwise_cons.1 hl).2, List.mem_cons]
    exact ⟨Or.inr, fun h => h.resolve_left (Ne.symm hne)⟩

theorem mem_erase (hl : l.Pairwise lt) : t ∈ erase lt e l ↔ t ≠ e ∧ t ∈ l := by
  fun_induction erase lt e l with
  | case1 => simp
  | case2 a l hlt =>
    have hnot := notMem_of_lt hl hlt
    exact ⟨fun h => ⟨fun heq => hnot (heq ▸ h), h⟩, And.right⟩
  | case3 l _ =>
    rw [List.mem_cons]
    have hnot : e ∉ l := fun h => irrefl_of lt e ((List.pairwise_cons.1 hl).1 e h)
    refine ⟨fun h => ⟨fun heq => hnot (heq ▸ h), Or.inr h⟩, fun h => h.2.resolve_left h.1⟩
  | case4 a l _ hne ih =>
    rw [List.mem_cons, List.mem_cons, ih (List.pairwise_cons.1 hl).2]
    constructor
    · rintro (rfl | ⟨hte, ht⟩)
      · exact ⟨Ne.symm hne, Or.inl rfl⟩
      · exact ⟨hte, Or.inr ht⟩
    · rintro ⟨hte, rfl | ht⟩
      · exact Or.inl rfl
      · exact Or.inr ⟨hte, ht⟩

theorem mem_inter (hA : A.Pairwise lt) (hB : B.Pairwise lt) :
    t ∈ inter lt A B ↔ t ∈ A ∧ t ∈ B := by
  fun_induction inter lt A B with
  | case1 B => simp
  | case2 A _ => simp
  | case3 A b B ih =>
    rw [List.mem_cons, List.mem_cons, List.mem_cons,
      ih (List.pairwise_cons.1 hA).2 (List.pairwise_cons.1 hB).2]
    tauto
  | case4 a A b B hne hlt ih =>
    -- `a` is in no list that begins with `b`
    have hnot := notMem_of_lt hB hlt
    rw [ih (List.pairwise_cons.1 hA).2 hB, List.mem_cons (l := A)]
    refine ⟨fun h => ⟨Or.inr h.1, h.2⟩, fun h => ⟨h.1.resolve_left ?_, h.2⟩⟩
    intro heq
    exact hnot (heq ▸ h.2)
  | case5 a A b B hne hlt ih =>
    have hnot := notMem_of_lt hA (lt_of_not hne hlt)
    rw [ih hA (List.pairwise_cons.1 hB).2, List.mem_cons (l := B)]
    refine ⟨fun h => ⟨h.1, Or.inr h.2⟩, fun h => ⟨h.1, h.2.resolve_left ?_⟩⟩
    intro heq
    exact hnot (heq ▸ h.1)

theorem mem_diff (hA : A.Pairwise lt) (hB : B.Pairwise lt) :
    t ∈ diff lt A B ↔ t ∈ A ∧ t ∉ B := by
  fun_induction diff lt A B with
  | case1 B => simp
  | case2 A _ => simp
  | case3 A b B ih =>
    have hnot : b ∉ A := fun h => irrefl_of lt b ((List.pairwise_cons.1 hA).1 b h)
    rw [ih (List.pairwise_cons.1 hA).2 (List.pairwise_cons.1 hB).2, List.mem_cons, List.mem_cons]
    constructor
    · rintro ⟨htA, htB⟩
      exact ⟨Or.inr htA, fun h => h.elim (fun heq => hnot (heq ▸ htA)) htB⟩
    · rintro ⟨htA, htB⟩
      exact ⟨htA.resolve_left fun heq => htB (Or.inl heq), fun h => htB (Or.inr h)⟩
  | case4 a A b B hne hlt ih =>
    have hnot := notMem_of_lt hB hlt
    rw [List.mem_cons, List.mem_cons, ih (List.pairwise_cons.1 hA).2 hB]
    constructor
    · rintro (rfl | ⟨htA, htB⟩)
      · exact ⟨Or.inl rfl, hnot⟩
      · exact ⟨Or.inr htA, htB⟩
    · rintro ⟨rfl | htA, htB⟩
      · exact Or.inl rfl
      · exact Or.inr ⟨htA, htB⟩
  | case5 a A b B hne hlt ih =>
    have hnot := notMem_of_lt hA (lt_of_not hne hlt)
    rw [ih hA (List.pairwise_cons.1 hB).2, List.mem_cons (l := B)]
    refine ⟨fun h => ⟨h.1, ?_⟩, fun h => ⟨h.1, fun htB => h.2 (Or.inr htB)⟩⟩
    rintro (heq | htB)
    · exact hnot (heq ▸ h.1)
    · exact h.2 htB

/-! ## Order -/

theorem increasing_insert (hl : l.Pairwise lt) : (insert lt e l).Pairwise lt := by
  fun_induction insert lt e l with
  | case1 => exact List.pairwise_singleton lt e
  | case2 a l hlt =>
    refine List.pairwise_cons.2 ⟨fun t ht => ?_, hl⟩
    rcases List.mem_cons.1 ht with rfl | ht
    · exact hlt
    · exact trans_of lt hlt ((List.pairwise_cons.1 hl).1 t ht)
  | case3 l _ => exact hl
  | case4 a l hlt hne ih =>
    obtain ⟨ha, hl⟩ := List.pairwise_cons.1 hl
    refine List.pairwise_cons.2 ⟨fun t ht => ?_, ih hl⟩
    rcases mem_insert.1 ht with rfl | ht
    · exact lt_of_not hne hlt
    · exact ha t ht

theorem increasing_ofItems : (ofItems lt l).Pairwise lt := by
  have hfold : ∀ s : List α, s.Pairwise lt →
      (l.foldl (fun s e => insert lt e s) s).Pairwise lt := by
    induction l with
    | nil => exact fun s hs => hs
    | cons a l ih => exact fun s hs => ih _ (increasing_insert hs)
  exact hfold [] List.Pairwise.nil

end

/-- It is enough that the elements of one list can be compared with those of the other. -/
theorem increasing_union [IsTrans α lt] (hcmp : ∀ a ∈ A, ∀ b ∈ B, a ≠ b → ¬ lt a b → lt b a)
    (hA : A.Pairwise lt) (hB : B.Pairwise lt) : (union lt A B).Pairwise lt := by
  fun_induction union lt A B with
  | case1 B => exact hB
  | case2 A _ => exact hA
  | case3 A b B ih =>
    obtain ⟨hbA, hA⟩ := List.pairwise_cons.1 hA
    obtain ⟨hbB, hB⟩ := List.pairwise_cons.1 hB
    refine List.pairwise_cons.2 ⟨fun t ht => ?_, ih (fun a ha c hc =>
      hcmp a (List.mem_cons_of_mem _ ha) c (List.mem_cons_of_mem _ hc)) hA hB⟩
    exact (mem_union.1 ht).elim (hbA t) (hbB t)
  | case4 a A b B _ hlt ih =>
    obtain ⟨haA, hA⟩ := List.pairwise_cons.1 hA
    refine List.pairwise_cons.2
      ⟨fun t ht => ?_, ih (fun c hc => hcmp c (List.mem_cons_of_mem _ hc)) hA hB⟩
    rcases mem_union.1 ht with ht | ht
    · exact haA t ht
    · rcases List.mem_cons.1 ht with rfl | ht
      · exact hlt
      · exact trans_of lt hlt ((List.pairwise_cons.1 hB).1 t ht)
  | case5 a A b B hne hlt ih =>
    obtain ⟨hbB, hB⟩ := List.pairwise_cons.1 hB
    have hba := hcmp a List.mem_cons_self b List.mem_cons_self hne hlt
    refine List.pairwise_cons.2 ⟨fun t ht => ?_, ih (fun c hc d hd =>
      hcmp c hc d (List.mem_cons_of_mem _ hd)) hA hB⟩
    rcases mem_union.1 ht with ht | ht
    · rcases List.mem_cons.1 ht with rfl | ht
      · exact hba
      · exact trans_of lt hba ((List.pairwise_cons.1 hA).1 t ht)
    · exact hbB t ht

/-! The other operations leave elements out. -/

theorem erase_sublist : (erase lt e l).Sublist l := by
  fun_induction erase lt e l with
  | case1 => exact List.Sublist.refl _
  | case2 a l _ => exact List.Sublist.refl _
  | case3 l _ => exact List.sublist_cons_self e l
  | case4 a l _ _ ih => exact ih.cons_cons a

theorem inter_sublist : (inter lt A B).Sublist A := by
  fun_induction inter lt A B with
  | case1 B => exact List.Sublist.refl _
  | case2 A _ => exact List.nil_sublist A
  | case3 A b B ih => exact ih.cons_cons b
  | case4 a A b B _ _ ih => exact ih.cons a
  | case5 a A b B _ _ ih => exact ih

theorem diff_sublist : (diff lt A B).Sublist A := by
  fun_induction diff lt A B with
  | case1 B => exact List.Sublist.refl _
  | case2 A _ => exact List.Sublist.refl _
  | case3 A b B ih => exact ih.cons b
  | case4 a A b B _ _ ih => exact ih.cons_cons a
  | case5 a A b B _ _ ih => exact ih

end OrderedList

/-! ## Sets -/

/-- A strictly increasing list. -/
structure OrderedSet where
  elems : List α
  increasing : elems.Pairwise lt

namespace OrderedSet

variable {lt}

/-- The set of the elements of the list. -/
def toFinset (A : OrderedSet lt) : Finset α := A.elems.toFinset

section
variable [IsStrictTotalOrder α lt]

omit [DecidableRel lt] in
/-- A set has one ordered list. -/
theorem toFinset_injective :
    Function.Injective (toFinset : OrderedSet lt → Finset α) := by
  rintro ⟨A, hA⟩ ⟨B, hB⟩ h
  congr 1
  refine hA.eq_of_mem_iff hB fun a => ?_
  rw [← List.mem_toFinset, ← List.mem_toFinset]
  exact iff_of_eq (congrArg (a ∈ ·) h)

/-- `A ∪ {e}`. -/
def insert (e : α) (A : OrderedSet lt) : OrderedSet lt :=
  ⟨OrderedList.insert lt e A.elems, OrderedList.increasing_insert A.increasing⟩

/-- `A \ {e}`. -/
def erase (e : α) (A : OrderedSet lt) : OrderedSet lt :=
  ⟨OrderedList.erase lt e A.elems, A.increasing.sublist OrderedList.erase_sublist⟩

/-- `A ∪ B`. -/
def union (A B : OrderedSet lt) : OrderedSet lt :=
  ⟨OrderedList.union lt A.elems B.elems, OrderedList.increasing_union
    (fun _ _ _ _ => OrderedList.lt_of_not) A.increasing B.increasing⟩

/-- `A ∩ B`. -/
def inter (A B : OrderedSet lt) : OrderedSet lt :=
  ⟨OrderedList.inter lt A.elems B.elems, A.increasing.sublist OrderedList.inter_sublist⟩

/-- `A \ B`. -/
def diff (A B : OrderedSet lt) : OrderedSet lt :=
  ⟨OrderedList.diff lt A.elems B.elems, A.increasing.sublist OrderedList.diff_sublist⟩

variable (lt) in
/-- The set of the elements of a list. -/
def ofItems (l : List α) : OrderedSet lt :=
  ⟨OrderedList.ofItems lt l, OrderedList.increasing_ofItems⟩

variable {e : α} {A B : OrderedSet lt}

theorem toFinset_insert : (A.insert e).toFinset = Insert.insert e A.toFinset := by
  ext t
  rw [toFinset, List.mem_toFinset, insert, OrderedList.mem_insert, Finset.mem_insert, toFinset,
    List.mem_toFinset]

theorem toFinset_erase : (A.erase e).toFinset = A.toFinset.erase e := by
  ext t
  rw [toFinset, List.mem_toFinset, erase, OrderedList.mem_erase A.increasing, Finset.mem_erase,
    toFinset, List.mem_toFinset]

theorem toFinset_union : (A.union B).toFinset = A.toFinset ∪ B.toFinset := by
  ext t
  rw [toFinset, List.mem_toFinset, union, OrderedList.mem_union, Finset.mem_union, toFinset,
    toFinset, List.mem_toFinset, List.mem_toFinset]

theorem toFinset_inter : (A.inter B).toFinset = A.toFinset ∩ B.toFinset := by
  ext t
  rw [toFinset, List.mem_toFinset, inter, OrderedList.mem_inter A.increasing B.increasing,
    Finset.mem_inter, toFinset, toFinset, List.mem_toFinset, List.mem_toFinset]

theorem toFinset_diff : (A.diff B).toFinset = A.toFinset \ B.toFinset := by
  ext t
  rw [toFinset, List.mem_toFinset, diff, OrderedList.mem_diff A.increasing B.increasing,
    Finset.mem_sdiff, toFinset, toFinset, List.mem_toFinset, List.mem_toFinset]

theorem toFinset_ofItems (l : List α) : (ofItems lt l).toFinset = l.toFinset := by
  ext t
  rw [toFinset, List.mem_toFinset, ofItems, OrderedList.mem_ofItems, List.mem_toFinset]

theorem contains_iff : OrderedList.contains lt e A.elems = true ↔ e ∈ A.toFinset := by
  rw [OrderedList.contains_iff A.increasing, toFinset, List.mem_toFinset]

end

end OrderedSet

end Faust
