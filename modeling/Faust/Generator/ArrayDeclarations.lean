import Faust.Generator.Instructions

/-!
# Sorting the declarations (`fir_to_fir.cpp`)

The containers sort their statements so that the arrays are declared first, the largest ones before
the others. `list::sort` asks for a strict weak order: the comparison is one as long as it is not
given both a declared array that is not empty and a statement that declares nothing, which it puts
before one another.
-/

namespace Faust.Fir

/-- The type of the variable that a statement declares (`dynamic_cast<DeclareVarInst*>`). -/
def declaredType : StatementInst → Option Typed
  | .declareVar _ type _ => some type
  | _ => none

/-- The size of the array that a statement declares. -/
def declaredSize (s : StatementInst) : Option ℕ :=
  match declaredType s with
  | some (.array _ size) => some size
  | _ => none

/-- `sortArrayDeclarations`. -/
def sortArrayDeclarations (a b : StatementInst) : Bool :=
  match declaredType a with
  | some (.array _ size1) =>
    match declaredType b with
    -- arrays of one size are compared with the address of the type of the first one, twice
    | some (.array _ size2) => if size1 = size2 then false else decide (size1 > size2)
    | _ => true
  | some _ => false
  | none =>
    match declaredType b with
    | some (.array _ size) => decide (size > 0)
    | _ => false

/-- `list::sort`, which is stable: `b` goes before an earlier `a` when it is less. -/
def sortList {α : Type} (less : α → α → Bool) (l : List α) : List α :=
  l.mergeSort fun a b => !less b a

/-! ## What the sort asks for -/

/-- A strict weak order on the members of a list. -/
structure StrictWeakOrderOn {α : Type} (less : α → α → Bool) (l : List α) : Prop where
  irrefl : ∀ a ∈ l, less a a = false
  asymm : ∀ a ∈ l, ∀ b ∈ l, less a b = true → less b a = false
  trans : ∀ a ∈ l, ∀ b ∈ l, ∀ c ∈ l, less a b = true → less b c = true → less a c = true
  incomp_trans : ∀ a ∈ l, ∀ b ∈ l, ∀ c ∈ l, less a b = false → less b a = false →
    less b c = false → less c b = false → less a c = false ∧ less c a = false

/-- The arrays come first, by decreasing size. -/
def ArraysFirst (l : List StatementInst) : Prop :=
  l.Pairwise fun a b => ∀ m, declaredSize b = some m → ∃ n, declaredSize a = some n ∧ m ≤ n

/-- The comparison can sort the list, and the sorted list has the same statements, the arrays
first. -/
structure WellSorted (l : List StatementInst) : Prop where
  order : StrictWeakOrderOn sortArrayDeclarations l
  perm : (sortList sortArrayDeclarations l).Perm l
  arraysFirst : ArraysFirst (sortList sortArrayDeclarations l)

/-- The list has a declared array that is not empty and a statement that declares nothing. -/
def Mixed (l : List StatementInst) : Prop :=
  (∃ a ∈ l, declaredType a = none) ∧ ∃ b ∈ l, ∃ n, declaredSize b = some n ∧ 0 < n

/-! ## The order -/

/-- The rank of a statement: the arrays by their sizes, above all other statements. -/
def rank (s : StatementInst) : ℕ :=
  match declaredSize s with
  | some n => n + 1
  | none => 0

theorem rank_of_size {s : StatementInst} {n : ℕ} (h : declaredSize s = some n) :
    rank s = n + 1 := by
  rw [rank, h]

theorem rank_of_none {s : StatementInst} (h : declaredSize s = none) : rank s = 0 := by
  rw [rank, h]

theorem declaredSize_array {s : StatementInst} {t : VarType} {n : ℕ}
    (h : declaredType s = some (.array t n)) : declaredSize s = some n := by
  rw [declaredSize, h]

theorem declaredSize_basic {s : StatementInst} {t : VarType}
    (h : declaredType s = some (.basic t)) : declaredSize s = none := by
  rw [declaredSize, h]

theorem declaredSize_none {s : StatementInst} (h : declaredType s = none) :
    declaredSize s = none := by
  rw [declaredSize, h]

theorem exists_array {s : StatementInst} {n : ℕ} (h : declaredSize s = some n) :
    ∃ t, declaredType s = some (.array t n) := by
  unfold declaredSize at h
  split at h
  · next t size ht =>
    cases h
    exact ⟨t, ht⟩
  · cases h

/-- A statement that declares nothing is put before a declared array that is not empty, and after
it. -/
theorem less_both {a b : StatementInst} {n : ℕ} (ha : declaredType a = none)
    (hb : declaredSize b = some n) (hn : 0 < n) :
    sortArrayDeclarations a b = true ∧ sortArrayDeclarations b a = true := by
  obtain ⟨t, ht⟩ := exists_array hb
  constructor
  · rw [sortArrayDeclarations, ha, ht]
    exact decide_eq_true hn
  · rw [sortArrayDeclarations, ht, ha]

/-- Elsewhere, the comparison is the one of the ranks. -/
theorem less_eq_rank {l : List StatementInst} (hl : ¬ Mixed l) {a b : StatementInst} (ha : a ∈ l)
    (hb : b ∈ l) : sortArrayDeclarations a b = decide (rank b < rank a) := by
  have hzero : declaredType a = none → ∀ n, declaredSize b = some n → n = 0 := by
    intro hnone n hn
    by_contra hne
    exact hl ⟨⟨a, ha, hnone⟩, b, hb, n, hn, Nat.pos_of_ne_zero hne⟩
  rw [sortArrayDeclarations]
  rcases hta : declaredType a with _ | ⟨ta⟩ | ⟨ta, na⟩
  · rw [rank_of_none (declaredSize_none hta)]
    rcases htb : declaredType b with _ | ⟨tb⟩ | ⟨tb, nb⟩
    · simp
    · simp
    · have := hzero hta nb (declaredSize_array htb)
      simp [this]
  · rw [rank_of_none (declaredSize_basic hta)]
    simp
  · rw [rank_of_size (declaredSize_array hta)]
    rcases htb : declaredType b with _ | ⟨tb⟩ | ⟨tb, nb⟩
    · simp [rank_of_none (declaredSize_none htb)]
    · simp [rank_of_none (declaredSize_basic htb)]
    · rw [rank_of_size (declaredSize_array htb)]
      show (if na = nb then false else decide (na > nb)) = decide (nb + 1 < na + 1)
      split
      · next heq =>
        subst heq
        simp
      · exact decide_eq_decide.mpr (by omega)

theorem strictWeakOrderOn_of_rank {l : List StatementInst} (hl : ¬ Mixed l) :
    StrictWeakOrderOn sortArrayDeclarations l where
  irrefl a ha := by
    rw [less_eq_rank hl ha ha]
    simp
  asymm a ha b hb := by
    rw [less_eq_rank hl ha hb, less_eq_rank hl hb ha, decide_eq_true_eq, decide_eq_false_iff_not]
    omega
  trans a ha b hb c hc := by
    rw [less_eq_rank hl ha hb, less_eq_rank hl hb hc, less_eq_rank hl ha hc]
    simp only [decide_eq_true_eq]
    omega
  incomp_trans a ha b hb c hc := by
    rw [less_eq_rank hl ha hb, less_eq_rank hl hb ha, less_eq_rank hl hb hc, less_eq_rank hl hc hb,
      less_eq_rank hl ha hc, less_eq_rank hl hc ha]
    simp only [decide_eq_false_iff_not]
    omega

/-! ## The sorted list -/

/-- The sort by ranks. -/
def rankLe (a b : StatementInst) : Bool := decide (rank b ≤ rank a)

theorem sortList_eq {l : List StatementInst} (hl : ¬ Mixed l) :
    sortList sortArrayDeclarations l = l.mergeSort rankLe := by
  have h : ∀ a ∈ l, ∀ b ∈ l, (!sortArrayDeclarations b a) = rankLe (id a) (id b) := by
    intro a ha b hb
    rw [less_eq_rank hl hb ha, rankLe, ← decide_not]
    exact decide_eq_decide.mpr Nat.not_lt
  have hmap := List.map_mergeSort h
  rwa [List.map_id, List.map_id] at hmap

theorem arraysFirst_mergeSort (l : List StatementInst) : ArraysFirst (l.mergeSort rankLe) := by
  have hsorted : (l.mergeSort rankLe).Pairwise fun a b => rankLe a b = true := by
    apply List.pairwise_mergeSort
    · intro a b c hab hbc
      simp only [rankLe, decide_eq_true_eq] at hab hbc ⊢
      omega
    · intro a b
      simp only [rankLe, Bool.or_eq_true, decide_eq_true_eq]
      omega
  apply hsorted.imp
  intro a b hab m hm
  simp only [rankLe, decide_eq_true_eq, rank_of_size hm] at hab
  -- a statement whose rank is not zero declares an array
  rcases hsize : declaredSize a with _ | n
  · rw [rank_of_none hsize] at hab
    omega
  · rw [rank_of_size hsize] at hab
    exact ⟨n, rfl, by omega⟩

/-- A list is well sorted exactly when it is not mixed. -/
theorem wellSorted_iff (l : List StatementInst) : WellSorted l ↔ ¬ Mixed l := by
  constructor
  · intro h hmixed
    obtain ⟨⟨a, ha, hnone⟩, b, hb, n, hsize, hn⟩ := hmixed
    obtain ⟨hab, hba⟩ := less_both hnone hsize hn
    have hfalse := h.order.asymm a ha b hb hab
    rw [hba] at hfalse
    cases hfalse
  · intro hl
    refine ⟨strictWeakOrderOn_of_rank hl, List.mergeSort_perm l _, ?_⟩
    rw [sortList_eq hl]
    exact arraysFirst_mergeSort l

/-- The declaration of a copied delay line, and a statement that copies into it. -/
def mixedStatements : List StatementInst :=
  [.declareVar ⟨"fVec0_tmp", .kStack⟩ (.array .kFloat 36) none,
    .storeVar ⟨"fRec0", .kStruct⟩ (.intNum 0)]

theorem not_wellSorted_mixedStatements : ¬ WellSorted mixedStatements := by
  intro h
  have hfalse := h.order.asymm (.storeVar ⟨"fRec0", .kStruct⟩ (.intNum 0)) (by simp [mixedStatements])
    (.declareVar ⟨"fVec0_tmp", .kStack⟩ (.array .kFloat 36) none) (by simp [mixedStatements]) rfl
  exact absurd hfalse (by decide)

end Faust.Fir
