import Faust.Tlib.Tree

/-!
# The symbol table (`symbol.cpp`)

Symbols are interned by name, so the table is the list of the names already in use.
`unique(str)` is `Symbol::prefix`: it numbers the names `str0`, `str1`, … with a counter
kept per prefix and takes the first one that is not in the table. After ten thousand
taken names in a row it gives up (`assert(false)`), which is `none` here.
-/

namespace Faust

/-- The symbol table: names in use and the counters of `gPrefixCounters`. -/
structure SymbolTable where
  names : List String
  prefixCounters : String → ℕ

namespace SymbolTable

/-- `Symbol::isnew`. -/
def isnew (T : SymbolTable) (str : String) : Bool := !T.names.contains str

/-- The name built by `snprintf(name, 256, "%s%d", str, n)`. -/
def indexedName (str : String) (n : ℕ) : String := str ++ n.repr

/-- Numbering is injective, so distinct counters give distinct names. -/
theorem indexedName_injective (str : String) : Function.Injective (indexedName str) := by
  intro m n h
  have hr : m.repr.toList = n.repr.toList := by
    have := congrArg String.toList h
    simpa [indexedName, String.toList_append] using this
  rw [Nat.toList_repr, Nat.toList_repr] at hr
  have := congrArg (fun ds => Nat.ofDigitChars 10 ds 0) hr
  simpa using this

/-- The loop of `Symbol::prefix`, with the number of tries that are left. -/
def uniqueLoop (str : String) : ℕ → SymbolTable → Option (Sym × SymbolTable)
  | 0, _ => none
  | tries + 1, T =>
    let name := indexedName str (T.prefixCounters str)
    let T' := { T with
      prefixCounters := Function.update T.prefixCounters str (T.prefixCounters str + 1) }
    if T.isnew name then some (.user name, { T' with names := name :: T.names })
    else uniqueLoop str tries T'

/-- `unique(str)`, that is `Symbol::prefix(str)`. -/
def unique (str : String) (T : SymbolTable) : Option (Sym × SymbolTable) :=
  uniqueLoop str 10000 T

/-- What a successful call of `unique` returns: a name that was not in use, which is now
the only addition to the table, and a counter beyond it. -/
theorem uniqueLoop_some {str : String} {tries : ℕ} {T T' : SymbolTable} {s : Sym}
    (h : uniqueLoop str tries T = some (s, T')) :
    ∃ k, T.prefixCounters str ≤ k ∧ indexedName str k ∉ T.names ∧
      s = .user (indexedName str k) ∧ T'.names = indexedName str k :: T.names ∧
      T'.prefixCounters str = k + 1 := by
  induction tries generalizing T with
  | zero => simp [uniqueLoop] at h
  | succ n ih =>
    simp only [uniqueLoop] at h
    split at h
    · rename_i hnew
      simp only [Option.some.injEq, Prod.mk.injEq] at h
      obtain ⟨rfl, rfl⟩ := h
      refine ⟨T.prefixCounters str, le_rfl, ?_, rfl, rfl, by simp⟩
      simpa [isnew] using hnew
    · obtain ⟨k, hk, hnot, hs, hnames, hcount⟩ := ih h
      simp only [Function.update_self] at hk
      exact ⟨k, by omega, hnot, hs, hnames, hcount⟩

/-- No ten thousand consecutive names of the prefix are taken from the counter on. -/
def Supply (T : SymbolTable) (str : String) : Prop :=
  ∀ c, T.prefixCounters str ≤ c → ∃ j, j < 10000 ∧ indexedName str (c + j) ∉ T.names

/-- The loop succeeds when one of the names it has tries for is free. -/
theorem uniqueLoop_isSome {str : String} {tries j : ℕ} {T : SymbolTable} (hj : j < tries)
    (hfree : indexedName str (T.prefixCounters str + j) ∉ T.names) :
    (uniqueLoop str tries T).isSome := by
  induction tries generalizing T j with
  | zero => omega
  | succ n ih =>
    simp only [uniqueLoop]
    split
    · rfl
    · rename_i hold
      cases j with
      | zero =>
        simp only [Nat.add_zero] at hfree
        simp [isnew, hfree] at hold
      | succ j =>
        have hj : j < n := by omega
        refine ih hj ?_
        simpa [Nat.add_assoc, Nat.add_comm 1 j] using hfree

/-- With names in supply `unique` returns one, and names stay in supply. -/
theorem unique_of_supply {str : String} {T : SymbolTable} (h : T.Supply str) :
    ∃ k T', unique str T = some (.user (indexedName str k), T') ∧
      indexedName str k ∉ T.names ∧ T'.names = indexedName str k :: T.names ∧
      T'.Supply str := by
  obtain ⟨j, hj, hfree⟩ := h _ le_rfl
  obtain ⟨⟨s, T'⟩, hrun⟩ := Option.isSome_iff_exists.mp (uniqueLoop_isSome hj hfree)
  obtain ⟨k, hk, hnot, rfl, hnames, hcount⟩ := uniqueLoop_some hrun
  refine ⟨k, T', hrun, hnot, hnames, ?_⟩
  intro c hc
  obtain ⟨i, hi, hfree'⟩ := h c (by omega)
  refine ⟨i, hi, ?_⟩
  rw [hnames, List.mem_cons, not_or]
  refine ⟨fun heq => ?_, hfree'⟩
  have := indexedName_injective str heq
  omega

/-- A name that ends with a space is followed by a number of which it is known where it begins. -/
theorem prefix_eq_of_indexedName {p q : String} {m n : ℕ}
    (h : indexedName (p ++ " ") m = indexedName (q ++ " ") n) : p = q := by
  have hdigit : ∀ k : ℕ, ∀ c ∈ (Nat.toDigits 10 k).reverse, c.isDigit = true := fun k c hc =>
    Nat.isDigit_of_mem_toDigits (by decide) (by decide) (List.mem_reverse.1 hc)
  have hdrop : ∀ (r : String) (k : ℕ),
      (indexedName (r ++ " ") k).toList.reverse.dropWhile Char.isDigit = ' ' :: r.toList.reverse := by
    intro r k
    have hlist : (indexedName (r ++ " ") k).toList = r.toList ++ [' '] ++ Nat.toDigits 10 k := by
      simp [indexedName, String.toList_append, Nat.toList_repr]
    rw [hlist, List.reverse_append, List.dropWhile_append_of_pos (hdigit k)]
    simp
  have heq := hdrop p m
  rw [h, hdrop q n] at heq
  have hrev := (List.cons.inj heq).2
  exact (String.toList_inj.1 (List.reverse_injective hrev)).symm

/-- The loop counts for its own prefix only. -/
theorem uniqueLoop_prefixCounters {str q : String} (hq : q ≠ str) {tries : ℕ}
    {T T' : SymbolTable} {s : Sym} (h : uniqueLoop str tries T = some (s, T')) :
    T'.prefixCounters q = T.prefixCounters q := by
  induction tries generalizing T with
  | zero => simp [uniqueLoop] at h
  | succ n ih =>
    simp only [uniqueLoop] at h
    split at h
    · simp only [Option.some.injEq, Prod.mk.injEq] at h
      rw [← h.2]
      exact Function.update_of_ne hq ..
    · rw [ih h]
      exact Function.update_of_ne hq ..

/-- A name taken for a prefix leaves the names of the other prefixes in supply. -/
theorem Supply.unique {p q : String} {T T' : SymbolTable} {s : Sym}
    (hp : T.Supply (p ++ " ")) (hq : T.Supply (q ++ " "))
    (h : SymbolTable.unique (p ++ " ") T = some (s, T')) : T'.Supply (q ++ " ") := by
  obtain ⟨k, T₁, hT₁, _, hnames, hsupply⟩ := unique_of_supply hp
  rw [h] at hT₁
  cases hT₁
  by_cases hpq : p = q
  · exact hpq ▸ hsupply
  · intro c hc
    have hcount : T'.prefixCounters (q ++ " ") = T.prefixCounters (q ++ " ") := by
      refine uniqueLoop_prefixCounters (fun heq => hpq ?_) h
      have := congrArg String.toList heq
      simp only [String.toList_append] at this
      exact (String.toList_inj.1 (List.append_cancel_right this)).symm
    obtain ⟨j, hj, hfree⟩ := hq c (hcount ▸ hc)
    refine ⟨j, hj, ?_⟩
    rw [hnames, List.mem_cons, not_or]
    exact ⟨fun heq => hpq (prefix_eq_of_indexedName heq.symm), hfree⟩

end SymbolTable

end Faust
