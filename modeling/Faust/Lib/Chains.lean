import Mathlib.Data.List.Nodup
import Mathlib.Tactic.Common

/-!
# Linked chains of cells

`cell` reads the cell at an address and `next` is the address a cell is linked to. A chain is a
linked list that ends: `IsChain cell next start as` says that `as` are its addresses, from `start`
on. `search` walks a chain to the first cell that satisfies a test.
-/

namespace Faust

variable {α γ : Type*} (cell : α → Option γ) (next : γ → Option α)

/-- The addresses of the chain that starts at an address, which may be null. -/
inductive IsChain : Option α → List α → Prop
  | null : IsChain none []
  | link {a : α} {c : γ} {as : List α} (hc : cell a = some c) (h : IsChain (next c) as) :
      IsChain (some a) (a :: as)

/-- `while (t && !p(*t)) t = t->next;`, `none` where the walk reads no cell or takes more steps. -/
def search (p : γ → Bool) : ℕ → Option α → Option (Option α)
  | _, none => some none
  | 0, some _ => none
  | k + 1, some a =>
    match cell a with
    | none => none
    | some c => if p c then some (some a) else search p k (next c)

variable {cell next} {start : Option α} {as bs : List α}

namespace IsChain

/-- A start has one chain. -/
theorem unique (h : IsChain cell next start as) (h' : IsChain cell next start bs) : as = bs := by
  induction h generalizing bs with
  | null =>
    cases h'
    rfl
  | link hc _ ih =>
    cases h' with
    | link hc' h' =>
      have hcell := Option.some.inj (hc.symm.trans hc')
      subst hcell
      rw [ih h']

/-- From each of its addresses a chain goes on to a part of it. -/
theorem from_mem (h : IsChain cell next start as) {a : α} (ha : a ∈ as) :
    ∃ xs ys, as = xs ++ a :: ys ∧ IsChain cell next (some a) (a :: ys) := by
  induction h with
  | null => cases ha
  | @link b c bs hc h ih =>
    by_cases hab : a = b
    · subst hab
      exact ⟨[], bs, rfl, .link hc h⟩
    · obtain ⟨xs, ys, rfl, hys⟩ := ih (List.mem_of_ne_of_mem hab ha)
      exact ⟨b :: xs, ys, rfl, hys⟩

/-- A chain that ends does not come back to an address. -/
theorem nodup (h : IsChain cell next start as) : as.Nodup := by
  induction h with
  | null => exact List.nodup_nil
  | @link a c as hc h ih =>
    refine List.nodup_cons.mpr ⟨fun ha => ?_, ih⟩
    -- the chain from `a` would be a proper part of itself
    obtain ⟨xs, ys, has, hys⟩ := h.from_mem ha
    have heq := hys.unique (.link hc h)
    have hlen := congrArg List.length has
    rw [List.length_append, heq, List.length_cons] at hlen
    omega

/-- A chain is kept where its cells are. -/
theorem congr {cell' : α → Option γ} (h : IsChain cell next start as)
    (hcell : ∀ a ∈ as, ∀ c, cell a = some c → cell' a = some c) :
    IsChain cell' next start as := by
  induction h with
  | null => exact .null
  | link hc _ ih =>
    refine .link (hcell _ List.mem_cons_self _ hc) (ih fun a ha => ?_)
    exact hcell a (List.mem_cons_of_mem _ ha)

variable {p : γ → Bool} {k : ℕ}

/-- A walk with as many steps as there are addresses ends. -/
theorem search_isSome (h : IsChain cell next start as) (hk : as.length ≤ k) :
    ∃ r, search cell next p k start = some r := by
  induction h generalizing k with
  | null => exact ⟨none, by unfold search; rfl⟩
  | @link a c as hc h ih =>
    obtain ⟨k, rfl⟩ : ∃ j, k = j + 1 := ⟨k - 1, by simp only [List.length_cons] at hk; omega⟩
    simp only [search, hc]
    split
    · exact ⟨_, rfl⟩
    · exact ih (by simpa using hk)

/-- What a walk stops at is a cell of the chain that satisfies the test. -/
theorem of_search_some (h : IsChain cell next start as) {a : α}
    (hs : search cell next p k start = some (some a)) :
    a ∈ as ∧ ∃ c, cell a = some c ∧ p c = true := by
  induction h generalizing k with
  | null => cases k <;> simp [search] at hs
  | @link b c as hc h ih =>
    cases k with
    | zero => simp [search] at hs
    | succ k =>
      simp only [search, hc] at hs
      split at hs
      · next hp =>
        cases hs
        exact ⟨List.mem_cons_self, c, hc, hp⟩
      · obtain ⟨ha, hcell⟩ := ih hs
        exact ⟨List.mem_cons_of_mem _ ha, hcell⟩

/-- A walk that reaches the end has seen no cell that satisfies the test. -/
theorem of_search_none (h : IsChain cell next start as)
    (hs : search cell next p k start = some none) {a : α} (ha : a ∈ as) {c : γ}
    (hc : cell a = some c) : p c = false := by
  induction h generalizing k with
  | null => cases ha
  | @link b d as hd h ih =>
    cases k with
    | zero => simp [search] at hs
    | succ k =>
      simp only [search, hd] at hs
      split at hs
      · simp at hs
      · next hp =>
        by_cases hab : a = b
        · subst hab
          have hcd := Option.some.inj (hc.symm.trans hd)
          subst hcd
          simpa using hp
        · exact ih hs (List.mem_of_ne_of_mem hab ha)

end IsChain

end Faust
