import Faust.Lib.Chains
import Mathlib.Data.List.Perm.Subperm

/-!
# Tables of linked cells

The cells of a hash table are allocated one after the other. Each belongs to a slot, and the cells
of a slot are a chain: a new cell is linked to the head of its slot and becomes the head. When no
two cells satisfy a test, a walk along the right slot finds the cell that does.
-/

namespace Faust.InternTable

variable {γ : Type*} (next : γ → Option ℕ) (slot : γ → ℕ)

/-- The chain of each slot has the cells of the slot. -/
def Linked (cells : List γ) (head : ℕ → Option ℕ) : Prop :=
  ∀ j, ∃ as, IsChain (cells[·]?) next (head j) as ∧
    ∀ a, a ∈ as ↔ ∃ c, cells[a]? = some c ∧ slot c = j

variable {next slot} {cells : List γ} {head : ℕ → Option ℕ} {c : γ}

theorem Linked.empty : Linked next slot [] fun _ => none :=
  fun _ => ⟨[], .null, by simp⟩

/-- A cell stays at its address when one is added. -/
theorem getElem?_push {a : ℕ} {d : γ} (h : cells[a]? = some d) : (cells ++ [c])[a]? = some d := by
  have ha : a < cells.length := (List.getElem?_eq_some_iff.mp h).1
  rw [List.getElem?_append_left ha, h]

/-- The new cell is at the end. -/
theorem getElem?_push_length : (cells ++ [c])[cells.length]? = some c := by
  simp

/-- A cell is one of before or the new one. -/
theorem of_getElem?_push {a : ℕ} {d : γ} (h : (cells ++ [c])[a]? = some d) :
    cells[a]? = some d ∨ a = cells.length ∧ d = c := by
  have hlen : a < cells.length + 1 := by
    have := (List.getElem?_eq_some_iff.mp h).1
    simpa using this
  by_cases ha : a < cells.length
  · rw [List.getElem?_append_left ha] at h
    exact Or.inl h
  · have heq : a = cells.length := by omega
    subst heq
    exact Or.inr ⟨rfl, Option.some.inj (h.symm.trans getElem?_push_length)⟩

/-- The table with one more cell. -/
theorem Linked.push (h : Linked next slot cells head) (hnext : next c = head (slot c)) :
    Linked next slot (cells ++ [c]) fun j => if j = slot c then some cells.length else head j := by
  intro j
  obtain ⟨as, has, hmem⟩ := h j
  have hold : IsChain ((cells ++ [c])[·]?) next (head j) as :=
    has.congr fun a _ d hd => getElem?_push hd
  by_cases hj : j = slot c
  · -- the new cell is put in front of the others
    subst hj
    refine ⟨cells.length :: as, ?_, fun a => ?_⟩
    · show IsChain _ _ (if slot c = slot c then some cells.length else _) _
      rw [if_pos rfl]
      exact .link getElem?_push_length (hnext ▸ hold)
    · rw [List.mem_cons, hmem]
      refine ⟨fun h => ?_, fun ⟨d, hd, hslot⟩ => ?_⟩
      · rcases h with rfl | ⟨d, hd, hslot⟩
        · exact ⟨c, getElem?_push_length, rfl⟩
        · exact ⟨d, getElem?_push hd, hslot⟩
      · rcases of_getElem?_push hd with hd | ⟨rfl, -⟩
        · exact Or.inr ⟨d, hd, hslot⟩
        · exact Or.inl rfl
  · refine ⟨as, ?_, fun a => ?_⟩
    · show IsChain _ _ (if j = slot c then some cells.length else head j) _
      rw [if_neg hj]
      exact hold
    · rw [hmem]
      refine ⟨fun ⟨d, hd, hslot⟩ => ⟨d, getElem?_push hd, hslot⟩, fun ⟨d, hd, hslot⟩ => ?_⟩
      rcases of_getElem?_push hd with hd | ⟨-, rfl⟩
      · exact ⟨d, hd, hslot⟩
      · exact absurd hslot.symm hj

/-- The walk along a slot finds the cell that satisfies a test, when the cells that satisfy it are
of this slot and there are no two of them. -/
theorem Linked.search_spec (h : Linked next slot cells head) {p : γ → Bool} {j : ℕ}
    (hslot : ∀ (a : ℕ) (c : γ), cells[a]? = some c → p c = true → slot c = j)
    (hone : ∀ (a b : ℕ) (c d : γ), cells[a]? = some c → cells[b]? = some d → p c = true →
      p d = true → a = b) :
    ∃ r, search (cells[·]?) next p cells.length (head j) = some r ∧
      ∀ a, r = some a ↔ ∃ c, cells[a]? = some c ∧ p c = true := by
  obtain ⟨as, has, hmem⟩ := h j
  have hlen : as.length ≤ cells.length := by
    have hsub : as ⊆ List.range cells.length := fun a ha => by
      obtain ⟨c, hc, -⟩ := (hmem a).mp ha
      exact List.mem_range.mpr (List.getElem?_eq_some_iff.mp hc).1
    simpa using (has.nodup.subperm hsub).length_le
  obtain ⟨r, hr⟩ := has.search_isSome (p := p) hlen
  refine ⟨r, hr, fun a => ⟨fun heq => ?_, fun ⟨c, hc, hp⟩ => ?_⟩⟩
  · subst heq
    exact (has.of_search_some hr).2
  · have ha : a ∈ as := (hmem a).mpr ⟨c, hc, hslot a c hc hp⟩
    cases r with
    | none =>
      rw [has.of_search_none hr ha hc] at hp
      cases hp
    | some b =>
      obtain ⟨-, d, hd, hq⟩ := has.of_search_some hr
      exact congrArg some (hone b a d c hd hc hq hp)

end Faust.InternTable
