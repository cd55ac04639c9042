import Mathlib.Logic.Function.Basic
import Mathlib.Tactic.Common

/-!
# Results kept in a table

A job keeps the results of a function, for the arguments of a set, in a table under a key. An
argument that is its own result is kept as a marker, so the table tells a result that is the marker
from no other: it gives the argument back. Several jobs may use one key.
-/

namespace Faust.Memo

variable {κ α : Type*} [DecidableEq κ] [DecidableEq α]

/-- A job: what it computes, and for which arguments it keeps the results. -/
structure Job (α : Type*) where
  plain : α → α
  keeps : α → Prop

/-- The tables: the entry of an argument, under a key. -/
abbrev Table (κ α : Type*) := α → κ → Option α

/-- A table with one more entry. -/
def Table.set (P : Table κ α) (t : α) (k : κ) (p : α) : Table κ α :=
  Function.update P t (Function.update (P t) k (some p))

@[simp] theorem Table.set_self (P : Table κ α) (t : α) (k : κ) (p : α) :
    P.set t k p t k = some p := by
  simp [Table.set]

theorem Table.set_of_ne {P : Table κ α} {t u : α} {k l : κ} {p : α} (h : ¬(u = t ∧ l = k)) :
    P.set t k p u l = P u l := by
  unfold Table.set
  by_cases hu : u = t
  · subst hu
    rw [Function.update_self, Function.update_of_ne fun hl => h ⟨rfl, hl⟩]
  · rw [Function.update_of_ne hu]

variable (marker : α)

/-- The entry for a result. -/
def encode (t r : α) : α := if r = t then marker else r

/-- What an entry is read as. -/
def decode (t p : α) : α := if p = marker then t else p

variable {marker}

theorem decode_encode (t r : α) :
    decode marker t (encode marker t r) = if r = marker then t else r := by
  unfold decode encode
  by_cases ht : r = t
  · rw [if_pos ht, if_pos rfl, ht]
    split_ifs
    · rfl
    · rfl
  · rw [if_neg ht]

/-- The jobs of one key that can be used together: none has the marker as the result of another
argument, and their results are the same where two of them keep one. -/
structure Usable (marker : α) (jobs : Job α → Prop) : Prop where
  marked : ∀ u, jobs u → ∀ t, u.keeps t → u.plain t = marker → t = marker
  agree : ∀ u v, jobs u → jobs v → ∀ t, u.keeps t → v.keeps t → u.plain t = v.plain t

/-- The jobs can be used together exactly when each reads the entries of all as its results. -/
theorem usable_iff {jobs : Job α → Prop} : Usable marker jobs ↔
    ∀ u v, jobs u → jobs v → ∀ t, u.keeps t → v.keeps t →
      decode marker t (encode marker t (u.plain t)) = v.plain t := by
  constructor
  · intro h u v hu hv t hut hvt
    rw [decode_encode, ← h.agree u v hu hv t hut hvt]
    split_ifs with hr
    · rw [hr]
      exact h.marked u hu t hut hr
    · rfl
  · intro h
    have hmarked : ∀ u, jobs u → ∀ t, u.keeps t → u.plain t = marker → t = marker := by
      intro u hu t hut hr
      have hself := h u u hu hu t hut hut
      rwa [decode_encode, if_pos hr, hr] at hself
    refine ⟨hmarked, fun u v hu hv t hut hvt => ?_⟩
    have huv := h u v hu hv t hut hvt
    rw [decode_encode] at huv
    split_ifs at huv with hr
    · rw [hr, ← huv, hmarked u hu t hut hr]
    · exact huv

/-- The entries under the keys of the jobs are results of the jobs. -/
def Right (marker : α) (jobs : κ → Job α → Prop) (P : Table κ α) : Prop :=
  ∀ t k p, (∃ u, jobs k u) → P t k = some p →
    ∃ u, jobs k u ∧ u.keeps t ∧ p = encode marker t (u.plain t)

variable {jobs : κ → Job α → Prop} {P P' : Table κ α} {k : κ} {u : Job α} {t : α}

omit [DecidableEq κ] in
/-- A right entry is read as the result. -/
theorem Right.read (hP : Right marker jobs P) (hk : Usable marker (jobs k)) (hu : jobs k u)
    (ht : u.keeps t) {p : α} (hp : P t k = some p) : decode marker t p = u.plain t := by
  obtain ⟨v, hv, hvt, rfl⟩ := hP t k p ⟨u, hu⟩ hp
  exact usable_iff.1 hk v u hv hu t hvt ht

/-- One more result. -/
theorem Right.write (hP : Right marker jobs P) (hu : jobs k u) (ht : u.keeps t) :
    Right marker jobs (P.set t k (encode marker t (u.plain t))) := by
  intro t' k' p hk' hp
  by_cases h : t' = t ∧ k' = k
  · obtain ⟨rfl, rfl⟩ := h
    rw [Table.set_self] at hp
    exact ⟨u, hu, ht, (Option.some.inj hp).symm⟩
  · rw [Table.set_of_ne h] at hp
    exact hP t' k' p hk' hp

omit [DecidableEq κ] in
/-- What happens under other keys does not matter. -/
theorem Right.frame (hP : Right marker jobs P)
    (hsame : ∀ t k, (∃ u, jobs k u) → P' t k = P t k) : Right marker jobs P' := by
  intro t k p hk hp
  exact hP t k p hk (hsame t k hk ▸ hp)

end Faust.Memo
