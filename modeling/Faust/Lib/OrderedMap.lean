import Mathlib.Data.List.Nodup
import Mathlib.Data.List.Basic

/-!
# Ordered maps

A `std::map` as the list of its entries. `before` is the comparison of the map; the operations find
an entry by its key, so their laws hold for every comparison.
-/

namespace Faust.OrderedMap

variable {κ ν : Type*} [DecidableEq κ] (before : κ → κ → Bool)

/-- The value of a key. -/
def find (k : κ) : List (κ × ν) → Option ν
  | [] => none
  | (k', v) :: m => if k = k' then some v else find k m

/-- A new entry, put before the entries of the keys that come after its key. -/
def place (k : κ) (v : ν) : List (κ × ν) → List (κ × ν)
  | [] => [(k, v)]
  | (k', v') :: m =>
    if before k k' then (k, v) :: (k', v') :: m else (k', v') :: place k v m

/-- The map after `m[k] = v`. -/
def put (k : κ) (v : ν) (m : List (κ × ν)) : List (κ × ν) :=
  if (find k m).isSome then m.map fun e => if e.1 = k then (k, v) else e
  else place before k v m

/-- The keys of a map. -/
def keys (m : List (κ × ν)) : List κ := m.map Prod.fst

/-! ## Entries -/

theorem find_cons (k : κ) (e : κ × ν) (m : List (κ × ν)) :
    find k (e :: m) = if k = e.1 then some e.2 else find k m := rfl

theorem mem_of_find {k : κ} {v : ν} {m : List (κ × ν)} (h : find k m = some v) : (k, v) ∈ m := by
  induction m with
  | nil => simp [find] at h
  | cons e m ih =>
    unfold find at h
    split at h
    · next hk =>
      cases h
      simp [hk]
    · exact List.mem_cons_of_mem _ (ih h)

theorem find_isSome_iff {k : κ} {m : List (κ × ν)} : (find k m).isSome ↔ k ∈ keys m := by
  induction m with
  | nil => simp [find, keys]
  | cons e m ih =>
    unfold find
    split
    · next hk => simp [keys, hk]
    · next hk =>
      rw [ih]
      simp [keys, hk]

theorem find_of_mem {k : κ} {v : ν} {m : List (κ × ν)} (hm : (keys m).Nodup) (h : (k, v) ∈ m) :
    find k m = some v := by
  induction m with
  | nil => simp at h
  | cons e m ih =>
    obtain ⟨hnot, hm⟩ := List.nodup_cons.mp hm
    unfold find
    rcases List.mem_cons.mp h with h | h
    · rw [← h, if_pos rfl]
    · have hk : k ≠ e.1 := by
        intro hk
        exact hnot (hk ▸ List.mem_map_of_mem (f := Prod.fst) h)
      rw [if_neg hk]
      exact ih hm h

theorem mem_place {k : κ} {v : ν} {m : List (κ × ν)} {e : κ × ν} :
    e ∈ place before k v m ↔ e = (k, v) ∨ e ∈ m := by
  induction m with
  | nil => simp [place]
  | cons e' m ih =>
    unfold place
    split
    · simp
    · simp only [List.mem_cons, ih]
      tauto

/-- An entry of the new map is the new one or an old one of another key. -/
theorem mem_put {k : κ} {v : ν} {m : List (κ × ν)} {e : κ × ν} (h : e ∈ put before k v m) :
    e = (k, v) ∨ e ∈ m ∧ e.1 ≠ k := by
  unfold put at h
  split at h
  · obtain ⟨e', he', rfl⟩ := List.mem_map.mp h
    split
    · exact Or.inl rfl
    · next hk => exact Or.inr ⟨he', hk⟩
  · next hk =>
    rcases (mem_place before).mp h with h | h
    · exact Or.inl h
    · refine Or.inr ⟨h, fun he => hk ?_⟩
      rw [find_isSome_iff, ← he]
      exact List.mem_map_of_mem (f := Prod.fst) h

theorem find_place {k : κ} (v : ν) {m : List (κ × ν)} (hk : find k m = none) (k' : κ) :
    find k' (place before k v m) = if k' = k then some v else find k' m := by
  induction m with
  | nil => rfl
  | cons e m ih =>
    have hne : k ≠ e.1 ∧ find k m = none := by
      unfold find at hk
      split at hk
      · cases hk
      · next hne => exact ⟨hne, hk⟩
    unfold place
    split
    · rfl
    · show (if k' = e.1 then some e.2 else find k' (place before k v m)) = _
      rw [ih hne.2]
      by_cases he : k' = e.1
      · have hk' : k' ≠ k := by
          intro h
          exact hne.1 (h.symm.trans he)
        rw [if_pos he, if_neg hk', find, if_pos he]
      · rw [if_neg he, find, if_neg he]

theorem find_map_update (k : κ) (v : ν) {m : List (κ × ν)} (k' : κ) :
    find k' (m.map fun e => if e.1 = k then (k, v) else e)
      = if k' = k then (find k m).map fun _ => v else find k' m := by
  induction m with
  | nil => simp [find]
  | cons e m ih =>
    rw [List.map_cons]
    by_cases he : e.1 = k
    · rw [if_pos he]
      unfold find
      rw [ih]
      by_cases hk : k' = k
      · simp [hk, he]
      · simp [hk, he]
    · rw [if_neg he]
      unfold find
      rw [ih]
      by_cases hk : k' = k
      · simp [hk, Ne.symm he]
      · simp [hk]

/-- Only the value of the new entry changes. -/
theorem find_put (k : κ) (v : ν) (m : List (κ × ν)) (k' : κ) :
    find k' (put before k v m) = if k' = k then some v else find k' m := by
  unfold put
  split
  · next h =>
    obtain ⟨w, hw⟩ := Option.isSome_iff_exists.mp h
    rw [find_map_update, hw]
    rfl
  · next h =>
    exact find_place before v (Option.not_isSome_iff_eq_none.mp h) k'

/-! ## Keys -/

theorem keys_map_update (k : κ) (v : ν) (m : List (κ × ν)) :
    keys (m.map fun e => if e.1 = k then (k, v) else e) = keys m := by
  unfold keys
  rw [List.map_map]
  apply List.map_congr_left
  intro e _
  show (if e.1 = k then (k, v) else e).1 = e.1
  split
  · next h => exact h.symm
  · rfl

omit [DecidableEq κ] in
theorem keys_place_perm (k : κ) (v : ν) (m : List (κ × ν)) :
    (keys (place before k v m)).Perm (k :: keys m) := by
  induction m with
  | nil => exact List.Perm.refl _
  | cons e m ih =>
    unfold place
    split
    · exact List.Perm.refl _
    · exact (ih.cons e.1).trans (List.Perm.swap k e.1 _)

theorem nodup_put {m : List (κ × ν)} (hm : (keys m).Nodup) (k : κ) (v : ν) :
    (keys (put before k v m)).Nodup := by
  unfold put
  split
  · rw [keys_map_update]
    exact hm
  · next h =>
    rw [(keys_place_perm before k v m).nodup_iff, List.nodup_cons]
    exact ⟨fun hk => h (find_isSome_iff.mpr hk), hm⟩

omit [DecidableEq κ] in
theorem nodup_filter {m : List (κ × ν)} (hm : (keys m).Nodup) (p : κ × ν → Bool) :
    (keys (m.filter p)).Nodup :=
  hm.sublist (List.Sublist.map _ List.filter_sublist)

/-! ## Size -/

omit [DecidableEq κ] in
theorem length_place (k : κ) (v : ν) (m : List (κ × ν)) :
    (place before k v m).length = m.length + 1 := by
  induction m with
  | nil => rfl
  | cons e m ih =>
    unfold place
    split
    · rfl
    · rw [List.length_cons, ih, List.length_cons]

theorem length_put_le (k : κ) (v : ν) (m : List (κ × ν)) :
    (put before k v m).length ≤ m.length + 1 := by
  unfold put
  split
  · rw [List.length_map]
    omega
  · exact Nat.le_of_eq (length_place before k v m)

end Faust.OrderedMap
