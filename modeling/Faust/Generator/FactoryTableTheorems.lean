import Faust.Generator.FactoryTable
import Faust.Lib.Outcome
import Mathlib.Data.List.Nodup

/-!
# The references to the factories are balanced

The table and the caller hold the same factories. The table holds each of them with one reference
and the caller with one more for each handle but the first, so the count is the number of handles.
-/

namespace Faust.LLVM

open Outcome

/-! ## One factory -/

section
variable {m : Memory} {p q : ℕ} {f g : Factory}

@[simp] theorem setFactory_self {f : Option Factory} : (m.setFactory p f).factory p = f :=
  Function.update_self _ _ _

theorem setFactory_of_ne {f : Option Factory} (h : q ≠ p) :
    (m.setFactory p f).factory q = m.factory q :=
  Function.update_of_ne h _ _

@[simp] theorem setFactory_setFactory {f g : Option Factory} :
    (m.setFactory p f).setFactory p g = m.setFactory p g := by
  simp [Memory.setFactory]

theorem setFactory_eq_self {f : Option Factory} (h : m.factory p = f) : m.setFactory p f = m := by
  subst h
  simp [Memory.setFactory]

@[simp] theorem setFactory_gFactoryTable {f : Option Factory} :
    (m.setFactory p f).gFactoryTable = m.gFactoryTable := rfl

theorem ends_access {E : Fault → Prop} (h : m.factory p = some f) :
    Ends (access p) m E fun a m' => a = f ∧ m' = m := by
  unfold access
  apply Ends.get_eq.bind
  rintro s _ ⟨rfl, rfl⟩
  rw [h]
  exact .pure ⟨rfl, rfl⟩

/-- The factory with another count. -/
def Factory.withCount (f : Factory) (n : ℕ) : Factory := { f with refCount := n }

theorem ends_addReference (h : m.factory p = some f) (hlt : f.refCount < unsignedSize) :
    Ends (addReference p) m (· = .overflow) fun _ m' => f.refCount + 1 < unsignedSize ∧
      m' = m.setFactory p (some (f.withCount (f.refCount + 1))) := by
  unfold addReference
  apply (ends_access h).bind
  intro a m' heq
  rw [heq.1, heq.2]
  dsimp only
  by_cases hmax : f.refCount + 1 = unsignedSize
  · have hzero : (f.refCount + 1) % unsignedSize = 0 := by rw [hmax, Nat.mod_self]
    rw [if_pos hzero]
    exact .throw rfl
  · have hbound : f.refCount + 1 < unsignedSize := by omega
    have hmod : (f.refCount + 1) % unsignedSize = f.refCount + 1 := Nat.mod_eq_of_lt hbound
    rw [hmod, if_neg (Nat.succ_ne_zero _)]
    exact .modify ⟨hbound, rfl⟩

/-- The count after a reference is removed. -/
theorem pred_mod {n : ℕ} (hpos : 0 < n) (hlt : n < unsignedSize) :
    (n + (unsignedSize - 1)) % unsignedSize = n - 1 := by
  have heq : n + (unsignedSize - 1) = (n - 1) + unsignedSize := by omega
  rw [heq, Nat.add_mod_right]
  exact Nat.mod_eq_of_lt (by omega)

theorem ends_removeReference {E : Fault → Prop} (h : m.factory p = some f) (hpos : 1 < f.refCount)
    (hlt : f.refCount < unsignedSize) : Ends (removeReference p) m E fun _ m' =>
      m' = m.setFactory p (some (f.withCount (f.refCount - 1))) := by
  unfold removeReference
  apply (ends_access h).bind
  intro a m' heq
  rw [heq.1, heq.2]
  dsimp only
  rw [pred_mod (by omega) hlt, if_neg (by omega)]
  exact .modify rfl

theorem ends_removeReference_last {E : Fault → Prop} (h : m.factory p = some f)
    (hone : f.refCount = 1) :
    Ends (removeReference p) m E fun _ m' => m' = m.setFactory p none := by
  have hlt : f.refCount < unsignedSize := by
    rw [hone]
    decide
  unfold removeReference
  apply (ends_access h).bind
  intro a m' heq
  rw [heq.1, heq.2]
  dsimp only
  rw [pred_mod (by omega) hlt, if_pos (by omega)]
  exact .modify rfl

/-- A smart pointer on a factory. What runs in its scope sees one more reference. -/
theorem ends_smartp {α : Type} {body : M α} {Q : α → Memory → Prop} (hp : p ≠ null)
    (h : m.factory p = some f) (hlt : f.refCount < unsignedSize)
    (hbody : f.refCount + 1 < unsignedSize →
      Ends body (m.setFactory p (some (f.withCount (f.refCount + 1)))) (· = .overflow)
        fun a m' => Ends (removeReference p) m' (· = .overflow) fun _ m'' => Q a m'') :
    Ends (smartp p body) m (· = .overflow) Q := by
  unfold smartp hold release
  rw [if_neg hp, if_neg hp]
  apply (ends_addReference h hlt).bind
  rintro _ _ ⟨hbound, rfl⟩
  apply (hbody hbound).bind
  intro a m' hrelease
  apply hrelease.bind
  intro _ m'' hQ
  exact .pure hQ

/-- A smart pointer on a factory, when what runs in its scope leaves the memory alone. -/
theorem ends_smartp_same {α : Type} {body : M α} {Q : α → Prop} (hp : p ≠ null)
    (h : m.factory p = some f) (hpos : 0 < f.refCount) (hlt : f.refCount < unsignedSize)
    (hbody : Ends body (m.setFactory p (some (f.withCount (f.refCount + 1)))) (· = .overflow)
      fun a m' => Q a ∧ m' = m.setFactory p (some (f.withCount (f.refCount + 1)))) :
    Ends (smartp p body) m (· = .overflow) fun a m' => Q a ∧ m' = m := by
  apply ends_smartp hp h hlt
  intro hbound
  apply hbody.mono
  rintro a _ ⟨hQ, rfl⟩
  apply (ends_removeReference (setFactory_self) (by show 1 < f.refCount + 1; omega) hbound).mono
  rintro _ _ rfl
  refine ⟨hQ, ?_⟩
  rw [setFactory_setFactory]
  exact setFactory_eq_self h

end

/-! ## The entries of the table -/

/-- The pointers of the table. -/
def keys (t : List (ℕ × List ℕ)) : List ℕ := t.map Prod.fst

theorem isSome_lookup {t : List (ℕ × List ℕ)} {p : ℕ} :
    (t.lookup p).isSome = true ↔ p ∈ keys t := by
  induction t with
  | nil => simp [keys]
  | cons e t ih =>
    obtain ⟨q, l⟩ := e
    rw [keys, List.map_cons, List.mem_cons]
    by_cases hp : p = q
    · subst hp
      simp
    · have hne : (p == q) = false := by simpa using hp
      rw [List.lookup_cons, hne]
      simp only [hp, false_or]
      exact ih

theorem isNone_lookup {t : List (ℕ × List ℕ)} {p : ℕ} :
    (t.lookup p).isNone = true ↔ p ∉ keys t := by
  rw [← isSome_lookup]
  cases t.lookup p <;> simp

theorem keys_setEntry {t : List (ℕ × List ℕ)} {p : ℕ} (h : p ∉ keys t) (dsps : List ℕ) :
    (keys (setEntry p dsps t)).Perm (p :: keys t) := by
  induction t with
  | nil => exact .rfl
  | cons e t ih =>
    obtain ⟨q, l⟩ := e
    rw [keys, List.map_cons, List.mem_cons, not_or] at h
    unfold setEntry
    by_cases hlt : p < q
    · rw [if_pos hlt]
      exact .rfl
    · rw [if_neg hlt, if_neg h.1]
      exact ((ih h.2).cons q).trans (.swap p q _)

theorem keys_filter {t : List (ℕ × List ℕ)} {p q : ℕ} :
    q ∈ keys (t.filter fun e => e.1 ≠ p) ↔ q ∈ keys t ∧ q ≠ p := by
  simp only [keys, List.mem_map, List.mem_filter, decide_eq_true_eq]
  constructor
  · rintro ⟨e, ⟨he, hne⟩, rfl⟩
    exact ⟨⟨e, he, rfl⟩, hne⟩
  · rintro ⟨⟨e, he, rfl⟩, hne⟩
    exact ⟨e, ⟨he, hne⟩, rfl⟩

theorem keys_update {t : List (ℕ × List ℕ)} {p : ℕ} {f : List ℕ → List ℕ} :
    keys (t.map fun e => if e.1 = p then (e.1, f e.2) else e) = keys t := by
  unfold keys
  rw [List.map_map]
  apply List.map_congr_left
  intro e _
  show (if e.1 = p then (e.1, f e.2) else e).1 = e.1
  split <;> rfl

section
variable {m : Memory} {p q : ℕ} {f g : Factory}

theorem ends_find (h : m.factory p = some f) (hp : p ≠ null) (hpos : 0 < f.refCount)
    (hlt : f.refCount < unsignedSize) : Ends (find p) m (· = .overflow) fun a m' =>
      a = m.gFactoryTable.lookup p ∧ m' = m := by
  unfold find
  apply ends_smartp_same hp h hpos hlt
  apply Ends.get_eq.bind
  rintro s _ ⟨rfl, rfl⟩
  exact .pure ⟨rfl, rfl⟩

theorem ends_find_null {E : Fault → Prop} : Ends (find null) m E fun a m' =>
    a = m.gFactoryTable.lookup null ∧ m' = m := by
  unfold find smartp hold release
  rw [if_pos rfl, if_pos rfl]
  show Ends (get >>= fun s : Memory => Pure.pure (s.gFactoryTable.lookup null)) m E _
  apply Ends.get_eq.bind
  rintro s _ ⟨rfl, rfl⟩
  exact .pure ⟨rfl, rfl⟩

/-- The table holds a factory that it did not hold. -/
theorem ends_addEntry (hp : p ≠ null) (h : m.factory p = some f) (hzero : f.refCount = 0)
    (hnew : p ∉ keys m.gFactoryTable) : Ends (addEntry p) m (· = .overflow) fun _ m' =>
      m' = { m.setFactory p (some (f.withCount 1)) with
        gFactoryTable := setEntry p [] m.gFactoryTable } := by
  have hlt : f.refCount < unsignedSize := by
    rw [hzero]
    decide
  unfold addEntry
  apply ends_smartp hp h hlt
  intro hbound
  apply Ends.get_eq.bind
  rintro s _ ⟨rfl, rfl⟩
  dsimp only
  rw [setFactory_gFactoryTable, if_pos (isNone_lookup.2 hnew), hold, if_neg hp]
  apply (ends_addReference setFactory_self hbound).bind
  rintro _ _ ⟨hbound', rfl⟩
  apply Ends.modify
  -- the temporary smart pointer on the key goes away
  apply Ends.mono (ends_removeReference (f := f.withCount (f.refCount + 2)) ?_ ?_ hbound')
  · rintro _ _ rfl
    simp [Memory.setFactory, Factory.withCount, hzero]
  · exact Function.update_self _ _ _
  · show 1 < f.refCount + 2
    omega

/-- The table gives up a factory with two references. -/
theorem ends_erase (hp : p ≠ null) (h : m.factory p = some f) (htwo : f.refCount = 2)
    (hmem : p ∈ keys m.gFactoryTable) : Ends (erase p) m (· = .overflow) fun _ m' =>
      m' = { m.setFactory p (some (f.withCount 1)) with
        gFactoryTable := m.gFactoryTable.filter fun e => e.1 ≠ p } := by
  have hlt : f.refCount < unsignedSize := by
    rw [htwo]
    decide
  unfold erase
  apply ends_smartp hp h hlt
  intro hbound
  apply Ends.get_eq.bind
  rintro s _ ⟨rfl, rfl⟩
  dsimp only
  rw [setFactory_gFactoryTable, if_pos (isSome_lookup.2 hmem), release, if_neg hp]
  apply (Ends.modify (Q := fun _ m' => m' = { m.setFactory p (some (f.withCount 3)) with
    gFactoryTable := m.gFactoryTable.filter fun e => e.1 ≠ p }) (by rw [htwo])).bind
  rintro _ _ rfl
  apply Ends.mono (ends_removeReference (f := f.withCount 3) (Function.update_self _ _ _)
    (show 1 < 3 by decide) (show 3 < unsignedSize by decide))
  rintro _ _ rfl
  apply Ends.mono (ends_removeReference (f := f.withCount 2) (Function.update_self _ _ _)
    (show 1 < 2 by decide) (show 2 < unsignedSize by decide))
  rintro _ _ rfl
  simp [Memory.setFactory, Factory.withCount]

end

/-! ## The invariant -/

/-- The table and the caller have the same factories, the factories are those in the memory, and an
instance that is not an orphan has its factory. -/
structure Inv (s : Client) : Prop where
  keys_nodup : (keys s.memory.gFactoryTable).Nodup
  mem_keys : ∀ p, p ∈ keys s.memory.gFactoryTable ↔ p ∈ s.handles
  not_null : null ∉ s.handles
  exists_factory : ∀ p, p ∈ s.handles → ∃ f, s.memory.factory p = some f
  mem_handles : ∀ p f, s.memory.factory p = some f → p ∈ s.handles
  count : ∀ p f, s.memory.factory p = some f → f.refCount = s.handles.count p
  lt_size : ∀ p f, s.memory.factory p = some f → f.refCount < unsignedSize
  sha : ∀ p q f g, s.memory.factory p = some f → s.memory.factory q = some g →
    f.fSHAKey = g.fSHAKey → p = q
  instances : ∀ i p, s.memory.instances i = some p ↔ (i, p) ∈ s.instances
  instance_ne_null : ∀ p, (null, p) ∉ s.instances
  orphans : ∀ i p, (i, p) ∈ s.instances → i ∉ s.orphans → p ∈ s.handles

theorem Inv.start : Inv .start where
  keys_nodup := List.nodup_nil
  mem_keys _ := .rfl
  not_null := List.not_mem_nil
  exists_factory p hp := by cases hp
  mem_handles p f h := by cases h
  count p f h := by cases h
  lt_size p f h := by cases h
  sha p q f g h := by cases h
  instances i p := by simp [Client.start]
  instance_ne_null p := List.not_mem_nil
  orphans i p h := by cases h

section
variable {s : Client} {p q : ℕ} {f : Factory}

theorem Inv.ne_null (h : Inv s) (hp : p ∈ s.handles) : p ≠ null := by
  rintro rfl
  exact h.not_null hp

theorem Inv.count_pos (h : Inv s) (hf : s.memory.factory p = some f) : 0 < f.refCount := by
  rw [h.count p f hf]
  exact List.count_pos_iff.2 (h.mem_handles p f hf)

theorem Inv.balanced (h : Inv s) : Balanced s where
  sha_nodup := by
    apply List.Nodup.map_on
    · intro e he e' he' heq
      have hp := (h.mem_keys e.1).1 (List.mem_map_of_mem he)
      have hp' := (h.mem_keys e'.1).1 (List.mem_map_of_mem he')
      obtain ⟨f, hf⟩ := h.exists_factory _ hp
      obtain ⟨f', hf'⟩ := h.exists_factory _ hp'
      rw [hf, hf'] at heq
      have hfst : e.1 = e'.1 := h.sha _ _ f f' hf hf' (Option.some.inj heq)
      exact List.inj_on_of_nodup_map h.keys_nodup he he' hfst
    · exact h.keys_nodup.of_map _
  not_null e he := h.ne_null ((h.mem_keys e.1).1 (List.mem_map_of_mem he))
  count := h.count
  destroyed p := by
    constructor
    · intro hnone hp
      obtain ⟨f, hf⟩ := h.exists_factory p hp
      rw [hnone] at hf
      cases hf
    · intro hp
      cases hf : s.memory.factory p with
      | none => rfl
      | some f => exact absurd (h.mem_handles p f hf) hp

/-- The factories of the table are read. -/
theorem ends_getFactoryIn (h : Inv s) (sha_key : String) (t : List (ℕ × List ℕ))
    (ht : ∀ p ∈ keys t, p ∈ s.handles) : Ends (getFactoryIn sha_key t) s.memory (· = .overflow)
      fun r m' => m' = s.memory ∧
        (r = none → ∀ p ∈ keys t, ∀ f, s.memory.factory p = some f → f.fSHAKey ≠ sha_key) ∧
        ∀ p, r = some p → p ∈ keys t ∧ ∃ f, s.memory.factory p = some f ∧ f.fSHAKey = sha_key := by
  induction t with
  | nil => exact .pure ⟨rfl, by simp [keys], by simp⟩
  | cons e t ih =>
    obtain ⟨p, l⟩ := e
    have hp : p ∈ s.handles := ht p List.mem_cons_self
    obtain ⟨f, hf⟩ := h.exists_factory p hp
    unfold getFactoryIn
    rw [if_neg (h.ne_null hp)]
    apply (ends_access hf).bind
    intro a m' heq
    rw [heq.1, heq.2]
    by_cases hsha : f.fSHAKey = sha_key
    · rw [if_pos hsha]
      refine .pure ⟨rfl, by simp, ?_⟩
      rintro _ ⟨⟩
      exact ⟨List.mem_cons_self, f, hf, hsha⟩
    · rw [if_neg hsha]
      apply (ih fun q hq => ht q (List.mem_cons_of_mem _ hq)).mono
      rintro r _ ⟨rfl, hnone, hsome⟩
      refine ⟨rfl, ?_, ?_⟩
      · intro hr q hq g hg
        rcases List.mem_cons.1 hq with rfl | hq
        · obtain rfl := Option.some.inj (hf.symm.trans hg)
          exact hsha
        · exact hnone hr q hq g hg
      · intro q hr
        obtain ⟨hq, hg⟩ := hsome q hr
        exact ⟨List.mem_cons_of_mem _ hq, hg⟩

theorem ends_getFactory (h : Inv s) (sha_key : String) :
    Ends (getFactory sha_key) s.memory (· = .overflow) fun r m' => m' = s.memory ∧
      (r = none → ∀ p f, s.memory.factory p = some f → f.fSHAKey ≠ sha_key) ∧
      ∀ p, r = some p → p ∈ s.handles ∧
        ∃ f, s.memory.factory p = some f ∧ f.fSHAKey = sha_key := by
  unfold getFactory
  apply Ends.get_eq.bind
  rintro m _ ⟨rfl, rfl⟩
  apply (ends_getFactoryIn h sha_key _ fun p hp => (h.mem_keys p).1 hp).mono
  rintro r _ ⟨rfl, hnone, hsome⟩
  refine ⟨rfl, ?_, ?_⟩
  · intro hr p f hf
    exact hnone hr p ((h.mem_keys p).2 (h.mem_handles p f hf)) f hf
  · intro p hr
    obtain ⟨hp, hf⟩ := hsome p hr
    exact ⟨(h.mem_keys p).1 hp, hf⟩

theorem ends_find_handle (h : Inv s) (hp : p = null ∨ p ∈ s.handles) :
    Ends (find p) s.memory (· = .overflow) fun a m' =>
      (a.isSome = true ↔ p ∈ s.handles) ∧ m' = s.memory := by
  have hlookup : ((s.memory.gFactoryTable.lookup p).isSome = true ↔ p ∈ s.handles) := by
    rw [isSome_lookup]
    exact h.mem_keys p
  rcases hp with rfl | hp
  · apply ends_find_null.mono
    rintro _ _ ⟨rfl, rfl⟩
    exact ⟨hlookup, rfl⟩
  · obtain ⟨f, hf⟩ := h.exists_factory p hp
    apply (ends_find hf (h.ne_null hp) (h.count_pos hf) (h.lt_size p f hf)).mono
    rintro _ _ ⟨rfl, rfl⟩
    exact ⟨hlookup, rfl⟩

/-- A factory that keeps handles changes its count. -/
theorem Inv.recount (h : Inv s) (hf : s.memory.factory p = some f) {n : ℕ} {l : List ℕ}
    (hn : n = l.count p) (hpos : 0 < n) (hlt : n < unsignedSize)
    (hother : ∀ q, q ≠ p → l.count q = s.handles.count q) :
    Inv { s with memory := s.memory.setFactory p (some (f.withCount n)), handles := l } := by
  have hp : p ∈ s.handles := h.mem_handles p f hf
  have hmem : ∀ q, q ∈ l ↔ q ∈ s.handles := by
    intro q
    by_cases hq : q = p
    · subst hq
      exact iff_of_true (List.count_pos_iff.1 (by omega)) hp
    · rw [← List.count_pos_iff, hother q hq, List.count_pos_iff]
  have hold : ∀ q g, (s.memory.setFactory p (some (f.withCount n))).factory q = some g →
      ∃ g', s.memory.factory q = some g' ∧ g = g'.withCount (l.count q) := by
    intro q g hg
    by_cases hq : q = p
    · subst hq
      rw [setFactory_self] at hg
      obtain rfl := Option.some.inj hg
      exact ⟨f, hf, by rw [hn]⟩
    · rw [setFactory_of_ne hq] at hg
      refine ⟨g, hg, ?_⟩
      rw [hother q hq, ← h.count q g hg]
      rfl
  refine ⟨h.keys_nodup, ?_, ?_, ?_, ?_, ?_, ?_, ?_, h.instances, h.instance_ne_null, ?_⟩
  · intro q
    exact (h.mem_keys q).trans (hmem q).symm
  · rw [hmem]
    exact h.not_null
  · intro q hq
    show ∃ g, (s.memory.setFactory p (some (f.withCount n))).factory q = some g
    by_cases hqp : q = p
    · subst hqp
      exact ⟨_, setFactory_self⟩
    · rw [setFactory_of_ne hqp]
      exact h.exists_factory q ((hmem q).1 hq)
  · intro q g hg
    obtain ⟨g', hg', -⟩ := hold q g hg
    exact (hmem q).2 (h.mem_handles q g' hg')
  · intro q g hg
    obtain ⟨g', -, rfl⟩ := hold q g hg
    rfl
  · intro q g hg
    obtain ⟨g', hg', rfl⟩ := hold q g hg
    show l.count q < unsignedSize
    by_cases hqp : q = p
    · rw [hqp, ← hn]
      exact hlt
    · rw [hother q hqp, ← h.count q g' hg']
      exact h.lt_size q g' hg'
  · intro q q' g g' hg hg' heq
    obtain ⟨g₁, hg₁, rfl⟩ := hold q g hg
    obtain ⟨g₂, hg₂, rfl⟩ := hold q' g' hg'
    exact h.sha q q' g₁ g₂ hg₁ hg₂ heq
  · intro i q hi hnot
    exact (hmem q).2 (h.orphans i q hi hnot)

/-! ## Creations -/

/-- A factory that is shared has one more handle. -/
theorem Inv.share (h : Inv s) (hp : p ∈ s.handles) :
    Ends (share p) s.memory (· = .overflow) fun r m' => Inv (s.receive (r, m')) := by
  obtain ⟨f, hf⟩ := h.exists_factory p hp
  have hnull := h.ne_null hp
  unfold LLVM.share
  apply Ends.bind (Q := fun _ m' => f.refCount + 1 < unsignedSize ∧
    m' = s.memory.setFactory p (some (f.withCount (f.refCount + 1))))
  · apply ends_smartp hnull hf (h.lt_size p f hf)
    intro hbound
    apply (ends_addReference setFactory_self hbound).mono
    rintro _ _ ⟨hbound', rfl⟩
    apply Ends.mono (ends_removeReference (f := f.withCount (f.refCount + 2)) ?_ ?_ hbound')
    · rintro _ _ rfl
      refine ⟨hbound, ?_⟩
      simp [Factory.withCount]
    · exact Function.update_self _ _ _
    · show 1 < f.refCount + 2
      omega
  · rintro _ _ ⟨hbound, rfl⟩
    apply Ends.pure
    rw [Client.receive, if_neg hnull]
    apply h.recount hf
    · rw [List.count_cons_self, h.count p f hf]
    · omega
    · exact hbound
    · exact fun q hq => List.count_cons_of_ne (Ne.symm hq)

/-- A new factory in the table. -/
theorem Inv.insert (h : Inv s) (hp : s.memory.Free p) (sha_key : String)
    (hsha : ∀ q f, s.memory.factory q = some f → f.fSHAKey ≠ sha_key) :
    Inv { s with
      memory := { s.memory.setFactory p (some ⟨1, sha_key⟩) with
        gFactoryTable := setEntry p [] s.memory.gFactoryTable }
      handles := p :: s.handles } := by
  have hnew : p ∉ s.handles := by
    intro hmem
    obtain ⟨f, hf⟩ := h.exists_factory p hmem
    rw [hp.2] at hf
    cases hf
  have hkeys := keys_setEntry (fun hmem => hnew ((h.mem_keys p).1 hmem)) []
  have hold : ∀ q g, (s.memory.setFactory p (some ⟨1, sha_key⟩)).factory q = some g →
      q = p ∧ g = ⟨1, sha_key⟩ ∨ q ≠ p ∧ s.memory.factory q = some g := by
    intro q g hg
    by_cases hq : q = p
    · subst hq
      rw [setFactory_self] at hg
      exact Or.inl ⟨rfl, (Option.some.inj hg).symm⟩
    · rw [setFactory_of_ne hq] at hg
      exact Or.inr ⟨hq, hg⟩
  refine ⟨?_, ?_, ?_, ?_, ?_, ?_, ?_, ?_, h.instances, h.instance_ne_null, ?_⟩
  · apply hkeys.nodup_iff.2
    exact List.nodup_cons.2 ⟨fun hmem => hnew ((h.mem_keys p).1 hmem), h.keys_nodup⟩
  · intro q
    rw [hkeys.mem_iff, List.mem_cons, List.mem_cons, h.mem_keys]
  · rw [List.mem_cons, not_or]
    exact ⟨hp.1.symm, h.not_null⟩
  · intro q hq
    show ∃ g, (s.memory.setFactory p (some ⟨1, sha_key⟩)).factory q = some g
    by_cases hqp : q = p
    · subst hqp
      exact ⟨_, setFactory_self⟩
    · rw [setFactory_of_ne hqp]
      exact h.exists_factory q (List.mem_of_ne_of_mem hqp hq)
  · intro q g hg
    rcases hold q g hg with ⟨rfl, -⟩ | ⟨-, hg⟩
    · exact List.mem_cons_self
    · exact List.mem_cons_of_mem _ (h.mem_handles q g hg)
  · intro q g hg
    show g.refCount = (p :: s.handles).count q
    rcases hold q g hg with ⟨rfl, rfl⟩ | ⟨hq, hg⟩
    · rw [List.count_cons_self, List.count_eq_zero_of_not_mem hnew]
    · rw [List.count_cons_of_ne (Ne.symm hq), h.count q g hg]
  · intro q g hg
    rcases hold q g hg with ⟨rfl, rfl⟩ | ⟨-, hg⟩
    · show 1 < unsignedSize
      decide
    · exact h.lt_size q g hg
  · intro q q' g g' hg hg' heq
    rcases hold q g hg with ⟨rfl, rfl⟩ | ⟨-, hold₁⟩
    · rcases hold q' g' hg' with ⟨rfl, rfl⟩ | ⟨-, hold₂⟩
      · rfl
      · exact absurd heq.symm (hsha q' g' hold₂)
    · rcases hold q' g' hg' with ⟨rfl, rfl⟩ | ⟨-, hold₂⟩
      · exact absurd heq (hsha q g hold₁)
      · exact h.sha q q' g g' hold₁ hold₂ heq
  · intro i q hi hnot
    exact List.mem_cons_of_mem _ (h.orphans i q hi hnot)

/-- The factory is put in the table. -/
theorem Inv.addEntry (h : Inv s) (hp : s.memory.Free p) (sha_key : String)
    (hsha : ∀ q f, s.memory.factory q = some f → f.fSHAKey ≠ sha_key) :
    Ends (addEntry p) (s.memory.setFactory p (some ⟨0, sha_key⟩)) (· = .overflow) fun _ m' =>
      Inv (s.receive (p, m')) := by
  have hnew : p ∉ keys s.memory.gFactoryTable := by
    intro hmem
    obtain ⟨f, hf⟩ := h.exists_factory p ((h.mem_keys p).1 hmem)
    rw [hp.2] at hf
    cases hf
  apply (ends_addEntry hp.1 setFactory_self rfl hnew).mono
  rintro _ _ rfl
  rw [Client.receive, if_neg hp.1, setFactory_setFactory]
  exact h.insert hp sha_key hsha

/-- A factory that could not be started leaves nothing behind. -/
theorem Inv.receive_null (h : Inv s) : Inv (s.receive (null, s.memory)) := by
  rw [Client.receive, if_pos rfl]
  exact h

theorem ends_failed (hp : s.memory.Free p) (sha_key : String) :
    Ends (checkDSPFactory false p) (s.memory.setFactory p (some ⟨0, sha_key⟩)) (· = .overflow)
      fun r m' => r = null ∧ m' = s.memory := by
  show Ends (modify (Memory.setFactory p none) >>= fun _ => Pure.pure null) _ _ _
  apply (Ends.modify (Q := fun _ m' => m' = s.memory) ?_).bind
  · rintro _ _ rfl
    exact .pure ⟨rfl, rfl⟩
  · rw [setFactory_setFactory]
    exact setFactory_eq_self hp.2

theorem Inv.newEntry (h : Inv s) (hp : s.memory.Free p) (sha_key : String)
    (hsha : ∀ q f, s.memory.factory q = some f → f.fSHAKey ≠ sha_key) (module jit : Bool) :
    Ends (newEntry sha_key module jit p) s.memory (· = .overflow) fun r m' =>
      Inv (s.receive (r, m')) := by
  unfold LLVM.newEntry newFactory
  cases module with
  | false => exact .pure h.receive_null
  | true =>
    rw [if_pos rfl]
    apply (Ends.modify (Q := fun _ m' => m' = s.memory.setFactory p (some ⟨0, sha_key⟩)) rfl).bind
    rintro _ _ rfl
    cases jit with
    | false =>
      apply (ends_failed hp sha_key).bind
      rintro _ _ ⟨rfl, rfl⟩
      exact .pure h.receive_null
    | true =>
      apply Ends.bind (Q := fun r m' => r = p ∧
        m' = s.memory.setFactory p (some ⟨0, sha_key⟩)) (.pure ⟨rfl, rfl⟩)
      rintro _ _ ⟨rfl, rfl⟩
      rw [if_pos hp.1]
      apply (h.addEntry hp sha_key hsha).bind
      intro _ m' hinv
      exact .pure hinv

/-- What is in the table is shared, and the rest is made. -/
theorem Inv.getOrMake (h : Inv s) (sha_key : String) {make : M ℕ}
    (hmake : (∀ q f, s.memory.factory q = some f → f.fSHAKey ≠ sha_key) →
      Ends make s.memory (· = .overflow) fun r m' => Inv (s.receive (r, m'))) :
    Ends (do
      match ← getFactory sha_key with
      | some q => LLVM.share q
      | none => make) s.memory (· = .overflow) fun r m' => Inv (s.receive (r, m')) := by
  apply (ends_getFactory h sha_key).bind
  rintro r _ ⟨rfl, hnone, hsome⟩
  cases r with
  | none => exact hmake (hnone rfl)
  | some q => exact h.share (hsome q rfl).1

/-! ## Factories and instances are given back -/

theorem ends_access_handle (h : Inv s) (hp : p ∈ s.handles) :
    Ends (access p) s.memory (· = .overflow) fun _ m' => m' = s.memory := by
  obtain ⟨f, hf⟩ := h.exists_factory p hp
  exact (ends_access hf).mono fun _ _ heq => heq.2

/-- The last handle of a factory is given back. -/
theorem Inv.remove (h : Inv s) (hf : s.memory.factory p = some f) (hone : f.refCount = 1) :
    Inv { s.giveBack p with
      memory := { s.memory.setFactory p none with
        gFactoryTable := s.memory.gFactoryTable.filter fun e => e.1 ≠ p } } := by
  have hcount : s.handles.count p = 1 := by rw [← h.count p f hf, hone]
  have hmem : ∀ q, q ∈ s.handles.erase p ↔ q ∈ s.handles ∧ q ≠ p := by
    intro q
    by_cases hq : q = p
    · subst hq
      rw [← List.count_pos_iff, List.count_erase_self, hcount]
      simp
    · rw [List.mem_erase_of_ne hq]
      simp [hq]
  have hlast : p ∉ s.handles.erase p := fun hin => ((hmem p).1 hin).2 rfl
  have hold : ∀ q g, (s.memory.setFactory p none).factory q = some g →
      q ≠ p ∧ s.memory.factory q = some g := by
    intro q g hg
    by_cases hq : q = p
    · subst hq
      rw [setFactory_self] at hg
      cases hg
    · rw [setFactory_of_ne hq] at hg
      exact ⟨hq, hg⟩
  refine ⟨?_, ?_, ?_, ?_, ?_, ?_, ?_, ?_, h.instances, h.instance_ne_null, ?_⟩
  · exact h.keys_nodup.sublist (List.filter_sublist.map _)
  · intro q
    exact keys_filter.trans ((and_congr_left fun _ => h.mem_keys q).trans (hmem q).symm)
  · exact fun hin => h.not_null ((hmem null).1 hin).1
  · intro q hq
    obtain ⟨hq, hne⟩ := (hmem q).1 hq
    show ∃ g, (s.memory.setFactory p none).factory q = some g
    rw [setFactory_of_ne hne]
    exact h.exists_factory q hq
  · intro q g hg
    obtain ⟨hq, hg⟩ := hold q g hg
    exact (hmem q).2 ⟨h.mem_handles q g hg, hq⟩
  · intro q g hg
    obtain ⟨hq, hg⟩ := hold q g hg
    show g.refCount = (s.handles.erase p).count q
    rw [List.count_erase_of_ne hq, h.count q g hg]
  · intro q g hg
    exact h.lt_size q g (hold q g hg).2
  · intro q q' g g' hg hg' heq
    exact h.sha q q' g g' (hold q g hg).2 (hold q' g' hg').2 heq
  · -- the instances of the factory are orphans now
    intro i q hi hnot
    show q ∈ s.handles.erase p
    have hnot : i ∉ s.orphans ++ (s.instances.filter fun e => e.2 = p).map Prod.fst := by
      simpa only [Client.giveBack, if_neg hlast] using hnot
    rw [List.mem_append, not_or] at hnot
    apply (hmem q).2
    refine ⟨h.orphans i q hi hnot.1, ?_⟩
    rintro rfl
    apply hnot.2
    have hfilter : (i, q) ∈ s.instances.filter fun e => e.2 = q :=
      List.mem_filter.2 ⟨hi, decide_eq_true rfl⟩
    exact List.mem_map_of_mem hfilter

theorem Inv.deleteDSPFactory (h : Inv s) (hp : p = null ∨ p ∈ s.handles) :
    Ends (deleteDSPFactory p) s.memory (· = .overflow) fun _ m' =>
      Inv { s.giveBack p with memory := m' } := by
  unfold LLVM.deleteDSPFactory
  apply (ends_find_handle h hp).bind
  rintro a _ ⟨hfound, rfl⟩
  by_cases hmem : p ∈ s.handles
  · obtain ⟨f, hf⟩ := h.exists_factory p hmem
    have hpos := h.count_pos hf
    rw [if_pos (hfound.2 hmem)]
    apply ends_smartp (h.ne_null hmem) hf (h.lt_size p f hf)
    intro hbound
    apply (ends_access setFactory_self).bind
    intro g m' heq
    rw [heq.1, heq.2]
    show Ends (if f.refCount + 1 = 2 then _ else _) _ _ _
    by_cases hone : f.refCount = 1
    · rw [if_pos (by omega)]
      have htwo : (f.withCount (f.refCount + 1)).refCount = 2 := by
        show f.refCount + 1 = 2
        omega
      apply (ends_erase (h.ne_null hmem) setFactory_self htwo ((h.mem_keys p).2 hmem)).mono
      rintro _ _ rfl
      -- the smart pointer on the stack was the last one
      apply Ends.mono (ends_removeReference_last (f := f.withCount 1) (Function.update_self _ _ _)
        rfl)
      rintro _ _ rfl
      have heq : ({ (s.memory.setFactory p (some (f.withCount (f.refCount + 1)))).setFactory p
          (some ((f.withCount (f.refCount + 1)).withCount 1)) with
          gFactoryTable := s.memory.gFactoryTable.filter fun e => e.1 ≠ p } : Memory).setFactory p
            none = { s.memory.setFactory p none with
              gFactoryTable := s.memory.gFactoryTable.filter fun e => e.1 ≠ p } := by
        simp [Memory.setFactory]
      have hinv := h.remove hf hone
      rw [← heq] at hinv
      exact hinv
    · rw [if_neg (by omega)]
      apply (ends_removeReference setFactory_self (by show 1 < f.refCount + 1; omega) hbound).mono
      rintro _ _ rfl
      apply Ends.mono (ends_removeReference (f := f.withCount f.refCount)
        (Function.update_self _ _ _) (by show 1 < f.refCount; omega) (h.lt_size p f hf))
      rintro _ _ rfl
      have hcount := h.count p f hf
      have hstill : p ∈ s.handles.erase p := by
        rw [← List.count_pos_iff, List.count_erase_self]
        omega
      have hinv := h.recount hf (n := f.refCount - 1) (l := s.handles.erase p)
        (by rw [List.count_erase_self]; omega) (by omega)
        (by have := h.lt_size p f hf; omega) (fun q hq => List.count_erase_of_ne hq)
      simp only [setFactory_setFactory, Client.giveBack, if_pos hstill]
      exact hinv
  · have hnone : ¬ a.isSome = true := fun hsome => hmem (hfound.1 hsome)
    rw [if_neg hnone]
    obtain rfl := hp.resolve_right hmem
    apply Ends.pure
    rw [Client.giveBack, List.erase_of_not_mem hmem, if_neg hmem]
    refine { h with orphans := ?_ }
    intro i q hi hnot
    exact h.orphans i q hi fun hin => hnot (List.mem_append_left _ hin)

theorem Inv.createDSPInstance (h : Inv s) {i : ℕ} (hp : p = null ∨ p ∈ s.handles)
    (hi : i ≠ null) (hfree : s.memory.instances i = none) :
    Ends (createDSPInstance p i) s.memory (· = .overflow) fun r m' => Inv { s with
      memory := m'
      instances := if r = null then s.instances else (r, p) :: s.instances } := by
  unfold LLVM.createDSPInstance
  apply (ends_find_handle h hp).bind
  rintro a _ ⟨hfound, rfl⟩
  by_cases hmem : p ∈ s.handles
  · rw [if_pos (hfound.2 hmem)]
    apply (ends_access_handle h hmem).bind
    rintro _ _ rfl
    apply (Ends.modify (Q := fun _ m' => m' =
      { s.memory with instances := Function.update s.memory.instances i (some p) }) rfl).bind
    rintro _ _ rfl
    unfold updateEntry
    apply (Ends.modify (Q := fun _ m' => m' = { s.memory with
      instances := Function.update s.memory.instances i (some p)
      gFactoryTable := s.memory.gFactoryTable.map fun e =>
        if e.1 = p then (e.1, e.2 ++ [i]) else e }) rfl).bind
    rintro _ _ rfl
    apply Ends.pure
    rw [if_neg hi]
    refine ⟨?_, ?_, h.not_null, h.exists_factory, h.mem_handles, h.count, h.lt_size, h.sha, ?_, ?_,
      ?_⟩
    · show (keys (List.map _ _)).Nodup
      rw [keys_update (f := (· ++ [i]))]
      exact h.keys_nodup
    · intro q
      show q ∈ keys (List.map _ _) ↔ _
      rw [keys_update (f := (· ++ [i]))]
      exact h.mem_keys q
    · intro j q
      show Function.update s.memory.instances i (some p) j = some q ↔ (j, q) ∈ (i, p) :: s.instances
      rw [List.mem_cons, Prod.mk.injEq]
      by_cases hj : j = i
      · subst hj
        have hnot : (j, q) ∉ s.instances := by
          intro hin
          have hsome := (h.instances j q).2 hin
          rw [hfree] at hsome
          cases hsome
        rw [Function.update_self]
        simp [hnot, eq_comm]
      · rw [Function.update_of_ne hj, h.instances]
        simp [hj]
    · intro q hq
      rcases List.mem_cons.1 hq with heq | hq
      · exact hi (Prod.mk.inj heq).1.symm
      · exact h.instance_ne_null q hq
    · intro j q hj hnot
      rcases List.mem_cons.1 hj with heq | hj
      · obtain ⟨-, rfl⟩ := Prod.mk.inj heq
        exact hmem
      · exact h.orphans j q hj hnot
  · have hnone : ¬ a.isSome = true := fun hsome => hmem (hfound.1 hsome)
    rw [if_neg hnone]
    apply Ends.pure
    rw [if_pos rfl]
    exact h

theorem Inv.deleteDSPInstance (h : Inv s) {i : ℕ} (hi : i = null ∨ i ∈ s.instances.map Prod.fst)
    (halive : i ∉ s.orphans) :
    Ends (deleteDSPInstance i) s.memory (· = .overflow) fun _ m' => Inv { s with
      memory := m'
      instances := s.instances.filter fun e => e.1 ≠ i
      orphans := s.orphans.filter fun j => j ≠ i } := by
  unfold LLVM.deleteDSPInstance
  by_cases hnull : i = null
  · subst hnull
    rw [if_neg (not_not_intro rfl)]
    apply Ends.pure
    have hall : (s.instances.filter fun e => e.1 ≠ null) = s.instances := by
      rw [List.filter_eq_self]
      intro e he
      apply decide_eq_true
      intro heq
      apply h.instance_ne_null e.2
      rw [← heq]
      exact he
    rw [hall]
    refine { h with orphans := ?_ }
    intro j q hj hnot
    apply h.orphans j q hj
    intro hin
    apply hnot
    apply List.mem_filter.2
    refine ⟨hin, decide_eq_true ?_⟩
    rintro rfl
    exact h.instance_ne_null q hj
  · rw [if_pos hnull]
    obtain ⟨⟨j, p⟩, hmem, rfl⟩ := List.mem_map.1 (hi.resolve_left hnull)
    have hp : p ∈ s.handles := h.orphans j p hmem halive
    apply Ends.get_eq.bind
    intro m m' heq
    rw [heq.1, heq.2, (h.instances j p).2 hmem]
    apply (ends_find_handle h (Or.inr hp)).bind
    rintro a _ ⟨hfound, rfl⟩
    have hsome : ¬ a.isNone = true := by
      have hsome := hfound.2 hp
      cases a
      · cases hsome
      · simp
    rw [if_neg hsome]
    unfold updateEntry
    apply (Ends.modify (Q := fun _ m' => m' = { s.memory with
      gFactoryTable := s.memory.gFactoryTable.map fun e =>
        if e.1 = p then (e.1, e.2.filter (· ≠ j)) else e }) rfl).bind
    intro _ m₁ hm₁
    obtain ⟨f, hf⟩ := h.exists_factory p hp
    have hf₁ : m₁.factory p = some f := by
      rw [hm₁]
      exact hf
    apply (ends_access hf₁).bind
    rintro _ _ ⟨-, rfl⟩
    apply Ends.modify
    rw [hm₁]
    refine ⟨?_, ?_, h.not_null, h.exists_factory, h.mem_handles, h.count, h.lt_size, h.sha, ?_, ?_,
      ?_⟩
    · show (keys (List.map _ _)).Nodup
      rw [keys_update (f := fun l => l.filter (· ≠ j))]
      exact h.keys_nodup
    · intro q
      show q ∈ keys (List.map _ _) ↔ _
      rw [keys_update (f := fun l => l.filter (· ≠ j))]
      exact h.mem_keys q
    · intro k q
      show Function.update s.memory.instances j none k = some q ↔
        (k, q) ∈ s.instances.filter fun e => e.1 ≠ j
      rw [List.mem_filter]
      by_cases hk : k = j
      · subst hk
        simp
      · rw [Function.update_of_ne hk, h.instances]
        simp [hk]
    · intro q hq
      exact h.instance_ne_null q (List.mem_filter.1 hq).1
    · intro k q hk hnot
      obtain ⟨hk, hne⟩ := List.mem_filter.1 hk
      apply h.orphans k q hk
      exact fun hin => hnot (List.mem_filter.2 ⟨hin, hne⟩)

end

/-! ## Runs -/

/-- How a call ends, by how its computation ends. -/
theorem Inv.of_ends {s : Client} {α : Type} {x : M α} {g : α × Memory → Client}
    (h : Ends x s.memory (· = .overflow) fun a m' => Inv (g (a, m'))) :
    (∀ s', g <$> x s.memory = .ok s' → Inv s') ∧
      ∀ e, g <$> x s.memory = .error e → e = .overflow := by
  rcases h.cases with ⟨a, m', heq, hinv⟩ | ⟨e, heq, he⟩
  · rw [heq]
    constructor
    · rintro _ ⟨⟩
      exact hinv
    · rintro e ⟨⟩
  · rw [heq]
    constructor
    · rintro s' ⟨⟩
    · rintro _ ⟨⟩
      exact he

theorem Inv.call {s : Client} {c : Call} (h : Inv s) (ha : s.Allows c) (hc : Counted s c) :
    (∀ s', s.call c = .ok s' → Inv s') ∧ Safe s c := by
  cases c with
  | createDSPFactory jit p =>
    apply Inv.of_ends (g := s.receive)
    obtain rfl : jit = false := hc
    apply (Ends.modify (Q := fun _ m' => m' = s.memory.setFactory p (some ⟨0, ""⟩)) rfl).bind
    rintro _ _ rfl
    apply (ends_failed ha "").mono
    rintro _ _ ⟨rfl, rfl⟩
    exact h.receive_null
  | createDSPFactoryFromString sha_key jit p =>
    apply Inv.of_ends (g := s.receive)
    cases sha_key with
    | none => exact Ends.pure h.receive_null
    | some sha_key => exact h.getOrMake sha_key fun hsha => h.newEntry ha sha_key hsha true jit
  | readDSPFactoryFromBitcode sha_key module jit p =>
    apply Inv.of_ends (g := s.receive)
    exact h.getOrMake sha_key fun hsha => h.newEntry ha sha_key hsha module jit
  | readDSPFactoryFromIR sha_key module jit p =>
    apply Inv.of_ends (g := s.receive)
    exact h.getOrMake sha_key fun hsha => h.newEntry ha sha_key hsha module jit
  | readDSPFactoryFromMachine sha_key jit p =>
    apply Inv.of_ends (g := s.receive)
    apply h.getOrMake sha_key
    intro hsha
    rcases hc with rfl | ⟨e, -, f, hf, heq⟩
    · apply (Ends.modify (Q := fun _ m' => m' = s.memory.setFactory p (some ⟨0, sha_key⟩)) rfl).bind
      rintro _ _ rfl
      apply Ends.bind (Q := fun r m' => r = p ∧
        m' = s.memory.setFactory p (some ⟨0, sha_key⟩)) (.pure ⟨rfl, rfl⟩)
      rintro _ _ ⟨rfl, rfl⟩
      apply (h.addEntry ha sha_key hsha).bind
      intro _ m' hinv
      exact .pure hinv
    · exact absurd heq (hsha e.1 f hf)
  | createDSPFactoryFromSHAKey sha_key =>
    apply Inv.of_ends (g := s.receive)
    unfold LLVM.createDSPFactoryFromSHAKey
    apply (ends_getFactory h sha_key).bind
    rintro r _ ⟨rfl, -, hsome⟩
    cases r with
    | none => exact Ends.pure h.receive_null
    | some q =>
      -- the key is not in the table
      obtain ⟨hq, f, hf, heq⟩ := hsome q rfl
      obtain ⟨e, he, rfl⟩ := List.mem_map.1 ((h.mem_keys q).2 hq)
      exact absurd heq (hc e he f hf)
  | deleteDSPFactory p =>
    exact Inv.of_ends (g := fun r => { s.giveBack p with memory := r.2 }) (h.deleteDSPFactory ha)
  | createDSPInstance p i =>
    exact Inv.of_ends (h.createDSPInstance ha.1 ha.2.1 ha.2.2)
  | deleteDSPInstance i =>
    exact Inv.of_ends (h.deleteDSPInstance ha hc)

theorem Runs.inv {s : Client} (h : Runs Counted s) : Inv s := by
  induction h with
  | start => exact .start
  | call _ ha hc hs ih => exact (ih.call ha hc).1 _ hs

/-- In a run whose calls are counted, the references are balanced and the next such call is safe. -/
theorem balanced_of_counted {s : Client} (h : Runs Counted s) :
    Balanced s ∧ ∀ c, s.Allows c → Counted s c → Safe s c :=
  ⟨h.inv.balanced, fun _ ha hc => (h.inv.call ha hc).2⟩

/-- A program is compiled twice, and one of its handles is given back before its instance. -/
theorem balanced_shared : ∃ s, Runs Counted s ∧ s.handles = [2, 1] ∧ Balanced s ∧
    ∀ c, s.Allows c → Counted s c → Safe s c := by
  have h₀ : Runs Counted .start := .start
  have h₁ := h₀.call (c := .createDSPFactoryFromString (some "k") true 1) ⟨by decide, rfl⟩ trivial
    rfl
  have h₂ := h₁.call (c := .createDSPFactoryFromString (some "k") true 2) ⟨by decide, rfl⟩ trivial
    rfl
  have h₃ := h₂.call (c := .createDSPInstance 1 1)
    ⟨Or.inr List.mem_cons_self, by decide, rfl⟩ trivial rfl
  have h₄ := h₃.call (c := .deleteDSPFactory 1) (Or.inr List.mem_cons_self) trivial rfl
  have h₅ := h₄.call (c := .deleteDSPInstance 1) (Or.inr List.mem_cons_self) List.not_mem_nil rfl
  have h₆ := h₅.call (c := .readDSPFactoryFromBitcode "b" true true 2) ⟨by decide, rfl⟩ trivial rfl
  exact ⟨_, h₆, rfl, balanced_of_counted h₆⟩

/-- A handle that is not counted, an entry for machine code that cannot be loaded, and an instance
that outlives its factory. -/
theorem unbalanced_calls :
    (¬ ∀ s, Runs (fun _ c => ∀ jit p, c ≠ .createDSPFactory jit p) s →
      Balanced s ∧ ∀ c, s.Allows c → Safe s c) ∧
    (∃ s, Runs (fun _ c => ∃ jit p, c = .readDSPFactoryFromMachine "k" jit p) s ∧
      (null, []) ∈ s.memory.gFactoryTable) ∧
    ∃ s, Runs (fun _ c => ∀ sha_key, c ≠ .createDSPFactoryFromSHAKey sha_key) s ∧
      s.Allows (.deleteDSPInstance 1) ∧ s.call (.deleteDSPInstance 1) = .error .destroyed := by
  refine ⟨?_, ?_, ?_⟩
  · intro hall
    have h₀ : Runs (fun _ c => ∀ jit p, c ≠ .createDSPFactory jit p) .start := .start
    have h₁ := h₀.call (c := .createDSPFactoryFromString (some "k") true 1) ⟨by decide, rfl⟩
      (by simp) rfl
    have h₂ := h₁.call (c := .createDSPFactoryFromSHAKey "k") trivial (by simp) rfl
    have hcount := (hall _ h₂).1.count 1 _ rfl
    -- two handles and one reference
    revert hcount
    decide +kernel
  · have h₀ : Runs (fun _ c => ∃ jit p, c = .readDSPFactoryFromMachine "k" jit p) .start := .start
    have h₁ := h₀.call (c := .readDSPFactoryFromMachine "k" false 1) ⟨by decide, rfl⟩
      ⟨false, 1, rfl⟩ rfl
    exact ⟨_, h₁, List.mem_singleton_self _⟩
  · have h₀ : Runs (fun _ c => ∀ sha_key, c ≠ .createDSPFactoryFromSHAKey sha_key) .start := .start
    have h₁ := h₀.call (c := .createDSPFactoryFromString (some "k") true 1) ⟨by decide, rfl⟩
      (by simp) rfl
    have h₂ := h₁.call (c := .createDSPInstance 1 1) ⟨Or.inr List.mem_cons_self, by decide, rfl⟩
      (by simp) rfl
    have h₃ := h₂.call (c := .deleteDSPFactory 1) (Or.inr List.mem_cons_self) (by simp) rfl
    exact ⟨_, h₃, Or.inr List.mem_cons_self, rfl⟩

end Faust.LLVM
