import Faust.Lib.Memo
import Faust.Tlib.Tree

/-!
# Maps of trees (`list.cpp`)

`tmap` applies a function to the nodes of a tree from the bottom up and `subst` replaces a tree
wherever it occurs. Both keep their results as properties of the trees, so that a tree that is
shared is mapped once. A tree that is mapped to itself has the property `nil`, which is also what is
kept for a tree that is mapped to `nil`.
-/

namespace Faust.TreeMap

open Tree Memo

/-- The properties of the trees: `s t key` is the property `key` of `t`. -/
abbrev Properties := Table Tree Tree

/-- What is done with a tree on the way down, where `stop` gives the result of the trees that are
not visited, and `f` on the way up. -/
structure Mapping where
  stop : Tree → Option Tree
  f : Tree → Tree

section
variable (m : Mapping) (key : Tree)

mutual
/-- The recursion of `tmap` and of `subst`. -/
def Mapping.run : Tree → Properties → Tree × Properties
  | .node n br, s =>
    match m.stop (.node n br) with
    | some r => (r, s)
    | none =>
      match s (.node n br) key with
      | some p => (if p = nil then .node n br else p, s)
      | none =>
        let (br', s') := Mapping.runs br s
        let r := m.f (.node n br')
        (r, s'.set (.node n br) key (if r = .node n br then nil else r))

/-- The loop over the branches. -/
def Mapping.runs : List Tree → Properties → List Tree × Properties
  | [], s => ([], s)
  | t :: ts, s =>
    let (t', s₁) := Mapping.run t s
    let (ts', s₂) := Mapping.runs ts s₁
    (t' :: ts', s₂)
end

end

/-- What `tmap` does with a tree. -/
def Mapping.ofTmap (f : Tree → Tree) : Mapping := ⟨fun _ => none, f⟩

/-- What `subst` does with a tree. -/
def Mapping.ofSubst (id val : Tree) : Mapping where
  stop t := if t = id then some val else if t.branches.length = 0 then some t else none
  f r := r

/-- `tmap`. -/
def tmap (key : Tree) (f : Tree → Tree) (t : Tree) (s : Properties) : Tree × Properties :=
  (Mapping.ofTmap f).run key t s

/-- `subst`. -/
def subst (t propkey id val : Tree) (s : Properties) : Tree × Properties :=
  (Mapping.ofSubst id val).run propkey t s

/-- `substitute`, with the key that `substkey` makes of a new name. -/
def substitute (substkey t id val : Tree) (s : Properties) : Tree × Properties :=
  subst t substkey id val s

/-! ## Plain maps -/

mutual
/-- `f` applied to every node from the bottom up. -/
def bottomUp (f : Tree → Tree) : Tree → Tree
  | .node n br => f (.node n (bottomUps f br))

/-- `f` applied to the nodes of some trees. -/
def bottomUps (f : Tree → Tree) : List Tree → List Tree
  | [] => []
  | t :: ts => bottomUp f t :: bottomUps f ts
end

mutual
/-- Every occurrence of `id` replaced by `val`. -/
def replace (id val : Tree) : Tree → Tree
  | .node n br => if .node n br = id then val else .node n (replaces id val br)

/-- The occurrences in some trees replaced. -/
def replaces (id val : Tree) : List Tree → List Tree
  | [] => []
  | t :: ts => replace id val t :: replaces id val ts
end


theorem bottomUps_eq_map (f : Tree → Tree) (br : List Tree) :
    bottomUps f br = br.map (bottomUp f) := by
  induction br with
  | nil => rfl
  | cons t ts ih => rw [bottomUps, ih, List.map_cons]

theorem replaces_eq_map (id val : Tree) (br : List Tree) :
    replaces id val br = br.map (replace id val) := by
  induction br with
  | nil => rfl
  | cons t ts ih => rw [replaces, ih, List.map_cons]

/-- What a mapping computes when it keeps nothing. -/
structure Mapping.Computes (m : Mapping) (plain : Tree → Tree) : Prop where
  stopped : ∀ t r, m.stop t = some r → plain t = r
  visited : ∀ n br, m.stop (.node n br) = none →
    plain (.node n br) = m.f (.node n (br.map plain))

theorem stop_ofSubst (id val t : Tree) : (Mapping.ofSubst id val).stop t =
    if t = id then some val else if t.branches.length = 0 then some t else none := rfl

theorem computes_bottomUp (f : Tree → Tree) : (Mapping.ofTmap f).Computes (bottomUp f) where
  stopped t r h := by cases h
  visited n br _ := by
    rw [bottomUp, bottomUps_eq_map]
    rfl

theorem computes_replace (id val : Tree) :
    (Mapping.ofSubst id val).Computes (replace id val) where
  stopped t r h := by
    cases t with
    | node n br =>
      rw [stop_ofSubst] at h
      unfold replace
      split_ifs at h with hid harity
      · rw [if_pos hid]
        exact Option.some.inj h
      · have hbr : br = [] := List.length_eq_zero_iff.1 harity
        rw [if_neg hid, ← Option.some.inj h, hbr]
        rfl
  visited n br h := by
    rw [stop_ofSubst] at h
    rw [replace, replaces_eq_map]
    split_ifs at h with hid harity
    rw [if_neg hid]
    rfl

/-! ## Functions that are mapped -/

/-- What a key is used for. -/
inductive Use
  | tmap (f : Tree → Tree)
  | subst (id val : Tree)

namespace Use

/-- The call with a key. -/
def run (key : Tree) (t : Tree) (s : Properties) : Use → Tree × Properties
  | tmap f => TreeMap.tmap key f t s
  | subst id val => TreeMap.subst t key id val s

/-- The plain map of trees. -/
def plain : Use → Tree → Tree
  | tmap f => bottomUp f
  | subst id val => replace id val

/-- The trees for which a result is kept. -/
def Keeps (t : Tree) : Use → Prop
  | tmap _ => True
  | subst id _ => t ≠ id ∧ t.branches ≠ []

/-- The mapping of a call. -/
def mapping : Use → Mapping
  | tmap f => .ofTmap f
  | subst id val => .ofSubst id val

/-- The use of a key, as a job. -/
def job (u : Use) : Job Tree := ⟨u.plain, fun t => u.mapping.stop t = none⟩

theorem run_eq (u : Use) (key t : Tree) (s : Properties) :
    u.run key t s = u.mapping.run key t s := by
  cases u with
  | tmap f => rfl
  | subst id val => rfl

theorem computes (u : Use) : u.mapping.Computes u.plain := by
  cases u with
  | tmap f => exact computes_bottomUp f
  | subst id val => exact computes_replace id val

theorem stop_eq_none (u : Use) (t : Tree) : u.mapping.stop t = none ↔ u.Keeps t := by
  cases u with
  | tmap f => simp [mapping, Mapping.ofTmap, Keeps]
  | subst id val =>
    have hlen : t.branches.length = 0 ↔ t.branches = [] := List.length_eq_zero_iff
    rw [mapping, stop_ofSubst, Keeps]
    split_ifs with hid hbr
    · simp [hid]
    · simp [hlen.1 hbr]
    · simp [hid, mt hlen.2 hbr]

end Use

/-! ## Runs -/

section
variable {m : Mapping} {key t : Tree} {s : Properties}

theorem Mapping.run_stop {r : Tree} (h : m.stop t = some r) : m.run key t s = (r, s) := by
  cases t with
  | node n br =>
    rw [Mapping.run]
    simp only [h]

/-- What is kept is returned. -/
theorem Mapping.run_kept (h : m.stop t = none) {p : Tree} (hs : s t key = some p) :
    m.run key t s = (decode nil t p, s) := by
  cases t with
  | node n br =>
    rw [Mapping.run]
    simp only [h, hs, decode]

/-- What is returned after a visit of the branches is kept. -/
theorem Mapping.run_visit {n : Node} {br : List Tree} (h : m.stop (.node n br) = none)
    (hs : s (.node n br) key = none) : m.run key (.node n br) s =
      (m.f (.node n (m.runs key br s).1), (m.runs key br s).2.set (.node n br) key
        (encode nil (.node n br) (m.f (.node n (m.runs key br s).1)))) := by
  rw [Mapping.run]
  simp only [h, hs, encode]

/-- A result that was not kept is kept. -/
theorem Mapping.run_keeps (h : m.stop t = none) (hs : s t key = none) :
    (m.run key t s).2 t key = some (encode nil t (m.run key t s).1) := by
  cases t with
  | node n br =>
    rw [Mapping.run_visit h hs]
    exact Table.set_self _ _ _ _

/-- The jobs of the keys. -/
def jobs (uses : Tree → Use → Prop) (key : Tree) (j : Job Tree) : Prop :=
  ∃ u, uses key u ∧ j = u.job

variable {uses : Tree → Use → Prop} {u : Use}

/-- What a call returns and what it leaves. -/
structure RunSpec (uses : Tree → Use → Prop) (u : Use) (key t : Tree) (s : Properties) : Prop where
  value : (u.mapping.run key t s).1 = u.plain t
  right : Right nil (jobs uses) (u.mapping.run key t s).2

/-- The loop over the branches, from what is known of the branches. -/
theorem runs_spec {br : List Tree} (hbr : ∀ b ∈ br, ∀ s, Right nil (jobs uses) s →
    RunSpec uses u key b s) (hs : Right nil (jobs uses) s) :
    (u.mapping.runs key br s).1 = br.map u.plain ∧
      Right nil (jobs uses) (u.mapping.runs key br s).2 := by
  induction br generalizing s with
  | nil => exact ⟨rfl, hs⟩
  | cons b br ih =>
    obtain ⟨hvalue, hright⟩ := hbr b List.mem_cons_self s hs
    obtain ⟨hvalues, hrights⟩ := ih (fun c hc => hbr c (List.mem_cons_of_mem _ hc)) hright
    rw [Mapping.runs]
    refine ⟨?_, hrights⟩
    rw [List.map_cons, ← hvalue, ← hvalues]

/-- A call, when the uses of its key can be together. -/
theorem run_spec (hkey : Usable nil (jobs uses key)) (hu : uses key u) (t : Tree) :
    ∀ s, Right nil (jobs uses) s → RunSpec uses u key t s := by
  have hjob : jobs uses key u.job := ⟨u, hu, rfl⟩
  induction t using Tree.induction with
  | h n br ih =>
    intro s hs
    have hcomputes := u.computes
    cases hstop : u.mapping.stop (.node n br) with
    | some r =>
      have hrun : u.mapping.run key (.node n br) s = (r, s) := Mapping.run_stop hstop
      refine ⟨?_, ?_⟩
      · rw [hrun, hcomputes.stopped _ r hstop]
      · rw [hrun]
        exact hs
    | none =>
      cases hprop : s (.node n br) key with
      | some p =>
        have hrun := Mapping.run_kept hstop hprop
        refine ⟨?_, ?_⟩
        · rw [hrun]
          exact hs.read hkey hjob hstop hprop
        · rw [hrun]
          exact hs
      | none =>
        obtain ⟨hvalues, hrights⟩ := runs_spec ih hs
        have hrun := Mapping.run_visit hstop hprop
        rw [hvalues, ← hcomputes.visited n br hstop] at hrun
        refine ⟨?_, ?_⟩
        · rw [hrun]
        · rw [hrun]
          exact hrights.write hjob hstop

/-! ## Sequences of calls -/

/-- The properties after calls with the keys that are used. At the start no tree has a property
under these keys, and between the calls only properties under other keys change. -/
inductive Calls (uses : Tree → Use → Prop) : Properties → Prop
  | start {s : Properties} (h : ∀ t key, (∃ u, uses key u) → s t key = none) : Calls uses s
  | other {s s' : Properties} (h : Calls uses s)
      (hsame : ∀ t key, (∃ u, uses key u) → s' t key = s t key) : Calls uses s'
  | call {s : Properties} {key : Tree} {u : Use} (t : Tree) (h : Calls uses s)
      (hu : uses key u) : Calls uses (u.run key t s).2

/-- The calls return the plain maps. -/
def Plain (uses : Tree → Use → Prop) : Prop :=
  ∀ s, Calls uses s → ∀ key u, uses key u → ∀ t, (u.run key t s).1 = u.plain t

/-- The uses of a key that can be together: no tree but `nil` is mapped to `nil`, and two uses map
each tree that both keep a result for to the same tree. -/
structure Compatible (U : Use → Prop) : Prop where
  not_nil : ∀ u, U u → ∀ t, u.Keeps t → u.plain t = nil → t = nil
  agree : ∀ u v, U u → U v → ∀ t, u.Keeps t → v.Keeps t → u.plain t = v.plain t

theorem usable_iff_compatible : Usable nil (jobs uses key) ↔ Compatible (uses key) := by
  constructor
  · intro h
    refine ⟨fun u hu t ht hr => ?_, fun u v hu hv t hut hvt => ?_⟩
    · exact h.marked u.job ⟨u, hu, rfl⟩ t ((u.stop_eq_none t).2 ht) hr
    · exact h.agree u.job v.job ⟨u, hu, rfl⟩ ⟨v, hv, rfl⟩ t ((u.stop_eq_none t).2 hut)
        ((v.stop_eq_none t).2 hvt)
  · intro h
    refine ⟨?_, ?_⟩
    · rintro _ ⟨u, hu, rfl⟩ t ht hr
      exact h.not_nil u hu t ((u.stop_eq_none t).1 ht) hr
    · rintro _ _ ⟨u, hu, rfl⟩ ⟨v, hv, rfl⟩ t hut hvt
      exact h.agree u v hu hv t ((u.stop_eq_none t).1 hut) ((v.stop_eq_none t).1 hvt)

/-- The keys of the uses are those of the jobs. -/
theorem exists_use {key : Tree} (h : ∃ j, jobs uses key j) : ∃ u, uses key u := by
  obtain ⟨j, u, hu, -⟩ := h
  exact ⟨u, hu⟩

theorem Calls.right (hkeys : ∀ key, Compatible (uses key)) (h : Calls uses s) :
    Right nil (jobs uses) s := by
  induction h with
  | start h =>
    intro t key p hkey hp
    rw [h t key (exists_use hkey)] at hp
    cases hp
  | other _ hsame ih => exact ih.frame fun t key hkey => hsame t key (exists_use hkey)
  | @call s key u t _ hu ih =>
    rw [u.run_eq]
    exact (run_spec (usable_iff_compatible.2 (hkeys key)) hu t s ih).right

/-- The calls return the plain maps exactly when the uses of each key can be together. -/
theorem plain_iff (uses : Tree → Use → Prop) : Plain uses ↔ ∀ key, Compatible (uses key) := by
  constructor
  · intro h key
    -- a first call keeps its result, and a second one reads it
    refine usable_iff_compatible.1 (usable_iff.2 ?_)
    rintro _ _ ⟨u, hu, rfl⟩ ⟨v, hv, rfl⟩ t hut hvt
    have hstart : Calls uses fun _ _ => none := .start fun _ _ _ => rfl
    have hfirst := h _ hstart key u hu t
    have hsecond := h _ (.call t hstart hu) key v hv t
    rw [u.run_eq] at hfirst
    rw [u.run_eq, v.run_eq] at hsecond
    have hkept : (u.mapping.run key t fun _ _ => none).2 t key = some (encode nil t _) :=
      Mapping.run_keeps hut rfl
    rw [hfirst] at hkept
    rw [Mapping.run_kept hvt hkept] at hsecond
    exact hsecond
  · intro h s hs key u hu t
    rw [u.run_eq]
    exact (run_spec (usable_iff_compatible.2 (h key)) hu t s (hs.right h)).value

/-- A key that has one use. -/
def only (key : Tree) (u : Use) (k : Tree) (v : Use) : Prop := k = key ∧ v = u

theorem compatible_only {key : Tree} {u : Use} :
    (∀ k, Compatible (only key u k)) ↔ ∀ t, u.Keeps t → u.plain t = nil → t = nil := by
  constructor
  · intro h t ht hr
    exact (h key).not_nil u ⟨rfl, rfl⟩ t ht hr
  · intro h k
    refine ⟨?_, ?_⟩
    · rintro v ⟨-, rfl⟩
      exact h
    · rintro v w ⟨-, rfl⟩ ⟨-, rfl⟩ t _ _
      rfl

/-- `tmap` with a key for one function is right unless the function makes `nil` of a tree. -/
theorem plain_tmap_iff (key : Tree) (f : Tree → Tree) :
    Plain (only key (.tmap f)) ↔ ∀ t, bottomUp f t = nil → t = nil := by
  rw [plain_iff, compatible_only]
  exact ⟨fun h t => h t trivial, fun h t _ => h t⟩

/-- `subst` with a key for one substitution is right. -/
theorem plain_subst (key id val : Tree) : Plain (only key (.subst id val)) := by
  rw [plain_iff, compatible_only]
  rintro ⟨n, br⟩ ⟨hid, hbr⟩ hr
  -- a tree with branches is replaced by a tree with branches
  exfalso
  have hplain : replace id val (.node n br) = nil := hr
  rw [replace, if_neg hid, replaces_eq_map] at hplain
  injection hplain with _ hnil
  exact hbr (List.map_eq_nil_iff.1 hnil)

/-- `substitute` is right with a key under which no tree has a property. -/
theorem substitute_eq {substkey : Tree} (id val : Tree) (hfresh : ∀ u, s u substkey = none) :
    (substitute substkey t id val s).1 = replace id val t := by
  have hstart : Calls (only substkey (.subst id val)) s := by
    refine .start fun u key h => ?_
    obtain ⟨_, rfl, -⟩ := h
    exact hfresh u
  exact plain_subst substkey id val s hstart substkey (.subst id val) ⟨rfl, rfl⟩ t

/-- A function that makes `nil` of `1`, mapped twice. -/
theorem not_plain_tmap_nil : ¬ ∀ key u, Plain (only key u) := by
  intro h
  have hplain := h (leaf (.int 0)) (.tmap fun _ => nil)
  have hstart : Calls (only (leaf (.int 0)) (.tmap fun _ => nil)) fun _ _ => none :=
    .start fun _ _ _ => rfl
  have hsecond := hplain _ (.call (leaf (.int 1)) hstart ⟨rfl, rfl⟩) (leaf (.int 0))
    (.tmap fun _ => nil) ⟨rfl, rfl⟩ (leaf (.int 1))
  exact absurd hsecond (by decide)

end

end Faust.TreeMap
