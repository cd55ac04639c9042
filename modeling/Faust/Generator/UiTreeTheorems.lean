import Faust.Generator.UiTree
import Faust.Lib.Runs
import Mathlib.Algebra.Order.BigOperators.Group.List

/-!
# Groups of the user interface tree

The elements of a folder with one label are its groups of that label, then its widgets of that
label. A widget goes into a group only if the group is the first of its label, so each run of
widgets for one type of group makes a folder of its own. The content of a folder is told by these
runs; a group path has one folder exactly when the types of the groups never come back.
-/

namespace Faust.UiTree

open Runs

/-- The elements of a folder. -/
abbrev Elements := List (PathElement × UiItem)

/-- A call of `addUIWidget`: the groups around the widget, outermost first, with their types and
labels, and the widget. -/
structure Addition where
  path : List (ℤ × String)
  label : String
  varname : Tree
  sig : Tree

/-- The path of a widget as it is given to `addUIWidget`. -/
def Addition.groups (a : Addition) : List PathElement := a.path.map fun g => .group g.1 g.2

/-- The widget. -/
def Addition.item (a : Addition) : UiItem := .widget (.label a.label) a.varname a.sig

/-- The tree after some calls of `addUIWidget`, from an empty root. -/
def uiRoot (label : PathElement) (as : List Addition) : UiFolder :=
  as.foldl (fun fUIRoot a => addUIWidget fUIRoot a.groups a.item) ⟨label, []⟩

mutual
/-- The paths of the folders of an item. -/
def itemFolders : UiItem → List (List PathElement)
  | .folder label elements => [label] :: (folders elements).map (label :: ·)
  | .widget .. => []

/-- The paths of the folders among some elements. -/
def folders : List (PathElement × UiItem) → List (List PathElement)
  | [] => []
  | (_, i) :: es => itemFolders i ++ folders es
end

mutual
/-- The widgets of an item, each with the path it is found under. -/
def itemWidgets : UiItem → List (List PathElement × UiItem)
  | .folder label elements => (widgets elements).map fun w => (label :: w.1, w.2)
  | .widget label varname sig => [([], .widget label varname sig)]

/-- The widgets among some elements. -/
def widgets : List (PathElement × UiItem) → List (List PathElement × UiItem)
  | [] => []
  | (_, i) :: es => itemWidgets i ++ widgets es
end

/-- The tree has every widget once, under the path it was added with, and every group path of the
widgets labels one folder. -/
structure Exact (as : List Addition) (root : UiFolder) : Prop where
  widgets_perm : (widgets root.elements).Perm (as.map fun a => (a.groups, a.item))
  folders_nodup : (folders root.elements).Nodup
  mem_folders : ∀ path, path ∈ folders root.elements ↔
    path ≠ [] ∧ ∃ a ∈ as, path <+: a.groups

/-- Where the groups with the label `n` are met under the path `p`: their types, in the order of
the calls. -/
def typesAt (p : List (ℤ × String)) (n : String) (as : List Addition) : List ℤ :=
  as.filterMap fun a =>
    if p <+: a.path then
      match a.path.drop p.length with
      | (t, m) :: _ => if m = n then some t else none
      | [] => none
    else none

/-- The calls never come back to a group after they have used a group of the same label and another
type in the same folder. -/
def NeverReturns (as : List Addition) : Prop := ∀ p n, NoReturn (typesAt p n as)

/-! ## Elements of one label -/

attribute [local simp] folders itemFolders widgets itemWidgets findKey updateKey addKey
  makeSubFolderChain putSubFolder

theorem isBefore_iff {k₁ k₂ : PathElement} : isBefore k₁ k₂ = true ↔ k₁.text < k₂.text :=
  decide_eq_true_iff

theorem text_le_of_not_isBefore {k₁ k₂ : PathElement} (h : ¬ isBefore k₁ k₂ = true) :
    k₂.text ≤ k₁.text := not_lt.1 (mt isBefore_iff.2 h)

/-- The elements with a given label. -/
def block (n : String) (es : Elements) : Elements := es.filter fun e => e.1.text = n

/-- The elements are in alphabetic order. -/
def Ordered (es : Elements) : Prop := es.Pairwise fun a b => a.1.text ≤ b.1.text

theorem block_cons (n : String) (e : PathElement × UiItem) (es : Elements) :
    block n (e :: es) = if e.1.text = n then e :: block n es else block n es := by
  unfold block
  by_cases h : e.1.text = n <;> simp [h]

/-- Beyond a greater label, there is no element of the label. -/
theorem block_eq_nil {n : String} {es : Elements} (h : ∀ e ∈ es, n < e.1.text) :
    block n es = [] := by
  unfold block
  rw [List.filter_eq_nil_iff]
  intro e he heq
  exact absurd (by simpa using heq) (h e he).ne'

theorem Ordered.tail {e : PathElement × UiItem} {es : Elements} (h : Ordered (e :: es)) :
    Ordered es := List.Pairwise.of_cons h

theorem Ordered.head_le {e : PathElement × UiItem} {es : Elements} (h : Ordered (e :: es)) :
    ∀ e' ∈ es, e.1.text ≤ e'.1.text :=
  fun _ he => List.rel_of_pairwise_cons h he

/-- A key is found when it is the first of its label. -/
theorem findKey_eq {es : Elements} (h : Ordered es) (key : PathElement) :
    findKey es key =
      match block key.text es with
      | [] => none
      | (k, v) :: _ => if k = key then some v else none := by
  induction es with
  | nil => rfl
  | cons e es ih =>
    obtain ⟨k, v⟩ := e
    rw [findKey, block_cons]
    by_cases hk : k = key
    · subst hk
      simp
    · rw [if_neg hk]
      by_cases hbefore : k.text < key.text
      · have hne : k.text ≠ key.text := hbefore.ne
        simpa [isBefore, hbefore, hne] using ih h.tail
      · by_cases heq : k.text = key.text
        · simp [isBefore, heq, hk]
        · have hgt : key.text < k.text := lt_of_le_of_ne (not_lt.1 hbefore) (Ne.symm heq)
          have hnil := block_eq_nil fun e' he' => hgt.trans_le (h.head_le e' he')
          simp [isBefore, hbefore, heq, hnil]

theorem mem_updateKey {es : Elements} {key : PathElement} {val : UiItem}
    {e : PathElement × UiItem} (h : e ∈ updateKey es key val) : e = (key, val) ∨ e ∈ es := by
  induction es with
  | nil => simpa [updateKey] using h
  | cons e' es ih =>
    obtain ⟨k, v⟩ := e'
    unfold updateKey at h
    split at h
    · rcases List.mem_cons.1 h with h | h
      · exact Or.inl h
      · exact Or.inr (List.mem_cons_of_mem _ h)
    · split at h
      · rcases List.mem_cons.1 h with h | h
        · exact Or.inr (by simp [h])
        · exact (ih h).imp_right (List.mem_cons_of_mem _)
      · exact List.mem_cons.1 h

theorem mem_addKey {es : Elements} {key : PathElement} {val : UiItem}
    {e : PathElement × UiItem} (h : e ∈ addKey es key val) : e = (key, val) ∨ e ∈ es := by
  induction es with
  | nil => simpa [addKey] using h
  | cons e' es ih =>
    obtain ⟨k, v⟩ := e'
    unfold addKey at h
    split at h
    · exact List.mem_cons.1 h
    · rcases List.mem_cons.1 h with h | h
      · exact Or.inr (by simp [h])
      · exact (ih h).imp_right (List.mem_cons_of_mem _)

theorem Ordered.updateKey {es : Elements} (h : Ordered es) (key : PathElement) (val : UiItem) :
    Ordered (updateKey es key val) := by
  induction es with
  | nil => exact List.pairwise_singleton _ _
  | cons e es ih =>
    obtain ⟨k, v⟩ := e
    unfold UiTree.updateKey
    split
    · next hk =>
      subst hk
      exact List.pairwise_cons.2 ⟨h.head_le, h.tail⟩
    · split
      · next hbefore =>
        have hlt : k.text < key.text := isBefore_iff.1 hbefore
        refine List.pairwise_cons.2 ⟨fun e he => ?_, ih h.tail⟩
        rcases mem_updateKey he with rfl | he
        · exact hlt.le
        · exact h.head_le e he
      · next hbefore =>
        have hle : key.text ≤ k.text := text_le_of_not_isBefore hbefore
        refine List.pairwise_cons.2 ⟨fun e he => ?_, h⟩
        rcases List.mem_cons.1 he with rfl | he
        · exact hle
        · exact hle.trans (h.head_le e he)

theorem Ordered.addKey {es : Elements} (h : Ordered es) (key : PathElement) (val : UiItem) :
    Ordered (addKey es key val) := by
  induction es with
  | nil => exact List.pairwise_singleton _ _
  | cons e es ih =>
    obtain ⟨k, v⟩ := e
    unfold UiTree.addKey
    split
    · next hbefore =>
      have hlt : key.text < k.text := isBefore_iff.1 hbefore
      refine List.pairwise_cons.2 ⟨fun e he => ?_, h⟩
      rcases List.mem_cons.1 he with rfl | he
      · exact hlt.le
      · exact hlt.le.trans (h.head_le e he)
    · next hbefore =>
      have hle : k.text ≤ key.text := text_le_of_not_isBefore hbefore
      refine List.pairwise_cons.2 ⟨fun e he => ?_, ih h.tail⟩
      rcases mem_addKey he with rfl | he
      · exact hle
      · exact h.head_le e he

/-- Elements of other labels stay. -/
theorem block_updateKey_of_ne {n : String} {key : PathElement} (h : key.text ≠ n) (es : Elements)
    (val : UiItem) : block n (updateKey es key val) = block n es := by
  induction es with
  | nil => simp [updateKey, block, h]
  | cons e es ih =>
    obtain ⟨k, v⟩ := e
    unfold updateKey
    split
    · next hk =>
      subst hk
      simp [block_cons, h]
    · split
      · rw [block_cons, block_cons, ih]
      · simp [block_cons, h]

theorem block_addKey_of_ne {n : String} {key : PathElement} (h : key.text ≠ n) (es : Elements)
    (val : UiItem) : block n (addKey es key val) = block n es := by
  induction es with
  | nil => simp [addKey, block, h]
  | cons e es ih =>
    obtain ⟨k, v⟩ := e
    unfold addKey
    split
    · simp [block_cons, h]
    · rw [block_cons, block_cons, ih]

/-- A key that is the first of its label is replaced; any other key is put before the elements of
its label. -/
theorem block_updateKey {es : Elements} (h : Ordered es) (key : PathElement) (val : UiItem) :
    block key.text (updateKey es key val) =
      match block key.text es with
      | [] => [(key, val)]
      | (k, v) :: rest =>
        if k = key then (key, val) :: rest else (key, val) :: (k, v) :: rest := by
  induction es with
  | nil => simp [updateKey, block]
  | cons e es ih =>
    obtain ⟨k, v⟩ := e
    rw [block_cons]
    unfold updateKey
    by_cases hk : k = key
    · subst hk
      simp [block_cons]
    · rw [if_neg hk]
      by_cases hbefore : k.text < key.text
      · have hne : k.text ≠ key.text := hbefore.ne
        simpa [isBefore, hbefore, block_cons, hne] using ih h.tail
      · by_cases heq : k.text = key.text
        · simp [isBefore, block_cons, heq, hk]
        · have hgt : key.text < k.text := lt_of_le_of_ne (not_lt.1 hbefore) (Ne.symm heq)
          have hnil := block_eq_nil fun e' he' => hgt.trans_le (h.head_le e' he')
          simp [isBefore, hbefore, block_cons, heq, hnil]

/-- A key that is found is the first of its label, and its item is replaced. -/
theorem block_updateKey_found {es : Elements} (h : Ordered es) {key : PathElement} {v : UiItem}
    (hfind : findKey es key = some v) (val : UiItem) :
    ∃ rest, block key.text es = (key, v) :: rest ∧
      block key.text (updateKey es key val) = (key, val) :: rest := by
  rw [findKey_eq h] at hfind
  rw [block_updateKey h]
  cases hb : block key.text es with
  | nil => simp [hb] at hfind
  | cons e rest =>
    obtain ⟨k, v'⟩ := e
    rw [hb] at hfind
    by_cases hk : k = key
    · obtain rfl : v' = v := by simpa [hk] using hfind
      exact ⟨rest, by rw [hk], by simp [hk]⟩
    · simp [hk] at hfind

/-- A key that is not found is put before the elements of its label. -/
theorem block_updateKey_new {es : Elements} (h : Ordered es) {key : PathElement}
    (hfind : findKey es key = none) (val : UiItem) :
    block key.text (updateKey es key val) = (key, val) :: block key.text es := by
  rw [findKey_eq h] at hfind
  rw [block_updateKey h]
  cases hb : block key.text es with
  | nil => rfl
  | cons e rest =>
    obtain ⟨k, v⟩ := e
    rw [hb] at hfind
    have hk : k ≠ key := by
      intro hk
      simp [hk] at hfind
    simp [hk]

/-- `addKey` puts an item after the elements of its label. -/
theorem block_addKey {es : Elements} (h : Ordered es) (key : PathElement) (val : UiItem) :
    block key.text (addKey es key val) = block key.text es ++ [(key, val)] := by
  induction es with
  | nil => simp [addKey, block]
  | cons e es ih =>
    obtain ⟨k, v⟩ := e
    rw [block_cons]
    unfold addKey
    by_cases hbefore : key.text < k.text
    · have hnil := block_eq_nil fun e' he' => hbefore.trans_le (h.head_le e' he')
      have hne : k.text ≠ key.text := hbefore.ne'
      simp [isBefore, hbefore, block_cons, hne, hnil]
    · have hih := ih h.tail
      by_cases heq : k.text = key.text
      · simp [isBefore, block_cons, heq, hih]
      · simp [isBefore, hbefore, block_cons, heq, hih]

/-! ## What a call does to the elements -/

/-- The elements of a folder after a call. -/
def put (es : Elements) (path : List PathElement) (item : UiItem) : Elements :=
  (putSubFolder ⟨.label "", es⟩ path item).elements

/-- The label of the folder plays no part. -/
theorem putSubFolder_eq (l : PathElement) (es : Elements) (path : List PathElement)
    (item : UiItem) : putSubFolder ⟨l, es⟩ path item = ⟨l, put es path item⟩ := by
  cases path with
  | nil => rfl
  | cons k path =>
    have hget : ∀ l, getFolder ⟨l, es⟩ k = findKey es k := fun _ => rfl
    unfold put
    rw [putSubFolder, putSubFolder, hget, hget]
    cases findKey es k with
    | none => rfl
    | some i => cases i <;> rfl

theorem put_nil (es : Elements) (item : UiItem) : put es [] item = addKey es item.uiLabel item :=
  rfl

/-- A folder that is found is replaced by what it becomes. -/
theorem put_found {es : Elements} {k : PathElement} {c : Elements}
    (h : findKey es k = some (.folder k c)) (path : List PathElement) (item : UiItem) :
    put es (k :: path) item = updateKey es k (.folder k (put c path item)) := by
  have hget : getFolder ⟨.label "", es⟩ k = some (.folder k c) := h
  unfold put
  rw [putSubFolder, hget]
  show (putFolder _ (putSubFolder ⟨k, c⟩ path item).item).elements = _
  rw [putSubFolder_eq]
  rfl

/-- A chain of new folders is what the same call makes in an empty folder. -/
theorem makeSubFolderChain_eq (k : PathElement) (path : List PathElement) (item : UiItem) :
    makeSubFolderChain (k :: path) item = .folder k (put [] path item) := by
  cases path with
  | nil => rfl
  | cons k' path => rfl

/-- A folder that is not found is made. -/
theorem put_new {es : Elements} {k : PathElement} (h : findKey es k = none)
    (path : List PathElement) (item : UiItem) :
    put es (k :: path) item = updateKey es k (.folder k (put [] path item)) := by
  have hget : getFolder ⟨.label "", es⟩ k = none := h
  unfold put
  rw [putSubFolder, hget]
  show (putFolder _ (makeSubFolderChain (k :: path) item)).elements = _
  rw [makeSubFolderChain_eq]
  rfl

/-! ## The content of a folder -/

/-- The elements of a folder after the calls that reached it. -/
def content (as : List Addition) : Elements :=
  as.foldl (fun es a => put es a.groups a.item) []

theorem content_concat (as : List Addition) (a : Addition) :
    content (as ++ [a]) = put (content as) a.groups a.item := by
  simp [content]

theorem uiRoot_elements (label : PathElement) (as : List Addition) :
    uiRoot label as = ⟨label, content as⟩ := by
  induction as using List.reverseRecOn with
  | nil => rfl
  | append_singleton as a ih =>
    rw [content_concat, ← putSubFolder_eq, ← ih]
    simp [uiRoot, addUIWidget]

/-- The calls that go into a group with the label `n`, with the type of the group and what is left
of the path. -/
def inGroups (n : String) (as : List Addition) : List (ℤ × Addition) :=
  as.filterMap fun a =>
    match a.path with
    | [] => none
    | (t, m) :: p => if m = n then some (t, { a with path := p }) else none

/-- The widgets with the label `n` that stay in the folder. -/
def ownWidgets (n : String) (as : List Addition) : Elements :=
  as.filterMap fun a =>
    match a.path with
    | [] => if a.label = n then some (.label n, a.item) else none
    | _ :: _ => none

/-- The folder that a run of calls makes. -/
def folderOf (n : String) (run : ℤ × List Addition) : PathElement × UiItem :=
  (.group run.1 n, .folder (.group run.1 n) (content run.2))

/-- The content of a folder, label by label: the folders of the runs of calls, the last one first,
then the widgets. -/
structure Represents (as : List Addition) (es : Elements) : Prop where
  ordered : Ordered es
  block_eq : ∀ n, block n es = (runs (inGroups n as)).map (folderOf n) ++ ownWidgets n as

theorem mem_ownWidgets {n : String} {as : List Addition} {e : PathElement × UiItem}
    (h : e ∈ ownWidgets n as) : ∃ a ∈ as, e = (.label n, a.item) := by
  obtain ⟨a, ha, he⟩ := List.mem_filterMap.1 h
  split at he
  · split at he
    · exact ⟨a, ha, (Option.some.inj he).symm⟩
    · cases he
  · cases he

section Represents

variable {as : List Addition} {es : Elements}

/-- A folder is found when its type is that of the last run. -/
theorem Represents.findKey_group (h : Represents as es) (t : ℤ) (n : String) :
    findKey es (.group t n) =
      match runs (inGroups n as) with
      | [] => none
      | (t', as') :: _ =>
        if t' = t then some (.folder (.group t n) (content as')) else none := by
  have hblock := h.block_eq n
  rw [findKey_eq h.ordered]
  show (match block n es with | [] => none | (k, v) :: _ => _) = _
  rw [hblock]
  cases hr : runs (inGroups n as) with
  | nil =>
    cases ho : ownWidgets n as with
    | nil => rfl
    | cons e rest =>
      have hmem : e ∈ ownWidgets n as := by simp [ho]
      obtain ⟨a, _, rfl⟩ := mem_ownWidgets hmem
      rfl
  | cons r rest =>
    obtain ⟨t', as'⟩ := r
    by_cases ht : t' = t <;> simp [folderOf, ht]

theorem inGroups_concat (n : String) (a : Addition) :
    inGroups n (as ++ [a]) = inGroups n as ++ inGroups n [a] :=
  List.filterMap_append

theorem ownWidgets_concat (n : String) (a : Addition) :
    ownWidgets n (as ++ [a]) = ownWidgets n as ++ ownWidgets n [a] :=
  List.filterMap_append

/-- A widget that stays in the folder comes after the elements of its label. -/
theorem Represents.putWidget (h : Represents as es) {a : Addition} (ha : a.path = []) :
    Represents (as ++ [a]) (put es a.groups a.item) := by
  have hgroups : a.groups = [] := by simp [Addition.groups, ha]
  rw [hgroups, put_nil]
  show Represents _ (addKey es (.label a.label) a.item)
  refine ⟨h.ordered.addKey _ _, fun n => ?_⟩
  have hin : inGroups n [a] = [] := by simp [inGroups, ha]
  rw [inGroups_concat, ownWidgets_concat, hin, List.append_nil, ← List.append_assoc, ← h.block_eq]
  by_cases hn : a.label = n
  · have hown : ownWidgets n [a] = [(.label n, a.item)] := by simp [ownWidgets, ha, hn]
    rw [hown, ← hn]
    exact block_addKey h.ordered (.label a.label) a.item
  · have hown : ownWidgets n [a] = [] := by simp [ownWidgets, ha, hn]
    have hkey : (PathElement.label a.label).text ≠ n := hn
    rw [hown, List.append_nil]
    exact block_addKey_of_ne hkey _ _

/-- A call that goes into a group extends the last run of the label of the group, or starts one. -/
theorem Represents.putGroup (h : Represents as es) {a : Addition} {t : ℤ} {m : String}
    {p : List (ℤ × String)} (ha : a.path = (t, m) :: p) :
    Represents (as ++ [a]) (put es a.groups a.item) := by
  have hgroups : a.groups = .group t m :: p.map fun g => .group g.1 g.2 := by
    simp [Addition.groups, ha]
  have hin : ∀ n, inGroups n [a] = if m = n then [(t, { a with path := p })] else [] := by
    intro n
    by_cases hn : m = n <;> simp [inGroups, ha, hn]
  have hown : ∀ n, ownWidgets n [a] = [] := by
    intro n
    simp [ownWidgets, ha]
  have hfind := h.findKey_group t m
  have hblock := h.block_eq m
  -- what the folder of the group becomes, and the runs of its label with it
  have hput : ∃ c, put es a.groups a.item = updateKey es (.group t m) (.folder (.group t m) c) ∧
      block m (updateKey es (.group t m) (.folder (.group t m) c)) =
        (add (runs (inGroups m as)) (t, { a with path := p })).map (folderOf m) ++
          ownWidgets m as := by
    have hnew : findKey es (.group t m) = none →
        (add (runs (inGroups m as)) (t, { a with path := p })).map (folderOf m) =
          folderOf m (t, [{ a with path := p }]) :: (runs (inGroups m as)).map (folderOf m) →
        ∃ c, put es a.groups a.item = updateKey es (.group t m) (.folder (.group t m) c) ∧
          block m (updateKey es (.group t m) (.folder (.group t m) c)) =
            (add (runs (inGroups m as)) (t, { a with path := p })).map (folderOf m) ++
              ownWidgets m as := by
      intro hnone hadd
      refine ⟨_, by rw [hgroups, put_new hnone], ?_⟩
      have hupdate := block_updateKey_new h.ordered hnone
        (.folder (.group t m) (put [] (p.map fun g => .group g.1 g.2) a.item))
      rw [hadd, List.cons_append, ← hblock]
      exact hupdate
    cases hr : runs (inGroups m as) with
    | nil =>
      rw [hr] at hfind hnew
      exact hnew hfind rfl
    | cons r rest =>
      obtain ⟨t', as'⟩ := r
      rw [hr] at hfind hnew hblock
      by_cases ht : t' = t
      · subst ht
        have hfound : findKey es (.group t' m) = some (.folder (.group t' m) (content as')) := by
          simpa using hfind
        refine ⟨_, by rw [hgroups, put_found hfound], ?_⟩
        obtain ⟨rest', hbefore, hafter⟩ := block_updateKey_found h.ordered hfound
          (.folder (.group t' m) (put (content as') (p.map fun g => .group g.1 g.2) a.item))
        have hrest : rest' = rest.map (folderOf m) ++ ownWidgets m as := by
          have heq := hbefore.symm.trans hblock
          simpa using congrArg List.tail heq
        have hcontent : content (as' ++ [{ a with path := p }]) =
            put (content as') (p.map fun g => .group g.1 g.2) a.item := content_concat as' _
        refine hafter.trans ?_
        simp [add, folderOf, hcontent, hrest]
      · have hnone : findKey es (.group t m) = none := by simpa [ht] using hfind
        exact hnew hnone (by simp [add, ht])
  obtain ⟨c, hput, hupdate⟩ := hput
  rw [hput]
  refine ⟨h.ordered.updateKey _ _, fun n => ?_⟩
  rw [inGroups_concat, ownWidgets_concat, hin, hown, List.append_nil]
  by_cases hn : m = n
  · subst hn
    rw [if_pos rfl, runs_concat]
    exact hupdate
  · have hkey : (PathElement.group t m).text ≠ n := hn
    rw [if_neg hn, List.append_nil, ← h.block_eq]
    exact block_updateKey_of_ne hkey _ _

/-- The content of a folder is told by the runs of the calls. -/
theorem represents_content (as : List Addition) : Represents as (content as) := by
  induction as using List.reverseRecOn with
  | nil => exact ⟨List.Pairwise.nil, fun n => rfl⟩
  | append_singleton as a ih =>
    rw [content_concat]
    cases ha : a.path with
    | nil => exact ih.putWidget ha
    | cons g p => exact ih.putGroup ha

end Represents

/-! ## Folders -/

/-- The labels of the folders among some elements. -/
def folderLabels (es : Elements) : List PathElement :=
  es.filterMap fun e =>
    match e.2 with
    | .folder label _ => some label
    | .widget .. => none

theorem mem_folderLabels {es : Elements} {k : PathElement} :
    k ∈ folderLabels es ↔ ∃ e ∈ es, ∃ c, e.2 = .folder k c := by
  unfold folderLabels
  rw [List.mem_filterMap]
  constructor
  · rintro ⟨e, he, hk⟩
    refine ⟨e, he, ?_⟩
    split at hk
    · next label c hi =>
      obtain rfl := Option.some.inj hk
      exact ⟨c, hi⟩
    · cases hk
  · rintro ⟨e, he, c, hi⟩
    exact ⟨e, he, by rw [hi]⟩

theorem nil_not_mem_folders (es : Elements) : [] ∉ folders es := by
  induction es with
  | nil => simp [folders]
  | cons e es ih =>
    obtain ⟨k, i⟩ := e
    cases i <;> simp [folders, itemFolders, ih]

theorem cons_mem_folders {es : Elements} {k : PathElement} {path : List PathElement} :
    k :: path ∈ folders es ↔
      ∃ e ∈ es, ∃ c, e.2 = .folder k c ∧ (path = [] ∨ path ∈ folders c) := by
  induction es with
  | nil => simp [folders]
  | cons e es ih =>
    obtain ⟨k', i⟩ := e
    have hitem : k :: path ∈ itemFolders i ↔
        ∃ c, i = .folder k c ∧ (path = [] ∨ path ∈ folders c) := by
      cases i with
      | folder label c =>
        simp only [itemFolders, List.mem_cons, List.cons.injEq, List.mem_map, UiItem.folder.injEq]
        constructor
        · rintro (⟨rfl, h⟩ | ⟨_, h, rfl, rfl⟩)
          · exact ⟨c, ⟨rfl, rfl⟩, Or.inl h⟩
          · exact ⟨c, ⟨rfl, rfl⟩, Or.inr h⟩
        · rintro ⟨_, ⟨rfl, rfl⟩, h | h⟩
          · exact Or.inl ⟨rfl, h⟩
          · exact Or.inr ⟨path, h, rfl, rfl⟩
      | widget => simp [itemFolders]
    rw [folders, List.mem_append, ih, hitem, List.exists_mem_cons_iff]

/-- The paths of the folders are different exactly when the folders among the elements have
different labels, and the paths inside each of them are different. -/
theorem nodup_folders_iff (es : Elements) :
    (folders es).Nodup ↔ (folderLabels es).Nodup ∧
      ∀ e ∈ es, ∀ k c, e.2 = .folder k c → (folders c).Nodup := by
  induction es with
  | nil => simp [folders, folderLabels]
  | cons e es ih =>
    obtain ⟨k', i⟩ := e
    cases i with
    | widget label varname sig =>
      have hlabels : folderLabels ((k', .widget label varname sig) :: es) = folderLabels es := rfl
      rw [folders, itemFolders, List.nil_append, ih, hlabels, List.forall_mem_cons]
      simp
    | folder label c =>
      have hlabels : folderLabels ((k', .folder label c) :: es) = label :: folderLabels es := rfl
      have hinside : ([label] :: (folders c).map (label :: ·)).Nodup ↔ (folders c).Nodup := by
        rw [List.nodup_cons, List.nodup_map_iff (List.cons_injective)]
        simp [nil_not_mem_folders]
      -- the paths of the first folder start with its label
      have hdisjoint : List.Disjoint ([label] :: (folders c).map (label :: ·)) (folders es) ↔
          label ∉ folderLabels es := by
        rw [mem_folderLabels]
        constructor
        · rintro h ⟨e, he, c', hi⟩
          exact h List.mem_cons_self (cons_mem_folders.2 ⟨e, he, c', hi, Or.inl rfl⟩)
        · intro h path hpath hes
          have hhead : ∃ rest, path = label :: rest := by
            rcases List.mem_cons.1 hpath with rfl | hpath
            · exact ⟨[], rfl⟩
            · obtain ⟨rest, _, rfl⟩ := List.mem_map.1 hpath
              exact ⟨rest, rfl⟩
          obtain ⟨rest, rfl⟩ := hhead
          obtain ⟨e, he, c', hi, _⟩ := cons_mem_folders.1 hes
          exact h ⟨e, he, c', hi⟩
      rw [folders, itemFolders, List.nodup_append', hinside, ih, hdisjoint, hlabels,
        List.nodup_cons, List.forall_mem_cons]
      have hself : (∀ k c', UiItem.folder label c = .folder k c' → (folders c').Nodup) ↔
          (folders c).Nodup := by
        constructor
        · exact fun h => h label c rfl
        · rintro h _ _ ⟨⟩
          exact h
      rw [hself]
      tauto

/-! ## Folders of the content -/

/-- The folders among the elements are those of the runs. -/
theorem mem_content_folder {as : List Addition} {e : PathElement × UiItem} {k : PathElement}
    {c : Elements} (he : e ∈ content as) (hi : e.2 = .folder k c) :
    ∃ t n l, (t, l) ∈ runs (inGroups n as) ∧ e.1 = .group t n ∧ k = .group t n ∧
      c = content l := by
  have hblock := (represents_content as).block_eq e.1.text
  have hmem : e ∈ block e.1.text (content as) := by simpa [block] using he
  rw [hblock, List.mem_append] at hmem
  rcases hmem with hmem | hmem
  · obtain ⟨⟨t, l⟩, hrun, heq⟩ := List.mem_map.1 hmem
    rw [← heq] at hi
    obtain ⟨rfl, rfl⟩ := UiItem.folder.inj hi
    exact ⟨t, e.1.text, l, hrun, by rw [← heq]; rfl, rfl, rfl⟩
  · obtain ⟨a, _, heq⟩ := mem_ownWidgets hmem
    rw [heq] at hi
    cases hi

theorem folderOf_mem_content {as : List Addition} {t : ℤ} {n : String} {l : List Addition}
    (h : (t, l) ∈ runs (inGroups n as)) : folderOf n (t, l) ∈ content as := by
  have hmem : folderOf n (t, l) ∈ block n (content as) := by
    rw [(represents_content as).block_eq n]
    exact List.mem_append_left _ (List.mem_map.2 ⟨_, h, rfl⟩)
  exact List.mem_of_mem_filter hmem

/-- Among the folders with the label `n`, each type stands for one run. -/
theorem folderLabels_filter (as : List Addition) (n : String) :
    (folderLabels (content as)).filter (fun k => k.text = n) =
      (keys (inGroups n as)).map fun t => .group t n := by
  have hcomm : (folderLabels (content as)).filter (fun k => k.text = n) =
      folderLabels (block n (content as)) := by
    unfold folderLabels block
    rw [List.filter_filterMap, List.filterMap_filter]
    apply List.filterMap_congr
    intro e he
    cases hi : e.2 with
    | widget => simp
    | folder k c =>
      obtain ⟨t, m, l, _, hkey, hk, _⟩ := mem_content_folder he hi
      rw [hkey, hk]
      rfl
  have hown : folderLabels (ownWidgets n as) = [] := by
    apply List.eq_nil_iff_forall_not_mem.2
    intro k hk
    obtain ⟨e, he, c, hi⟩ := mem_folderLabels.1 hk
    obtain ⟨a, _, rfl⟩ := mem_ownWidgets he
    cases hi
  have happend : ∀ es es', folderLabels (es ++ es') = folderLabels es ++ folderLabels es' :=
    fun _ _ => List.filterMap_append
  rw [hcomm, (represents_content as).block_eq, happend, hown, List.append_nil, keys,
    List.map_map]
  unfold folderLabels
  rw [List.filterMap_map]
  show List.filterMap (some ∘ fun r : ℤ × List Addition => PathElement.group r.1 n) _ = _
  rw [List.filterMap_eq_map]
  rfl

/-- A list has no duplicates when, for each value of a function, the elements with this value
have none. -/
theorem nodup_of_filter {l : List PathElement}
    (h : ∀ n, (l.filter fun k => k.text = n).Nodup) : l.Nodup := by
  rw [List.nodup_iff_count_le_one]
  intro k
  have hcount := List.nodup_iff_count_le_one.1 (h k.text) k
  rwa [List.count_filter (by simp)] at hcount

theorem nodup_folderLabels_iff (as : List Addition) :
    (folderLabels (content as)).Nodup ↔ ∀ n, (keys (inGroups n as)).Nodup := by
  have hinj : ∀ n, Function.Injective fun t : ℤ => PathElement.group t n :=
    fun n t t' h => (PathElement.group.inj h).1
  constructor
  · intro h n
    have hn := h.filter fun k => k.text = n
    rwa [folderLabels_filter, List.nodup_map_iff (hinj n)] at hn
  · intro h
    apply nodup_of_filter
    intro n
    rw [folderLabels_filter, List.nodup_map_iff (hinj n)]
    exact h n

/-- The paths of the folders are different exactly when each type of group has one run, and the
paths inside the folder of each run are different. -/
theorem nodup_content_iff (as : List Addition) :
    (folders (content as)).Nodup ↔ (∀ n, (keys (inGroups n as)).Nodup) ∧
      ∀ n t l, (t, l) ∈ runs (inGroups n as) → (folders (content l)).Nodup := by
  rw [nodup_folders_iff, nodup_folderLabels_iff]
  apply and_congr_right
  intro _
  constructor
  · intro h n t l hrun
    exact h _ (folderOf_mem_content hrun) _ _ rfl
  · intro h e he k c hi
    obtain ⟨t, n, l, hrun, _, _, rfl⟩ := mem_content_folder he hi
    exact h n t l hrun

theorem mem_inGroups {n : String} {as : List Addition} {t : ℤ} {a' : Addition} :
    (t, a') ∈ inGroups n as ↔
      ∃ a ∈ as, a.path = (t, n) :: a'.path ∧ a' = { a with path := a'.path } := by
  unfold inGroups
  rw [List.mem_filterMap]
  constructor
  · rintro ⟨a, ha, h⟩
    split at h
    · cases h
    · next t' m p hpath =>
      split at h
      · next hm =>
        obtain ⟨rfl, rfl⟩ := Prod.mk.inj (Option.some.inj h)
        exact ⟨a, ha, by rw [hpath, hm], rfl⟩
      · cases h
  · rintro ⟨a, ha, hpath, heq⟩
    refine ⟨a, ha, ?_⟩
    rw [hpath]
    simp [← heq]

theorem mem_valuesOf {n : String} {as : List Addition} {t : ℤ} {a' : Addition} :
    a' ∈ valuesOf t (inGroups n as) ↔
      ∃ a ∈ as, a.path = (t, n) :: a'.path ∧ a' = { a with path := a'.path } := by
  rw [← mem_inGroups]
  simp [valuesOf]

/-- The calls of a run have shorter paths. -/
theorem length_of_mem_run {d : ℕ} {as : List Addition} (h : ∀ a ∈ as, a.path.length ≤ d + 1)
    {n : String} {t : ℤ} {l : List Addition} (hrun : (t, l) ∈ runs (inGroups n as)) :
    ∀ a ∈ l, a.path.length ≤ d := by
  intro a' ha'
  obtain ⟨a, ha, hpath, _⟩ := mem_valuesOf.1 (subset_valuesOf hrun ha')
  have hlen := h a ha
  rw [hpath, List.length_cons] at hlen
  omega

/-- Without paths there is no group. -/
theorem inGroups_eq_nil {as : List Addition} (h : ∀ a ∈ as, a.path.length ≤ 0) (n : String) :
    inGroups n as = [] := by
  apply List.eq_nil_iff_forall_not_mem.2
  rintro ⟨t, a'⟩ hmem
  obtain ⟨a, ha, hpath, _⟩ := mem_inGroups.1 hmem
  have hlen := h a ha
  rw [hpath, List.length_cons] at hlen
  omega

theorem typesAt_nil (n : String) (as : List Addition) :
    typesAt [] n as = (inGroups n as).map Prod.fst := by
  unfold typesAt inGroups
  rw [List.map_filterMap]
  apply List.filterMap_congr
  intro a _
  cases hpath : a.path with
  | nil => simp
  | cons g p =>
    obtain ⟨t, m⟩ := g
    by_cases hm : m = n <;> simp [hm]

theorem typesAt_cons (t : ℤ) (m : String) (p : List (ℤ × String)) (n : String)
    (as : List Addition) :
    typesAt ((t, m) :: p) n as = typesAt p n (valuesOf t (inGroups m as)) := by
  unfold typesAt valuesOf inGroups
  rw [List.filter_filterMap, List.map_filterMap, List.filterMap_filterMap]
  apply List.filterMap_congr
  intro a _
  cases hpath : a.path with
  | nil => simp
  | cons g q =>
    obtain ⟨t', m'⟩ := g
    by_cases hg : (t', m') = (t, m)
    · obtain ⟨rfl, rfl⟩ := Prod.mk.inj hg
      simp [List.cons_prefix_cons, Option.filter]
    · have hnot : ¬ (t, m) :: p <+: (t', m') :: q := fun h =>
        hg (List.cons_prefix_cons.1 h).1.symm
      by_cases hm : m' = m
      · have ht : t ≠ t' := fun ht => hg (by rw [ht, hm])
        simp [hm, ht, ht.symm, Option.filter]
      · simp [hnot, hm]

/-- The paths of the folders are different exactly when the calls never come back to a group. -/
theorem nodup_folders_content_iff {d : ℕ} {as : List Addition}
    (h : ∀ a ∈ as, a.path.length ≤ d) : (folders (content as)).Nodup ↔ NeverReturns as := by
  induction d generalizing as with
  | zero =>
    have hnone := inGroups_eq_nil h
    rw [nodup_content_iff]
    constructor
    · intro _ p n t t' hsub
      have htypes : typesAt p n as = [] := by
        cases p with
        | nil => rw [typesAt_nil, hnone, List.map_nil]
        | cons g p => rw [typesAt_cons, hnone]; rfl
      rw [htypes] at hsub
      cases hsub
    · intro _
      exact ⟨fun n => by rw [hnone]; exact List.nodup_nil, fun n t l hrun => by
        rw [hnone] at hrun
        cases hrun⟩
  | succ d ih =>
    rw [nodup_content_iff]
    constructor
    · rintro ⟨hkeys, hruns⟩ p n
      cases p with
      | nil =>
        rw [typesAt_nil]
        exact (nodup_keys_iff _).1 (hkeys n)
      | cons g p =>
        obtain ⟨t, m⟩ := g
        rw [typesAt_cons]
        cases hv : valuesOf t (inGroups m as) with
        | nil =>
          intro a b hsub
          cases hsub
        | cons a' rest =>
          obtain ⟨l, hrun, _⟩ := exists_run (l := inGroups m as) (a := t) (b := a') (by simp [hv])
          rw [← hv, ← eq_valuesOf (hkeys m) hrun]
          exact (ih (length_of_mem_run h hrun)).1 (hruns m t l hrun) p n
    · intro hnever
      have hkeys : ∀ n, (keys (inGroups n as)).Nodup := by
        intro n
        rw [nodup_keys_iff, ← typesAt_nil]
        exact hnever [] n
      refine ⟨hkeys, fun m t l hrun => (ih (length_of_mem_run h hrun)).2 fun p n => ?_⟩
      rw [eq_valuesOf (hkeys m) hrun, ← typesAt_cons]
      exact hnever ((t, m) :: p) n

theorem cons_mem_folders_content {as : List Addition} {k : PathElement}
    {path : List PathElement} :
    k :: path ∈ folders (content as) ↔ ∃ t n l,
      (t, l) ∈ runs (inGroups n as) ∧ k = .group t n ∧
        (path = [] ∨ path ∈ folders (content l)) := by
  rw [cons_mem_folders]
  constructor
  · rintro ⟨e, he, c, hi, hpath⟩
    obtain ⟨t, n, l, hrun, _, hk, rfl⟩ := mem_content_folder he hi
    exact ⟨t, n, l, hrun, hk, hpath⟩
  · rintro ⟨t, n, l, hrun, rfl, hpath⟩
    exact ⟨_, folderOf_mem_content hrun, content l, rfl, hpath⟩

/-- The groups of a call, the first one and those of the call inside the group. -/
theorem groups_of_mem_valuesOf {n : String} {as : List Addition} {t : ℤ} {a' : Addition}
    (h : a' ∈ valuesOf t (inGroups n as)) : ∃ a ∈ as, a.groups = .group t n :: a'.groups := by
  obtain ⟨a, ha, hpath, _⟩ := mem_valuesOf.1 h
  refine ⟨a, ha, ?_⟩
  unfold Addition.groups
  rw [hpath]
  rfl

theorem exists_valuesOf {as : List Addition} {a : Addition} (ha : a ∈ as) {k : PathElement}
    {path : List PathElement} (hpath : k :: path <+: a.groups) :
    ∃ t n, k = .group t n ∧ ∃ a' ∈ valuesOf t (inGroups n as), path <+: a'.groups := by
  cases hp : a.path with
  | nil => simp [Addition.groups, hp] at hpath
  | cons g p =>
    obtain ⟨t, n⟩ := g
    have hgroups : a.groups = .group t n :: p.map fun g => .group g.1 g.2 := by
      simp [Addition.groups, hp]
    rw [hgroups, List.cons_prefix_cons] at hpath
    exact ⟨t, n, hpath.1, { a with path := p }, mem_valuesOf.2 ⟨a, ha, hp, rfl⟩, hpath.2⟩

/-- The paths of the folders are those of the groups of the calls. -/
theorem mem_folders_content {d : ℕ} {as : List Addition} (h : ∀ a ∈ as, a.path.length ≤ d)
    (path : List PathElement) :
    path ∈ folders (content as) ↔ path ≠ [] ∧ ∃ a ∈ as, path <+: a.groups := by
  induction d generalizing as path with
  | zero =>
    cases path with
    | nil => simp [nil_not_mem_folders]
    | cons k path =>
      constructor
      · intro hmem
        obtain ⟨t, n, l, hrun, _⟩ := cons_mem_folders_content.1 hmem
        rw [inGroups_eq_nil h] at hrun
        cases hrun
      · rintro ⟨_, a, ha, hpath⟩
        obtain ⟨t, n, _, a', ha', _⟩ := exists_valuesOf ha hpath
        rw [inGroups_eq_nil h] at ha'
        cases ha'
  | succ d ih =>
    cases path with
    | nil => simp [nil_not_mem_folders]
    | cons k path =>
      constructor
      · intro hmem
        obtain ⟨t, n, l, hrun, rfl, hpath⟩ := cons_mem_folders_content.1 hmem
        have hinside : ∃ a' ∈ l, path <+: a'.groups := by
          rcases hpath with rfl | hpath
          · obtain ⟨a', ha'⟩ := List.exists_mem_of_ne_nil l (run_ne_nil hrun)
            exact ⟨a', ha', List.nil_prefix⟩
          · exact ((ih (length_of_mem_run h hrun) path).1 hpath).2
        obtain ⟨a', ha', hpath'⟩ := hinside
        obtain ⟨a, ha, hgroups⟩ := groups_of_mem_valuesOf (subset_valuesOf hrun ha')
        refine ⟨List.cons_ne_nil _ _, a, ha, ?_⟩
        rw [hgroups, List.cons_prefix_cons]
        exact ⟨rfl, hpath'⟩
      · rintro ⟨_, a, ha, hpath⟩
        obtain ⟨t, n, rfl, a', ha', hpath'⟩ := exists_valuesOf ha hpath
        obtain ⟨l, hrun, hl⟩ := exists_run ha'
        apply cons_mem_folders_content.2
        refine ⟨t, n, l, hrun, rfl, ?_⟩
        by_cases hnil : path = []
        · exact Or.inl hnil
        · exact Or.inr ((ih (length_of_mem_run h hrun) path).2 ⟨hnil, a', hl, hpath'⟩)

/-! ## Widgets -/

theorem widgets_eq_flatMap (es : Elements) : widgets es = es.flatMap fun e => itemWidgets e.2 := by
  induction es with
  | nil => rfl
  | cons e es ih => rw [widgets, ih, List.flatMap_cons]

theorem addKey_perm (es : Elements) (key : PathElement) (val : UiItem) :
    (addKey es key val).Perm ((key, val) :: es) := by
  induction es with
  | nil => exact .refl _
  | cons e es ih =>
    obtain ⟨k, v⟩ := e
    unfold addKey
    split
    · exact .refl _
    · exact (ih.cons _).trans (.swap _ _ _)

/-- A key that is not found is added. -/
theorem updateKey_perm_of_none {es : Elements} {key : PathElement} (h : findKey es key = none)
    (val : UiItem) : (updateKey es key val).Perm ((key, val) :: es) := by
  induction es with
  | nil => exact .refl _
  | cons e es ih =>
    obtain ⟨k, v⟩ := e
    unfold findKey at h
    unfold updateKey
    split at h
    · cases h
    · next hk =>
      rw [if_neg hk]
      split
      · next hbefore =>
        rw [if_pos hbefore] at h
        exact ((ih h).cons _).trans (.swap _ _ _)
      · exact .refl _

/-- A key that is found is replaced where it is. -/
theorem updateKey_eq_of_some {es : Elements} {key : PathElement} {v : UiItem}
    (h : findKey es key = some v) (val : UiItem) :
    ∃ l r, es = l ++ (key, v) :: r ∧ updateKey es key val = l ++ (key, val) :: r := by
  induction es with
  | nil => cases h
  | cons e es ih =>
    obtain ⟨k, v'⟩ := e
    unfold findKey at h
    unfold updateKey
    split at h
    · next hk =>
      obtain rfl := Option.some.inj h
      exact ⟨[], es, by rw [hk]; rfl, by rw [if_pos hk]; rfl⟩
    · next hk =>
      split at h
      · next hbefore =>
        obtain ⟨l, r, hes, hupdate⟩ := ih h
        refine ⟨(k, v') :: l, r, by rw [hes]; rfl, ?_⟩
        rw [if_neg hk, if_pos hbefore, hupdate]
        rfl
      · cases h

theorem widgets_perm {es es' : Elements} (h : es.Perm es') : (widgets es).Perm (widgets es') := by
  rw [widgets_eq_flatMap, widgets_eq_flatMap]
  exact h.flatMap_right _

/-- A call adds its widget, under its path, to the widgets. -/
theorem widgets_put (p : List (ℤ × String)) (as : List Addition) (a : Addition) :
    (widgets (put (content as) (p.map fun g => .group g.1 g.2) a.item)).Perm
      ((p.map fun g => .group g.1 g.2, a.item) :: widgets (content as)) := by
  induction p generalizing as with
  | nil => exact widgets_perm (addKey_perm (content as) (.label a.label) a.item)
  | cons g p ih =>
    obtain ⟨t, n⟩ := g
    show (widgets (put (content as) (.group t n :: p.map fun g => .group g.1 g.2) a.item)).Perm _
    have hfind := (represents_content as).findKey_group t n
    -- a folder that is made holds the widget only
    have hnew : findKey (content as) (.group t n) = none →
        (widgets (put (content as) (.group t n :: p.map fun g => .group g.1 g.2) a.item)).Perm
          ((.group t n :: p.map fun g => .group g.1 g.2, a.item) :: widgets (content as)) := by
      intro hnone
      rw [put_new hnone]
      apply (widgets_perm (updateKey_perm_of_none hnone _)).trans
      have hinside := (ih []).map fun w => (PathElement.group t n :: w.1, w.2)
      exact hinside.append_right (widgets (content as))
    cases hr : runs (inGroups n as) with
    | nil =>
      rw [hr] at hfind
      exact hnew hfind
    | cons r rest =>
      obtain ⟨t', l⟩ := r
      rw [hr] at hfind
      by_cases ht : t' = t
      · have hfound : findKey (content as) (.group t n) =
            some (.folder (.group t n) (content l)) := by simpa [ht] using hfind
        rw [put_found hfound]
        obtain ⟨before, after, hes, hupdate⟩ := updateKey_eq_of_some hfound
          (.folder (.group t n) (put (content l) (p.map fun g => .group g.1 g.2) a.item))
        have hinside := (ih l).map fun w => (PathElement.group t n :: w.1, w.2)
        rw [hupdate, hes, widgets_eq_flatMap, widgets_eq_flatMap, List.flatMap_append,
          List.flatMap_append, List.flatMap_cons, List.flatMap_cons]
        apply List.Perm.trans _ List.perm_middle
        exact (hinside.append_right _).append_left _
      · exact hnew (by simpa [ht] using hfind)

/-- Every widget added is in the tree once, under its path. -/
theorem widgets_content (as : List Addition) :
    (widgets (content as)).Perm (as.map fun a => (a.groups, a.item)) := by
  induction as using List.reverseRecOn with
  | nil => exact .refl _
  | append_singleton as a ih =>
    rw [content_concat, List.map_append]
    apply (widgets_put a.path as a).trans
    exact (ih.cons _).trans (List.perm_append_singleton _ _).symm

/-- The tree has every widget once, under the path it was added with, and one folder for each group
path, exactly when the calls never come back to a group after they have used one of the same label
and another type in the same folder. -/
theorem exact_iff (label : PathElement) (as : List Addition) :
    Exact as (uiRoot label as) ↔ NeverReturns as := by
  have hdepth : ∀ a ∈ as, a.path.length ≤ (as.map fun a => a.path.length).sum := fun a ha =>
    List.single_le_sum (by simp) _ (List.mem_map.2 ⟨a, ha, rfl⟩)
  rw [uiRoot_elements]
  constructor
  · intro h
    exact (nodup_folders_content_iff hdepth).1 h.folders_nodup
  · intro h
    exact ⟨widgets_content as, (nodup_folders_content_iff hdepth).2 h,
      mem_folders_content hdepth⟩

/-- A widget in `v:a`, one in `h:a`, and again one in `v:a`. -/
def backAndForth : List Addition :=
  [⟨[(0, "a")], "x", Tree.nil, Tree.nil⟩, ⟨[(1, "a")], "y", Tree.nil, Tree.nil⟩,
    ⟨[(0, "a")], "z", Tree.nil, Tree.nil⟩]

/-- The third widget makes a second folder `v:a`. -/
theorem not_exact_backAndForth :
    ¬ Exact backAndForth (uiRoot (.group 0 "") backAndForth) := by
  intro h
  have hnodup := h.folders_nodup
  rw [uiRoot_elements] at hnodup
  have hdepth : ∀ a ∈ backAndForth, a.path.length ≤ 1 := by decide
  have hreturn := (nodup_folders_content_iff hdepth).1 hnodup [] "a" 0 1 (by decide)
  cases hreturn

end Faust.UiTree
