import Faust.Propagate.Labels

/-!
# Labels with pathnames follow their grammar

The grammar of `labels.cpp`: a label is a name, or an absolute or relative path of group names
and a name. `Label` is a derivation of that grammar, `Label.text` the label it derives, and
`Label.resolve` the groups the path leads to from the groups around it.
-/

namespace Faust.Labels

open Faust.Tree

/-! ## The grammar -/

/-- `<name> = [^/]+`. -/
structure Name where
  chars : List Char
  ne_nil : chars ≠ []
  no_slash : '/' ∉ chars

/-- The text of a name. -/
def Name.text (n : Name) : String := String.ofList n.chars

/-- `<gtype> = "h:" | "H:" | "v:" | "V:" | "t:" | "T:"`. -/
inductive GroupType
  | h | H | v | V | t | T
deriving DecidableEq, Repr

/-- The letter of a type of group. -/
def GroupType.letter : GroupType → Char
  | h => 'h'
  | H => 'H'
  | v => 'v'
  | V => 'V'
  | t => 't'
  | T => 'T'

/-- The kind of group a letter stands for. -/
def GroupType.kind : GroupType → ℤ
  | v | V => 0
  | h | H => 1
  | t | T => 2

/-- `<gname> = ".." | "." | <gtype> <name>`. -/
inductive GroupName
  | parent
  | current
  | typed (type : GroupType) (name : Name)

/-- The characters of a group name. -/
def GroupName.chars : GroupName → List Char
  | parent => ['.', '.']
  | current => ['.']
  | typed type name => type.letter :: ':' :: name.chars

/-- `<label> = <name> | <path> <name>`, where `<path>` is an optional `/` and a list of group
names. -/
structure Label where
  absolute : Bool
  path : List GroupName
  name : Name

/-- The characters of a path: each group name is followed by `/`. -/
def pathChars (path : List GroupName) : List Char :=
  path.flatMap fun g => g.chars ++ ['/']

/-- The characters of a label. -/
def Label.chars (l : Label) : List Char :=
  (if l.absolute then ['/'] else []) ++ pathChars l.path ++ l.name.chars

/-- The text of a label. -/
def Label.text (l : Label) : String := String.ofList l.chars

/-! ## What a path means -/

/-- A group: its kind and its label. -/
abbrev Group := ℤ × String

/-- What an element of a path does to the groups around, innermost first. -/
def GroupName.apply : GroupName → List Group → List Group
  | parent, groups => groups.tail
  | current, groups => groups
  | typed type name, groups => (type.kind, name.text) :: groups

/-- Apply the elements of a path from left to right. -/
def resolvePath (path : List GroupName) (groups : List Group) : List Group :=
  path.foldl (fun groups g => g.apply groups) groups

/-- The groups a path starts from. -/
def Label.start (l : Label) (groups : List Group) : List Group :=
  if l.absolute then [] else groups

/-- The groups a label leads to. -/
def Label.resolve (l : Label) (groups : List Group) : List Group :=
  resolvePath l.path (l.start groups)

/-- A `..` of the path is met when there is no group to remove. -/
def Climbs : List GroupName → List Group → Prop
  | [], _ => False
  | .parent :: path, groups => groups = [] ∨ Climbs path groups.tail
  | g :: path, groups => Climbs path (g.apply groups)

/-- A final name that `label2path` and `concatPath` take for something else: its second
character is a colon, as in a group name, or it is a marker. -/
def Name.Mistaken (n : Name) : Prop :=
  n.chars[1]? = some ':' ∨ n.chars = ['.'] ∨ n.chars = ['.', '.']

/-- The list of the final name and of the groups, as a tree. -/
def resolved (n : Name) (groups : List Group) : List Tree :=
  nameTree n.text :: groups.map fun g => groupTree g.1 g.2

/-- `normalizePath` follows the grammar at a label: its result is the final name and the groups
the path leads to, a list that ends in `nil`, and no marker remains. -/
def Label.Follows (l : Label) (groups : List Group) : Prop :=
  normalizePath (.label l.text :: groups.map fun g => .group g.1 g.2) =
      ofList (resolved l.name (l.resolve groups)) ∧
    ∀ t ∈ resolved l.name (l.resolve groups), t ≠ pathRoot ∧ t ≠ pathParent ∧ t ≠ pathCurrent

/-! ## The splitter -/

attribute [local simp] label2path concatPath encodeName normalizePath normalizeLabel tail?
  GroupName.chars GroupName.apply Climbs

@[simp] theorem nameTree_inj {a b : String} : nameTree a = nameTree b ↔ a = b := by
  simp [nameTree, leaf]

theorem nameTree_ne_cons (a : String) (x y : Tree) : nameTree a ≠ cons x y := by
  simp [nameTree, leaf, cons]

theorem groupTree_ne_nameTree (k : ℤ) (a b : String) : groupTree k a ≠ nameTree b := by
  simp [groupTree, nameTree, leaf, cons]

/-- The elements `label2path` makes of a group name. -/
def GroupName.elements : GroupName → List Tree
  | parent => [pathParent]
  | current => []
  | typed type name => [groupTree type.kind name.text]

theorem encodeName_letter (g : GroupType) (s : String) :
    encodeName g.letter s = groupTree g.kind s := by
  cases g <;> rfl

/-- The characters of a name end where the next `/` is. -/
theorem Name.takeWhile_append (n : Name) (rest : List Char) :
    (n.chars ++ '/' :: rest).takeWhile (· ≠ '/') = n.chars := by
  have hall : ∀ c ∈ n.chars, decide (c ≠ '/') = true := by
    intro c hc
    have hne : c ≠ '/' := fun h => n.no_slash (h ▸ hc)
    simpa using hne
  rw [List.takeWhile_append_of_pos hall]
  simp

theorem Name.dropWhile_append (n : Name) (rest : List Char) :
    (n.chars ++ '/' :: rest).dropWhile (· ≠ '/') = '/' :: rest := by
  have hall : ∀ c ∈ n.chars, decide (c ≠ '/') = true := by
    intro c hc
    have hne : c ≠ '/' := fun h => n.no_slash (h ▸ hc)
    simpa using hne
  rw [List.dropWhile_append_of_pos hall]
  simp

/-- One group name and its `/` are read as its elements. -/
theorem label2path_groupName (g : GroupName) (rest : List Char) :
    label2path (g.chars ++ '/' :: rest) = g.elements ++ label2path rest := by
  cases g with
  | parent => simp [GroupName.chars, GroupName.elements, label2path]
  | current => simp [GroupName.chars, GroupName.elements, label2path]
  | typed type name =>
    have htake := name.takeWhile_append rest
    have hdrop := name.dropWhile_append rest
    have hread : label2path (type.letter :: ':' :: (name.chars ++ '/' :: rest)) =
        encodeName type.letter (String.ofList ((name.chars ++ '/' :: rest).takeWhile (· ≠ '/')))
          :: label2path (((name.chars ++ '/' :: rest).dropWhile (· ≠ '/')).drop 1) := by
      cases type <;> rw [label2path] <;> simp [GroupType.letter]
    show label2path (type.letter :: ':' :: (name.chars ++ '/' :: rest)) = _
    rw [hread, htake, hdrop, encodeName_letter]
    rfl

/-- A path is read element by element. -/
theorem label2path_path (path : List GroupName) (rest : List Char) :
    label2path (pathChars path ++ rest) =
      path.flatMap GroupName.elements ++ label2path rest := by
  induction path with
  | nil => rfl
  | cons g path ih =>
    have hsplit : pathChars (g :: path) ++ rest =
        g.chars ++ '/' :: (pathChars path ++ rest) := by
      simp [pathChars]
    rw [hsplit, label2path_groupName, ih]
    simp

theorem Label.label2path (l : Label) :
    label2path l.chars = (if l.absolute then [pathRoot] else []) ++
      l.path.flatMap GroupName.elements ++ Labels.label2path l.name.chars := by
  have hpath := label2path_path l.path l.name.chars
  unfold Label.chars
  split
  · simp [Labels.label2path, hpath]
  · simpa using hpath

/-- A final name whose second character is no colon is kept whole. -/
theorem Name.label2path {n : Name} (h : n.chars[1]? ≠ some ':') :
    label2path n.chars = [nameTree n.text] := by
  have hslash := n.no_slash
  have hne := n.ne_nil
  unfold Name.text
  generalize n.chars = chars at h hslash hne
  rw [Labels.label2path.eq_def]
  split <;> simp_all

/-- A final name whose second character is a colon is read as a group and an empty name. -/
theorem Name.label2path_colon {n : Name} (h : n.chars[1]? = some ':') :
    ∃ kind name, Labels.label2path n.chars = [groupTree kind name, nameTree ""] := by
  obtain ⟨chars, hne, hslash⟩ := n
  match chars with
  | [] => exact absurd rfl hne
  | [c] => simp at h
  | g :: c :: rest =>
    obtain rfl : c = ':' := by simpa using h
    have hrest : ∀ c ∈ rest, decide (c ≠ '/') = true := by
      intro c hc
      have hne : c ≠ '/' := fun he => hslash (by rw [← he]; simp [hc])
      simpa using hne
    have htake : rest.takeWhile (· ≠ '/') = rest := by
      simpa using @List.takeWhile_append_of_pos _ _ rest [] hrest
    have hdrop : rest.dropWhile (· ≠ '/') = [] := by
      simpa using @List.dropWhile_append_of_pos _ _ rest [] hrest
    have hread : Labels.label2path (g :: ':' :: rest) =
        [encodeName g (String.ofList rest), nameTree ""] := by
      have hslash' : g ≠ '/' := fun he => hslash (by simp [he])
      rw [Labels.label2path, htake, hdrop]
      · simp [Labels.label2path]
      · simp_all
    have hkind : ∃ kind, encodeName g (String.ofList rest) = groupTree kind (String.ofList rest) := by
      unfold encodeName
      split <;> exact ⟨_, rfl⟩
    obtain ⟨kind, hkind⟩ := hkind
    exact ⟨kind, String.ofList rest, by rw [hread, hkind]⟩

/-! ## The path is followed -/

/-- The groups above a tree that ends them: `nil`, or what a `..` too many leaves. -/
def stack (groups : List Group) (base : Tree) : Tree :=
  groups.foldr (fun g t => cons (groupTree g.1 g.2) t) base

theorem stack_cons (g : Group) (groups : List Group) (base : Tree) :
    stack (g :: groups) base = cons (groupTree g.1 g.2) (stack groups base) := rfl

theorem cons_inj {a b x y : Tree} : cons a x = cons b y ↔ a = b ∧ x = y := by
  simp [cons]

theorem ofList_groups (groups : List Group) :
    ofList (groups.map fun g => groupTree g.1 g.2) = stack groups nil := by
  induction groups with
  | nil => rfl
  | cons g groups ih => rw [List.map_cons, ofList, ih, stack_cons]

theorem ofList_resolved (n : Name) (groups : List Group) :
    ofList (resolved n groups) = cons (nameTree n.text) (stack groups nil) := by
  rw [resolved, ofList, ofList_groups]

/-- A marker never ends a list. -/
theorem stack_parent_ne (groups groups' : List Group) :
    stack groups pathParent ≠ stack groups' nil := by
  induction groups generalizing groups' with
  | nil =>
    cases groups' with
    | nil => decide
    | cons g groups' => exact nameTree_ne_cons _ _ _
  | cons g groups ih =>
    cases groups' with
    | nil => simp [cons, stack, nil, leaf]
    | cons g' groups' =>
      intro h
      rw [stack_cons, stack_cons, cons_inj] at h
      exact ih groups' h.2

/-- Groups never stand for a name at the head of a list. -/
theorem stack_ne_cons_name {groups : List Group} {base : Tree} {a : String} {t : Tree}
    (hbase : ∀ x y, base ≠ cons x y) : stack groups base ≠ cons (nameTree a) t := by
  cases groups with
  | nil => exact hbase _ _
  | cons g groups =>
    intro h
    rw [stack_cons, cons_inj] at h
    exact groupTree_ne_nameTree _ _ _ h.1

theorem concatPath_append (p q : List Tree) (abspath : Tree) :
    concatPath (p ++ q) abspath = concatPath q (concatPath p abspath) := by
  induction p generalizing abspath with
  | nil => rfl
  | cons head p ih =>
    rw [List.cons_append, concatPath, concatPath]
    split_ifs
    · exact ih nil
    · split <;> exact ih _
    · exact ih abspath
    · exact ih _

@[simp] theorem concatPath_root (abspath : Tree) : concatPath [pathRoot] abspath = nil := by
  simp [concatPath]

@[simp] theorem concatPath_group (k : ℤ) (a : String) (abspath : Tree) :
    concatPath [groupTree k a] abspath = cons (groupTree k a) abspath := by
  have hroot : groupTree k a ≠ pathRoot := groupTree_ne_nameTree k a _
  have hparent : groupTree k a ≠ pathParent := groupTree_ne_nameTree k a _
  have hcurrent : groupTree k a ≠ pathCurrent := groupTree_ne_nameTree k a _
  rw [concatPath, if_neg hroot, if_neg hparent, if_neg hcurrent, concatPath]

theorem concatPath_parent (abspath : Tree) :
    concatPath [pathParent] abspath = (tail? abspath).getD pathParent := by
  have hroot : pathParent ≠ pathRoot := by decide
  rw [concatPath, if_neg hroot, if_pos rfl]
  cases tail? abspath <;> rfl

/-- Without a `..` too many, the elements do what they mean. -/
theorem concatPath_elements {path : List GroupName} {groups : List Group}
    (h : ¬ Climbs path groups) :
    concatPath (path.flatMap GroupName.elements) (stack groups nil) =
      stack (resolvePath path groups) nil := by
  induction path generalizing groups with
  | nil => rfl
  | cons g path ih =>
    rw [List.flatMap_cons, concatPath_append]
    show _ = stack (resolvePath path (g.apply groups)) nil
    cases g with
    | parent =>
      rw [Climbs, not_or] at h
      obtain ⟨hne, hrest⟩ := h
      cases groups with
      | nil => exact absurd rfl hne
      | cons g groups =>
        rw [GroupName.elements, concatPath_parent]
        exact ih hrest
    | current => exact ih h
    | typed type name =>
      rw [GroupName.elements, concatPath_group]
      exact ih h

/-- Once a `..` has been left as the end of the list, it stays there. -/
theorem concatPath_marked (path : List GroupName) (groups : List Group) :
    ∃ groups', concatPath (path.flatMap GroupName.elements) (stack groups pathParent) =
      stack groups' pathParent := by
  induction path generalizing groups with
  | nil => exact ⟨groups, rfl⟩
  | cons g path ih =>
    rw [List.flatMap_cons, concatPath_append]
    cases g with
    | parent =>
      rw [GroupName.elements, concatPath_parent]
      cases groups with
      | nil => exact ih []
      | cons g groups => exact ih groups
    | current => exact ih groups
    | typed type name =>
      rw [GroupName.elements, concatPath_group]
      exact ih ((type.kind, name.text) :: groups)

/-- A `..` too many is left as the end of the list. -/
theorem concatPath_climbs {path : List GroupName} {groups : List Group} (h : Climbs path groups) :
    ∃ groups', concatPath (path.flatMap GroupName.elements) (stack groups nil) =
      stack groups' pathParent := by
  induction path generalizing groups with
  | nil => exact absurd h id
  | cons g path ih =>
    rw [List.flatMap_cons, concatPath_append]
    cases g with
    | parent =>
      rw [GroupName.elements, concatPath_parent]
      cases groups with
      | nil => exact concatPath_marked path []
      | cons g groups =>
        have hrest : Climbs path groups := by simpa [Climbs] using h
        exact ih hrest
    | current => exact ih h
    | typed type name =>
      rw [GroupName.elements, concatPath_group]
      exact ih h

/-! ## The final name -/

/-- Names with different characters have different trees. -/
theorem Name.tree_ne {n : Name} {chars : List Char} (h : n.chars ≠ chars) :
    nameTree n.text ≠ nameTree (String.ofList chars) := by
  intro heq
  rw [nameTree_inj, Name.text, String.ofList_inj] at heq
  exact h heq

/-- The tree of a final name that is not mistaken is no marker. -/
theorem Name.unmarked {n : Name} (h : ¬ n.Mistaken) :
    nameTree n.text ≠ pathRoot ∧ nameTree n.text ≠ pathParent ∧
      nameTree n.text ≠ pathCurrent := by
  unfold Name.Mistaken at h
  push Not at h
  have hslash : n.chars ≠ ['/'] := fun heq => n.no_slash (by simp [heq])
  exact ⟨tree_ne hslash, tree_ne h.2.2, tree_ne h.2.1⟩

/-- A final name that is no marker and looks like no group goes on top of the groups. -/
theorem concatPath_name {n : Name} (h : ¬ n.Mistaken) (abspath : Tree) :
    concatPath (label2path n.chars) abspath = cons (nameTree n.text) abspath := by
  have hcolon : n.chars[1]? ≠ some ':' := fun hc => h (Or.inl hc)
  obtain ⟨hroot, hparent, hcurrent⟩ := Name.unmarked h
  rw [Name.label2path hcolon, concatPath, if_neg hroot, if_neg hparent, if_neg hcurrent,
    concatPath]

/-- A final name mistaken for something else is lost. -/
theorem concatPath_mistaken {n : Name} (h : n.Mistaken) {groups : List Group} {base : Tree}
    (hbase : base = nil ∨ base = pathParent) (t : Tree) :
    concatPath (label2path n.chars) (stack groups base) ≠ cons (nameTree n.text) t := by
  have hne_cons : ∀ x y, base ≠ cons x y := by
    intro x y
    rcases hbase with rfl | rfl
    · simp [nil, leaf, cons]
    · exact nameTree_ne_cons _ _ _
  have htail : tail? base = none := by
    rcases hbase with rfl | rfl <;> rfl
  by_cases hcolon : n.chars[1]? = some ':'
  · -- the name has become a group, and the final name is empty
    obtain ⟨kind, name, hread⟩ := Name.label2path_colon hcolon
    have hempty : concatPath [nameTree ""] (cons (groupTree kind name) (stack groups base)) =
        cons (nameTree "") (cons (groupTree kind name) (stack groups base)) := by
      simp [concatPath, pathRoot, pathParent, pathCurrent]
    rw [hread, show [groupTree kind name, nameTree ""] = [groupTree kind name] ++ [nameTree ""]
      from rfl, concatPath_append, concatPath_group, hempty]
    intro heq
    rw [cons_inj, nameTree_inj, Name.text] at heq
    exact n.ne_nil (String.ofList_eq_empty_iff.1 heq.1.symm)
  · rw [Name.label2path hcolon]
    rcases h with h | h | h
    · exact absurd h hcolon
    · have hmark : nameTree n.text = pathCurrent := by rw [Name.text, h]; rfl
      rw [hmark, concatPath, if_neg (by decide), if_neg (by decide), if_pos rfl, concatPath]
      exact stack_ne_cons_name hne_cons
    · have hmark : nameTree n.text = pathParent := by rw [Name.text, h]; rfl
      rw [hmark, concatPath_parent]
      cases groups with
      | nil =>
        rw [show stack [] base = base from rfl, htail]
        exact nameTree_ne_cons _ _ _
      | cons g groups => exact stack_ne_cons_name hne_cons

/-! ## Labels -/

theorem normalizePath_groups (groups : List Group) :
    normalizePath (groups.map fun g => .group g.1 g.2) = stack groups nil := by
  induction groups with
  | nil => rfl
  | cons g groups ih => rw [List.map_cons, normalizePath, normalizeLabel, ih, stack_cons]

/-- `normalizePath` at a label: the elements of the path, then the final name. -/
theorem Label.normalizePath (l : Label) (groups : List Group) :
    normalizePath (.label l.text :: groups.map fun g => .group g.1 g.2) =
      concatPath (Labels.label2path l.name.chars)
        (concatPath (l.path.flatMap GroupName.elements) (stack (l.start groups) nil)) := by
  rw [Faust.normalizePath, normalizeLabel, normalizePath_groups, Label.text, String.toList_ofList,
    l.label2path, concatPath_append, concatPath_append, Label.start]
  cases l.absolute
  · rfl
  · simp [stack]

/-- Of the list of the final name and of the groups, no element is a marker. -/
theorem resolved_unmarked {n : Name} (h : ¬ n.Mistaken) (groups : List Group) :
    ∀ t ∈ resolved n groups, t ≠ pathRoot ∧ t ≠ pathParent ∧ t ≠ pathCurrent := by
  intro t ht
  rcases List.mem_cons.1 ht with rfl | ht
  · exact Name.unmarked h
  · obtain ⟨g, _, rfl⟩ := List.mem_map.1 ht
    exact ⟨groupTree_ne_nameTree _ _ _, groupTree_ne_nameTree _ _ _, groupTree_ne_nameTree _ _ _⟩

/-- `normalizePath` follows the grammar exactly at the labels whose path has no `..` too many and
whose final name is not mistaken for a marker or for a group. -/
theorem Label.follows_iff (l : Label) (groups : List Group) :
    l.Follows groups ↔ ¬ Climbs l.path (l.start groups) ∧ ¬ l.name.Mistaken := by
  unfold Label.Follows
  rw [l.normalizePath, ofList_resolved]
  by_cases hclimbs : Climbs l.path (l.start groups)
  · -- the list ends with the marker
    obtain ⟨groups', hpath⟩ := concatPath_climbs hclimbs
    rw [hpath]
    have hne : concatPath (Labels.label2path l.name.chars) (stack groups' pathParent) ≠
        cons (nameTree l.name.text) (stack (l.resolve groups) nil) := by
      by_cases hname : l.name.Mistaken
      · exact concatPath_mistaken hname (Or.inr rfl) _
      · rw [concatPath_name hname]
        intro heq
        exact stack_parent_ne _ _ (cons_inj.1 heq).2
    exact ⟨fun h => absurd h.1 hne, fun h => absurd hclimbs h.1⟩
  · rw [concatPath_elements hclimbs]
    by_cases hname : l.name.Mistaken
    · have hne : concatPath (Labels.label2path l.name.chars)
          (stack (resolvePath l.path (l.start groups)) nil) ≠
            cons (nameTree l.name.text) (stack (l.resolve groups) nil) :=
        concatPath_mistaken hname (Or.inl rfl) _
      exact ⟨fun h => absurd h.1 hne, fun h => absurd hname h.2⟩
    · rw [concatPath_name hname]
      exact ⟨fun _ => ⟨hclimbs, hname⟩, fun _ => ⟨rfl, resolved_unmarked hname _⟩⟩

/-- The label `../v` when there is no group around: the marker `..` ends the list. -/
theorem Label.follows_parentAboveTop :
    ¬ (Label.mk false [.parent] ⟨['v'], by decide, by decide⟩).Follows [] := by
  intro h
  have hlist := h.1
  rw [Label.normalizePath, ofList_resolved, concatPath_name (by simp [Name.Mistaken])] at hlist
  exact stack_parent_ne [] _ (cons_inj.1 hlist).2

end Faust.Labels
