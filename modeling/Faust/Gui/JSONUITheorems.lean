import Faust.Gui.JSONUI
import Faust.Lib.Json

/-!
# What a description decodes to

The calls of a balanced sequence build a forest, whose groups and widgets make up the interface.
`Writes` is what calls add to the streams: the items of the interface, and the global declarations,
each after the separator that the call before it left. The text of `JSON` denotes the description of
the forest, and it is decoded to it.
-/

namespace Faust.JSONUI

open Json (Unescaped Blank Printed PrintedMember quoted joined separator Denotes decode)

/-! ## Interfaces -/

/-- The groups and the widgets that a sequence of calls builds, and its declarations. -/
inductive Forest (F : Type)
  | nil
  | group (b : Box) (label : Text) (body rest : Forest F)
  | widget (w : Widget F) (rest : Forest F)
  | declareZone (key val : Text) (rest : Forest F)
  | declare (key value : Text) (rest : Forest F)

/-- The type of a group. -/
def Box.type : Box → String
  | .openTabBox => "tgroup"
  | .openHorizontalBox => "hgroup"
  | .openVerticalBox => "vgroup"

namespace Widget
variable {F : Type}

/-- The type of a widget. -/
def type : Widget F → String
  | .addButton _ => "button"
  | .addCheckButton _ => "checkbox"
  | .addVerticalSlider _ _ _ _ _ => "vslider"
  | .addHorizontalSlider _ _ _ _ _ => "hslider"
  | .addNumEntry _ _ _ _ _ => "nentry"
  | .addHorizontalBargraph _ _ _ => "hbargraph"
  | .addVerticalBargraph _ _ _ => "vbargraph"

/-- Its label. -/
def label : Widget F → Text
  | .addButton label => label
  | .addCheckButton label => label
  | .addVerticalSlider label _ _ _ _ => label
  | .addHorizontalSlider label _ _ _ _ => label
  | .addNumEntry label _ _ _ _ => label
  | .addHorizontalBargraph label _ _ => label
  | .addVerticalBargraph label _ _ => label

/-- Its values, each with its name. -/
def values : Widget F → List (String × F)
  | .addButton _ => []
  | .addCheckButton _ => []
  | .addVerticalSlider _ init min max step =>
    [("init", init), ("min", min), ("max", max), ("step", step)]
  | .addHorizontalSlider _ init min max step =>
    [("init", init), ("min", min), ("max", max), ("step", step)]
  | .addNumEntry _ init min max step =>
    [("init", init), ("min", min), ("max", max), ("step", step)]
  | .addHorizontalBargraph _ min max => [("min", min), ("max", max)]
  | .addVerticalBargraph _ min max => [("min", min), ("max", max)]

end Widget

/-- Labels, each after a slash, with underscores for their blanks. -/
def address (labels : List Text) : Text :=
  (labels.flatMap fun label => '/' :: label).map fun c => if c = ' ' then '_' else c

/-- A member whose value is a string. -/
def textMember (key : String) (value : Text) : Text × Json := (key.toList, .string value)

/-- A declaration. -/
def declaration (m : Text × Text) : Json := .object [(m.1, .string m.2)]

/-- The member that holds declarations, if there are some. -/
def metaMember (ms : List (Text × Text)) : List (Text × Json) :=
  if ms = [] then [] else [("meta".toList, .array (ms.map declaration))]

/-- A group, with the metadata of the group and its items. -/
def groupItem (b : Box) (label : Text) (ms : List (Text × Text)) (items : List Json) : Json :=
  .object ([textMember "type" b.type.toList, textMember "label" label] ++ metaMember ms ++
    [("items".toList, .array items)])

section
variable {F : Type} (print : F → Text)

/-- A widget, with the labels of its groups and its metadata. -/
def widgetItem (levels : List Text) (w : Widget F) (ms : List (Text × Text)) : Json :=
  .object ([textMember "type" w.type.toList, textMember "label" w.label,
    textMember "address" (address (levels ++ [w.label]))] ++ metaMember ms ++
    w.values.map fun v => textMember v.1 (print v.2))

/-- The items of a forest, in the groups `levels` and after the declarations `ms` on zones, with the
declarations on zones that come after its last item. -/
def Forest.items (levels : List Text) (ms : List (Text × Text)) :
    Forest F → List Json × List (Text × Text)
  | .nil => ([], ms)
  | .group b label body rest =>
    let inner := body.items (levels ++ [label]) []
    let outer := rest.items levels inner.2
    (groupItem b label ms inner.1 :: outer.1, outer.2)
  | .widget w rest =>
    let outer := rest.items levels []
    (widgetItem print levels w ms :: outer.1, outer.2)
  | .declareZone key val rest => rest.items levels (ms ++ [(key, val)])
  | .declare _ _ rest => rest.items levels ms

end

section
variable {F : Type}

/-- The calls that build a forest. -/
def Forest.calls : Forest F → List (Call F)
  | .nil => []
  | .group b label body rest => .openBox b label :: (body.calls ++ .closeBox :: rest.calls)
  | .widget w rest => .add w :: rest.calls
  | .declareZone key val rest => .declareZone key val :: rest.calls
  | .declare key value rest => .declare key value :: rest.calls

/-- The number of open groups after calls, if none of them closes a group that is not open. -/
def depth : ℕ → List (Call F) → Option ℕ
  | n, [] => some n
  | n, .openBox _ _ :: cs => depth (n + 1) cs
  | 0, .closeBox :: _ => none
  | n + 1, .closeBox :: cs => depth n cs
  | n, .add _ :: cs => depth n cs
  | n, .declareZone _ _ :: cs => depth n cs
  | n, .declare _ _ :: cs => depth n cs

/-- Every group that is opened is closed, and only these. -/
def Balanced (cs : List (Call F)) : Prop := depth 0 cs = some 0

/-- The global declarations among calls. -/
def globals : List (Call F) → List (Text × Text)
  | [] => []
  | .declare key value :: cs => (key, value) :: globals cs
  | .openBox _ _ :: cs => globals cs
  | .closeBox :: cs => globals cs
  | .add _ :: cs => globals cs
  | .declareZone _ _ :: cs => globals cs

/-- The strings of a call need no escape. -/
def Call.Clean : Call F → Prop
  | .openBox _ label => Unescaped label
  | .closeBox => True
  | .add w => Unescaped w.label
  | .declareZone key val => Unescaped key ∧ Unescaped val
  | .declare key value => Unescaped key ∧ Unescaped value

end

/-- The first name that is not empty: the one given, or that of a global declaration. -/
def nameOf (name : Text) (gs : List (Text × Text)) : Text :=
  let names := (gs.filter fun g => g.1 = "name".toList).map Prod.snd
  ((name :: names).find? fun n => n ≠ []).getD []

/-- A number of channels, if there are some. -/
def countMember (key : String) (n : ℤ) : List (Text × Json) :=
  if 0 < n then [textMember key (printInt n)] else []

/-- The description of an interface. -/
def description (name : Text) (inputs outputs : ℤ) (gs : List (Text × Text)) (items : List Json) :
    Json :=
  .object ([textMember "name" (nameOf name gs)] ++ countMember "inputs" inputs ++
    countMember "outputs" outputs ++ metaMember gs ++ [("ui".toList, .array items)])

/-! ## The forest of balanced calls -/

section
variable {F : Type}

/-- Calls that close the open groups start with a forest, and go on with a closing if a group is
open. -/
theorem exists_forest_append (k : ℕ) : ∀ (n : ℕ) (cs : List (Call F)), cs.length ≤ k →
    depth n cs = some 0 → ∃ f : Forest F, ∃ ds, cs = f.calls ++ ds ∧
      ((n = 0 ∧ ds = []) ∨ ∃ m es, n = m + 1 ∧ ds = .closeBox :: es ∧ depth m es = some 0) := by
  induction k with
  | zero =>
    intro n cs hk hd
    have hnil : cs = [] := List.length_eq_zero_iff.1 (Nat.le_zero.1 hk)
    subst hnil
    exact ⟨.nil, [], rfl, Or.inl ⟨Option.some.inj hd, rfl⟩⟩
  | succ k ih =>
    intro n cs hk hd
    match cs, hk, hd with
    | [], _, hd => exact ⟨.nil, [], rfl, Or.inl ⟨Option.some.inj hd, rfl⟩⟩
    | .openBox b label :: cs, hk, hd =>
      have hlen : cs.length ≤ k := Nat.le_of_succ_le_succ hk
      have hd' : depth (n + 1) cs = some 0 := by
        simpa only [depth] using hd
      obtain ⟨body, ds, rfl, hds⟩ := ih (n + 1) cs hlen hd'
      cases hds with
      | inl hds => exact absurd hds.1 (Nat.succ_ne_zero n)
      | inr hds =>
        obtain ⟨m, es, hm, rfl, hes⟩ := hds
        cases hm
        have hlen' : es.length ≤ k := by
          simp only [List.length_append, List.length_cons] at hlen
          omega
        obtain ⟨rest, ds, rfl, hds⟩ := ih n es hlen' hes
        refine ⟨.group b label body rest, ds, ?_, hds⟩
        simp only [Forest.calls, List.cons_append, List.append_assoc]
    | .closeBox :: cs, _, hd =>
      cases n with
      | zero => exact absurd hd (by simp [depth])
      | succ n => exact ⟨.nil, _, rfl, Or.inr ⟨n, cs, rfl, rfl, by simpa only [depth] using hd⟩⟩
    | .add w :: cs, hk, hd =>
      obtain ⟨f, ds, rfl, hds⟩ := ih n cs (Nat.le_of_succ_le_succ hk) (by
        cases n <;> simpa only [depth] using hd)
      exact ⟨.widget w f, ds, rfl, hds⟩
    | .declareZone key val :: cs, hk, hd =>
      obtain ⟨f, ds, rfl, hds⟩ := ih n cs (Nat.le_of_succ_le_succ hk) (by
        cases n <;> simpa only [depth] using hd)
      exact ⟨.declareZone key val f, ds, rfl, hds⟩
    | .declare key value :: cs, hk, hd =>
      obtain ⟨f, ds, rfl, hds⟩ := ih n cs (Nat.le_of_succ_le_succ hk) (by
        cases n <;> simpa only [depth] using hd)
      exact ⟨.declare key value f, ds, rfl, hds⟩

/-- Balanced calls build a forest. -/
theorem Balanced.exists_forest {cs : List (Call F)} (h : Balanced cs) :
    ∃ f : Forest F, f.calls = cs := by
  obtain ⟨f, ds, rfl, hds⟩ := exists_forest_append cs.length 0 cs (Nat.le_refl _) h
  cases hds with
  | inl hds => exact ⟨f, by rw [hds.2, List.append_nil]⟩
  | inr hds =>
    obtain ⟨m, es, hm, -⟩ := hds
    exact absurd hm.symm (Nat.succ_ne_zero m)

end

/-! ## The texts of members -/

/-- What `addMeta` puts, if there is metadata, without the comma after it. -/
def metaTexts (n : ℤ) (ms : List (Text × Text)) : List Text :=
  if ms = [] then []
  else [tab n ++ ("\"meta\": [".toList ++ (metaLoop n [] ms ++ (tab n ++ "]".toList)))]

/-- Texts, each before a comma. -/
def withCommas (ts : List Text) : Text := ts.flatMap fun t => t ++ [',']

theorem joined_concat (ts : List Text) (t : Text) : joined [] (ts ++ [t]) = withCommas ts ++ t := by
  induction ts with
  | nil =>
    show [] ++ (t ++ []) = [] ++ t
    rw [List.append_nil]
  | cons u ts ih =>
    have hne : ts ++ [t] ≠ [] := List.append_ne_nil_of_right_ne_nil _ (List.cons_ne_nil t [])
    show [] ++ (u ++ joined [','] (ts ++ [t])) = _
    rw [Json.joined_comma hne, ih]
    simp only [withCommas, List.flatMap_cons, List.append_assoc, List.nil_append, List.cons_append]

theorem blank_tab (n : ℤ) : Blank (tab n) := by
  intro c hc
  cases List.mem_cons.1 hc with
  | inl h =>
    subst h
    decide
  | inr h =>
    have htab := List.eq_of_mem_replicate h
    subst htab
    decide

theorem printed_line (n : ℤ) {key : String} {value : Text} (hkey : Unescaped key.toList)
    (hvalue : Unescaped value) : PrintedMember (textMember key value) (line n key value) := by
  refine ⟨tab n, ' ' :: quoted value, ?_, blank_tab n, hkey,
    (Json.printed_string hvalue).blank Json.blank_space⟩
  simp [line, quoted, textMember]

/-- The strings of declarations need no escape. -/
def CleanMeta (ms : List (Text × Text)) : Prop := ∀ m ∈ ms, Unescaped m.1 ∧ Unescaped m.2

theorem printed_declaration {m : Text × Text} (h : Unescaped m.1 ∧ Unescaped m.2) {w : Text}
    (hw : Blank w) : Printed (declaration m)
      (w ++ ("\x7b \"".toList ++ (m.1 ++ ("\": \"".toList ++ (m.2 ++ "\" \x7d".toList))))) := by
  have hmember : PrintedMember (m.1, .string m.2)
      (' ' :: (quoted m.1 ++ ':' :: ' ' :: quoted m.2)) :=
    ⟨[' '], _, rfl, Json.blank_space, h.1, (Json.printed_string h.2).blank Json.blank_space⟩
  have hobject := Json.printed_object (.cons hmember .nil) Json.blank_nil Json.blank_space
  have := hobject.blank hw
  simpa [joined, quoted, declaration] using this

/-- The declarations that the loop of `addMeta` puts. -/
theorem metaLoop_joined (n : ℤ) (sep : Text) {ms : List (Text × Text)} (h : CleanMeta ms) :
    ∃ ts, List.Forall₂ Printed (ms.map declaration) ts ∧ metaLoop n sep ms = joined sep ts := by
  induction ms generalizing sep with
  | nil => exact ⟨[], .nil, rfl⟩
  | cons m ms ih =>
    obtain ⟨ts, hts, heq⟩ := ih [','] fun x hx => h x (List.mem_cons_of_mem _ hx)
    refine ⟨_, .cons (printed_declaration (h m List.mem_cons_self) (blank_tab (n + 1))) hts, ?_⟩
    simp only [metaLoop, joined, heq, List.append_assoc]

theorem printed_metaTexts (n : ℤ) {ms : List (Text × Text)} (h : CleanMeta ms) :
    List.Forall₂ PrintedMember (metaMember ms) (metaTexts n ms) := by
  by_cases hms : ms = []
  · simp only [metaMember, metaTexts, if_pos hms]
    exact .nil
  · simp only [metaMember, metaTexts, if_neg hms]
    obtain ⟨ts, hts, heq⟩ := metaLoop_joined n [] h
    have harray := Json.printed_array hts Json.blank_nil (blank_tab n)
    refine .cons ⟨tab n, _, ?_, blank_tab n, ?_, harray.blank Json.blank_space⟩ .nil
    · rw [heq]
      simp [quoted]
    · show Unescaped "meta".toList
      exact Json.unescaped_of_all (by decide)

/-! ## What each function puts -/

theorem addMeta_true (u : JSONUI) (n : ℤ) : u.addMeta n true =
    { u with fUI := u.fUI ++ withCommas (metaTexts n u.fMetaAux), fMetaAux := [] } := by
  by_cases h : u.fMetaAux = []
  · rw [addMeta, if_neg (by rw [h]; exact Nat.lt_irrefl 0)]
    cases u
    cases h
    simp [metaTexts, withCommas]
  · rw [addMeta, if_pos (List.length_pos_of_ne_nil h)]
    simp [put, metaTexts, withCommas, h]

theorem addMeta_false (u : JSONUI) (n : ℤ) : u.addMeta n false =
    { u with fUI := u.fUI ++ (metaTexts n u.fMetaAux).flatten, fMetaAux := [] } := by
  by_cases h : u.fMetaAux = []
  · rw [addMeta, if_neg (by rw [h]; exact Nat.lt_irrefl 0)]
    cases u
    cases h
    simp [metaTexts]
  · rw [addMeta, if_pos (List.length_pos_of_ne_nil h)]
    simp [put, metaTexts, h]

/-- The comma that comes before metadata. -/
theorem joined_metaTexts (n : ℤ) (ms : List (Text × Text)) :
    (if 0 < ms.length then [','] else []) ++ (metaTexts n ms).flatten =
      joined [','] (metaTexts n ms) := by
  by_cases h : ms = []
  · subst h
    rfl
  · rw [if_pos (List.length_pos_of_ne_nil h)]
    simp [metaTexts, h, joined]

theorem buildPath_eq (u : JSONUI) (label : Text) :
    u.buildPath label = address (u.fControlsLevel ++ [label]) := by
  have hfold : ∀ (levels : List Text) (res : Text),
      levels.foldl (fun res level => res ++ level ++ ['/']) (res ++ ['/']) ++ label =
        res ++ (levels ++ [label]).flatMap fun level => '/' :: level := by
    intro levels
    induction levels with
    | nil =>
      intro res
      simp
    | cons level levels ih =>
      intro res
      rw [List.foldl_cons, ih]
      simp
  have := hfold u.fControlsLevel []
  rw [buildPath, address]
  exact congrArg _ this

/-- The text of a widget, whose values make up `lines`. -/
def widgetText (u : JSONUI) (label : Text) (name : String) (lines : List Text) : Text :=
  let n := u.fTab + 1
  tab u.fTab ++ '\x7b' :: (joined [] ([line n "type" name.toList, line n "label" label,
    line n "address" (address (u.fControlsLevel ++ [label]))] ++ metaTexts n u.fMetaAux ++
    lines) ++ (tab u.fTab ++ ['\x7d']))

/-- A widget is added to the streams. -/
def putWidget (u : JSONUI) (label : Text) (name : String) (lines : List Text) : JSONUI :=
  { u with
    fUI := u.fUI ++ u.fCloseUIPar :: u.widgetText label name lines
    fMetaAux := []
    fCloseUIPar := ',' }

theorem joined_lines (ts ms : List Text) (t : Text) (ls : List Text) (l : Text) :
    joined [] (ts ++ t :: (ms ++ (ls ++ [l]))) =
      withCommas ts ++ (t ++ (',' :: (withCommas ms ++ (withCommas ls ++ l)))) := by
  rw [← List.append_assoc ms, ← List.cons_append, ← List.append_assoc ts, joined_concat]
  simp [withCommas]

section
variable (u : JSONUI) (label : Text) (name : String)

theorem addGenericButton_eq : u.addGenericButton label name = u.putWidget label name [] := by
  have hcomma := joined_metaTexts (u.fTab + 1) u.fMetaAux
  simp [addGenericButton, putWidget, widgetText, addMeta_false, put, buildPath_eq, joined,
    ← hcomma]

variable {F : Type} (print : F → Text) (init min max step : F)

theorem addGenericEntry_eq : u.addGenericEntry print label name init min max step =
    u.putWidget label name [line (u.fTab + 1) "init" (print init),
      line (u.fTab + 1) "min" (print min), line (u.fTab + 1) "max" (print max),
      line (u.fTab + 1) "step" (print step)] := by
  have hlines := joined_lines
    [line (u.fTab + 1) "type" name.toList, line (u.fTab + 1) "label" label]
    (metaTexts (u.fTab + 1) u.fMetaAux)
    (line (u.fTab + 1) "address" (address (u.fControlsLevel ++ [label])))
    [line (u.fTab + 1) "init" (print init), line (u.fTab + 1) "min" (print min),
      line (u.fTab + 1) "max" (print max)] (line (u.fTab + 1) "step" (print step))
  simp only [List.cons_append, List.nil_append] at hlines
  simp [addGenericEntry, putWidget, widgetText, addMeta_true, put, buildPath_eq, hlines,
    withCommas]

theorem addGenericBargraph_eq : u.addGenericBargraph print label name min max =
    u.putWidget label name [line (u.fTab + 1) "min" (print min),
      line (u.fTab + 1) "max" (print max)] := by
  have hlines := joined_lines
    [line (u.fTab + 1) "type" name.toList, line (u.fTab + 1) "label" label]
    (metaTexts (u.fTab + 1) u.fMetaAux)
    (line (u.fTab + 1) "address" (address (u.fControlsLevel ++ [label])))
    [line (u.fTab + 1) "min" (print min)] (line (u.fTab + 1) "max" (print max))
  simp only [List.cons_append, List.nil_append] at hlines
  simp [addGenericBargraph, putWidget, widgetText, addMeta_true, put, buildPath_eq, hlines,
    withCommas]

theorem add_eq (w : Widget F) : u.add print w = u.putWidget w.label w.type
    (w.values.map fun v => line (u.fTab + 1) v.1 (print v.2)) := by
  cases w with
  | addButton => exact addGenericButton_eq ..
  | addCheckButton => exact addGenericButton_eq ..
  | addVerticalSlider => exact addGenericEntry_eq ..
  | addHorizontalSlider => exact addGenericEntry_eq ..
  | addNumEntry => exact addGenericEntry_eq ..
  | addHorizontalBargraph => exact addGenericBargraph_eq ..
  | addVerticalBargraph => exact addGenericBargraph_eq ..

end

/-- The text of a group, up to its items. -/
def groupText (u : JSONUI) (label : Text) (name : String) : Text :=
  let n := u.fTab + 1
  tab u.fTab ++ '\x7b' :: (withCommas ([line n "type" name.toList, line n "label" label] ++
    metaTexts (n + 1) u.fMetaAux) ++ (tab n ++ "\"items\": [".toList))

theorem openBox_eq (u : JSONUI) (b : Box) (label : Text) : u.openBox b label =
    { u with
      fUI := u.fUI ++ u.fCloseUIPar :: u.groupText label b.type
      fMetaAux := []
      fCloseUIPar := ' '
      fTab := u.fTab + 1 + 1
      fControlsLevel := u.fControlsLevel ++ [label] } := by
  have hopen : ∀ name, u.openGenericGroup label name =
      { u with
        fUI := u.fUI ++ u.fCloseUIPar :: u.groupText label name
        fMetaAux := []
        fCloseUIPar := ' '
        fTab := u.fTab + 1 + 1
        fControlsLevel := u.fControlsLevel ++ [label] } := by
    intro name
    simp [openGenericGroup, groupText, addMeta_true, put, withCommas]
  cases b with
  | openTabBox => exact hopen "tgroup"
  | openHorizontalBox => exact hopen "hgroup"
  | openVerticalBox => exact hopen "vgroup"

theorem closeBox_eq {u : JSONUI} {levels : List Text} {label : Text}
    (h : u.fControlsLevel = levels ++ [label]) : u.closeBox =
    some { u with
      fUI := u.fUI ++ (tab (u.fTab - 1) ++ ']' :: (tab (u.fTab - 1 - 1) ++ ['\x7d']))
      fCloseUIPar := ','
      fTab := u.fTab - 1 - 1
      fControlsLevel := levels } := by
  have hne : u.fControlsLevel ≠ [] := by
    rw [h]
    exact List.append_ne_nil_of_right_ne_nil _ (List.cons_ne_nil label [])
  rw [closeBox, if_neg hne]
  simp [put, h]

/-! ## What calls write -/

/-- The metadata of the next item and the labels of the open groups need no escape. -/
structure Tidy (u : JSONUI) : Prop where
  clean : CleanMeta u.fMetaAux
  levels : ∀ label ∈ u.fControlsLevel, Unescaped label

/-- What is added to the streams from `u` to `u'`: items, and global declarations. -/
structure Writes (u u' : JSONUI) (items : List Json) (gs : List (Text × Text)) : Prop where
  ui : ∃ ts, List.Forall₂ Printed items ts ∧ u'.fUI = u.fUI ++ joined [u.fCloseUIPar] ts ∧
    [u'.fCloseUIPar] = separator [u.fCloseUIPar] ts
  decls : ∃ ts, List.Forall₂ Printed (gs.map declaration) ts ∧
    u'.fMeta = u.fMeta ++ joined [u.fCloseMetaPar] ts ∧
    [u'.fCloseMetaPar] = separator [u.fCloseMetaPar] ts
  name : u'.fName = nameOf u.fName gs
  json : u'.fJSON = u.fJSON
  inputs : u'.fInputs = u.fInputs
  outputs : u'.fOutputs = u.fOutputs
  indent : u'.fTab = u.fTab
  levels : u'.fControlsLevel = u.fControlsLevel

theorem nameOf_nil (name : Text) : nameOf name [] = name := by
  cases name with
  | nil => rfl
  | cons c name => rfl

theorem nameOf_append (name : Text) (gs hs : List (Text × Text)) :
    nameOf name (gs ++ hs) = nameOf (nameOf name gs) hs := by
  have happend : ∀ names names' : List Text,
      ((names ++ names').find? fun n => n ≠ []).getD [] =
        (((names.find? fun n => n ≠ []).getD [] :: names').find? fun n => n ≠ []).getD [] := by
    intro names names'
    rw [List.find?_append]
    cases hfind : names.find? fun n => n ≠ [] with
    | none => rfl
    | some n =>
      have hn : n ≠ [] := by
        simpa using List.find?_some hfind
      show n = _
      rw [Option.getD_some, List.find?_cons_of_pos (by simpa using hn)]
      rfl
  simp only [nameOf, List.filter_append, List.map_append]
  rw [← List.cons_append]
  exact happend _ _

namespace Writes
variable {u u' u'' : JSONUI} {xs ys : List Json} {gs hs : List (Text × Text)}

theorem refl (u : JSONUI) : Writes u u [] [] where
  ui := ⟨[], .nil, (List.append_nil _).symm, rfl⟩
  decls := ⟨[], .nil, (List.append_nil _).symm, rfl⟩
  name := (nameOf_nil _).symm
  json := rfl
  inputs := rfl
  outputs := rfl
  indent := rfl
  levels := rfl

theorem trans (h : Writes u u' xs gs) (h' : Writes u' u'' ys hs) :
    Writes u u'' (xs ++ ys) (gs ++ hs) where
  ui := by
    obtain ⟨ts, hts, heq, hsep⟩ := h.ui
    obtain ⟨us, hus, heq', hsep'⟩ := h'.ui
    refine ⟨ts ++ us, List.rel_append hts hus, ?_, ?_⟩
    · rw [heq', heq, hsep, Json.joined_append, List.append_assoc]
    · rw [hsep', hsep, Json.separator_append]
  decls := by
    obtain ⟨ts, hts, heq, hsep⟩ := h.decls
    obtain ⟨us, hus, heq', hsep'⟩ := h'.decls
    refine ⟨ts ++ us, ?_, ?_, ?_⟩
    · rw [List.map_append]
      exact List.rel_append hts hus
    · rw [heq', heq, hsep, Json.joined_append, List.append_assoc]
    · rw [hsep', hsep, Json.separator_append]
  name := by rw [h'.name, h.name, nameOf_append]
  json := h'.json.trans h.json
  inputs := h'.inputs.trans h.inputs
  outputs := h'.outputs.trans h.outputs
  indent := h'.indent.trans h.indent
  levels := h'.levels.trans h.levels

end Writes

theorem unescaped_address {labels : List Text} (h : ∀ label ∈ labels, Unescaped label) :
    Unescaped (address labels) := by
  intro c hc
  obtain ⟨d, hd, hcd⟩ := List.mem_map.1 hc
  by_cases hblank : d = ' '
  · rw [if_pos hblank] at hcd
    subst hcd
    decide
  · rw [if_neg hblank] at hcd
    subst hcd
    obtain ⟨label, hlabel, hd⟩ := List.mem_flatMap.1 hd
    cases List.mem_cons.1 hd with
    | inl hslash =>
      subst hslash
      decide
    | inr hmem => exact h label hlabel d hmem

theorem Box.unescaped_type (b : Box) : Unescaped b.type.toList := by
  cases b with
  | openTabBox => exact Json.unescaped_of_all (by decide)
  | openHorizontalBox => exact Json.unescaped_of_all (by decide)
  | openVerticalBox => exact Json.unescaped_of_all (by decide)

section
variable {F : Type} {print : F → Text} {u : JSONUI}

theorem Widget.unescaped_type (w : Widget F) : Unescaped w.type.toList := by
  cases w with
  | addButton =>
    show Unescaped "button".toList
    exact Json.unescaped_of_all (by decide)
  | addCheckButton =>
    show Unescaped "checkbox".toList
    exact Json.unescaped_of_all (by decide)
  | addVerticalSlider =>
    show Unescaped "vslider".toList
    exact Json.unescaped_of_all (by decide)
  | addHorizontalSlider =>
    show Unescaped "hslider".toList
    exact Json.unescaped_of_all (by decide)
  | addNumEntry =>
    show Unescaped "nentry".toList
    exact Json.unescaped_of_all (by decide)
  | addHorizontalBargraph =>
    show Unescaped "hbargraph".toList
    exact Json.unescaped_of_all (by decide)
  | addVerticalBargraph =>
    show Unescaped "vbargraph".toList
    exact Json.unescaped_of_all (by decide)

/-- The names of the values of a widget. -/
theorem Widget.unescaped_values (w : Widget F) : ∀ v ∈ w.values, Unescaped v.1.toList := by
  have hnames : ∀ key ∈ ["init", "min", "max", "step"], Unescaped key.toList := by
    intro key hkey
    have hall : (["init", "min", "max", "step"].all fun key => key.toList.all Json.isUnescaped) =
        true := by decide
    exact Json.unescaped_of_all (List.all_eq_true.1 hall key hkey)
  intro v hv
  apply hnames
  cases w with
  | addButton => cases hv
  | addCheckButton => cases hv
  | addVerticalSlider => exact List.mem_map_of_mem (f := Prod.fst) hv
  | addHorizontalSlider => exact List.mem_map_of_mem (f := Prod.fst) hv
  | addNumEntry => exact List.mem_map_of_mem (f := Prod.fst) hv
  | addHorizontalBargraph =>
    have := List.mem_map_of_mem (f := Prod.fst) hv
    exact List.mem_cons_of_mem _ (List.mem_append_left ["step"] this)
  | addVerticalBargraph =>
    have := List.mem_map_of_mem (f := Prod.fst) hv
    exact List.mem_cons_of_mem _ (List.mem_append_left ["step"] this)

/-- The text of a widget is one of its item. -/
theorem printed_widget (hprint : ∀ v, Unescaped (print v)) (hu : u.Tidy) {w : Widget F}
    (hw : Unescaped w.label) : Printed (widgetItem print u.fControlsLevel w u.fMetaAux)
      (u.widgetText w.label w.type
        (w.values.map fun v => line (u.fTab + 1) v.1 (print v.2))) := by
  have haddress : Unescaped (address (u.fControlsLevel ++ [w.label])) := by
    refine unescaped_address fun label hlabel => ?_
    cases List.mem_append.1 hlabel with
    | inl h => exact hu.levels label h
    | inr h => exact List.mem_singleton.1 h ▸ hw
  have hhead : List.Forall₂ PrintedMember
      [textMember "type" w.type.toList, textMember "label" w.label,
        textMember "address" (address (u.fControlsLevel ++ [w.label]))]
      [line (u.fTab + 1) "type" w.type.toList, line (u.fTab + 1) "label" w.label,
        line (u.fTab + 1) "address" (address (u.fControlsLevel ++ [w.label]))] :=
    .cons (printed_line _ (Json.unescaped_of_all (by decide)) w.unescaped_type)
      (.cons (printed_line _ (Json.unescaped_of_all (by decide)) hw)
        (.cons (printed_line _ (Json.unescaped_of_all (by decide)) haddress) .nil))
  have hvalues : List.Forall₂ PrintedMember
      (w.values.map fun v => textMember v.1 (print v.2))
      (w.values.map fun v => line (u.fTab + 1) v.1 (print v.2)) := by
    rw [List.forall₂_map_left_iff, List.forall₂_map_right_iff, List.forall₂_same]
    exact fun v hv => printed_line _ (w.unescaped_values v hv) (hprint _)
  have hmembers := List.rel_append (List.rel_append hhead
    (printed_metaTexts (u.fTab + 1) hu.clean)) hvalues
  exact (Json.printed_object hmembers Json.blank_nil (blank_tab u.fTab)).blank (blank_tab u.fTab)

/-- The text of a group with its items is one of its item. -/
theorem printed_group (hu : u.Tidy) {b : Box} {label : Text} (hlabel : Unescaped label)
    {items : List Json} {ts : List Text} (hts : List.Forall₂ Printed items ts) :
    Printed (groupItem b label u.fMetaAux items)
      (u.groupText label b.type ++ (joined [' '] ts ++
        (tab (u.fTab + 1) ++ ']' :: (tab u.fTab ++ ['\x7d'])))) := by
  have hhead : List.Forall₂ PrintedMember
      [textMember "type" b.type.toList, textMember "label" label]
      [line (u.fTab + 1) "type" b.type.toList, line (u.fTab + 1) "label" label] :=
    .cons (printed_line _ (Json.unescaped_of_all (by decide)) b.unescaped_type)
      (.cons (printed_line _ (Json.unescaped_of_all (by decide)) hlabel) .nil)
  have hitems : PrintedMember ("items".toList, .array items)
      (tab (u.fTab + 1) ++ ("\"items\": [".toList ++
        (joined [' '] ts ++ (tab (u.fTab + 1) ++ [']'])))) := by
    have harray := Json.printed_array hts Json.blank_space (blank_tab (u.fTab + 1))
    refine ⟨tab (u.fTab + 1), _, ?_, blank_tab _, Json.unescaped_of_all rfl,
      harray.blank Json.blank_space⟩
    simp [quoted]
  have hmembers := List.rel_append (List.rel_append hhead
    (printed_metaTexts (u.fTab + 1 + 1) hu.clean)) (List.Forall₂.cons hitems .nil)
  have hobject := Json.printed_object hmembers Json.blank_nil (blank_tab u.fTab)
  rw [joined_concat] at hobject
  have := hobject.blank (blank_tab u.fTab)
  simpa [groupText, groupItem] using this

theorem writes_add (hprint : ∀ v, Unescaped (print v)) (hu : u.Tidy) {w : Widget F}
    (hw : Unescaped w.label) :
    Writes u (u.add print w) [widgetItem print u.fControlsLevel w u.fMetaAux] [] := by
  rw [add_eq]
  exact {
    ui := ⟨_, .cons (printed_widget hprint hu hw) .nil, by simp [putWidget, joined], rfl⟩
    decls := ⟨[], .nil, (List.append_nil _).symm, rfl⟩
    name := (nameOf_nil _).symm
    json := rfl
    inputs := rfl
    outputs := rfl
    indent := rfl
    levels := rfl }

theorem writes_declareZone (key val : Text) : Writes u (u.declareZone key val) [] [] where
  ui := ⟨[], .nil, (List.append_nil _).symm, rfl⟩
  decls := ⟨[], .nil, (List.append_nil _).symm, rfl⟩
  name := (nameOf_nil _).symm
  json := rfl
  inputs := rfl
  outputs := rfl
  indent := rfl
  levels := rfl

theorem declare_eq (key value : Text) : u.declare key value =
    { u with
      fMeta := u.fMeta ++ u.fCloseMetaPar :: (tab u.fTab ++
        ("\x7b \"".toList ++ (key ++ ("\": \"".toList ++ (value ++ "\" \x7d".toList)))))
      fCloseMetaPar := ','
      fName := nameOf u.fName [(key, value)] } := by
  -- the first name that is not empty is kept
  by_cases hkey : key = "name".toList
  · subst hkey
    by_cases hname : u.fName = []
    · cases value with
      | nil => simp [declare, nameOf, hname]
      | cons c value => simp [declare, nameOf, hname]
    · simp [declare, nameOf, hname]
  · have hname : nameOf u.fName [(key, value)] = u.fName := by
      rw [nameOf, List.filter_cons_of_neg (by simpa using hkey)]
      exact nameOf_nil u.fName
    rw [declare, if_neg fun h => hkey h.1, hname]
    simp

theorem writes_declare {key value : Text} (hkey : Unescaped key) (hvalue : Unescaped value) :
    Writes u (u.declare key value) [] [(key, value)] := by
  have hprinted := printed_declaration (m := (key, value)) ⟨hkey, hvalue⟩ (blank_tab u.fTab)
  rw [declare_eq]
  exact {
    ui := ⟨[], .nil, (List.append_nil _).symm, rfl⟩
    decls := ⟨_, .cons hprinted .nil, by simp [joined], rfl⟩
    name := rfl
    json := rfl
    inputs := rfl
    outputs := rfl
    indent := rfl
    levels := rfl }

/-- A group is opened, what it holds is written, and it is closed. -/
theorem writes_group (hu : u.Tidy) {b : Box} {label : Text} (hlabel : Unescaped label)
    {u' : JSONUI} {items : List Json} {gs : List (Text × Text)}
    (h : Writes (u.openBox b label) u' items gs) : ∃ u'', u'.closeBox = some u'' ∧
      Writes u u'' [groupItem b label u.fMetaAux items] gs ∧ u''.fMetaAux = u'.fMetaAux := by
  rw [openBox_eq] at h
  obtain ⟨ts, hts, hui, -⟩ := h.ui
  refine ⟨_, closeBox_eq h.levels, ?_, rfl⟩
  have hindent : u'.fTab - 1 - 1 = u.fTab := by
    rw [h.indent]
    show u.fTab + 1 + 1 - 1 - 1 = u.fTab
    omega
  have hindent' : u'.fTab - 1 = u.fTab + 1 := by omega
  exact {
    ui := by
      refine ⟨_, .cons (printed_group hu hlabel hts) .nil, ?_, rfl⟩
      simp [hui, hindent', joined]
    decls := h.decls
    name := h.name
    json := h.json
    inputs := h.inputs
    outputs := h.outputs
    indent := hindent
    levels := rfl }

theorem Tidy.openBox (hu : u.Tidy) (b : Box) {label : Text} (hlabel : Unescaped label) :
    (u.openBox b label).Tidy := by
  rw [openBox_eq]
  refine ⟨fun m hm => absurd hm List.not_mem_nil, fun l hl => ?_⟩
  cases List.mem_append.1 hl with
  | inl h => exact hu.levels l h
  | inr h => exact List.mem_singleton.1 h ▸ hlabel

theorem calls_closeBox {cs : List (Call F)} {u' : JSONUI} (h : u.closeBox = some u') :
    u.calls print (.closeBox :: cs) = u'.calls print cs := by
  rw [calls, call, h]

theorem calls_append {cs ds : List (Call F)} {u' : JSONUI} (h : u.calls print cs = some u') :
    u.calls print (cs ++ ds) = u'.calls print ds := by
  induction cs generalizing u with
  | nil =>
    cases h
    rfl
  | cons c cs ih =>
    simp only [List.cons_append, calls] at h ⊢
    cases hc : u.call print c with
    | none =>
      rw [hc] at h
      cases h
    | some v =>
      rw [hc] at h
      exact ih h

theorem globals_append (cs ds : List (Call F)) : globals (cs ++ ds) = globals cs ++ globals ds := by
  induction cs with
  | nil => rfl
  | cons c cs ih =>
    cases c with
    | declare key value => exact congrArg _ ih
    | openBox => exact ih
    | closeBox => exact ih
    | add => exact ih
    | declareZone => exact ih

/-- The calls that build a forest write its items and its declarations. -/
theorem writes_forest (hprint : ∀ v, Unescaped (print v)) (f : Forest F) : ∀ {u : JSONUI},
    u.Tidy → (∀ c ∈ f.calls, c.Clean) → ∃ u', u.calls print f.calls = some u' ∧ u'.Tidy ∧
      Writes u u' (f.items print u.fControlsLevel u.fMetaAux).1 (globals f.calls) ∧
      u'.fMetaAux = (f.items print u.fControlsLevel u.fMetaAux).2 := by
  induction f with
  | nil => exact fun hu _ => ⟨_, rfl, hu, .refl _, rfl⟩
  | group b label body rest ihbody ihrest =>
    intro u hu hclean
    have hlabel : Unescaped label := hclean (.openBox b label) List.mem_cons_self
    obtain ⟨u₁, hbody, htidy, hwrites, hmeta⟩ := ihbody (hu.openBox b hlabel) fun c hc =>
      hclean c (List.mem_cons_of_mem _ (List.mem_append_left _ hc))
    obtain ⟨u₂, hclose, hgroup, hmeta'⟩ := writes_group hu hlabel hwrites
    have htidy' : u₂.Tidy :=
      ⟨hmeta' ▸ htidy.clean, fun l hl => hu.levels l (hgroup.levels ▸ hl)⟩
    obtain ⟨u₃, hrest, htidy'', hwrites', hmeta''⟩ := ihrest htidy' fun c hc =>
      hclean c (List.mem_cons_of_mem _ (List.mem_append_right _ (List.mem_cons_of_mem _ hc)))
    have hlevels : (u.openBox b label).fControlsLevel = u.fControlsLevel ++ [label] := by
      rw [openBox_eq]
    have haux : (u.openBox b label).fMetaAux = [] := by
      rw [openBox_eq]
    rw [hlevels, haux] at hgroup hmeta
    rw [hgroup.levels, hmeta', hmeta] at hwrites' hmeta''
    refine ⟨u₃, ?_, htidy'', ?_, hmeta''⟩
    · show (u.openBox b label).calls print (body.calls ++ .closeBox :: rest.calls) = _
      rw [calls_append hbody]
      rw [calls_closeBox hclose]
      exact hrest
    · have hglobals : globals (Forest.group b label body rest).calls =
          globals body.calls ++ globals rest.calls := by
        show globals (body.calls ++ .closeBox :: rest.calls) = _
        rw [globals_append]
        rfl
      rw [hglobals]
      exact hgroup.trans hwrites'
  | widget w rest ih =>
    intro u hu hclean
    have hw : Unescaped w.label := hclean (.add w) List.mem_cons_self
    have hwidget := writes_add hprint hu hw
    have haux : (u.add print w).fMetaAux = [] := by
      rw [add_eq]
      rfl
    have htidy : (u.add print w).Tidy := by
      refine ⟨fun m hm => ?_, fun l hl => hu.levels l (hwidget.levels ▸ hl)⟩
      rw [haux] at hm
      exact absurd hm List.not_mem_nil
    obtain ⟨u', hcalls, htidy', hwrites, hmeta⟩ := ih htidy fun c hc =>
      hclean c (List.mem_cons_of_mem _ hc)
    rw [haux, hwidget.levels] at hwrites hmeta
    exact ⟨u', hcalls, htidy', hwidget.trans hwrites, hmeta⟩
  | declareZone key val rest ih =>
    intro u hu hclean
    have htidy : (u.declareZone key val).Tidy := by
      refine ⟨fun m hm => ?_, hu.levels⟩
      cases List.mem_append.1 hm with
      | inl h => exact hu.clean m h
      | inr h => exact List.mem_singleton.1 h ▸ hclean (.declareZone key val) List.mem_cons_self
    obtain ⟨u', hcalls, htidy', hwrites, hmeta⟩ := ih htidy fun c hc =>
      hclean c (List.mem_cons_of_mem _ hc)
    exact ⟨u', hcalls, htidy', (writes_declareZone key val).trans hwrites, hmeta⟩
  | declare key value rest ih =>
    intro u hu hclean
    have hdeclare : Unescaped key ∧ Unescaped value :=
      hclean (.declare key value) List.mem_cons_self
    have hfirst := writes_declare (u := u) hdeclare.1 hdeclare.2
    have haux : (u.declare key value).fMetaAux = u.fMetaAux := by
      rw [declare_eq]
    have htidy : (u.declare key value).Tidy :=
      ⟨haux ▸ hu.clean, fun l hl => hu.levels l (hfirst.levels ▸ hl)⟩
    obtain ⟨u', hcalls, htidy', hwrites, hmeta⟩ := ih htidy fun c hc =>
      hclean c (List.mem_cons_of_mem _ hc)
    rw [haux, hfirst.levels] at hwrites hmeta
    exact ⟨u', hcalls, htidy', hfirst.trans hwrites, hmeta⟩

end

/-! ## The text of the description -/

theorem isUnescaped_of_isDigit {c : Char} (h : c.isDigit = true) : Json.isUnescaped c = true := by
  have hc : 48 ≤ c.toNat ∧ c.toNat ≤ 57 := by
    simp only [Char.isDigit, Bool.and_eq_true, decide_eq_true_eq] at h
    exact ⟨h.1, h.2⟩
  have hquote : c ≠ '"' := by
    intro heq
    rw [heq] at hc
    exact absurd hc.1 (by decide)
  simp only [Json.isUnescaped, Bool.and_eq_true, bne_iff_ne, decide_eq_true_eq]
  exact ⟨⟨hquote, by omega⟩, by omega⟩

theorem unescaped_printInt (n : ℤ) : Unescaped (printInt n) := by
  have hdigits : ∀ k : ℕ, Unescaped (Nat.toDigits 10 k) := fun k c hc =>
    isUnescaped_of_isDigit (Nat.isDigit_of_mem_toDigits (by decide) (by decide) hc)
  cases n with
  | ofNat n => exact hdigits n
  | negSucc n =>
    intro c hc
    cases List.mem_cons.1 hc with
    | inl h =>
      subst h
      decide
    | inr h => exact hdigits (n + 1) c h

theorem unescaped_nameOf {name : Text} {gs : List (Text × Text)} (hname : Unescaped name)
    (hgs : CleanMeta gs) : Unescaped (nameOf name gs) := by
  rw [nameOf]
  cases hfind : (name :: (gs.filter fun g => g.1 = "name".toList).map Prod.snd).find?
      fun n => n ≠ [] with
  | none => exact fun c hc => absurd hc List.not_mem_nil
  | some n =>
    show Unescaped n
    cases List.mem_cons.1 (List.mem_of_find?_eq_some hfind) with
    | inl h => exact h ▸ hname
    | inr h =>
      obtain ⟨g, hg, rfl⟩ := List.mem_map.1 h
      exact (hgs g (List.mem_of_mem_filter hg)).2

theorem clean_globals {F : Type} {cs : List (Call F)} (h : ∀ c ∈ cs, c.Clean) :
    CleanMeta (globals cs) := by
  induction cs with
  | nil => exact fun m hm => absurd hm List.not_mem_nil
  | cons c cs ih =>
    have hrest := ih fun d hd => h d (List.mem_cons_of_mem _ hd)
    cases c with
    | declare key value =>
      intro m hm
      cases List.mem_cons.1 hm with
      | inl hm => exact hm ▸ h (.declare key value) List.mem_cons_self
      | inr hm => exact hrest m hm
    | openBox => exact hrest
    | closeBox => exact hrest
    | add => exact hrest
    | declareZone => exact hrest

/-- The line of a number of channels, if there are some. -/
def countTexts (key : String) (n : ℤ) : List Text :=
  if 0 < n then [line 1 key (printInt n)] else []

theorem printed_countTexts {key : String} (hkey : Unescaped key.toList) (n : ℤ) :
    List.Forall₂ PrintedMember (countMember key n) (countTexts key n) := by
  by_cases hn : 0 < n
  · simp only [countMember, countTexts, if_pos hn]
    exact .cons (printed_line 1 hkey (unescaped_printInt n)) .nil
  · simp only [countMember, countTexts, if_neg hn]
    exact .nil

theorem JSON_eq {u : JSONUI} (h : u.fJSON = []) : (u.JSON false).2 =
    '\x7b' :: (joined [] ([line 1 "name" u.fName] ++ countTexts "inputs" u.fInputs ++
      countTexts "outputs" u.fOutputs ++
      (if u.fCloseMetaPar = ',' then [u.fMeta ++ (tab 1 ++ [']'])] else []) ++
      [u.fUI ++ (tab 1 ++ [']'])]) ++ (tab 0 ++ ['\x7d'])) ++ ['\n'] := by
  rw [joined_concat]
  by_cases hinputs : 0 < u.fInputs
  all_goals
    by_cases houtputs : 0 < u.fOutputs
    all_goals
      by_cases hmeta : u.fCloseMetaPar = ','
      all_goals simp [JSON, put, withCommas, countTexts, h, hinputs, houtputs, hmeta]

/-- The texts of the streams `fUI` and `fMeta`, with their closing brackets. -/
theorem printed_stream {key : String} (hkey : Unescaped key.toList) {items : List Json}
    {ts : List Text} (hts : List.Forall₂ Printed items ts) :
    PrintedMember (key.toList, .array items)
      (tab 1 ++ '"' :: key.toList ++ "\": [".toList ++ joined [' '] ts ++ (tab 1 ++ [']'])) := by
  have harray := Json.printed_array hts Json.blank_space (blank_tab 1)
  refine ⟨tab 1, _, ?_, blank_tab 1, hkey, harray.blank Json.blank_space⟩
  simp [quoted]

/-- The member of the global declarations: the separator tells whether there is one. -/
theorem printed_declarations {name : Text} {inputs outputs : ℤ} {u : JSONUI} {items : List Json}
    {gs : List (Text × Text)} (h : Writes (init name inputs outputs) u items gs) :
    List.Forall₂ PrintedMember (metaMember gs)
      (if u.fCloseMetaPar = ',' then [u.fMeta ++ (tab 1 ++ [']'])] else []) := by
  obtain ⟨ts, hts, hmeta, hsep⟩ := h.decls
  by_cases hgs : gs = []
  · have hnil : ts = [] := by
      subst hgs
      exact List.forall₂_nil_left_iff.1 hts
    have hspace : u.fCloseMetaPar = ' ' := by
      rw [hnil] at hsep
      exact (List.cons.inj hsep).1
    rw [metaMember, if_pos hgs, if_neg (by rw [hspace]; decide)]
    exact .nil
  · have hcomma : u.fCloseMetaPar = ',' := by
      cases ts with
      | nil => exact absurd (List.map_eq_nil_iff.1 (List.forall₂_nil_right_iff.1 hts)) hgs
      | cons t ts => exact (List.cons.inj hsep).1
    rw [metaMember, if_neg hgs, if_pos hcomma, hmeta]
    exact .cons (printed_stream (Json.unescaped_of_all (by decide)) hts) .nil

/-- What is written after `init` makes up a description. -/
theorem Writes.denotes {name : Text} {inputs outputs : ℤ} {u : JSONUI} {items : List Json}
    {gs : List (Text × Text)} (h : Writes (init name inputs outputs) u items gs)
    (hname : Unescaped name) (hgs : CleanMeta gs) :
    Denotes (u.JSON false).2 (description name inputs outputs gs items) := by
  have hnamed : PrintedMember (textMember "name" (nameOf name gs)) (line 1 "name" u.fName) := by
    rw [h.name]
    exact printed_line 1 (Json.unescaped_of_all (by decide)) (unescaped_nameOf hname hgs)
  have hinputs : List.Forall₂ PrintedMember (countMember "inputs" inputs)
      (countTexts "inputs" inputs) :=
    printed_countTexts (Json.unescaped_of_all (by decide)) inputs
  have houtputs : List.Forall₂ PrintedMember (countMember "outputs" outputs)
      (countTexts "outputs" outputs) :=
    printed_countTexts (Json.unescaped_of_all (by decide)) outputs
  have hitems : PrintedMember ("ui".toList, .array items) (u.fUI ++ (tab 1 ++ [']'])) := by
    obtain ⟨ts, hts, hui, -⟩ := h.ui
    rw [hui]
    exact printed_stream (Json.unescaped_of_all (by decide)) hts
  have hmembers := List.rel_append (List.rel_append (List.rel_append (List.rel_append
    (List.Forall₂.cons hnamed .nil) hinputs) houtputs) (printed_declarations h))
    (List.Forall₂.cons hitems .nil)
  have hnewline : Blank ['\n'] := by
    intro c hc
    rw [List.mem_singleton.1 hc]
    decide
  have hin : u.fInputs = inputs := h.inputs
  have hout : u.fOutputs = outputs := h.outputs
  rw [JSON_eq h.json, hin, hout]
  exact (Json.printed_object hmembers Json.blank_nil (blank_tab 0)).denotes hnewline

/-- For balanced calls whose strings need no escape, the text that `JSON` returns denotes the
description of the forest that the calls build, and it is decoded to this description. -/
theorem JSON_decodes {F : Type} {print : F → Text} (hprint : ∀ v, Unescaped (print v))
    {name : Text} (hname : Unescaped name) (inputs outputs : ℤ) {cs : List (Call F)}
    (hclean : ∀ c ∈ cs, c.Clean) (hbalanced : Balanced cs) :
    (∃ f : Forest F, f.calls = cs) ∧ ∀ f : Forest F, f.calls = cs →
      ∃ u, (init name inputs outputs).calls print cs = some u ∧
        Denotes (u.JSON false).2
          (description name inputs outputs (globals cs) (f.items print [] []).1) ∧
        decode (u.JSON false).2 =
          some (description name inputs outputs (globals cs) (f.items print [] []).1) := by
  refine ⟨hbalanced.exists_forest, fun f hf => ?_⟩
  subst hf
  have htidy : (init name inputs outputs).Tidy :=
    ⟨fun m hm => absurd hm List.not_mem_nil, fun l hl => absurd hl List.not_mem_nil⟩
  obtain ⟨u, hcalls, -, hwrites, -⟩ := writes_forest hprint f htidy hclean
  have hdenotes := hwrites.denotes hname (clean_globals hclean)
  exact ⟨u, hcalls, hdenotes, Json.decode_of_denotes hdenotes⟩

/-- A button with metadata, in a group. -/
theorem JSON_decodes_button :
    ∃ u, (init "d".toList 0 1).calls (fun _ : Unit => ['0']) [.openBox .openTabBox "g h".toList,
        .declareZone "k".toList "v".toList, .add (.addButton "b".toList), .closeBox] = some u ∧
      decode (u.JSON false).2 = some (description "d".toList 0 1 []
        [groupItem .openTabBox "g h".toList [] [.object
          ([textMember "type" "button".toList, textMember "label" "b".toList,
            textMember "address" "/g_h/b".toList] ++
            metaMember [("k".toList, "v".toList)])]]) := by
  have hclean : ∀ c ∈ ([.openBox .openTabBox "g h".toList, .declareZone "k".toList "v".toList,
      .add (.addButton "b".toList), .closeBox] : List (Call Unit)), c.Clean := by
    have hchars : ∀ s ∈ ["g h", "k", "v", "b"], Unescaped s.toList := by
      intro s hs
      have hall : (["g h", "k", "v", "b"].all fun s => s.toList.all Json.isUnescaped) = true := by
        decide
      exact Json.unescaped_of_all (List.all_eq_true.1 hall s hs)
    intro c hc
    simp only [List.mem_cons, List.not_mem_nil, or_false] at hc
    obtain rfl | rfl | rfl | rfl := hc
    · exact hchars "g h" (by simp)
    · exact ⟨hchars "k" (by simp), hchars "v" (by simp)⟩
    · exact hchars "b" (by simp)
    · exact trivial
  have hprint : ∀ v, Unescaped ((fun _ : Unit => ['0']) v) := fun _ =>
    Json.unescaped_of_all (t := ['0']) (by decide)
  have hname : Unescaped "d".toList := Json.unescaped_of_all (by decide)
  obtain ⟨u, hcalls, -, hdecode⟩ := (JSON_decodes hprint hname 0 1 hclean rfl).2
    (.group .openTabBox "g h".toList
      (.declareZone "k".toList "v".toList (.widget (.addButton "b".toList) .nil)) .nil) rfl
  exact ⟨u, hcalls, hdecode⟩

end Faust.JSONUI
