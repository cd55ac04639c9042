import Faust.Propagate.Labels
import Mathlib.Data.String.Basic

/-!
# The user interface tree (`uitree.cpp`)

The widgets of a program are kept in a tree of folders, one for each group. The elements of a
folder are a list of keys and items in the alphabetic order of their labels; the key of a folder is
its type and its label, that of a widget is its label.
-/

namespace Faust

/-- The label a key is ordered by: of a pair of a type and a label, the label. -/
def PathElement.text : PathElement → String
  | label name => name
  | group _ name => name

/-- `uiFolder(label, elements)` and `uiWidget(label, varname, sig)`. -/
inductive UiItem
  | folder (label : PathElement) (elements : List (PathElement × UiItem))
  | widget (label : PathElement) (varname sig : Tree)

/-- An item that is a folder. -/
structure UiFolder where
  label : PathElement
  elements : List (PathElement × UiItem)

/-- A folder as an item. -/
def UiFolder.item (f : UiFolder) : UiItem := .folder f.label f.elements

/-- `uiLabel`. -/
def UiItem.uiLabel : UiItem → PathElement
  | folder label _ => label
  | widget label _ _ => label

namespace UiTree

/-- `isBefore`: the order of `strcmp` on the labels. -/
def isBefore (k₁ k₂ : PathElement) : Bool := k₁.text < k₂.text

/-- `findKey`. -/
def findKey (pl : List (PathElement × UiItem)) (key : PathElement) : Option UiItem :=
  match pl with
  | [] => none
  | (k, val) :: tl =>
    if k = key then some val
    else if isBefore k key then findKey tl key
    else none

/-- `updateKey`. -/
def updateKey (pl : List (PathElement × UiItem)) (key : PathElement) (val : UiItem) :
    List (PathElement × UiItem) :=
  match pl with
  | [] => [(key, val)]
  | (k, v) :: tl =>
    if k = key then (key, val) :: tl
    else if isBefore k key then (k, v) :: updateKey tl key val
    else (key, val) :: pl

/-- `addKey`: like `updateKey`, but with several items of one key. -/
def addKey (pl : List (PathElement × UiItem)) (key : PathElement) (val : UiItem) :
    List (PathElement × UiItem) :=
  match pl with
  | [] => [(key, val)]
  | (k, v) :: tl =>
    if isBefore key k then (key, val) :: pl
    else (k, v) :: addKey tl key val

/-- `putFolder`. -/
def putFolder (folder : UiFolder) (item : UiItem) : UiFolder :=
  ⟨folder.label, updateKey folder.elements item.uiLabel item⟩

/-- `addToFolder`. -/
def addToFolder (folder : UiFolder) (item : UiItem) : UiFolder :=
  ⟨folder.label, addKey folder.elements item.uiLabel item⟩

/-- `getFolder`; no item stands for `nil`. -/
def getFolder (folder : UiFolder) (ilabel : PathElement) : Option UiItem :=
  findKey folder.elements ilabel

/-- `makeSubFolderChain`. -/
def makeSubFolderChain : List PathElement → UiItem → UiItem
  | [], elem => elem
  | label :: path, elem => (putFolder ⟨label, []⟩ (makeSubFolderChain path elem)).item

/-- `putSubFolder`. -/
def putSubFolder (folder : UiFolder) : List PathElement → UiItem → UiFolder
  | [], item => addToFolder folder item
  | label :: path, item =>
    match getFolder folder label with
    | some (.folder l elements) =>
      putFolder folder (putSubFolder ⟨l, elements⟩ path item).item
    | _ => putFolder folder (makeSubFolderChain (label :: path) item)

/-- `InstructionsCompiler::addUIWidget`: the new `fUIRoot`. -/
def addUIWidget (fUIRoot : UiFolder) (path : List PathElement) (widget : UiItem) : UiFolder :=
  putSubFolder fUIRoot path widget

end UiTree

end Faust
