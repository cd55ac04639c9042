import Mathlib.Data.Int.Init
import Mathlib.Tactic.Common

/-!
# Descriptions of interfaces (`JSONUI.h`, `PathUI.h`)

The streams are texts that grow at their end. The zones of the calls are not read, and are left out.
`F` is the type `FAUSTFLOAT`, and `print` is how a stream prints its values.
-/

namespace Faust

namespace JSONUI

/-- What the streams hold. -/
abbrev Text := List Char

/-- The calls that open a group. -/
inductive Box
  | openTabBox
  | openHorizontalBox
  | openVerticalBox
deriving DecidableEq

/-- The calls that add a widget. -/
inductive Widget (F : Type)
  | addButton (label : Text)
  | addCheckButton (label : Text)
  | addVerticalSlider (label : Text) (init min max step : F)
  | addHorizontalSlider (label : Text) (init min max step : F)
  | addNumEntry (label : Text) (init min max step : F)
  | addHorizontalBargraph (label : Text) (min max : F)
  | addVerticalBargraph (label : Text) (min max : F)

/-- The calls of the description of an interface. There are two functions `declare`: one is about a
zone, the other is that of `Meta`. -/
inductive Call (F : Type)
  | openBox (b : Box) (label : Text)
  | closeBox
  | add (w : Widget F)
  | declareZone (key val : Text)
  | declare (key value : Text)

end JSONUI

/-- The members of `JSONUI`, and `fControlsLevel` of `PathUI`. -/
structure JSONUI where
  fJSON : JSONUI.Text
  fUI : JSONUI.Text
  fMeta : JSONUI.Text
  fMetaAux : List (JSONUI.Text × JSONUI.Text)
  fName : JSONUI.Text
  fCloseUIPar : Char
  fCloseMetaPar : Char
  fTab : ℤ
  fInputs : ℤ
  fOutputs : ℤ
  fControlsLevel : List JSONUI.Text

namespace JSONUI

/-- `tab`. -/
def tab (n : ℤ) : Text := '\n' :: List.replicate n.toNat '\t'

/-- An `int` printed by a stream. -/
def printInt : ℤ → Text
  | .ofNat n => Nat.toDigits 10 n
  | .negSucc n => '-' :: Nat.toDigits 10 (n + 1)

/-- A line of a description: a key and its value, both between quotes. -/
def line (n : ℤ) (key : String) (value : Text) : Text :=
  tab n ++ '"' :: key.toList ++ "\": \"".toList ++ value ++ ['"']

/-- `fUI << t`. -/
def put (u : JSONUI) (t : Text) : JSONUI := { u with fUI := u.fUI ++ t }

/-- The loop of `addMeta`. -/
def metaLoop (tabVal : ℤ) : Text → List (Text × Text) → Text
  | _, [] => []
  | sep, m :: ms =>
    sep ++ tab (tabVal + 1) ++ "\x7b \"".toList ++ m.1 ++ "\": \"".toList ++ m.2 ++
      "\" \x7d".toList ++ metaLoop tabVal [','] ms

/-- `addMeta`. -/
def addMeta (u : JSONUI) (tabVal : ℤ) (quote : Bool) : JSONUI :=
  if 0 < u.fMetaAux.length then
    let u := u.put (tab tabVal ++ "\"meta\": [".toList)
    let u := u.put (metaLoop tabVal [] u.fMetaAux)
    let u := u.put (tab tabVal ++ if quote then "],".toList else "]".toList)
    { u with fMetaAux := [] }
  else u

/-- `init`, on the members of a new object. -/
def init (name : Text) (inputs outputs : ℤ) : JSONUI where
  fJSON := []
  fUI := tab 1 ++ "\"ui\": [".toList
  fMeta := tab 1 ++ "\"meta\": [".toList
  fMetaAux := []
  fName := name
  fCloseUIPar := ' '
  fCloseMetaPar := ' '
  fTab := 2
  fInputs := inputs
  fOutputs := outputs
  fControlsLevel := []

/-- `buildPath`. -/
def buildPath (u : JSONUI) (label : Text) : Text :=
  let res := u.fControlsLevel.foldl (fun res level => res ++ level ++ ['/']) ['/']
  (res ++ label).map fun c => if c = ' ' then '_' else c

/-! ## Layouts -/

/-- `openGenericGroup`. -/
def openGenericGroup (u : JSONUI) (label : Text) (name : String) : JSONUI :=
  let u := { u with fControlsLevel := u.fControlsLevel ++ [label] }
  let u := u.put [u.fCloseUIPar]
  let u := u.put (tab u.fTab ++ "\x7b".toList)
  let u := { u with fTab := u.fTab + 1 }
  let u := u.put (line u.fTab "type" name.toList ++ [','])
  let u := u.put (line u.fTab "label" label ++ [','])
  let u := u.addMeta (u.fTab + 1) true
  let u := u.put (tab u.fTab ++ "\"items\": [".toList)
  { u with fCloseUIPar := ' ', fTab := u.fTab + 1 }

/-- `openTabBox`, `openHorizontalBox` and `openVerticalBox`. -/
def openBox (u : JSONUI) (b : Box) (label : Text) : JSONUI :=
  match b with
  | .openTabBox => u.openGenericGroup label "tgroup"
  | .openHorizontalBox => u.openGenericGroup label "hgroup"
  | .openVerticalBox => u.openGenericGroup label "vgroup"

/-- `closeBox`, where `pop_back` is defined. -/
def closeBox (u : JSONUI) : Option JSONUI :=
  if u.fControlsLevel = [] then none
  else
    let u := { u with fControlsLevel := u.fControlsLevel.dropLast }
    let u := { u with fTab := u.fTab - 1 }
    let u := u.put (tab u.fTab ++ "]".toList)
    let u := { u with fTab := u.fTab - 1 }
    let u := u.put (tab u.fTab ++ "\x7d".toList)
    some { u with fCloseUIPar := ',' }

/-! ## Widgets -/

/-- `addGenericButton`. -/
def addGenericButton (u : JSONUI) (label : Text) (name : String) : JSONUI :=
  let u := u.put [u.fCloseUIPar]
  let u := u.put (tab u.fTab ++ "\x7b".toList)
  let u := u.put (line (u.fTab + 1) "type" name.toList ++ [','])
  let u := u.put (line (u.fTab + 1) "label" label ++ [','])
  let u := u.put (line (u.fTab + 1) "address" (u.buildPath label) ++
    if 0 < u.fMetaAux.length then [','] else [])
  let u := u.addMeta (u.fTab + 1) false
  let u := u.put (tab u.fTab ++ "\x7d".toList)
  { u with fCloseUIPar := ',' }

section
variable {F : Type} (print : F → Text)

/-- `addGenericEntry`. -/
def addGenericEntry (u : JSONUI) (label : Text) (name : String) (init min max step : F) : JSONUI :=
  let u := u.put [u.fCloseUIPar]
  let u := u.put (tab u.fTab ++ "\x7b".toList)
  let u := u.put (line (u.fTab + 1) "type" name.toList ++ [','])
  let u := u.put (line (u.fTab + 1) "label" label ++ [','])
  let u := u.put (line (u.fTab + 1) "address" (u.buildPath label) ++ [','])
  let u := u.addMeta (u.fTab + 1) true
  let u := u.put (line (u.fTab + 1) "init" (print init) ++ [','])
  let u := u.put (line (u.fTab + 1) "min" (print min) ++ [','])
  let u := u.put (line (u.fTab + 1) "max" (print max) ++ [','])
  let u := u.put (line (u.fTab + 1) "step" (print step))
  let u := u.put (tab u.fTab ++ "\x7d".toList)
  { u with fCloseUIPar := ',' }

/-- `addGenericBargraph`. -/
def addGenericBargraph (u : JSONUI) (label : Text) (name : String) (min max : F) : JSONUI :=
  let u := u.put [u.fCloseUIPar]
  let u := u.put (tab u.fTab ++ "\x7b".toList)
  let u := u.put (line (u.fTab + 1) "type" name.toList ++ [','])
  let u := u.put (line (u.fTab + 1) "label" label ++ [','])
  let u := u.put (line (u.fTab + 1) "address" (u.buildPath label) ++ [','])
  let u := u.addMeta (u.fTab + 1) true
  let u := u.put (line (u.fTab + 1) "min" (print min) ++ [','])
  let u := u.put (line (u.fTab + 1) "max" (print max))
  let u := u.put (tab u.fTab ++ "\x7d".toList)
  { u with fCloseUIPar := ',' }

/-- The calls that add a widget. -/
def add (u : JSONUI) : Widget F → JSONUI
  | .addButton label => u.addGenericButton label "button"
  | .addCheckButton label => u.addGenericButton label "checkbox"
  | .addVerticalSlider label init min max step =>
    u.addGenericEntry print label "vslider" init min max step
  | .addHorizontalSlider label init min max step =>
    u.addGenericEntry print label "hslider" init min max step
  | .addNumEntry label init min max step =>
    u.addGenericEntry print label "nentry" init min max step
  | .addHorizontalBargraph label min max => u.addGenericBargraph print label "hbargraph" min max
  | .addVerticalBargraph label min max => u.addGenericBargraph print label "vbargraph" min max

end

/-! ## Declarations of metadata -/

/-- `declare`, of a zone. -/
def declareZone (u : JSONUI) (key val : Text) : JSONUI :=
  { u with fMetaAux := u.fMetaAux ++ [(key, val)] }

/-- `declare`, of the interface `Meta`. -/
def declare (u : JSONUI) (key value : Text) : JSONUI :=
  let u := { u with fMeta := u.fMeta ++ [u.fCloseMetaPar] }
  let u := if key = "name".toList ∧ u.fName = [] then { u with fName := value } else u
  { u with
    fMeta := u.fMeta ++ tab u.fTab ++ "\x7b \"".toList ++ key ++ "\": \"".toList ++ value ++
      "\" \x7d".toList
    fCloseMetaPar := ',' }

/-! ## The description -/

/-- `flatten`. -/
def flatten (src : Text) : Text :=
  src.flatMap fun c =>
    if c = '\n' ∨ c = '\t' then [' '] else if c = '"' then [Char.ofNat 92, '"'] else [c]

/-- `JSON`: the members it leaves, and the text it returns. -/
def JSON (u : JSONUI) (flat : Bool) : JSONUI × Text :=
  let u := { u with fTab := 0, fJSON := u.fJSON ++ "\x7b".toList }
  let u := { u with fTab := u.fTab + 1 }
  let u := { u with fJSON := u.fJSON ++ line u.fTab "name" u.fName ++ [','] }
  let u :=
    if 0 < u.fInputs then
      { u with fJSON := u.fJSON ++ line u.fTab "inputs" (printInt u.fInputs) ++ [','] }
    else u
  let u :=
    if 0 < u.fOutputs then
      { u with fJSON := u.fJSON ++ line u.fTab "outputs" (printInt u.fOutputs) ++ [','] }
    else u
  let u := { u with fMeta := u.fMeta ++ tab u.fTab ++ "],".toList }
  let u := u.put (tab u.fTab ++ "]".toList)
  let u := { u with fTab := u.fTab - 1 }
  let u :=
    if u.fCloseMetaPar = ',' then { u with fJSON := u.fJSON ++ (u.fMeta ++ u.fUI) }
    else { u with fJSON := u.fJSON ++ u.fUI }
  let u := { u with fJSON := u.fJSON ++ tab u.fTab ++ "\x7d\n".toList }
  (u, if flat then flatten u.fJSON else u.fJSON)

/-! ## Runs -/

section
variable {F : Type} (print : F → Text)

/-- A call. -/
def call (u : JSONUI) : Call F → Option JSONUI
  | .openBox b label => some (u.openBox b label)
  | .closeBox => u.closeBox
  | .add w => some (u.add print w)
  | .declareZone key val => some (u.declareZone key val)
  | .declare key value => some (u.declare key value)

/-- One call after another. -/
def calls : JSONUI → List (Call F) → Option JSONUI
  | u, [] => some u
  | u, c :: cs =>
    match u.call print c with
    | none => none
    | some u => calls u cs

end

end JSONUI

end Faust
