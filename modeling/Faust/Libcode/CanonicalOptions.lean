import Faust.Libcode.CommandLine

/-!
# The canonical list of options (`libcode.cpp`)

`reorganizeCompilationOptionsAux` takes options one after the other out of the list of arguments,
in a fixed order, and adds them to a new list. It does not read the list from left to right: it
searches each option among all arguments.
-/

namespace Faust.CommandLine

/-- The two lists `options` and `newoptions`. -/
structure Options where
  options : List String
  newoptions : List String
deriving DecidableEq, Repr

/-- `parseKey`: the position of `key`. -/
def parseKey (options : List String) (key : String) : Option ℕ :=
  options.findIdx? fun option => key = option

/-- `newoptions.push_back`. -/
def pushBack (option : String) : StateM Options Unit :=
  modify fun s => { s with newoptions := s.newoptions ++ [option] }

/-- `options.erase`. -/
def erase (position : ℕ) : StateM Options Unit :=
  modify fun s => { s with options := s.options.eraseIdx position }

/-- `addKeyIfExisting`: add `key` if it exists in `options`, else `defaultKey` if there is one.
The result is where the key was, `position + 1` in the code. -/
def addKeyIfExisting (key defaultKey : String) : StateM Options (Option ℕ) := do
  match parseKey (← get).options key with
  | some position => do
    pushBack key
    erase position
    return some position
  | none => do
    if defaultKey ≠ "" then pushBack defaultKey
    return none

/-- The value in `addKeyValueIfExisting`: what follows the key, or `defaultValue` if this is an
option. -/
def addValue (next : ℕ) (defaultValue : String) : StateM Options Unit := do
  match (← get).options[next]? with
  | some value =>
    if isDashed value then pushBack defaultValue
    else do
      pushBack value
      erase next
  | none => pushBack defaultValue

/-- `addKeyValueIfExisting`: add `key` and its value if it exists in `options`. -/
def addKeyValueIfExisting (key defaultValue : String) : StateM Options Unit := do
  match ← addKeyIfExisting key "" with
  | some next => addValue next defaultValue
  | none => return ()

/-- The third step of `reorganizeCompilationOptionsAux`: the options of vector or of scalar mode. -/
def reorganizeMode (vec : Bool) : StateM Options Unit := do
  if vec then do
    let _ ← addKeyIfExisting "-dfs" ""
    let _ ← addKeyIfExisting "-vls" ""
    let _ ← addKeyIfExisting "-fun" ""
    let _ ← addKeyIfExisting "-g" ""
    addKeyValueIfExisting "-vs" "32"
    addKeyValueIfExisting "-lv" "0"
  else do
    let _ ← addKeyIfExisting "-scal" "-scal"
    let _ ← addKeyIfExisting "-inpl" ""

/-- `-omp`, with `-pl`: whether `-omp` exists. -/
def reorganizeOmp : StateM Options Bool := do
  match ← addKeyIfExisting "-omp" "" with
  | some _ => do
    let _ ← addKeyIfExisting "-pl" ""
    return true
  | none => return false

/-- The third step and what follows. -/
def reorganizeRest (vec : Bool) : StateM Options Unit := do
  reorganizeMode vec
  addKeyValueIfExisting "-mcd" "16"
  addKeyValueIfExisting "-cn" ""

/-- The choice between `-vec` and `-scal`: `vectorize || addKeyIfExisting(.., "-vec", ..)`. -/
def reorganizeVec (vectorize : Bool) : StateM Options Unit :=
  if vectorize then do
    pushBack "-vec"
    reorganizeRest true
  else do
    let vec ← addKeyIfExisting "-vec" ""
    reorganizeRest vec.isSome

/-- `reorganizeCompilationOptionsAux`. -/
def reorganize : StateM Options Unit := do
  -- single or double?
  let _ ← addKeyIfExisting "-double" "-single"
  -- options leading to -vec inclusion
  let sch ← addKeyIfExisting "-sch" ""
  let omp ← reorganizeOmp
  -- options depending on -vec or -scal
  reorganizeVec (sch.isSome || omp)

/-- The new list. -/
def reorganizeCompilationOptionsAux (options : List String) : List String :=
  (reorganize.run ⟨options, []⟩).2.newoptions

end Faust.CommandLine
