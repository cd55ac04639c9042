import Mathlib.Data.Finset.Insert
import Mathlib.Data.List.DropRight
import Mathlib.Tactic.Common

/-!
# Metadata in labels (`description.cpp`, `Text.cpp`)

A label may carry metadata: `vol [unit: dB]` is the label `vol` with the value `dB` of the key
`unit`. Strings are lists of characters.
-/

namespace Faust

/-- The blanks of `rmWhiteSpaces`: `" \t"`. -/
def isBlank (c : Char) : Bool := c = ' ' ∨ c = '\t'

/-- `s.find_first_not_of(" \t")`. -/
def findFirstNotBlank (s : List Char) : Option ℕ := s.findIdx? fun c => !isBlank c

/-- `s.find_last_not_of(" \t")`. -/
def findLastNotBlank (s : List Char) : Option ℕ :=
  (s.reverse.findIdx? fun c => !isBlank c).map fun k => s.length - 1 - k

/-- `rmWhiteSpaces`. -/
def rmWhiteSpaces (s : List Char) : List Char :=
  match findFirstNotBlank s, findLastNotBlank s with
  | some i, some j => (s.drop i).take (1 + j - i)
  | _, _ => []

namespace Metadata

/-- The states of `extractMetadata`. -/
inductive State
  | kLabel | kEscape1 | kEscape2 | kEscape3 | kKey | kValue
deriving DecidableEq, Repr

/-- `map<string, set<string>>`. -/
abbrev MetadataMap := List Char → Finset (List Char)

/-- `metadata[key].insert(value)`. -/
def MetadataMap.add (m : MetadataMap) (key value : List Char) : MetadataMap :=
  Function.update m key (insert value (m key))

/-- The variables of `extractMetadata`. -/
structure Extraction where
  state : State
  deep : ℤ
  key : List Char
  value : List Char
  label : List Char
  metadata : MetadataMap

/-- The loop body in the state `kKey`. -/
def Extraction.readKey (e : Extraction) (c : Char) : Extraction :=
  match c with
  | '\\' => { e with state := .kEscape2 }
  | '[' => { e with deep := e.deep + 1, key := e.key ++ [c] }
  | ':' => if e.deep = 1 then { e with state := .kValue } else { e with key := e.key ++ [c] }
  | ']' =>
    if e.deep - 1 < 1 then
      { e with
        deep := e.deep - 1
        metadata := e.metadata.add (rmWhiteSpaces e.key) []
        state := .kLabel
        key := []
        value := [] }
    else { e with deep := e.deep - 1, key := e.key ++ [c] }
  | _ => { e with key := e.key ++ [c] }

/-- The loop body in the state `kValue`. -/
def Extraction.readValue (e : Extraction) (c : Char) : Extraction :=
  match c with
  | '\\' => { e with state := .kEscape3 }
  | '[' => { e with deep := e.deep + 1, value := e.value ++ [c] }
  | ']' =>
    if e.deep - 1 < 1 then
      { e with
        deep := e.deep - 1
        metadata := e.metadata.add (rmWhiteSpaces e.key) (rmWhiteSpaces e.value)
        state := .kLabel
        key := []
        value := [] }
    else { e with deep := e.deep - 1, value := e.value ++ [c] }
  | _ => { e with value := e.value ++ [c] }

/-- The body of the loop of `extractMetadata`; there is no result when an assertion fails. -/
def Extraction.read (e : Extraction) (c : Char) : Option Extraction :=
  match e.state with
  | .kLabel =>
    if e.deep = 0 then
      match c with
      | '\\' => some { e with state := .kEscape1 }
      | '[' => some { e with state := .kKey, deep := e.deep + 1 }
      | _ => some { e with label := e.label ++ [c] }
    else none
  | .kEscape1 => some { e with label := e.label ++ [c], state := .kLabel }
  | .kEscape2 => some { e with key := e.key ++ [c], state := .kKey }
  | .kEscape3 => some { e with value := e.value ++ [c], state := .kValue }
  | .kKey => if 0 < e.deep then some (e.readKey c) else none
  | .kValue => if 0 < e.deep then some (e.readValue c) else none

/-- `extractMetadata`: the new values of `label` and `metadata`. -/
def extractMetadata (fulllabel label : List Char) (metadata : MetadataMap) :
    Option (List Char × MetadataMap) := do
  let e ← fulllabel.foldlM Extraction.read ⟨.kLabel, 0, [], [], label, metadata⟩
  return (rmWhiteSpaces e.label, e.metadata)

end Metadata

end Faust
