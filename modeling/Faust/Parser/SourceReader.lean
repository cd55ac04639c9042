import Faust.Tlib.Tree
import Mathlib.Data.Finset.Card

/-!
# Reading source files (`sourcereader.cpp`)

A source file is a list of definitions and imports. `getlist` reads a file once and keeps its
list; `expandlist` replaces every import by the definitions of the imported file, each file being
imported once.
-/

namespace Faust

/-- An element of the list of a file: nothing (what a `declare` leaves), `importFile(fname)`, or
`cons(name, body)`. -/
inductive Def
  | nil
  | importFile (fname : String)
  | definition (id rhs : Tree)
deriving DecidableEq, Repr

/-- The exceptions of the reader, and the end of the fuel of the recursion. -/
inductive ReadError
  | parse (fname : String)
  | fuel
deriving DecidableEq, Repr

/-- `class SourceReader`, with the global `gInputString` (the list parsed from it) that the first
file read takes its text from. -/
structure SourceReader where
  fFileCache : String → Option (List Def)
  gInputString : Option (List Def)

namespace SourceReader

/-- A computation of the reader. -/
abbrev ReadM := StateT SourceReader (Except ReadError)

/-- `SourceReader::cached`. -/
def cached (r : SourceReader) (fname : String) : Bool := (r.fFileCache fname).isSome

/-- Keep the list of a file that has been parsed. -/
def store (r : SourceReader) (fname : String) (l : List Def) : SourceReader :=
  { r with fFileCache := Function.update r.fFileCache fname (some l) }

/-- `SourceReader::getlist`. `disk` is what `parsefile` makes of a file, if it can be parsed. -/
def getlist (disk : String → Option (List Def)) (fname : String) : ReadM (List Def) := do
  let r ← get
  match r.fFileCache fname with
  | some l => return l
  | none =>
    match r.gInputString with
    | some l =>
      set { r.store fname l with gInputString := none }
      return l
    | none =>
      match disk fname with
      | some l =>
        set (r.store fname l)
        return l
      | none => throw (.parse fname)

/-- The set of visited files and the definitions collected so far. -/
abbrev Collected := Finset String × List Def

/-- One turn of the loop of `expandrec`, `expand` being the recursive call. -/
def expandDef (disk : String → Option (List Def))
    (expand : List Def → Collected → ReadM Collected) (c : Collected) (d : Def) :
    ReadM Collected :=
  match d with
  | .nil => return c
  | .importFile f =>
    if f ∈ c.1 then return c
    else do
      let l ← getlist disk f
      expand l (insert f c.1, c.2)
  | .definition .. => return (c.1, d :: c.2)

/-- `SourceReader::expandrec`. -/
def expandrec (disk : String → Option (List Def)) : ℕ → List Def → Collected → ReadM Collected
  | 0, _, _ => throw .fuel
  | fuel + 1, ldef, c => ldef.foldlM (expandDef disk (expandrec disk fuel)) c

/-- `SourceReader::expandlist`. -/
def expandlist (disk : String → Option (List Def)) (fuel : ℕ) (ldef : List Def) :
    ReadM (List Def) := do
  let c ← expandrec disk fuel ldef (∅, [])
  return c.2

/-- `expandlist(getlist(fname))`: what `component` and `library` do with their file. -/
def expandFile (disk : String → Option (List Def)) (fuel : ℕ) (fname : String) :
    ReadM (List Def) := do
  let l ← getlist disk fname
  expandlist disk fuel l

end SourceReader

end Faust
