import Faust.Tlib.Tree

/-!
# Labels with pathnames (`labels.cpp`)

The path of a widget is the stack of its label and of the groups around it, innermost
first. A label may itself be a path, absolute or relative, which `normalizePath` resolves.
-/

namespace Faust

open Faust.Tree

/-- An element of the stack given to `normalizePath`: a label, or a pair of a kind of group
and a label. -/
inductive PathElement
  | label (name : String)
  | group (kind : ℤ) (name : String)
deriving DecidableEq, Repr

namespace Labels

/-- `tree(name)`. -/
def nameTree (name : String) : Tree := leaf (.sym (.user name))

/-- `cons(tree(kind), tree(name))`. -/
def groupTree (kind : ℤ) (name : String) : Tree := cons (leaf (.int kind)) (nameTree name)

/-- `pathRoot()`. -/
def pathRoot : Tree := nameTree "/"

/-- `pathParent()`. -/
def pathParent : Tree := nameTree ".."

/-- `pathCurrent()`. -/
def pathCurrent : Tree := nameTree "."

/-- `encodeName`: `v:name`, `h:name`, `t:name` with the letter in either case. -/
def encodeName (g : Char) (name : String) : Tree :=
  match g with
  | 'v' | 'V' => groupTree 0 name
  | 'h' | 'H' => groupTree 1 name
  | 't' | 'T' => groupTree 2 name
  | _ => groupTree 0 name

/-- `label2path`, on the characters of the label. The path is a list that ends in `nil`. -/
def label2path (label : List Char) : List Tree :=
  match label with
  | [] => [nameTree ""]
  | '/' :: rest => pathRoot :: label2path rest
  | '.' :: '/' :: rest => label2path rest
  | '.' :: '.' :: '/' :: rest => pathParent :: label2path rest
  | g :: ':' :: rest =>
    let s := rest.takeWhile (· ≠ '/')
    encodeName g (String.ofList s) :: label2path ((rest.dropWhile (· ≠ '/')).drop 1)
  | label => [nameTree (String.ofList label)]
termination_by label.length
decreasing_by
  all_goals simp only [List.length_cons, List.length_drop]
  all_goals try omega
  have := (rest.dropWhile_sublist (· ≠ '/')).length_le
  omega

/-- `isList(t)` and `tl(t)`. -/
def tail? : Tree → Option Tree
  | .node (.sym .cons) [_, tl] => some tl
  | _ => none

/-- `concatPath`: follow a relative path, top-down, from an absolute one, bottom-up. -/
def concatPath : List Tree → Tree → Tree
  | [], abspath => abspath
  | head :: relpath, abspath =>
    if head = pathRoot then concatPath relpath nil
    else if head = pathParent then
      match tail? abspath with
      | none => concatPath relpath head
      | some tl => concatPath relpath tl
    else if head = pathCurrent then concatPath relpath abspath
    else concatPath relpath (cons head abspath)

/-- `normalizeLabel`. -/
def normalizeLabel (label : PathElement) (path : Tree) : Tree :=
  match label with
  | .group kind name => cons (groupTree kind name) path
  | .label name => concatPath (label2path name.toList) path

end Labels

/-- `normalizePath`. -/
def normalizePath : List PathElement → Tree
  | [] => nil
  | label :: path => Labels.normalizeLabel label (normalizePath path)

end Faust
