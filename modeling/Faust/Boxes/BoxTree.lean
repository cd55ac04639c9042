import Faust.Boxes.Box
import Mathlib.Data.List.Nodup

/-!
# Box expressions as trees (`boxes.cpp`)

The parser and the evaluator handle box expressions as trees: a tree is a box constructor when its
node is the symbol of the constructor. `toBox` reads an evaluated tree as the block diagram that it
is, for its type and for the propagation.
-/

namespace Faust

open Faust.Tree

/-- The operations of the block diagram algebra. -/
inductive BoxOp
  | seq | par | recur | split | merge
deriving DecidableEq, Repr

/-- The iterations `ipar`, `iseq`, `isum` and `iprod`. -/
inductive Iteration
  | par | seq | sum | prod
deriving DecidableEq, Repr

/-- The two kinds of switches. -/
inductive SwitchKind
  | button | checkbox
deriving DecidableEq, Repr

/-- The three kinds of sliders. -/
inductive SliderKind
  | vslider | hslider | numEntry
deriving DecidableEq, Repr

/-- The two kinds of bargraphs. -/
inductive BargraphKind
  | hbargraph | vbargraph
deriving DecidableEq, Repr

/-- The symbols of the box constructors (`global::BOXIDENT`, …). -/
inductive BoxSym
  | ident | cut | waveform | wire | slot | symbolic
  | op (o : BoxOp)
  | iterate (k : Iteration)
  | abstr | appl | closure | error | access | withLocalDef | modifLocalDef
  | environment | component | library
  | prim0 | prim1 | prim2 | prim3 | prim4 | prim5
  | ffun | fconst | fvar
  | switch (k : SwitchKind)
  | slider (k : SliderKind)
  | group (k : GroupKind)
  | bargraph (k : BargraphKind)
  | case | patMatcher | patVar | inputs | outputs
deriving DecidableEq, Repr

namespace BoxSym

/-- The name of a symbol. -/
def name : BoxSym → String
  | ident => "BoxIdent"
  | cut => "BoxCut"
  | waveform => "BoxWaveform"
  | wire => "BoxWire"
  | slot => "BoxSlot"
  | symbolic => "BoxSymbolic"
  | op .seq => "BoxSeq"
  | op .par => "BoxPar"
  | op .recur => "BoxRec"
  | op .split => "BoxSplit"
  | op .merge => "BoxMerge"
  | iterate .par => "BoxIPar"
  | iterate .seq => "BoxISeq"
  | iterate .sum => "BoxISum"
  | iterate .prod => "BoxIProd"
  | abstr => "BoxAbstr"
  | appl => "BoxAppl"
  | closure => "Closure"
  | error => "BoxError"
  | access => "BoxAccess"
  | withLocalDef => "BoxWithLocalDef"
  | modifLocalDef => "BoxModifLocalDef"
  | environment => "BoxEnvironment"
  | component => "BoxComponent"
  | library => "BoxLibrary"
  | prim0 => "BoxPrim0"
  | prim1 => "BoxPrim1"
  | prim2 => "BoxPrim2"
  | prim3 => "BoxPrim3"
  | prim4 => "BoxPrim4"
  | prim5 => "BoxPrim5"
  | ffun => "BoxFFun"
  | fconst => "BoxFConst"
  | fvar => "BoxFVar"
  | switch .button => "BoxButton"
  | switch .checkbox => "BoxCheckbox"
  | slider .hslider => "BoxHSlider"
  | slider .vslider => "BoxVSlider"
  | slider .numEntry => "BoxNumEntry"
  | group .hgroup => "BoxHGroup"
  | group .vgroup => "BoxVGroup"
  | group .tgroup => "BoxTGroup"
  | bargraph .hbargraph => "BoxHBargraph"
  | bargraph .vbargraph => "BoxVBargraph"
  | case => "BoxCase"
  | patMatcher => "BoxPatMatcher"
  | patVar => "BoxPatVar"
  | inputs => "BoxInputs"
  | outputs => "BoxOutputs"

/-- All symbols of boxes. -/
def all : List BoxSym :=
  [ident, cut, waveform, wire, slot, symbolic, op .seq, op .par, op .recur, op .split, op .merge,
    iterate .par, iterate .seq, iterate .sum, iterate .prod, abstr, appl, closure, error, access,
    withLocalDef, modifLocalDef, environment, component, library, prim0, prim1, prim2, prim3,
    prim4, prim5, ffun, fconst, fvar, switch .button, switch .checkbox, slider .hslider,
    slider .vslider, slider .numEntry, group .hgroup, group .vgroup, group .tgroup,
    bargraph .hbargraph, bargraph .vbargraph, case, patMatcher, patVar, inputs, outputs]

/-- The node of a symbol. -/
def node (b : BoxSym) : Node := .sym (.user b.name)

/-- The symbol of a node, if it is one of boxes. -/
def ofNode : Node → Option BoxSym
  | .sym (.user s) => all.find? (·.name == s)
  | _ => none

theorem mem_all (b : BoxSym) : b ∈ all := by
  cases b <;> first | decide | (rename_i k; cases k <;> decide)

/-- The symbols have different names. -/
theorem name_injective : Function.Injective name := by
  have hnodup : (all.map name).Nodup := by decide
  intro b c h
  exact List.inj_on_of_nodup_map hnodup (mem_all b) (mem_all c) h

@[simp] theorem ofNode_node (b : BoxSym) : ofNode b.node = some b := by
  show all.find? (·.name == b.name) = some b
  have hmem : (all.find? (·.name == b.name)).isSome :=
    List.find?_isSome.2 ⟨b, mem_all b, by simp⟩
  obtain ⟨c, hc⟩ := Option.isSome_iff_exists.1 hmem
  have hname : c.name = b.name := by simpa using List.find?_some hc
  rw [hc, name_injective hname]

theorem eq_node_of_ofNode {n : Node} {b : BoxSym} (h : ofNode n = some b) : n = b.node := by
  unfold ofNode at h
  split at h
  · next s =>
    have hname : b.name = s := by simpa using List.find?_some h
    rw [node, hname]
  · cases h

end BoxSym

/-- A tree whose node is the symbol of a box constructor. -/
def boxTree (b : BoxSym) (br : List Tree) : Tree := .node b.node br

@[simp] theorem label_boxTree (b : BoxSym) (br : List Tree) : (boxTree b br).label = b.node := rfl

@[simp] theorem branches_boxTree (b : BoxSym) (br : List Tree) : (boxTree b br).branches = br :=
  rfl

/-- `boxError`. -/
def boxError : Tree := boxTree .error []

/-- `isBoxError`. -/
def isBoxError (t : Tree) : Bool := BoxSym.ofNode t.label = some .error

/-- `boxIdent`. -/
def boxIdent (name : String) : Tree := boxTree .ident [leaf (.sym (.user name))]

/-- `isBoxIdent`. -/
def isBoxIdent (t : Tree) : Bool := BoxSym.ofNode t.label = some .ident

/-- `isBoxAbstr`. -/
def isBoxAbstr : Tree → Option (Tree × Tree)
  | .node n [x, y] => if BoxSym.ofNode n = some .abstr then some (x, y) else none
  | _ => none

/-- `isBoxEnvironment`. -/
def isBoxEnvironment (t : Tree) : Bool := BoxSym.ofNode t.label = some .environment

/-- `boxSlot`. -/
def boxSlot (id : ℤ) : Tree := boxTree .slot [leaf (.int id)]

/-- `boxSymbolic`. -/
def boxSymbolic (slot body : Tree) : Tree := boxTree .symbolic [slot, body]

/-- `boxPatternMatcher`. -/
def boxPatternMatcher (automaton state : ℕ) (envs origRules revParamList : Tree) : Tree :=
  boxTree .patMatcher
    [leaf (.pointer automaton), leaf (.int state), envs, origRules, revParamList]

/-- `isBoxPatternMatcher`. -/
def isBoxPatternMatcher : Tree → Option (ℕ × ℕ × Tree × Tree × Tree)
  | .node n [.node (.pointer a) _, .node (.int (.ofNat s)) _, envs, origRules, revParamList] =>
    if BoxSym.ofNode n = some .patMatcher then some (a, s, envs, origRules, revParamList) else none
  | _ => none

/-- `isBoxPatternOp` (patternmatcher.cpp): the node and the two branches of an operation of the
block diagram algebra, or of a group. -/
def isBoxPatternOp : Tree → Option (Node × Tree × Tree)
  | .node n [t1, t2] =>
    match BoxSym.ofNode n with
    | some (.op _) | some (.group _) => some (n, t1, t2)
    | _ => none
  | _ => none

/-! ## Primitives

The primitives are addresses of functions: all that counts is that they differ. -/

/-- The address of a function given to `boxPrim1`. -/
def Prim1.address : Prim1 → ℕ
  | sigDelay1 => 0
  | sigIntCast => 1
  | sigFloatCast => 2

/-- The address of a function given to `boxPrim2`. -/
def Prim2.address : Prim2 → ℕ
  | sigBinOp op => op.opcode
  | sigPrefix => 100
  | sigFixDelay => 101
  | sigAttach => 102

/-- The address of a function given to `boxPrim3`. -/
def Prim3.address : Prim3 → ℕ
  | sigReadOnlyTable => 200
  | sigSelect2 => 201

/-- The address of the function given to `boxPrim4`. -/
def Prim4.address : Prim4 → ℕ
  | sigSelect3 => 300

/-- The address of the function given to `boxPrim5`. -/
def Prim5.address : Prim5 → ℕ
  | sigWriteReadTable => 400

/-- `boxPrim2`. -/
def boxPrim2 (p : Prim2) : Tree := boxTree .prim2 [leaf (.pointer p.address)]

/-- The functions given to `boxPrim2`. -/
def Prim2.all : List Prim2 := gBinOpTable.map .sigBinOp ++ [.sigPrefix, .sigFixDelay, .sigAttach]

/-- The function at an address, among some of them. -/
def atAddress {α : Type} (functions : List α) (address : α → ℕ) (p : ℕ) : Option α :=
  functions.find? (address · == p)

/-- `isBoxPrim2`. -/
def isBoxPrim2 : Tree → Option Prim2
  | .node n [.node (.pointer p) _] =>
    if BoxSym.ofNode n = some .prim2 then atAddress Prim2.all Prim2.address p else none
  | _ => none

/-! ## Block diagrams -/

/-- The elements of a list. -/
def elements : Tree → List Tree
  | .node (.sym .cons) [hd, tl] => hd :: elements tl
  | _ => []
termination_by t => t.size
decreasing_by exact size_lt_of_mem (by simp)

/-- The character string of a symbol. -/
def symbolName : Tree → String
  | .node (.sym (.user name)) _ => name
  | _ => ""

/-- The integer of a node. -/
def integer : Tree → ℤ
  | .node (.int i) _ => i
  | _ => 0

/-- A foreign function from its signature and its files. -/
def foreignFun (signature incfile libfile : Tree) : ForeignFun where
  restype := integer ((elements signature).getD 0 nil)
  names := symbolName ((elements signature).getD 1 nil)
  argtypes := ((elements signature).drop 2).map integer
  incfile := symbolName incfile
  libfile := symbolName libfile

/-- The parameters of a slider, from the list of their trees. -/
def sliderParams (params : List Tree) : SliderParams where
  cur := (params.getD 0 nil).label
  min := (params.getD 1 nil).label
  max := (params.getD 2 nil).label
  step := (params.getD 3 nil).label

/-- The block diagram of an evaluated tree. -/
def toBox : Tree → Box
  | .node (.int i) _ => .int i
  | .node (.double x) _ => .real x
  | .node (.sym (.xtended p)) _ => .xtended p
  | .node n br =>
    match BoxSym.ofNode n, br with
    | some .waveform, values => .waveform (values.map label)
    | some .cut, _ => .cut
    | some .wire, _ => .wire
    | some .slot, [.node (.int id) _] => .slot id
    | some .symbolic, [.node _ [.node (.int id) _], body] => .symbolic id (toBox body)
    | some .patVar, [.node _ [.node (.sym (.user name)) _]] => .patternVar name
    | some .prim1, [.node (.pointer p) _] =>
      match atAddress [.sigDelay1, .sigIntCast, .sigFloatCast] Prim1.address p with
      | some f => .prim1 f
      | none => .other (.node n br)
    | some .prim2, [.node (.pointer p) _] =>
      match atAddress Prim2.all Prim2.address p with
      | some f => .prim2 f
      | none => .other (.node n br)
    | some .prim3, [.node (.pointer p) _] =>
      match atAddress [.sigReadOnlyTable, .sigSelect2] Prim3.address p with
      | some f => .prim3 f
      | none => .other (.node n br)
    | some .prim4, [.node (.pointer p) _] =>
      match atAddress [.sigSelect3] Prim4.address p with
      | some f => .prim4 f
      | none => .other (.node n br)
    | some .prim5, [.node (.pointer p) _] =>
      match atAddress [.sigWriteReadTable] Prim5.address p with
      | some f => .prim5 f
      | none => .other (.node n br)
    | some .ffun, [.node _ [signature, incfile, libfile]] =>
      .ffun (foreignFun signature incfile libfile)
    | some .fconst, [type, name, file] =>
      .fconst ⟨integer type, symbolName name, symbolName file⟩
    | some .fvar, [type, name, file] => .fvar ⟨integer type, symbolName name, symbolName file⟩
    | some (.switch .button), [label] => .button (symbolName label)
    | some (.switch .checkbox), [label] => .checkbox (symbolName label)
    | some (.slider .vslider), [label, params] =>
      .vslider (symbolName label) (sliderParams (elements params))
    | some (.slider .hslider), [label, params] =>
      .hslider (symbolName label) (sliderParams (elements params))
    | some (.slider .numEntry), [label, params] =>
      .numEntry (symbolName label) (sliderParams (elements params))
    | some (.bargraph .vbargraph), [lbl, min, max] =>
      .vbargraph (symbolName lbl) min.label max.label
    | some (.bargraph .hbargraph), [lbl, min, max] =>
      .hbargraph (symbolName lbl) min.label max.label
    | some (.group kind), [label, t] => .group kind (symbolName label) (toBox t)
    | some (.op .seq), [t1, t2] => .seq (toBox t1) (toBox t2)
    | some (.op .par), [t1, t2] => .par (toBox t1) (toBox t2)
    | some (.op .recur), [t1, t2] => .recur (toBox t1) (toBox t2)
    | some (.op .split), [t1, t2] => .split (toBox t1) (toBox t2)
    | some (.op .merge), [t1, t2] => .merge (toBox t1) (toBox t2)
    | some .environment, _ => .environment
    | _, _ => .other (.node n br)
termination_by t => t.size
decreasing_by all_goals exact size_lt_of_mem (by simp)

end Faust
