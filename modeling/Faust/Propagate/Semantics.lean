import Faust.Propagate.Propagate
import Faust.Lib.Streams

/-!
# The meaning of signals and of block diagrams

A signal denotes a stream of values. A list of signals, such as the body of a recursion,
denotes a group: the family of the streams of its elements. `DEBRUIJN(body)` denotes the
group that is its own body's meaning when the references to it are read as that group.

A block diagram relates streams to streams. Each rule of `Diagram` is the meaning of one
composition, stated on streams, without signals, environments or de Bruijn levels.

The values, the literals and the operations are a parameter `SigInterp`.
-/

namespace Faust

open Faust.Tree

/-- A stream of values. -/
abbrev Stream (V : Type) := ℕ → V

/-- A family of streams. -/
abbrev Group (V : Type) := ℕ → Stream V

/-! ## Interpretations -/

/-- The meaning of literals, operators and all other primitives. The laws are those the
constructors of signals rely on when they evaluate literals; a primitive is causal, except
the generation of a table, which runs its signal ahead of time. -/
structure SigInterp (libm : Libm) (V : Type) where
  zero : V
  lit : Node → V
  binOp : ℤ → V → V → V
  intCast : V → V
  floatCast : V → V
  xtended : XtPrim → List V → V
  delayAmount : V → ℕ
  op : Node → List (Group V) → Stream V
  intCast_int : ∀ i, intCast (lit (.int i)) = lit (.int i)
  intCast_double : ∀ x, intCast (lit (.double x)) = lit (.int (wrap32 (truncInt x)))
  intCast_intCast : ∀ v, intCast (intCast v) = intCast v
  floatCast_int : ∀ i : ℤ, floatCast (lit (.int i)) = lit (.double i)
  floatCast_double : ∀ x, floatCast (lit (.double x)) = lit (.double x)
  floatCast_floatCast : ∀ v, floatCast (floatCast v) = floatCast v
  xtended_lit : ∀ p ns, (∀ n ∈ ns, n.isNum = true) → ns.length = p.arity →
    xtended p (ns.map lit) = lit (p.evalNodes libm ns)
  delayAmount_zero : delayAmount (lit (.int 0)) = 0
  op_causal : ∀ n, n ≠ .sym .sigGen → ∀ k gs hs,
    List.Forall₂ (Streams.AgreeUpTo k) gs hs → ∀ t < k, op n gs t = op n hs t

section
variable {libm : Libm} {V : Type} (I : SigInterp libm V)

namespace SigInterp

/-- The group all of whose streams are `s`. -/
def const (s : Stream V) : Group V := fun _ => s

/-- The group that is zero forever. -/
def silence : Group V := fun _ _ => I.zero

/-- The group of a list: its elements, and after them those of `tl`. -/
def cons (hd : Stream V) (tl : Group V) : Group V
  | 0 => hd
  | i + 1 => tl i

/-- The group of a list of streams. -/
def group (ss : List (Stream V)) : Group V :=
  ss.foldr cons (const (I.op (.sym .nil) []))

/-- `x@d`. -/
def fixDelay (x d : Stream V) : Stream V := fun t =>
  if I.delayAmount (d t) ≤ t then x (t - I.delayAmount (d t)) else I.zero

/-- `x'`. -/
def delay1 (x : Stream V) : Stream V := Streams.delay I.zero x

/-- A binary operator, sample by sample. -/
def binOps (op : ℤ) (x y : Stream V) : Stream V := fun t => I.binOp op (x t) (y t)

/-- `x + y`. -/
def add (x y : Stream V) : Stream V := I.binOps BinOp.kAdd.opcode x y

/-- The sum of a list of streams, from left to right. -/
def sum : List (Stream V) → Stream V
  | [] => fun _ => I.zero
  | x :: xs => xs.foldl I.add x

/-- `int(x)`. -/
def intCasts (x : Stream V) : Stream V := fun t => I.intCast (x t)

/-- `float(x)`. -/
def floatCasts (x : Stream V) : Stream V := fun t => I.floatCast (x t)

/-- An extended primitive, sample by sample. -/
def xtendeds (p : XtPrim) (xs : List (Stream V)) : Stream V := fun t => I.xtended p (xs.map (· t))

/-! ## Signals -/

/-- The streams at the inputs of the program, which are samples. -/
def inputStream (inputs : ℕ → ℕ → ℚ) (i : ℕ) : Stream V := fun t => I.lit (.double (inputs i t))

/-- The meaning of branch `i`. -/
def arg (ds : List (Group V)) (i : ℕ) : Group V := ds.getD i I.silence

/-- The meaning of a node that takes no part in recursive notation, from the labels and the
meanings of its branches. -/
def node (inputs : ℕ → ℕ → ℚ) (n : Node) (labels : List Node) (ds : List (Group V)) : Group V :=
  match n, labels with
  | .int i, _ => const fun _ => I.lit (.int i)
  | .double x, _ => const fun _ => I.lit (.double x)
  | .sym .sigInput, [.int i] => const (I.inputStream inputs i.toNat)
  | .sym .cons, _ => cons (I.arg ds 0 0) (I.arg ds 1)
  | .sym .sigProj, .int i :: _ => const (I.arg ds 1 i.toNat)
  | .sym .sigDelay1, _ => const (I.delay1 (I.arg ds 0 0))
  | .sym .sigFixDelay, _ => const (I.fixDelay (I.arg ds 0 0) (I.arg ds 1 0))
  | .sym .sigBinOp, .int op :: _ => const (I.binOps op (I.arg ds 1 0) (I.arg ds 2 0))
  | .sym .sigIntCast, _ => const (I.intCasts (I.arg ds 0 0))
  | .sym .sigFloatCast, _ => const (I.floatCasts (I.arg ds 0 0))
  | .sym (.xtended p), _ => const (I.xtendeds p (ds.map (· 0)))
  | n, _ => const (I.op n ds)

variable (inputs : ℕ → ℕ → ℚ)

mutual
/-- The meaning of a signal, of a list of signals or of a recursion, when the references to
the enclosing recursions are read as the groups `ρ`, innermost first. -/
def denote : List (Group V) → Tree → Group V
  | ρ, .node n br =>
    match n, br with
    | .sym .debruijnRef, [.node (.int l) _] =>
      if 0 < l then ρ.getD (l.toNat - 1) I.silence else I.silence
    | .sym .debruijnRef, _ => I.silence
    | .sym .debruijn, [body] => Streams.fix I.silence fun G => denote (G :: ρ) body
    | .sym .debruijn, _ => I.silence
    | n, br => I.node inputs n (br.map label) (denotes ρ br)

/-- The meanings of the branches. -/
def denotes : List (Group V) → List Tree → List (Group V)
  | _, [] => []
  | ρ, t :: ts => denote ρ t :: denotes ρ ts
end

/-- The stream of a signal. -/
def stream (ρ : List (Group V)) (t : Tree) : Stream V := I.denote inputs ρ t 0

end SigInterp

/-! ## Block diagrams -/

open SigInterp

variable (inputs : ℕ → ℕ → ℚ)

/-- The meaning of an expression that refers to no recursion: a path, a foreign function or
the parameter of a primitive. -/
def SigInterp.atoms (t : Tree) : Group V := I.denote inputs [] t

/-- The stream of a signal that refers to no recursion: a widget, a foreign constant. -/
def SigInterp.atom (t : Tree) : Stream V := I.stream inputs [] t

/-- The streams `p1` gives. -/
def Prim1.meaning : Prim1 → Stream V → Stream V
  | sigDelay1, x => I.delay1 x
  | sigIntCast, x => I.intCasts x
  | sigFloatCast, x => I.floatCasts x

/-- The streams `p2` gives. -/
def Prim2.meaning : Prim2 → Stream V → Stream V → Stream V
  | sigBinOp op, x, y => I.binOps op.opcode x y
  | sigPrefix, x, y => I.op (.sym .sigPrefix) [const x, const y]
  | sigFixDelay, x, y => I.fixDelay x (I.intCasts y)
  | sigAttach, x, y => I.op (.sym .sigAttach) [const x, const y]

/-- `select2`. -/
def SigInterp.select2 (selector x y : Stream V) : Stream V :=
  I.op (.sym .sigSelect2) [const (I.intCasts selector), const x, const y]

/-- The table of `n` values that the signal `init` generates. -/
def SigInterp.table (n init : Stream V) : Stream V :=
  I.op (.sym .sigTable) [const (I.op (.sym .nil) []), const n,
    const (I.op (.sym .sigGen) [const init])]

/-- A table read at `ridx`. -/
def SigInterp.readTable (table ridx : Stream V) : Stream V :=
  I.op (.sym .sigRDTbl) [const table, const ridx]

/-- A table in which `wsig` is written at `widx`. -/
def SigInterp.writeTable (table widx wsig : Stream V) : Stream V :=
  I.op (.sym .sigWRTbl) [const (I.op (.sym .nil) []), const table, const widx, const wsig]

/-- The streams `p3` gives. -/
def Prim3.meaning : Prim3 → Stream V → Stream V → Stream V → Stream V
  | sigReadOnlyTable, n, init, ridx => I.readTable (I.table n init) ridx
  | sigSelect2, selector, x, y => I.select2 selector x y

/-- The streams `p4` gives: the first one when the selector is 0, the second one when it is
1, otherwise the third one. -/
def Prim4.meaning : Prim4 → Stream V → Stream V → Stream V → Stream V → Stream V
  | sigSelect3, selector, x, y, z =>
    let isSelected (i : ℤ) := I.binOps BinOp.kEQ.opcode (I.intCasts selector) fun _ => I.lit (.int i)
    I.select2 (isSelected 0) (I.select2 (isSelected 1) z y) x

/-- The streams `p5` gives. -/
def Prim5.meaning : Prim5 → Stream V → Stream V → Stream V → Stream V → Stream V → Stream V
  | sigWriteReadTable, n, init, widx, wsig, ridx =>
    I.readTable (I.writeTable (I.table n init) widx wsig) ridx

/-- A bargraph displays its input. -/
def bargraphMeaning (s : Sym) (label : String) (path : List PathElement) (min max : Node)
    (x : Stream V) : Stream V :=
  I.op (.sym s) [I.atoms inputs (normalizePath (.label label :: path)),
    I.atoms inputs (leaf min), I.atoms inputs (leaf max), const x]

/-- The streams in which the slots of the enclosing abstractions are. -/
abbrev SlotStreams (V : Type) := List (ℤ × Stream V)

/-- `Diagram box σ path xs ys`: the box gives the streams `ys` when it is given the streams
`xs`, its slots are the streams `σ` and it is displayed under `path`. -/
def Diagram : Box → SlotStreams V → List PathElement → List (Stream V) → List (Stream V) → Prop
  | .xtended p, _, _, xs, ys => xs.length = p.arity ∧ ys = [I.xtendeds p xs]
  | .int i, _, _, xs, ys => xs = [] ∧ ys = [fun _ => I.lit (.int i)]
  | .real r, _, _, xs, ys => xs = [] ∧ ys = [fun _ => I.lit (.double r)]
  | .waveform values, _, _, xs, ys => xs = [] ∧
      ys = [fun _ => I.lit (.int values.length), I.atom inputs (sigWaveform values)]
  | .fconst v, _, _, xs, ys => xs = [] ∧
      ys = [I.atom inputs (sigFConst (leaf (.int v.type)) (leaf (.sym (.user v.name)))
        (leaf (.sym (.user v.file))))]
  | .fvar v, _, _, xs, ys => xs = [] ∧
      ys = [I.atom inputs (sigFVar (leaf (.int v.type)) (leaf (.sym (.user v.name)))
        (leaf (.sym (.user v.file))))]
  | .cut, _, _, xs, ys => xs.length = 1 ∧ ys = []
  | .wire, _, _, xs, ys => xs.length = 1 ∧ ys = xs
  | .slot id, σ, _, xs, ys => xs = [] ∧ ∃ x, σ.lookup id = some x ∧ ys = [x]
  | .symbolic slot body, σ, path, xs, ys =>
      ∃ x xs', xs = x :: xs' ∧ Diagram body ((slot, x) :: σ) path xs' ys
  | .patternVar _, _, _, _, _ => False
  | .prim0 p, _, _, _, _ => nomatch p
  | .prim1 p, _, _, xs, ys => ∃ x, xs = [x] ∧ ys = [p.meaning I x]
  | .prim2 p, _, _, xs, ys => ∃ x y, xs = [x, y] ∧ ys = [p.meaning I x y]
  | .prim3 p, _, _, xs, ys => ∃ x y z, xs = [x, y, z] ∧ ys = [p.meaning I x y z]
  | .prim4 p, _, _, xs, ys => ∃ x y z u, xs = [x, y, z, u] ∧ ys = [p.meaning I x y z u]
  | .prim5 p, _, _, xs, ys => ∃ x y z u v, xs = [x, y, z, u, v] ∧ ys = [p.meaning I x y z u v]
  | .ffun ff, _, _, xs, ys => xs.length = ff.arity ∧
      ys = [I.op (.sym .sigFFun) [I.atoms inputs ff.tree, I.group xs]]
  | .button label, _, path, xs, ys => xs = [] ∧
      ys = [I.atom inputs (sigButton (normalizePath (.label label :: path)))]
  | .checkbox label, _, path, xs, ys => xs = [] ∧
      ys = [I.atom inputs (sigCheckbox (normalizePath (.label label :: path)))]
  | .vslider label p, _, path, xs, ys => xs = [] ∧
      ys = [I.atom inputs (sliderSignal sigVSlider label p path)]
  | .hslider label p, _, path, xs, ys => xs = [] ∧
      ys = [I.atom inputs (sliderSignal sigHSlider label p path)]
  | .numEntry label p, _, path, xs, ys => xs = [] ∧
      ys = [I.atom inputs (sliderSignal sigNumEntry label p path)]
  | .vbargraph label min max, _, path, xs, ys =>
      ∃ x, xs = [x] ∧ ys = [bargraphMeaning I inputs .sigVBargraph label path min max x]
  | .hbargraph label min max, _, path, xs, ys =>
      ∃ x, xs = [x] ∧ ys = [bargraphMeaning I inputs .sigHBargraph label path min max x]
  | .group kind label b, σ, path, xs, ys => Diagram b σ (.group kind.code label :: path) xs ys
  -- `b` is fed with the outputs of `a`
  | .seq a b, σ, path, xs, ys => ∃ zs, Diagram a σ path xs zs ∧ Diagram b σ path zs ys
  -- `a` and `b` side by side
  | .par a b, σ, path, xs, ys => ∃ xs₁ xs₂ ys₁ ys₂, xs = xs₁ ++ xs₂ ∧ ys = ys₁ ++ ys₂ ∧
      Diagram a σ path xs₁ ys₁ ∧ Diagram b σ path xs₂ ys₂
  -- input `i` of `b` is output `i mod outs(a)` of `a`
  | .split a b, σ, path, xs, ys => ∃ zs ws, Diagram a σ path xs zs ∧ Diagram b σ path ws ys ∧
      ∀ i < ws.length, ws[i]? = zs[i % zs.length]?
  -- input `j` of `b` is the sum of the outputs of `a` congruent to `j` modulo `ins(b)`
  | .merge a b, σ, path, xs, ys => ∃ zs ws, Diagram a σ path xs zs ∧ Diagram b σ path ws ys ∧
      ∀ j < ws.length, ws[j]? = some (I.sum
        (((List.range zs.length).filter (· % ws.length = j)).map fun i => zs.getD i fun _ => I.zero))
  -- the first outputs of `a`, delayed, go through `b` to the first inputs of `a`
  | .recur a b, σ, path, xs, ys => ∃ fb zs, fb <+: ys ∧ Diagram b σ path (fb.map I.delay1) zs ∧
      Diagram a σ path (zs ++ xs) ys
  | .environment, _, _, _, _ => False
  | .other _, _, _, _, _ => False

end

end Faust
