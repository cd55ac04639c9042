import Faust.Signals.TableTypes

/-!
# Occurrences (`occurences.cpp`) and sharing (`instructions_compiler.cpp`)

Before code is generated, two traversals of the graph of signals annotate it. `OccMarkup` collects
how each signal is used and by how much it is delayed. `sharingAnalysis` counts the uses. Both go
through the signals below a signal the first time that they come to it.
-/

namespace Faust.Occ

open Faust.Tree

/-! ## Annotated graphs -/

/-- What the annotations of a graph give: the definitions of the recursive groups (`RECDEF`), the
types and the recursiveness. -/
structure Graph where
  recDefs : List (Tree × Tree)
  getCertifiedSigType : Tree → AudioType
  getRecursivness : Tree → ℕ

/-- Why a traversal fails. -/
inductive Failure
  | unrecognizedSignal
  | undefinedConversion
  /-- The assertion `d2 >= 0`. -/
  | negativeDelay
  | outOfFuel
deriving DecidableEq, Repr

/-- `checkDelayInterval`. There is no result when the conversion to `int` is not defined. -/
def checkDelayInterval (t : AudioType) : Option ℤ :=
  let i := t.fields.interval
  if i.valid ∧ i.lo ≥ 0 then
    if IsInt32 (truncInt (i.hi + 1 / 2)) then some (truncInt (i.hi + 1 / 2)) else none
  else some (-1)

/-- `isSigGen`. -/
def isSigGen (t : Tree) : Bool := t.label = .sym .sigGen

namespace Graph

variable (g : Graph)

/-- The variability of the type of a signal. -/
def variability (t : Tree) : ℕ := (g.getCertifiedSigType t).fields.variability

/-- `getSubSignals`. What is below a recursive group is its definition. -/
def getSubSignals (t : Tree) : Option (List Tree) :=
  match t with
  | .node (.sym .symRec) [_] => (g.recDefs.find? fun d => d.1 = t).map fun d => [d.2]
  | t => Faust.getSubSignals true t

end Graph

/-! ## Occurrences -/

/-- `xVariability`. -/
def xVariability (v r : ℕ) : Fin 4 :=
  let r := if r > 1 then 1 else r
  ⟨min 3 (v + r), by omega⟩

/-- `class Occurences`. -/
structure Occurences where
  fXVariability : Fin 4
  fOccurences : Fin 4 → ℕ
  fMultiOcc : Bool
  fOutDelayOcc : Bool
  fMinDelay : ℤ
  fMaxDelay : ℤ

namespace Occurences

/-- `Occurences(v, r)`. -/
def new (v r : ℕ) : Occurences where
  fXVariability := xVariability v r
  fOccurences := fun _ => 0
  fMultiOcc := false
  fOutDelayOcc := false
  fMinDelay := 0
  fMaxDelay := 0

/-- `incOccurences`. -/
def incOccurences (o : Occurences) (v r : ℕ) (d : ℤ) : Occurences :=
  let ctxt := xVariability v r
  let fOccurences := Function.update o.fOccurences ctxt (o.fOccurences ctxt + 1)
  { o with
    fOccurences := fOccurences
    fMultiOcc := o.fMultiOcc || decide (ctxt > o.fXVariability) || decide (fOccurences ctxt > 1)
    fOutDelayOcc := if d = 0 then true else o.fOutDelayOcc
    fMaxDelay := if d > o.fMaxDelay then d else o.fMaxDelay }

/-- `getMaxDelay`. -/
def getMaxDelay (o : Occurences) : ℤ := o.fMaxDelay

end Occurences

/-- The property under the key `fPropKey`. -/
abbrev Marks := Tree → Option Occurences

section
variable (g : Graph)

/-- What `incOcc` does with the subtrees of a signal that is met for the first time. -/
def markSubtrees (incOcc : ℕ → ℕ → ℤ → Tree → Marks → Except Failure Marks) (t : Tree)
    (marks : Marks) : Except Failure Marks :=
  let v0 := g.variability t
  let r0 := g.getRecursivness t
  match t with
  | .node (.sym .sigFixDelay) [x, y] =>
    match checkDelayInterval (g.getCertifiedSigType y) with
    | none => .error .undefinedConversion
    | some d2 =>
      if d2 < 0 then .error .negativeDelay
      else do
        let marks ← incOcc v0 r0 d2 x marks
        incOcc v0 r0 0 y marks
  | .node (.sym .sigPrefix) [y, x] => do
    let marks ← incOcc v0 r0 1 x marks
    incOcc v0 r0 0 y marks
  | .node (.sym .sigSelect3) [c, y, x, z] => do
    let marks ← incOcc v0 r0 0 c marks
    let marks ← incOcc v0 r0 0 c marks
    let marks ← incOcc v0 r0 0 x marks
    let marks ← incOcc v0 r0 0 y marks
    incOcc v0 r0 0 z marks
  | t =>
    match g.getSubSignals t with
    | none => .error .unrecognizedSignal
    | some br =>
      if isSigGen t then .ok marks else br.foldlM (fun marks s => incOcc v0 r0 0 s marks) marks

/-- `incOcc`, for a traversal of depth below `fuel`. -/
def incOcc : ℕ → ℕ → ℕ → ℤ → Tree → Marks → Except Failure Marks
  | 0, _, _, _, _, _ => .error .outOfFuel
  | fuel + 1, v, r, d, t, marks => do
    let occ := Occurences.new (g.variability t) (g.getRecursivness t)
    let marks ← if (marks t).isSome then .ok marks
      else markSubtrees g (incOcc fuel) t (Function.update marks t (some occ))
    return Function.update marks t ((marks t).map fun occ => occ.incOccurences v r d)

/-- The loop of `mark` on a list. -/
def markList (fuel : ℕ) : Tree → Marks → Except Failure Marks
  | .node (.sym .cons) [hd, tl], marks => do
    let marks ← incOcc g fuel kSamp 0 0 hd marks
    markList fuel tl marks
  | _, marks => return marks

/-- `mark`. -/
def mark (fuel : ℕ) (root : Tree) : Except Failure Marks :=
  match root with
  | .node (.sym .cons) [_, _] => markList g fuel root fun _ => none
  | root => incOcc g fuel kSamp 0 0 root fun _ => none

/-! ## Sharing -/

/-- The property under the key `fSharingKey`. -/
abbrev Sharing := Tree → Option ℕ

/-- `getSharingCount`. -/
def getSharingCount (sharing : Sharing) (sig : Tree) : ℕ := (sharing sig).getD 0

/-- `setSharingCount`. -/
def setSharingCount (sharing : Sharing) (sig : Tree) (count : ℕ) : Sharing :=
  Function.update sharing sig (some count)

/-- `sharingAnnotation`, for a traversal of depth below `fuel`. -/
def sharingAnnotation : ℕ → ℕ → Tree → Sharing → Except Failure Sharing
  | 0, _, _, _ => .error .outOfFuel
  | fuel + 1, vctxt, sig, sharing =>
    let count := getSharingCount sharing sig
    if count > 0 then return setSharingCount sharing sig (count + 1)
    else do
      let v := g.variability sig
      let sharing := setSharingCount sharing sig (if v < vctxt then 2 else 1)
      match sig with
      | .node (.sym .sigSelect3) [c, y, x, z] => do
        let sharing ← sharingAnnotation fuel v c sharing
        let sharing ← sharingAnnotation fuel v c sharing
        let sharing ← sharingAnnotation fuel v x sharing
        let sharing ← sharingAnnotation fuel v y sharing
        sharingAnnotation fuel v z sharing
      | sig =>
        match g.getSubSignals sig with
        | none => .error .unrecognizedSignal
        | some subsig =>
          if isSigGen sig then pure sharing
          else subsig.foldlM (fun sharing s => sharingAnnotation fuel v s sharing) sharing

/-- The loop of `sharingAnalysis` on a list. -/
def sharingList (fuel : ℕ) : Tree → Sharing → Except Failure Sharing
  | .node (.sym .cons) [hd, tl], sharing => do
    let sharing ← sharingAnnotation g fuel kSamp hd sharing
    sharingList fuel tl sharing
  | _, sharing => return sharing

/-- `sharingAnalysis`. -/
def sharingAnalysis (fuel : ℕ) (t : Tree) : Except Failure Sharing :=
  match t with
  | .node (.sym .cons) [_, _] => sharingList g fuel t fun _ => none
  | t => sharingAnnotation g fuel kSamp t fun _ => none

end

/-! ## Positions in the graph -/

/-- The signals at the root: those of a list, or one. -/
def outputs (root : Tree) : List Tree :=
  match root with
  | .node (.sym .cons) [_, _] => listElements root
  | root => [root]

/-- A place in the graph: an output, or a signal that is below another one. -/
abbrev Position := Option Tree × ℕ

section
variable (g : Graph) (root : Tree)

/-- The signals used by a signal. The content of a table is another graph. -/
def children (t : Tree) : List Tree := if isSigGen t then [] else (g.getSubSignals t).getD []

/-- The signals of the graph. -/
inductive Reached : Tree → Prop
  | output {t : Tree} (h : t ∈ outputs root) : Reached t
  | child {u t : Tree} (hu : Reached u) (h : t ∈ children g u) : Reached t

/-- The signal is at this position of the graph. -/
def IsPosition : Position → Tree → Prop
  | (none, i), x => (outputs root)[i]? = some x
  | (some t, i), x => Reached g root t ∧ (children g t)[i]? = some x

/-- By how much what is at this position is delayed, at most. -/
def delayAt : Position → ℤ
  | (some (.node (.sym .sigFixDelay) [_, y]), 0) =>
    (checkDelayInterval (g.getCertifiedSigType y)).getD 0
  | (some (.node (.sym .sigPrefix) [_, _]), 1) => 1
  | (some (.node (.sym .sigDelay1) [_]), 0) => 1
  | _ => 0

/-- The variability of the context of a position. -/
def contextAt : Position → ℕ
  | (some t, _) => g.variability t
  | (none, _) => kSamp

/-- The graph is ready for the analyses: its signals are recognized, the delays are typed, and
the signals are as `simplify` leaves them, without `sigDelay1`. The constructor `sigSelect3`
builds no signal of that name. -/
structure Prepared : Prop where
  recognized : ∀ t, Reached g root t → (g.getSubSignals t).isSome
  delayed : ∀ x y, Reached g root (.node (.sym .sigFixDelay) [x, y]) →
    ∃ d, checkDelayInterval (g.getCertifiedSigType y) = some d ∧ 0 ≤ d
  no_delay1 : ∀ br, ¬ Reached g root (.node (.sym .sigDelay1) br)
  no_select3 : ∀ br, ¬ Reached g root (.node (.sym .sigSelect3) br)

/-- What is at this position can be delayed by `n` samples: the delay amount is in the interval of
its type. -/
def DelayedBy (p : Position) (n : ℤ) : Prop :=
  match p with
  | (some (.node (.sym .sigFixDelay) [_, y]), 0) =>
    (n : ℚ) ∈ (g.getCertifiedSigType y).fields.interval
  | p => n = delayAt g p

/-- The results of the two analyses are right. -/
structure Analysed (marks : Marks) (sharing : Sharing) : Prop where
  /-- The maximum delay that is recorded is that of a position, and of no less. -/
  maxDelay : ∀ x, Reached g root x → ∃ occ, marks x = some occ ∧
    IsGreatest {d | ∃ p, IsPosition g root p x ∧ delayAt g p = d} occ.getMaxDelay
  /-- No delay is out of a line that has the maximum delay. -/
  inside : ∀ x occ, marks x = some occ → ∀ p, IsPosition g root p x → ∀ n, DelayedBy g p n →
    0 ≤ n ∧ n ≤ occ.getMaxDelay
  /-- A signal is shared when it is at two positions, or in a faster context. -/
  shared : ∀ x, Reached g root x → (2 ≤ getSharingCount sharing x ↔
    (∃ p q, p ≠ q ∧ IsPosition g root p x ∧ IsPosition g root q x) ∨
      ∃ p, IsPosition g root p x ∧ g.variability x < contextAt g p)

end

end Faust.Occ
