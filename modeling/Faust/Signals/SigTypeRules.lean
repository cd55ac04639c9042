import Faust.Signals.AudioType
import Faust.Signals.Signals

/-!
# Type inference (`sigtyperules.cpp`)

`typeAnnotation` gives a type to every signal of an expression. The types of the recursive
groups are iterated until they no longer change. The groups and their definitions, which
`symlist` collects, are a parameter here.
-/

namespace Faust

open Faust.Tree AudioType

/-- Why no type is inferred. -/
inductive InferenceError
  | undefinedConversion
  | incompatibleTypes
  | checkInt | checkKonst | checkInit
  | delayNotBounded | delayNegative
  | notATuplet | notATable | wrongIndexType | notSimple
  | emptyWaveform
  | recursiveGroup
  | unrecognizedSignal
  | turnsExhausted
deriving DecidableEq, Repr

/-- The types made, and the types of the trees that are visited. -/
structure Typing where
  gMemoizedTypes : TypeMemo
  fType : Tree → Option AudioType

/-- A computation of type inference. -/
abbrev TypeM := StateT Typing (Except InferenceError)

/-- A computation that makes types. -/
def make {α : Type} (x : StateM TypeMemo α) : TypeM α := fun σ =>
  .ok ((x σ.gMemoizedTypes).1, { σ with gMemoizedTypes := (x σ.gMemoizedTypes).2 })

/-- `startNewVisit`. -/
def startNewVisit : TypeM Unit := modify fun σ => { σ with fType := fun _ => none }

/-- `setSigType`, with `setVisited`. -/
def setSigType (sig : Tree) (t : AudioType) : TypeM Unit :=
  modify fun σ => { σ with fType := Function.update σ.fType sig (some t) }

/-! ## Operations on types -/

/-- `intCast`. -/
def intCast (t : AudioType) : TypeM AudioType := make (makeSimpleType t.fields.intCast)

/-- `floatCast`. -/
def floatCast (t : AudioType) : TypeM AudioType := make (makeSimpleType t.fields.floatCast)

/-- `sampCast`. -/
def sampCast (t : AudioType) : TypeM AudioType := make (makeSimpleType t.fields.sampCast)

/-- `boolCast`. -/
def boolCast (t : AudioType) : TypeM AudioType := make (makeSimpleType t.fields.boolCast)

/-- `castInterval`. -/
def castInterval (t : AudioType) (i : Interval) : TypeM AudioType :=
  make (makeSimpleType (t.fields.castInterval i))

/-- `checkInt`. -/
def checkInt : AudioType → TypeM AudioType
  | .simple t => if t.nature = .kInt then return .simple t else throw .checkInt
  | _ => throw .checkInt

/-- `checkKonst`. -/
def checkKonst (t : AudioType) : TypeM AudioType :=
  if t.fields.variability > kKonst then throw .checkKonst else return t

/-- `checkInit`. -/
def checkInit (t : AudioType) : TypeM AudioType :=
  if t.fields.computability > kInit then throw .checkInit else return t

mutual
/-- `operator|`. -/
def joinTypes : AudioType → AudioType → TypeM AudioType
  | .simple t₁, .simple t₂ => make (makeSimpleType (t₁.join t₂))
  | .table c₁ _, .table c₂ _ => do make (makeTableType (← joinTypes c₁ c₂))
  | .tuplet ts₁ _, .tuplet ts₂ _ => return tupletType (← joinComponents ts₁ ts₂)
  | _, _ => throw .incompatibleTypes

/-- `operator|` on the components that both tuplets have. -/
def joinComponents : List AudioType → List AudioType → TypeM (List AudioType)
  | t₁ :: ts₁, t₂ :: ts₂ => return (← joinTypes t₁ t₂) :: (← joinComponents ts₁ ts₂)
  | _, _ => return []
end

/-- The components of a tuplet, or the type itself. -/
def componentsOrSelf : AudioType → List AudioType
  | .tuplet ts _ => ts
  | t => [t]

/-- `operator*`. -/
def mulTypes (t₁ t₂ : AudioType) : AudioType :=
  tupletType (componentsOrSelf t₁ ++ componentsOrSelf t₂)

/-! ## Predefined types -/

/-- `TINPUT`. -/
def TINPUT : AudioType := .simple ⟨.kReal, kSamp, kExec, kVect, kNum, .invalid⟩

/-- `TGUI`. -/
def TGUI : AudioType := .simple ⟨.kReal, kBlock, kExec, kVect, kNum, .invalid⟩

/-- `TGUI01`. -/
def TGUI01 : AudioType := .simple ⟨.kReal, kBlock, kExec, kVect, kNum, .ofBounds 0 1⟩

/-- `TREC`. -/
def TREC : AudioType := .simple ⟨.kInt, kSamp, kInit, kScal, kNum, .invalid⟩

/-! ## Rules -/

/-- The nature `kInt` or `kReal` that an `int` codes. -/
def natureOf (i : ℤ) : Nature := if i = 0 then .kInt else .kReal

/-- The type of a foreign function without arguments. -/
def foreignCallType (restype : Nature) : SimpleType :=
  ⟨restype, kSamp, kInit, kVect, kNum, .invalid⟩

/-- `infereFConstType`. -/
def infereFConstType (type : Tree) : TypeM AudioType :=
  make (makeSimpleType
    ⟨natureOf (type.label.toInt wrap32), kKonst, kInit, kVect, kNum, .invalid⟩)

/-- `infereFVarType`. -/
def infereFVarType (type : Tree) : TypeM AudioType :=
  make (makeSimpleType
    ⟨natureOf (type.label.toInt wrap32), kBlock, kExec, kVect, kNum, .invalid⟩)

/-- `infereProjType`, for a `vec` other than `kVect`. -/
def infereProjType (t : AudioType) (i : ℤ) (vec : ℕ) : TypeM AudioType :=
  match t with
  | .tuplet ts f =>
    match if i < 0 then none else ts[i.toNat]? with
    | some ty => do
      let ty ← make (ty.promoteVariability f.variability)
      let ty ← make (ty.promoteComputability f.computability)
      make (ty.promoteVectorability vec)
    | none => throw .notATuplet
  | _ => throw .notATuplet

/-- The check that both table rules make of their index. -/
def checkIndex : AudioType → TypeM Unit
  | .simple t => if t.nature = .kInt then return else throw .wrongIndexType
  | _ => throw .wrongIndexType

/-- `infereWriteTableType`. -/
def infereWriteTableType (tbl wi wd : AudioType) : TypeM AudioType :=
  match tbl with
  | .table content t => do
    checkIndex wi
    let v := wi.fields.variability ||| wd.fields.variability
    let c := wi.fields.computability ||| wd.fields.computability
    let vec := wi.fields.vectorability ||| wd.fields.vectorability
    make (makeTableTypeWith content t.nature v c vec)
  | _ => throw .notATable

/-- `infereReadTableType`. -/
def infereReadTableType (tbl ri : AudioType) : TypeM AudioType :=
  match tbl with
  | .table content t => do
    checkIndex ri
    let ty ← make (content.promoteVariability (ri.fields.variability ||| t.variability))
    let ty ← make (ty.promoteComputability (ri.fields.computability ||| t.computability))
    let ty ← make (ty.promoteVectorability (ri.fields.vectorability ||| t.vectorability))
    make (ty.promoteBoolean (ri.fields.boolean ||| t.boolean))
  | _ => throw .notATable

/-- `infereDocConstantTblType`. -/
def infereDocConstantTblType (size init : AudioType) : TypeM AudioType := do
  let _ ← checkKonst (← checkInt (← checkInit size))
  return init

/-- `infereDocWriteTblType`. -/
def infereDocWriteTblType (size init widx wsig : AudioType) : TypeM AudioType := do
  let _ ← checkKonst (← checkInt (← checkInit size))
  let ty ← make (init.promoteVariability kSamp)
  let ty ← make (ty.promoteComputability
    (widx.fields.computability ||| wsig.fields.computability))
  let ty ← make (ty.promoteVectorability kScal)
  let ty ← make (ty.promoteNature wsig.fields.nature)
  make (ty.promoteBoolean wsig.fields.boolean)

/-- `infereDocAccessTblType`. -/
def infereDocAccessTblType (tbl ridx : AudioType) : TypeM AudioType := do
  let ty ← make (tbl.promoteVariability ridx.fields.variability)
  let ty ← make (ty.promoteComputability ridx.fields.computability)
  make (ty.promoteVectorability ridx.fields.vectorability)

/-- `interval pow(x, y)`. -/
def powInterval (libm : Libm) (x y : Interval) : Interval :=
  if x.lo > 0 then
    let a := libm.binary .pow x.lo y.lo
    let b := libm.binary .pow x.lo y.hi
    let c := libm.binary .pow x.hi y.lo
    let d := libm.binary .pow x.hi y.hi
    .ofBounds (Interval.min4 a b c d) (Interval.max4 a b c d)
  else .invalid

/-- The `double` `M_PI / 2`. -/
def halfpi : ℚ := 884279719003555 / 562949953421312

/-- The bounds of an interval through a function. -/
def mapBounds (f : ℚ → ℚ) (i : Interval) : Interval := .ofBounds (f i.lo) (f i.hi)

/-- `xtended::infereSigType`. -/
def XtPrim.infereSigType (libm : Libm) (p : XtPrim) (args : List AudioType) : TypeM AudioType :=
  match p, args with
  | .abs, [t] => castInterval t t.fields.interval.abs
  | .min, [t₁, t₂] => do
    castInterval (← joinTypes t₁ t₂) (t₁.fields.interval.min t₂.fields.interval)
  | .max, [t₁, t₂] => do
    castInterval (← joinTypes t₁ t₂) (t₁.fields.interval.max t₂.fields.interval)
  | .pow, [t₁, t₂] => do
    castInterval (← joinTypes t₁ t₂) (powInterval libm t₁.fields.interval t₂.fields.interval)
  | .remainder, [t₁, t₂] => do castInterval (← floatCast (← joinTypes t₁ t₂)) .invalid
  | .fmod, [t₁, t₂] | .atan2, [t₁, t₂] => do floatCast (← joinTypes t₁ t₂)
  | .sin, [t] | .cos, [t] => do castInterval (← floatCast t) (.ofBounds (-1) 1)
  | .log, [t] | .log10, [t] =>
    let i := t.fields.interval
    if i.valid ∧ i.lo > 0 then do castInterval (← floatCast t) (mapBounds (libm.unary p) i)
    else floatCast t
  | .rint, [t] =>
    let i := t.fields.interval
    if i.valid then do castInterval (← floatCast t) (mapBounds (libm.unary p) i)
    else floatCast t
  | .sqrt, [t] =>
    let i := t.fields.interval
    if i.valid ∧ i.lo ≥ 0 then do castInterval (← floatCast t) (mapBounds (libm.unary p) i)
    else do castInterval (← floatCast t) .invalid
  | .tan, [t] =>
    let i := t.fields.interval
    let result := if i.valid ∧ -halfpi < i.lo ∧ i.hi < halfpi then mapBounds (libm.unary p) i
      else .invalid
    do castInterval (← floatCast t) result
  | _, [t] => floatCast t
  | _, _ => throw .unrecognizedSignal

/-- `T(term, env)`, given what `infereSigType` does with the term. -/
def T (term : Tree) (infere : TypeM AudioType) : TypeM AudioType := do
  match (← get).fType term with
  | some ty => return ty
  | none =>
    let ty ← infere
    setSigType term ty
    return ty

/-- The rule of sliders and numeric entries, given their parameters. -/
def infereSliderType (params : Tree) : TypeM AudioType :=
  match params with
  | .node _ [_, .node _ [min, .node _ [max, _]]] =>
    castInterval TGUI (.ofBounds min.label.toDouble max.label.toDouble)
  | _ => throw .unrecognizedSignal

/-- The rule of waveforms, given their values. -/
def infereWaveformRule (v : List Node) : TypeM AudioType :=
  match v.map Node.toDouble with
  | [] => throw .emptyWaveform
  | x :: xs => make (makeSimpleType
      ⟨if v.all Node.isInt then .kInt else .kReal, kSamp, kComp, kScal, kNum,
        .ofBounds (xs.foldl min x) (xs.foldl max x)⟩)

/-- The rule of `sigBinOp`, given the types of the operands. -/
def infereBinOpRule (i : BinOp) (t₁ t₂ : AudioType) : TypeM AudioType := do
  match arithmetic i t₁.fields.interval t₂.fields.interval with
  | none => throw .undefinedConversion
  | some I =>
    let t₃ ← castInterval (← joinTypes t₁ t₂) I
    match i with
    | .kDiv => floatCast t₃
    | .kGT | .kLT | .kGE | .kLE | .kEQ | .kNE => boolCast t₃
    | _ => return t₃

/-- The rule of `sigFixDelay`, given the types of the operands. -/
def infereFixDelayRule (t₁ t₂ : AudioType) : TypeM AudioType := do
  let i := t₂.fields.interval
  if i.valid = false then throw .delayNotBounded
  else if i.lo < 0 then throw .delayNegative
  else castInterval (← sampCast t₁) (t₁.fields.interval.reunion (.ofBounds 0 0))

/-- The rule of `sigSelect2`, given the types of the operands. -/
def infereSelect2Rule (tsel t₁ t₂ : AudioType) : TypeM AudioType :=
  match t₁, t₂, tsel with
  | .simple st₁, .simple st₂, .simple stsel => make (makeSimpleType
      ⟨st₁.nature.join st₂.nature, st₁.variability ||| st₂.variability ||| stsel.variability,
        st₁.computability ||| st₂.computability ||| stsel.computability,
        st₁.vectorability ||| st₂.vectorability ||| stsel.vectorability,
        st₁.boolean ||| st₂.boolean, st₁.interval.reunion st₂.interval⟩)
  | _, _, _ => throw .notSimple

section
variable (libm : Libm)

mutual
/-- `infereSigType`. -/
def infereSigType : Tree → TypeM AudioType
  | .node (.sym (.xtended p)) br => do p.infereSigType libm (← inferTypes br)
  | .node (.int i) _ =>
    make (makeSimpleType ⟨.kInt, kKonst, kComp, kVect, kNum, .point i⟩)
  | .node (.double r) _ =>
    make (makeSimpleType ⟨.kReal, kKonst, kComp, kVect, kNum, .point r⟩)
  | .node (.sym .sigWaveform) br => do
    let _ ← inferTypes br
    infereWaveformRule (br.map label)
  | .node (.sym .sigInput) [.node (.int _) _] => return TINPUT
  | .node (.sym .sigOutput) [.node (.int _) _, s₁] => do sampCast (← T s₁ (infereSigType s₁))
  | .node (.sym .sigDelay1) [s₁] => do
    let t ← T s₁ (infereSigType s₁)
    castInterval (← sampCast t) (t.fields.interval.reunion (.ofBounds 0 0))
  | .node (.sym .sigPrefix) [s₁, s₂] => do
    let t₁ ← T s₁ (infereSigType s₁)
    let t₂ ← T s₂ (infereSigType s₂)
    let _ ← checkInit t₁
    castInterval (← sampCast (← joinTypes t₁ t₂))
      (t₁.fields.interval.reunion t₂.fields.interval)
  | .node (.sym .sigFixDelay) [s₁, s₂] => do
    let t₁ ← T s₁ (infereSigType s₁)
    let t₂ ← T s₂ (infereSigType s₂)
    infereFixDelayRule t₁ t₂
  | .node (.sym .sigBinOp) [.node (.int op) _, s₁, s₂] => do
    let t₁ ← T s₁ (infereSigType s₁)
    let t₂ ← T s₂ (infereSigType s₂)
    match gBinOpTable[op.toNat]? with
    | some i => infereBinOpRule i t₁ t₂
    | none => throw .unrecognizedSignal
  | .node (.sym .sigIntCast) [s₁] => do intCast (← T s₁ (infereSigType s₁))
  | .node (.sym .sigFloatCast) [s₁] => do floatCast (← T s₁ (infereSigType s₁))
  | .node (.sym .sigFFun) [.node _ (.node _ [restype, .node _ [_, args]] :: _), ls] =>
    let n := natureOf (restype.label.toInt wrap32)
    if args.label = .sym .nil then make (makeSimpleType (foreignCallType n))
    else do
      let t ← inferArguments ls (.simple ⟨.kInt, kKonst, kInit, kVect, kNum, .invalid⟩)
      make (makeSimpleType ⟨n, t.fields.variability, t.fields.computability,
        t.fields.vectorability, t.fields.boolean, .invalid⟩)
  | .node (.sym .sigFConst) [type, _, _] => infereFConstType type
  | .node (.sym .sigFVar) [type, _, _] => infereFVarType type
  | .node (.sym .sigButton) [_] | .node (.sym .sigCheckbox) [_] => return TGUI01
  | .node (.sym .sigVSlider) [_, params] | .node (.sym .sigHSlider) [_, params]
  | .node (.sym .sigNumEntry) [_, params] => infereSliderType params
  | .node (.sym .sigHBargraph) [_, _, _, s₁] | .node (.sym .sigVBargraph) [_, _, _, s₁] =>
    T s₁ (infereSigType s₁)
  | .node (.sym .sigAttach) [s₁, s₂] => do
    let _ ← T s₂ (infereSigType s₂)
    T s₁ (infereSigType s₁)
  | .node (.sym .symRec) [_] => throw .recursiveGroup
  | .node (.sym .sigProj) [.node (.int i) _, s₁] => do
    infereProjType (← T s₁ (infereSigType s₁)) i kScal
  | .node (.sym .sigTable) [_, s₁, s₂] => do
    let _ ← checkInt (← checkInit (← T s₁ (infereSigType s₁)))
    make (makeTableType (← checkInit (← T s₂ (infereSigType s₂))))
  | .node (.sym .sigWRTbl) [_, s₁, s₂, s₃] => do
    let t₁ ← T s₁ (infereSigType s₁)
    let t₂ ← T s₂ (infereSigType s₂)
    let t₃ ← T s₃ (infereSigType s₃)
    infereWriteTableType t₁ t₂ t₃
  | .node (.sym .sigRDTbl) [s₁, s₂] => do
    let t₁ ← T s₁ (infereSigType s₁)
    let t₂ ← T s₂ (infereSigType s₂)
    infereReadTableType t₁ t₂
  | .node (.sym .sigGen) [s₁] => T s₁ (infereSigType s₁)
  | .node (.sym .sigDocConstantTbl) [x, y] => do
    let t₁ ← T x (infereSigType x)
    let t₂ ← T y (infereSigType y)
    infereDocConstantTblType t₁ t₂
  | .node (.sym .sigDocWriteTbl) [x, y, z, u] => do
    let t₁ ← T x (infereSigType x)
    let t₂ ← T y (infereSigType y)
    let t₃ ← T z (infereSigType z)
    let t₄ ← T u (infereSigType u)
    infereDocWriteTblType t₁ t₂ t₃ t₄
  | .node (.sym .sigDocAccessTbl) [x, y] => do
    let t₁ ← T x (infereSigType x)
    let t₂ ← T y (infereSigType y)
    infereDocAccessTblType t₁ t₂
  | .node (.sym .sigSelect2) [sel, s₁, s₂] => do
    let t₁ ← T s₁ (infereSigType s₁)
    let t₂ ← T s₂ (infereSigType s₂)
    let tsel ← T sel (infereSigType sel)
    infereSelect2Rule tsel t₁ t₂
  | .node (.sym .sigSelect3) [sel, s₁, s₂, s₃] => do
    let tsel ← T sel (infereSigType sel)
    let t ← joinTypes tsel (← T s₁ (infereSigType s₁))
    let t ← joinTypes t (← T s₂ (infereSigType s₂))
    joinTypes t (← T s₃ (infereSigType s₃))
  | .node (.sym .nil) _ => return tupletType []
  | .node (.sym .cons) [hd, tl] => do
    let t₁ ← T hd (infereSigType hd)
    let t₂ ← T tl (infereSigType tl)
    return mulTypes t₁ t₂
  | _ => throw .unrecognizedSignal

/-- The types of the arguments of a primitive, or of the values of a waveform. -/
def inferTypes : List Tree → TypeM (List AudioType)
  | [] => return []
  | s :: ss => do
    let t ← T s (infereSigType s)
    return t :: (← inferTypes ss)

/-- The loop of `infereFFType` over the list of the arguments. -/
def inferArguments : Tree → AudioType → TypeM AudioType
  | .node (.sym .cons) [hd, tl], t => do
    inferArguments tl (← joinTypes t (← T hd (infereSigType hd)))
  | _, t => return t
end

/-! ## Annotation -/

/-- `initialRecType`. -/
def initialRecType (t : Tree) : AudioType := tupletType (components t)
where
  /-- A `TREC` for each definition of the list. -/
  components : Tree → List AudioType
    | .node (.sym .cons) [_, tl] => TREC :: components tl
    | _ => []

/-- The types that the definitions have, given the types of the groups. -/
def inferDefinitions : List (Tree × Tree) → TypeM (List AudioType)
  | [] => return []
  | (_, body) :: sl => do
    let t ← T body (infereSigType libm body)
    return t :: (← inferDefinitions sl)

/-- The loop of `typeAnnotation`, with the number of turns that are left. -/
def annotationLoop (sl : List (Tree × Tree)) : ℕ → List AudioType → TypeM Unit
  | 0, _ => throw .turnsExhausted
  | turns + 1, vtype => do
    startNewVisit
    (sl.zip vtype).forM fun p => setSigType p.1.1 p.2
    let vtype' ← inferDefinitions libm sl
    if beqs vtype vtype' then return else annotationLoop sl turns vtype'

/-- `typeAnnotation`, given the recursive groups of the signal with their definitions. -/
def typeAnnotation (turns : ℕ) (sl : List (Tree × Tree)) (sig : Tree) : TypeM Unit := do
  annotationLoop libm sl turns (sl.map fun p => initialRecType p.2)
  let _ ← T sig (infereSigType libm sig)

end

end Faust
