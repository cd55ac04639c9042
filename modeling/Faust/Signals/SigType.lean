import Faust.Signals.Interval

/-!
# Simple signal types (`sigtype.hh`, `sigtyperules.cpp`)

A simple type says of a signal whether it is an `int` or a real one, how fast it varies,
when it is computed, whether it vectorises, whether it stands for a boolean, and in which
interval its values lie. Except for the interval, the fields are bit sets joined by `|`.
-/

namespace Faust

/-- `kInt` and `kReal`. -/
inductive Nature
  | kInt | kReal
deriving DecidableEq, Repr

/-- `n | m` on natures. -/
def Nature.join : Nature → Nature → Nature
  | .kInt, .kInt => .kInt
  | _, _ => .kReal

/-- `class SimpleType`. -/
structure SimpleType where
  nature : Nature
  variability : ℕ
  computability : ℕ
  vectorability : ℕ
  boolean : ℕ
  interval : Interval
deriving DecidableEq

/-- The variability `kSamp`. -/
def kSamp : ℕ := 3

/-- The booleanity `kBool`. -/
def kBool : ℕ := 1

namespace SimpleType

/-- `operator|` on simple types. -/
def join (t₁ t₂ : SimpleType) : SimpleType where
  nature := t₁.nature.join t₂.nature
  variability := t₁.variability ||| t₂.variability
  computability := t₁.computability ||| t₂.computability
  vectorability := t₁.vectorability ||| t₂.vectorability
  boolean := t₁.boolean ||| t₂.boolean
  interval := t₁.interval.reunion t₂.interval

/-- `intCast`. -/
def intCast (t : SimpleType) : SimpleType := { t with nature := .kInt }

/-- `floatCast`. -/
def floatCast (t : SimpleType) : SimpleType := { t with nature := .kReal }

/-- `sampCast`. -/
def sampCast (t : SimpleType) : SimpleType := { t with variability := kSamp }

/-- `boolCast`. -/
def boolCast (t : SimpleType) : SimpleType := { t with nature := .kInt, boolean := kBool }

/-- `castInterval`. -/
def castInterval (t : SimpleType) (i : Interval) : SimpleType := { t with interval := i }

end SimpleType

/-- Why no type is inferred: a conversion to `int` in the interval arithmetic is undefined,
the amount of a delay has no interval, or it may be negative. -/
inductive TypeError
  | undefinedConversion
  | delayNotBounded
  | delayNegative
deriving DecidableEq, Repr

/-- `infereSigType` on `sigBinOp(i, s1, s2)`, given the types of `s1` and `s2`. -/
def infereBinOpType (i : BinOp) (t₁ t₂ : SimpleType) : Except TypeError SimpleType :=
  match arithmetic i t₁.interval t₂.interval with
  | none => .error .undefinedConversion
  | some I =>
    let t₃ := (t₁.join t₂).castInterval I
    match i with
    | .kDiv => .ok t₃.floatCast
    | .kGT | .kLT | .kGE | .kLE | .kEQ | .kNE => .ok t₃.boolCast
    | _ => .ok t₃

/-- `infereSigType` on `sigFixDelay(s1, s2)`, given the types of `s1` and `s2`. -/
def infereFixDelayType (t₁ t₂ : SimpleType) : Except TypeError SimpleType :=
  let i := t₂.interval
  if i.valid = false then .error .delayNotBounded
  else if i.lo < 0 then .error .delayNegative
  else .ok (t₁.sampCast.castInterval (t₁.interval.reunion (.ofBounds 0 0)))

/-- `MinPrim::infereSigType`. -/
def infereMinType (t₁ t₂ : SimpleType) : SimpleType :=
  (t₁.join t₂).castInterval (t₁.interval.min t₂.interval)

/-- `MaxPrim::infereSigType`. -/
def infereMaxType (t₁ t₂ : SimpleType) : SimpleType :=
  (t₁.join t₂).castInterval (t₁.interval.max t₂.interval)

/-- `AbsPrim::infereSigType`. -/
def infereAbsType (t : SimpleType) : SimpleType := t.castInterval t.interval.abs

end Faust
