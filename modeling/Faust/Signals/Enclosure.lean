import Faust.Signals.SigType

/-!
# Enclosure of computed values by inferred intervals

A literal has a type when its nature is that of the type and its value lies in the interval
of the type. An operation encloses its values when the interval inferred for it holds every
value it computes from operands that have their types, at any time.
-/

namespace Faust

/-- The literal `a` is a value of a signal of type `t`: an `int` in the range of `int`, or a
real, that lies in the interval of `t` when it is valid. -/
structure HasType (a : Node) (t : SimpleType) : Prop where
  nature : match t.nature with
    | .kInt => ∃ i, a = .int i ∧ IsInt32 i
    | .kReal => ∃ x, a = .double x
  mem : t.interval.valid = true → a.toDouble ∈ t.interval

/-- The value of the code of a binary operation (`generateBinOp`). It is that of the operator on
literals, except that two `int`s are divided as `int`s, and the quotient is then cast to the
type of the signal. -/
def BinOp.value : BinOp → Node → Node → Node
  | .kDiv, .int i, .int j => .double (wrap32 (i.tdiv j))
  | op, a, b => op.compute wrap32 a b

/-- The operations under study: those of `arithmetic`, and the other signals whose interval
is computed from the interval of their operands. -/
inductive Operation
  | binOp (op : BinOp)
  | min | max | abs
  | intCast | floatCast
  | fixDelay
deriving DecidableEq, Repr

namespace Operation

/-- The number of operands. -/
def arity : Operation → ℕ
  | abs | intCast | floatCast => 1
  | _ => 2

/-- The type inferred from the types of the operands (the second one of a unary operation
is not read). -/
def infere : Operation → SimpleType → SimpleType → Except TypeError SimpleType
  | binOp op, t₁, t₂ => infereBinOpType op t₁ t₂
  | min, t₁, t₂ => .ok (infereMinType t₁ t₂)
  | max, t₁, t₂ => .ok (infereMaxType t₁ t₂)
  | abs, t₁, _ => .ok (infereAbsType t₁)
  | intCast, t₁, _ => .ok t₁.intCast
  | floatCast, t₁, _ => .ok t₁.floatCast
  | fixDelay, t₁, t₂ => infereFixDelayType t₁ t₂

/-- The value of the operation at time `n`. All are computed sample by sample, except a
delay, which reads its first operand in the past, or zero before the first sample. -/
def compute : Operation → (ℕ → Node) → (ℕ → Node) → ℕ → Node
  | binOp op, x, y, n => op.value (x n) (y n)
  | min, x, y, n => Node.minNode wrap32 (x n) (y n)
  | max, x, y, n => Node.maxNode wrap32 (x n) (y n)
  | abs, x, _, n => Node.absNode wrap32 (x n)
  | intCast, x, _, n => .int ((x n).toInt wrap32)
  | floatCast, x, _, n => .double (x n).toDouble
  | fixDelay, x, y, n =>
    let d := (y n).toInt wrap32
    if d ≤ n then x (n - d).toNat else .int 0

end Operation

/-- The conversion of the literal to `int` is defined. -/
def Convertible (a : Node) : Prop := IsInt32 (truncInt a.toDouble)

/-- An `int` operation has its exact result in the range of `int`. -/
def NoOverflow (f : ℤ → ℤ → ℤ) (a b : Node) : Prop :=
  ∀ i j, a = .int i → b = .int j → IsInt32 (f i j)

/-- The operation on two literals is defined in C++: no `int` operation overflows, no
divisor is zero, no conversion to `int` is out of range, no shift is too wide. -/
def Operation.Defined : Operation → Node → Node → Prop
  | .binOp .kAdd, a, b => NoOverflow (· + ·) a b
  | .binOp .kSub, a, b => NoOverflow (· - ·) a b
  | .binOp .kMul, a, b => NoOverflow (· * ·) a b
  | .binOp .kDiv, a, b => b.toDouble ≠ 0 ∧ NoOverflow Int.tdiv a b
  | .binOp .kRem, a, b => Convertible a ∧ Convertible b ∧ truncInt b.toDouble ≠ 0 ∧
      IsInt32 ((truncInt a.toDouble).tdiv (truncInt b.toDouble))
  | .binOp .kLsh, a, b | .binOp .kRsh, a, b => Convertible a ∧ Convertible b ∧
      0 ≤ truncInt b.toDouble ∧ truncInt b.toDouble < 32
  | .binOp .kAND, a, b | .binOp .kOR, a, b | .binOp .kXOR, a, b => Convertible a ∧ Convertible b
  | .binOp _, _, _ | .min, _, _ | .max, _, _ | .floatCast, _, _ => True
  | .abs, a, _ => ∀ i, a = .int i → IsInt32 |i|
  | .intCast, a, _ => Convertible a
  | .fixDelay, _, b => Convertible b

/-- The interval inferred for the operation holds every value computed from operands of the
types `t₁` and `t₂`. An operation whose delay the compiler refuses computes nothing, an
interval whose computation is undefined holds nothing. -/
def Encloses (o : Operation) (t₁ t₂ : SimpleType) : Prop :=
  match o.infere t₁ t₂ with
  | .ok t => t.interval.valid = true → ∀ x y : ℕ → Node, (∀ n, HasType (x n) t₁) →
      (o.arity = 2 → ∀ n, HasType (y n) t₂) → ∀ n, o.Defined (x n) (y n) →
      (o.compute x y n).toDouble ∈ t.interval
  | .error .undefinedConversion => False
  | .error _ => True

/-! ## The condition for enclosure -/

namespace Interval

/-- The bound nearest to zero of an interval without zero. -/
def near (x : Interval) : ℚ := if 0 < x.lo then x.lo else x.hi

/-- The bound furthest from zero of an interval without zero. -/
def far (x : Interval) : ℚ := if 0 < x.lo then x.hi else x.lo

end Interval

namespace SimpleType

/-- The least `int` that a value of the type converts to. -/
def intLo (t : SimpleType) : ℤ :=
  Max.max (-2 ^ 31) (match t.nature with
    | .kInt => ⌈t.interval.lo⌉
    | .kReal => truncInt t.interval.lo)

/-- The greatest `int` that a value of the type converts to. -/
def intHi (t : SimpleType) : ℤ :=
  Min.min (2 ^ 31 - 1) (match t.nature with
    | .kInt => ⌊t.interval.hi⌋
    | .kReal => truncInt t.interval.hi)

/-- The `int` nearest to zero from `intLo` to `intHi`, when the interval is without zero. -/
def intNear (t : SimpleType) : ℤ := if 0 < t.interval.lo then t.intLo else t.intHi

/-- The `int` furthest from zero from `intLo` to `intHi`, when the interval is without zero. -/
def intFar (t : SimpleType) : ℤ := if 0 < t.interval.lo then t.intHi else t.intLo

/-- Bit `i` is set in some `int` from `intLo` to `intHi`. -/
def CanSet (t : SimpleType) (i : ℕ) : Prop :=
  t.intLo ≤ t.intHi ∧
    (t.intLo / 2 ^ i % 2 = 1 ∨ (t.intLo / 2 ^ i + 1) * 2 ^ i ≤ t.intHi)

instance (t : SimpleType) (i : ℕ) : Decidable (t.CanSet i) := by
  unfold CanSet; infer_instance

/-- Truncation does not leave the interval: it holds zero, or its bound nearest to zero is
an integer, or no value of it converts to `int`. -/
def CastSafe (t : SimpleType) : Prop :=
  t.nature = .kInt ∨ 0 ∈ t.interval ∨
    (0 < t.interval.lo ∧ ((⌊t.interval.lo⌋ : ℚ) = t.interval.lo ∨ 2 ^ 31 ≤ t.interval.lo)) ∨
    (t.interval.hi < 0 ∧
      ((⌈t.interval.hi⌉ : ℚ) = t.interval.hi ∨ t.interval.hi ≤ -2 ^ 31 - 1))

end SimpleType

/-- No bit above those of `bitmask(y.hi)` can be set both in a value of `t₁` and in a value
of `t₂`. -/
def NoCommonBit (t₁ t₂ : SimpleType) : Prop :=
  ∀ m, Interval.bitmask t₂.interval.hi = some m → ∀ i < 32, m.toInt.toNat < 2 ^ i →
    ¬ (t₁.CanSet i ∧ t₂.CanSet i)

/-- Truncation does not leave the interval of the quotients of two `int` signals: one of them
may be zero or has no value, or the quotient of `int`s that is nearest to zero is not nearer
than that of the bounds. -/
def QuotientSafe (t₁ t₂ : SimpleType) : Prop :=
  t₁.nature = .kInt → t₂.nature = .kInt → 0 ∉ t₁.interval → 0 ∉ t₂.interval →
    t₁.intLo ≤ t₁.intHi → t₂.intLo ≤ t₂.intHi →
    |t₁.interval.near / t₂.interval.far| ≤ |(t₁.intNear.tdiv t₂.intFar : ℚ)|

/-- When the interval of an operation holds its values: the upper bounds that `&` and `|`
convert are in the range of `int`; when only the second operand of `&` may be negative, no
bit above the mask can be common to both; truncation, of a quotient of two `int`s or by the
cast to `int`, does not leave the interval. -/
def Operation.Safe : Operation → SimpleType → SimpleType → Prop
  | .binOp .kDiv, t₁, t₂ => QuotientSafe t₁ t₂
  | .binOp .kAND, t₁, t₂ =>
    let x := t₁.interval
    let y := t₂.interval
    (0 ≤ x.lo ∧ 0 ≤ y.lo → IsInt32 (truncInt x.hi)) ∧
    (0 ≤ x.lo ∨ 0 ≤ y.lo → IsInt32 (truncInt y.hi)) ∧
    (0 ≤ x.lo ∧ y.lo < 0 → NoCommonBit t₁ t₂)
  | .binOp .kOR, t₁, t₂ =>
    let x := t₁.interval
    let y := t₂.interval
    0 ≤ x.lo ∧ 0 ≤ y.lo → IsInt32 (truncInt x.hi) ∧ IsInt32 (truncInt y.hi)
  | .intCast, t₁, _ => t₁.CastSafe
  | _, _, _ => True

end Faust
