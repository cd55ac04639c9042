import Faust.Tlib.Node

/-!
# Intervals (`interval.hh`)

The interval of a signal type bounds the values of the signal. The bounds are exact
rationals here. An interval that is not marked valid bounds nothing.

`operator&` and `operator|` convert bounds to `int`. A conversion that does not fit is
undefined behaviour in C++, and the result is then `none`.
-/

namespace Faust

/-- `HUGE_VAL`, the bound of the intervals that are not valid. -/
def hugeVal : ℚ := 2 ^ 1024

/-- `struct interval`. Every constructor orders the bounds. -/
structure Interval where
  valid : Bool
  lo : ℚ
  hi : ℚ
  le : lo ≤ hi
deriving DecidableEq

namespace Interval

instance : Membership ℚ Interval := ⟨fun I x => I.lo ≤ x ∧ x ≤ I.hi⟩

theorem mem_def {x : ℚ} {I : Interval} : x ∈ I ↔ I.lo ≤ x ∧ x ≤ I.hi := Iff.rfl

instance (x : ℚ) (I : Interval) : Decidable (x ∈ I) := inferInstanceAs (Decidable (_ ∧ _))

/-! ## Constructors -/

/-- `interval()`. -/
def invalid : Interval := ⟨false, -hugeVal, hugeVal, by norm_num [hugeVal]⟩

/-- `interval(n)`. -/
def point (n : ℚ) : Interval := ⟨true, n, n, le_rfl⟩

/-- `interval(n, m)`. -/
def ofBounds (n m : ℚ) : Interval := ⟨true, min n m, max n m, min_le_max⟩

@[simp] theorem valid_invalid : invalid.valid = false := rfl

@[simp] theorem valid_ofBounds (n m : ℚ) : (ofBounds n m).valid = true := rfl

@[simp] theorem lo_ofBounds (n m : ℚ) : (ofBounds n m).lo = min n m := rfl

@[simp] theorem hi_ofBounds (n m : ℚ) : (ofBounds n m).hi = max n m := rfl

theorem mem_ofBounds {n m x : ℚ} (h₁ : n ≤ x) (h₂ : x ≤ m) : x ∈ ofBounds n m :=
  ⟨min_le_of_left_le h₁, le_max_of_le_right h₂⟩

theorem mem_ofBounds_iff {n m x : ℚ} (h : n ≤ m) : x ∈ ofBounds n m ↔ n ≤ x ∧ x ≤ m := by
  rw [mem_def, lo_ofBounds, hi_ofBounds, min_eq_left h, max_eq_right h]

/-! ## Operations -/

/-- `reunion`. -/
def reunion (x y : Interval) : Interval :=
  if x.valid && y.valid then ofBounds (min x.lo y.lo) (max x.hi y.hi) else invalid

/-- `operator+`. -/
def add (x y : Interval) : Interval :=
  if x.valid && y.valid then ofBounds (x.lo + y.lo) (x.hi + y.hi) else invalid

/-- `operator-`. -/
def sub (x y : Interval) : Interval :=
  if x.valid && y.valid then ofBounds (x.lo - y.hi) (x.hi - y.lo) else invalid

/-- `min4`. -/
def min4 (a b c d : ℚ) : ℚ := min (min a b) (min c d)

/-- `max4`. -/
def max4 (a b c d : ℚ) : ℚ := max (max a b) (max c d)

/-- `operator*`. -/
def mul (x y : Interval) : Interval :=
  if x.valid && y.valid then
    let a := x.lo * y.lo
    let b := x.lo * y.hi
    let c := x.hi * y.lo
    let d := x.hi * y.hi
    ofBounds (min4 a b c d) (max4 a b c d)
  else invalid

/-- `operator/`. -/
def div (x y : Interval) : Interval :=
  if x.valid && y.valid && (decide (y.lo > 0) || decide (y.hi < 0)) then
    mul x (ofBounds (1 / y.hi) (1 / y.lo))
  else invalid

/-- `operator%`. -/
def rem (x y : Interval) : Interval :=
  if x.valid && y.valid && decide (x.lo ≥ 0) && decide (y.lo > 0) then ofBounds 0 y.hi
  else invalid

/-- The loop of `bitmask`: `v |= v >> i` for `i` = 1, 2, 4, 8, 16. -/
def smear (v : BitVec 32) : BitVec 32 :=
  [1, 2, 4, 8, 16].foldl (fun v i => v ||| v.sshiftRight i) v

/-- `bitmask`, `none` when the conversion of `x` to `int` is undefined. -/
def bitmask (x : ℚ) : Option (BitVec 32) :=
  if IsInt32 (truncInt x) then some (smear (.ofInt 32 (truncInt x))) else none

/-- `operator&`. -/
def and (x y : Interval) : Option Interval :=
  if x.valid && y.valid then
    if x.lo ≥ 0 ∧ y.lo ≥ 0 then
      (bitmask x.hi).bind fun a => (bitmask y.hi).map fun b => ofBounds 0 (a &&& b).toInt
    else if y.lo ≥ 0 then (bitmask y.hi).map fun b => ofBounds 0 b.toInt
    else if x.lo ≥ 0 then (bitmask y.hi).map fun b => ofBounds 0 b.toInt
    else some invalid
  else if x.valid && decide (x.lo ≥ 0) then (bitmask x.hi).map fun a => ofBounds 0 a.toInt
  else if y.valid && decide (y.lo ≥ 0) then (bitmask y.hi).map fun b => ofBounds 0 b.toInt
  else some invalid

/-- `operator|`. -/
def or (x y : Interval) : Option Interval :=
  if x.valid && y.valid && decide (x.lo ≥ 0) && decide (y.lo ≥ 0) then
    (bitmask x.hi).bind fun a => (bitmask y.hi).map fun b => ofBounds 0 (a ||| b).toInt
  else some invalid

/-- `operator^`. -/
def xor (_ _ : Interval) : Interval := invalid

/-- `operator<<`. -/
def lsh (_ _ : Interval) : Interval := invalid

/-- `operator>>`. -/
def rsh (_ _ : Interval) : Interval := invalid

/-- `operator<`, `<=`, `>`, `>=`, `==` and `!=`: the interval of a comparison of signals. -/
def comparison (_ _ : Interval) : Interval := ofBounds 0 1

/-- `min(x, y)`. -/
protected def min (x y : Interval) : Interval := ofBounds (min x.lo y.lo) (min x.hi y.hi)

/-- `max(x, y)`. -/
protected def max (x y : Interval) : Interval := ofBounds (max x.lo y.lo) (max x.hi y.hi)

/-- `abs(x)`. -/
def abs (x : Interval) : Interval :=
  if x.valid then
    if x.lo ≥ 0 then x
    else if x.hi < 0 then ofBounds |x.hi| |x.lo|
    else ofBounds 0 (max |x.lo| x.hi)
  else x

end Interval

/-- `arithmetic(opcode, x, y)` (sigtyperules.cpp). -/
def arithmetic (opcode : BinOp) (x y : Interval) : Option Interval :=
  match opcode with
  | .kAdd => some (x.add y)
  | .kSub => some (x.sub y)
  | .kMul => some (x.mul y)
  | .kDiv => some (x.div y)
  | .kRem => some (x.rem y)
  | .kLsh => some (x.lsh y)
  | .kRsh => some (x.rsh y)
  | .kGT | .kLT | .kGE | .kLE | .kEQ | .kNE => some (x.comparison y)
  | .kAND => x.and y
  | .kOR => x.or y
  | .kXOR => some (x.xor y)

end Faust
