import Faust.Tlib.Node

/-!
# Labels with values in them (`evalLabel`, eval.cpp)

A label may name identifiers: `%2i` in a label stands for the value of `i`, printed with at least
two characters. Labels are lists of characters; the end of the list is the character 0 that ends a
C string. The value of an identifier is computed in a monad: the evaluator's, or `Option` where the
identifiers have values or not.
-/

namespace Faust

/-- `isDigitChar`. -/
def isDigitChar (c : Char) : Bool := '0' ≤ c ∧ c ≤ '9'

/-- `isIdentChar`. -/
def isIdentChar (c : Char) : Bool :=
  ('a' ≤ c ∧ c ≤ 'z') ∨ ('A' ≤ c ∧ c ≤ 'Z') ∨ ('0' ≤ c ∧ c ≤ '9') ∨ c = '_'

/-- The number that a list of digits writes. -/
def digitsValue (digits : List Char) : ℕ := Nat.ofDigitChars 10 digits 0

/-- `atoi` on digits: `strtol`, which stops at `LONG_MAX`, converted to `int`. -/
def atoi (digits : List Char) : ℤ := wrap32 (min (digitsValue digits) (2 ^ 63 - 1))

/-- A number in decimal. -/
def decimal : ℤ → List Char
  | .ofNat n => Nat.toDigits 10 n
  | .negSucc n => '-' :: Nat.toDigits 10 (n + 1)

/-- `%wd`: a number in decimal, with blanks in front when there are less than `w` characters. -/
def printInt (w : ℕ) (n : ℤ) : List Char :=
  List.replicate (w - (decimal n).length) ' ' ++ decimal n

/-- The index of the format in `Formats`: `min(4, max(f, 0))`. -/
def formatIndex (format : List Char) : ℕ := min 4 (atoi format).toNat

/-- The states of `evalLabel`: 0, 1 and 2. -/
inductive LabelState
  | text
  | format
  | ident
deriving DecidableEq, Repr

section
variable {m : Type → Type} [Monad m]

/-- `writeIdentValue`. `eval2int` computes the value of an identifier. -/
def writeIdentValue (eval2int : List Char → m ℤ) (dst format ident : List Char) :
    m (List Char) := do
  let n ← eval2int ident
  return dst ++ printInt (formatIndex format) n

/-- The loop of `evalLabel`. -/
def evalLabelLoop (eval2int : List Char → m ℤ) (state : LabelState)
    (src dst ident format : List Char) : m (List Char) :=
  match state, src with
  | .text, [] => return dst
  | .text, c :: src =>
    if c = '%' then evalLabelLoop eval2int .format src dst [] []
    else evalLabelLoop eval2int .text src (dst ++ [c]) ident format
  | .format, [] => return dst ++ '%' :: format
  | .format, c :: src =>
    if isDigitChar c then evalLabelLoop eval2int .format src dst ident (format ++ [c])
    else if isIdentChar c then evalLabelLoop eval2int .ident src dst (ident ++ [c]) format
    -- `src--`: the character is read again as text
    else evalLabelLoop eval2int .text (c :: src) (dst ++ '%' :: format) ident format
  | .ident, [] => do
    let dst ← writeIdentValue eval2int dst format ident
    evalLabelLoop eval2int .text [] dst ident format
  | .ident, c :: src =>
    if isIdentChar c then evalLabelLoop eval2int .ident src dst (ident ++ [c]) format
    else do
      let dst ← writeIdentValue eval2int dst format ident
      evalLabelLoop eval2int .text (c :: src) dst ident format
termination_by (src.length, if state = .text then 0 else 1)

/-- `evalLabel`. -/
def evalLabel (eval2int : List Char → m ℤ) (src : List Char) : m (List Char) :=
  evalLabelLoop eval2int .text src [] [] []

end

end Faust
