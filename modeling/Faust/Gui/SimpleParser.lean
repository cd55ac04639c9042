import Mathlib.Data.Rat.Defs
import Mathlib.Tactic.Common

/-!
# Parsing the descriptions of menus (`SimpleParser.h`)

A position in a string is the text from there to the end of the string. A parser returns whether it
succeeds, the position that it leaves, and the values of its output arguments. Numbers are exact.
-/

namespace Faust.SimpleParser

/-- What is left of a string. -/
abbrev Text := List Char

/-- `isspace`. -/
def isspace (c : Char) : Bool := c.toNat = 32 || 9 ≤ c.toNat && c.toNat ≤ 13

/-- `isdigit`. -/
def isdigit (c : Char) : Bool := 48 ≤ c.toNat && c.toNat ≤ 57

/-- The single quote. -/
def squote : Char := Char.ofNat 39

/-- The double quote. -/
def dquote : Char := Char.ofNat 34

/-! ## Elementary parsers -/

/-- `skipBlank`. -/
def skipBlank : Text → Text
  | [] => []
  | c :: p => if isspace c then skipBlank p else c :: p

/-- `parseChar`. -/
def parseChar (p : Text) (x : Char) : Bool × Text :=
  match skipBlank p with
  | [] => (false, [])
  | c :: q => if x = c then (true, q) else (false, c :: q)

/-- The loop of `parseWord`: what is left of the word and of the text. -/
def matchWord : List Char → Text → List Char × Text
  | d :: w, c :: p => if d = c then matchWord w p else (d :: w, c :: p)
  | w, p => (w, p)

/-- `parseWord`. -/
def parseWord (p : Text) (w : List Char) : Bool × Text :=
  let saved := skipBlank p
  match matchWord w saved with
  | ([], q) => (true, q)
  | (_ :: _, _) => (false, saved)

/-- The loops of `parseDouble`: whether there is a digit, the number read, its division factor and
the text left. -/
def digitLoop : Text → Bool → ℚ → ℚ → Bool × ℚ × ℚ × Text
  | [], valid, part, coef => (valid, part, coef, [])
  | c :: p, valid, part, coef =>
    if isdigit c then digitLoop p true (part * 10 + (c.toNat - 48 : ℕ)) (coef * 10)
    else (valid, part, coef, c :: p)

/-- The sign at the beginning of `parseDouble`. -/
def parseSign (p : Text) : ℚ × Text :=
  match parseChar p '+' with
  | (true, q) => (1, q)
  | (false, q) =>
    match parseChar q '-' with
    | (true, r) => (-1, r)
    | (false, r) => (1, r)

/-- `parseDouble`. -/
def parseDouble (p : Text) (x : ℚ) : Bool × Text × ℚ :=
  let saved := skipBlank p
  match parseSign saved with
  | (sign, p) =>
    match digitLoop p false 0 1 with
    | (valid, ipart, _, p) =>
      match (match parseChar p '.' with
        | (true, q) => digitLoop q valid 0 1
        | (false, q) => (valid, 0, 1, q)) with
      | (valid, dpart, dcoef, p) =>
        if valid then (true, p, sign * (ipart + dpart / dcoef)) else (false, saved, x)

/-- The loop of `parseString`. -/
def readString (quote : Char) : Text → List Char → List Char × Text
  | [], str => (str, [])
  | c :: p, str => if c = quote then (str, c :: p) else readString quote p (str ++ [c])

/-- `parseString`. -/
def parseString (p : Text) (quote : Char) (s : List Char) : Bool × Text × List Char :=
  let saved := skipBlank p
  match saved with
  | [] => (false, saved, s)
  | c :: q =>
    if c = quote then
      match readString quote q [] with
      | (_, []) => (false, saved, s)
      | (str, d :: r) => if d = quote then (true, r, str) else (false, saved, s)
    else (false, saved, s)

/-- `parseSQString`. -/
def parseSQString (p : Text) (s : List Char) : Bool × Text × List Char := parseString p squote s

/-- `parseDQString`. -/
def parseDQString (p : Text) (s : List Char) : Bool × Text × List Char := parseString p dquote s

/-! ## Menus -/

/-- `parseMenuItem`. -/
def parseMenuItem (p : Text) (name : List Char) (value : ℚ) : Bool × Text × List Char × ℚ :=
  match parseSQString p name with
  | (false, _, name) => (false, p, name, value)
  | (true, q, name) =>
    match parseChar q ':' with
    | (false, _) => (false, p, name, value)
    | (true, q) =>
      match parseDouble q value with
      | (false, _, value) => (false, p, name, value)
      | (true, q, value) => (true, q, name, value)

/-- The loop of `parseMenuList` in a number of steps: `some none` where it returns `false`. -/
def menuLoop : ℕ → Text → List (List Char) → List ℚ →
    Option (Option (Text × List (List Char) × List ℚ))
  | 0, _, _, _ => none
  | k + 1, p, tmpnames, tmpvalues =>
    match parseMenuItem p [] 0 with
    | (false, _) => some none
    | (true, q, n, v) =>
      match parseChar q ';' with
      | (true, r) => menuLoop k r (tmpnames ++ [n]) (tmpvalues ++ [v])
      | (false, r) => some (some (r, tmpnames ++ [n], tmpvalues ++ [v]))

/-- `parseMenuList`. There is no result where the loop does not end. -/
def parseMenuList (p : Text) (names : List (List Char)) (values : List ℚ) :
    Option (Bool × Text × List (List Char) × List ℚ) :=
  match parseChar p '\x7b' with
  | (false, _) => some (false, p, names, values)
  | (true, q) =>
    match menuLoop (q.length + 1) q [] [] with
    | none => none
    | some none => some (false, p, names, values)
    | some (some (r, tmpnames, tmpvalues)) =>
      match parseChar r '\x7d' with
      | (true, r) => some (true, r, tmpnames, tmpvalues)
      | (false, _) => some (false, p, names, values)

end Faust.SimpleParser
