import Faust.Lib.InternTable
import Mathlib.Data.Int.Basic
import Mathlib.Data.List.TakeWhile
import Mathlib.Logic.Function.Basic
import Mathlib.Tactic.IntervalCases

/-!
# Symbols in memory (`symbol.cpp`)

A symbol is made once for each name: the hash table `gSymbolTable` links the symbols of a slot, and
`get` gives back the one that has the name. A name is cleaned before it is looked up, by `get` but
not by `isnew`, which `prefix` asks whether a name is new.
-/

namespace Faust.Symbols

/-- A character (`char`, signed). -/
abbrev Char8 := BitVec 8

/-- A string of C: the characters before the zero that ends it. -/
@[ext]
structure CString where
  chars : List Char8
  no_zero : 0 ∉ chars
deriving DecidableEq

namespace CString

/-- The characters before the first zero. -/
def ofChars (l : List Char8) : CString := ⟨l.takeWhile (· ≠ 0), fun h => by
  have := List.mem_takeWhile_imp h
  simp at this⟩

/-- The first `n` characters. -/
def take (n : ℕ) (str : CString) : CString :=
  ⟨str.chars.take n, fun h => str.no_zero (List.mem_of_mem_take h)⟩

end CString

/-- A pointer to a symbol: its position among the symbols allocated. -/
abbrev Ptr := ℕ

/-- `class Symbol`. -/
structure Symbol where
  fName : CString
  fHash : BitVec 32
  fNext : Option Ptr

/-- `kHashTableSize`. -/
def kHashTableSize : ℕ := 511

/-- The symbols allocated, `gSymbolTable` and `gPrefixCounters`, whose keys are pointers. -/
structure Memory where
  symbols : List Symbol
  gSymbolTable : ℕ → Option Ptr
  gPrefixCounters : ℕ → BitVec 32

/-- `Symbol::init()`. -/
def Memory.init : Memory := ⟨[], fun _ => none, fun _ => 0⟩

/-! ## Names -/

/-- `c >= 0 && c < 32`. -/
def isControl (c : Char8) : Bool := 0 ≤ c.toInt && c.toInt < 32

/-- `(c >= 0 && c < 32) ? 32 : c`. -/
def clean (c : Char8) : Char8 := if isControl c then 32 else c

/-- The loop that copies a name, after `n` characters. -/
def copy : ℕ → List Char8 → List Char8
  | _, [] => []
  | n, c :: rest => if n + 1 < 1024 then clean c :: copy (n + 1) rest else []

/-- A character that is no control character is not the end of a string. -/
theorem ne_zero_of_not_control {c : Char8} (h : isControl c = false) : c ≠ 0 := by
  rintro rfl
  exact absurd h (by decide)

theorem isControl_clean (c : Char8) : isControl (clean c) = false := by
  unfold clean
  split
  · decide
  · next h => simpa using h

theorem copy_eq (n : ℕ) (l : List Char8) : copy n l = (l.take (1023 - n)).map clean := by
  induction l generalizing n with
  | nil => simp [copy]
  | cons c l ih =>
    unfold copy
    split
    · next h =>
      obtain ⟨k, hk⟩ : ∃ k, 1023 - n = k + 1 := ⟨1023 - n - 1, by omega⟩
      have hk' : 1023 - (n + 1) = k := by omega
      rw [ih, hk, hk', List.take_succ_cons, List.map_cons]
    · next h =>
      have hn : 1023 - n = 0 := by omega
      rw [hn, List.take_zero, List.map_nil]

/-- No character of a name that has been copied is a control character. -/
theorem not_control_of_mem_copy {n : ℕ} {l : List Char8} {c : Char8} (hc : c ∈ copy n l) :
    isControl c = false := by
  rw [copy_eq] at hc
  obtain ⟨d, -, rfl⟩ := List.mem_map.1 hc
  exact isControl_clean d

/-- The name that `get` looks up for a string. -/
def sanitise (raw : CString) : CString :=
  ⟨copy 0 raw.chars, fun h => ne_zero_of_not_control (not_control_of_mem_copy h) rfl⟩

/-- `calcHashKey`. -/
def calcHashKey (str : CString) : BitVec 32 :=
  str.chars.foldl (fun h c => (h <<< 1) ^^^ (h >>> 20) ^^^ c.signExtend 32) 0

/-- `hsh % kHashTableSize`. -/
def bucket (hsh : BitVec 32) : ℕ := hsh.toNat % kHashTableSize

/-- What `%d` prints. -/
def decimal (i : ℤ) : List Char8 :=
  ((if i < 0 then ['-'] else []) ++ Nat.toDigits 10 i.natAbs).map fun c => BitVec.ofNat 8 c.toNat

theorem not_control_of_mem_decimal {i : ℤ} {c : Char8} (hc : c ∈ decimal i) :
    isControl c = false := by
  obtain ⟨d, hd, rfl⟩ := List.mem_map.1 hc
  rcases List.mem_append.1 hd with hd | hd
  · split_ifs at hd
    · rw [List.mem_singleton.1 hd]
      decide
    · cases hd
  · have hdigit : d.isDigit = true := Nat.isDigit_of_mem_toDigits (by decide) (by decide) hd
    obtain ⟨hlow, hhigh⟩ : 48 ≤ d.toNat ∧ d.toNat ≤ 57 := by
      simpa [Char.isDigit, UInt32.le_iff_toNat_le] using hdigit
    generalize d.toNat = k at hlow hhigh
    interval_cases k <;> decide

/-- `snprintf(name, 256, "%s%d", str, n)`. -/
def prefixName (str : CString) (n : BitVec 32) : CString where
  chars := (str.chars ++ decimal n.toInt).take 255
  no_zero h := by
    rcases List.mem_append.1 (List.mem_of_mem_take h) with h | h
    · exact str.no_zero h
    · exact ne_zero_of_not_control (not_control_of_mem_decimal h) rfl

/-! ## The table -/

/-- `equiv`. -/
def Symbol.equiv (hash : BitVec 32) (str : CString) (item : Symbol) : Bool :=
  item.fHash = hash && item.fName = str

/-- The loop along a slot, `none` where it reads memory that is no symbol or does not end. -/
def find (str : CString) (s : Memory) : Option (Option Ptr) :=
  search (s.symbols[·]?) Symbol.fNext (Symbol.equiv (calcHashKey str) str) s.symbols.length
    (s.gSymbolTable (bucket (calcHashKey str)))

/-- The constructor `Symbol(str, hsh, gSymbolTable[bckt])`: the symbol becomes the first of its
slot. -/
def construct (str : CString) (s : Memory) : Ptr × Memory :=
  let hsh := calcHashKey str
  (s.symbols.length,
    { s with
      symbols := s.symbols ++ [⟨str, hsh, s.gSymbolTable (bucket hsh)⟩]
      gSymbolTable := fun j => if j = bucket hsh then some s.symbols.length else s.gSymbolTable j })

/-- `get(const char*)`, that is `symbol`. -/
def get (rawstr : CString) (s : Memory) : Option (Ptr × Memory) :=
  let str := sanitise rawstr
  match find str s with
  | none => none
  | some (some item) => some (item, s)
  | some none => some (construct str s)

/-- `get(const string&)`. -/
def getString (str : List Char8) (s : Memory) : Option (Ptr × Memory) :=
  get (CString.ofChars str) s

/-- `isnew`. -/
def isnew (str : CString) (s : Memory) : Option Bool :=
  match find str s with
  | none => none
  | some item => some item.isNone

/-- `"UNIQUEOVERFLOW"`. -/
def uniqueOverflow : CString :=
  .ofChars (['U', 'N', 'I', 'Q', 'U', 'E', 'O', 'V', 'E', 'R', 'F', 'L', 'O', 'W'].map fun c =>
    BitVec.ofNat 8 c.toNat)

section
variable (ndebug : Bool)

/-- The loop of `prefix`, with the number of tries that are left, for a string at the address
`ptr`. The assertion after it stops the compiler unless it was built with `NDEBUG`. -/
def prefixLoop (ptr : ℕ) (str : CString) : ℕ → Memory → Option (Ptr × Memory)
  | 0, s => if ndebug then get uniqueOverflow s else none
  | tries + 1, s =>
    let n := s.gPrefixCounters ptr
    let name := prefixName str n
    let s := { s with gPrefixCounters := Function.update s.gPrefixCounters ptr (n + 1) }
    match isnew name s with
    | none => none
    | some true => get name s
    | some false => prefixLoop ptr str tries s

/-- `prefix`, that is `unique`. -/
def unique (ptr : ℕ) (str : CString) (s : Memory) : Option (Ptr × Memory) :=
  prefixLoop ndebug ptr str 10000 s

end

end Faust.Symbols
