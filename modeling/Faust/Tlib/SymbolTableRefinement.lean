import Faust.Tlib.Symbol
import Faust.Tlib.SymbolsTheorems
import Mathlib.Data.Nat.Digits.Defs

/-!
# The names in use and the symbols in memory

`SymbolTable` is the symbol table as the passes use it: the names in use and a counter for each
prefix. The symbols in memory represent such a table. For prefixes of printable characters that are
not cut, `unique` takes the same name in both, or finds none in both.
-/

namespace Faust.Symbols

/-! ## Printable names -/

/-- A character in memory. -/
def byte (c : Char) : Char8 := BitVec.ofNat 8 c.toNat

/-- A name in memory. -/
def text (name : String) : CString := chars name.toList

/-- A character of seven bits that is printed. -/
def IsPrintable (c : Char) : Prop := 32 ≤ c.toNat ∧ c.toNat < 128

/-- A name made of such characters. -/
def Printable (name : String) : Prop := ∀ c ∈ name.toList, IsPrintable c

theorem IsPrintable.toNat_byte {c : Char} (h : IsPrintable c) : (byte c).toNat = c.toNat := by
  have hlt : c.toNat < 2 ^ 8 := lt_trans h.2 (by decide)
  rw [byte, BitVec.toNat_ofNat, Nat.mod_eq_of_lt hlt]

theorem IsPrintable.not_control {c : Char} (h : IsPrintable c) : isControl (byte c) = false := by
  have hint : (byte c).toInt = c.toNat := by
    rw [BitVec.toInt_eq_toNat_of_lt, h.toNat_byte]
    rw [h.toNat_byte]
    have hlt := h.2
    omega
  have hle := h.1
  simp only [isControl, hint, Bool.and_eq_false_iff, decide_eq_false_iff_not]
  omega

theorem isPrintable_of_isDigit {c : Char} (h : c.isDigit = true) : IsPrintable c := by
  have hdigit : 48 ≤ c.toNat ∧ c.toNat ≤ 57 := by
    simpa [Char.isDigit, UInt32.le_iff_toNat_le] using h
  unfold IsPrintable
  omega

variable {name str : String}

theorem Printable.text_chars (h : Printable name) : (text name).chars = name.toList.map byte := by
  show List.takeWhile _ (name.toList.map byte) = _
  rw [List.takeWhile_eq_self_iff]
  intro b hb
  obtain ⟨c, hc, rfl⟩ := List.mem_map.1 hb
  simpa using ne_zero_of_not_control (h c hc).not_control

/-- A printable name can be read in memory. -/
theorem Printable.read (h : Printable name) :
    (text name).chars.map (fun b => Char.ofNat b.toNat) = name.toList := by
  rw [h.text_chars, List.map_map]
  conv_rhs => rw [← List.map_id name.toList]
  refine List.map_congr_left fun c hc => ?_
  simp [(h c hc).toNat_byte]

theorem Printable.text_inj {a b : String} (ha : Printable a) (hb : Printable b)
    (h : text a = text b) : a = b := by
  rw [← String.toList_inj, ← ha.read, ← hb.read, h]

theorem Printable.hasControl (h : Printable name) : hasControl (text name) = false := by
  refine List.any_eq_false.2 fun b hb => ?_
  rw [h.text_chars] at hb
  obtain ⟨c, hc, rfl⟩ := List.mem_map.1 (List.mem_of_mem_take hb)
  simp [(h c hc).not_control]

theorem toList_indexedName (str : String) (n : ℕ) :
    (SymbolTable.indexedName str n).toList = str.toList ++ Nat.toDigits 10 n := by
  rw [SymbolTable.indexedName, String.toList_append, Nat.toList_repr]

theorem Printable.indexedName (h : Printable str) (n : ℕ) :
    Printable (SymbolTable.indexedName str n) := by
  intro c hc
  rw [toList_indexedName] at hc
  rcases List.mem_append.1 hc with hc | hc
  · exact h c hc
  · exact isPrintable_of_isDigit (Nat.isDigit_of_mem_toDigits (by decide) (by decide) hc)

/-- A name that is not cut is numbered in memory as it is in the table. -/
theorem Printable.prefixName (h : Printable str) (hlen : str.length ≤ 245) {n : ℕ}
    (hn : n < 2 ^ 31) :
    prefixName (text str) (BitVec.ofNat 32 n) = text (SymbolTable.indexedName str n) := by
  have hint : (BitVec.ofNat 32 n).toInt = n := by
    have hmod : n % 2 ^ 32 = n := Nat.mod_eq_of_lt (by omega)
    rw [BitVec.toInt_eq_toNat_of_lt] <;> rw [BitVec.toNat_ofNat, hmod]
    omega
  have hdecimal : decimal n = (Nat.toDigits 10 n).map byte := rfl
  have hdigits : (Nat.toDigits 10 n).length ≤ 10 :=
    Nat.toDigits_length 10 n 10 (by decide) (by omega)
  ext1
  show ((text str).chars ++ decimal _).take 255 = _
  rw [h.text_chars, (h.indexedName n).text_chars, hint, hdecimal, ← List.map_append,
    ← toList_indexedName]
  apply List.take_of_length_le
  rw [toList_indexedName, List.length_map, List.length_append, String.length_toList]
  omega

/-! ## The symbols represent the table -/

/-- The symbols in memory are those of the names of the table, and the counters those of the
prefixes, each of which is at an address. -/
structure Represents (address : String → ℕ) (s : Memory) (T : SymbolTable) : Prop where
  inv : Inv s
  names : ∀ name, Printable name → (text name ∈ s.names ↔ name ∈ T.names)
  counters : ∀ str, s.gPrefixCounters (address str) = BitVec.ofNat 32 (T.prefixCounters str)

variable {address : String → ℕ} {s : Memory} {T : SymbolTable}

/-- Without a symbol there is no name. -/
theorem Represents.init : Represents address Memory.init ⟨[], fun _ => 0⟩ where
  inv := Inv.init
  names name _ := by simp [Memory.names, Memory.init]
  counters str := rfl

/-- A prefix is counted. -/
theorem Represents.count (haddress : Function.Injective address) (h : Represents address s T)
    (str : String) :
    Represents address (s.count (address str)) { T with
      prefixCounters := Function.update T.prefixCounters str (T.prefixCounters str + 1) } where
  inv := h.inv.counters _
  names := h.names
  counters str' := by
    show Function.update s.gPrefixCounters (address str) _ (address str') =
      BitVec.ofNat 32 (Function.update T.prefixCounters str _ str')
    by_cases heq : str' = str
    · subst heq
      rw [Function.update_self, Function.update_self, h.counters, BitVec.ofNat_add]
      rfl
    · have hother : address str' ≠ address str := fun hsame => heq (haddress hsame)
      rw [Function.update_of_ne hother, Function.update_of_ne heq, h.counters]

theorem names_construct (str : CString) (s : Memory) :
    (construct str s).2.names = s.names ++ [str] := by
  simp [Memory.names, construct]

/-- The symbol of a name that is not there is made. -/
theorem Inv.get_new (hs : Inv s) {raw : CString} (hnew : sanitise raw ∉ s.names) :
    get raw s = some (Symbols.construct (sanitise raw) s) := by
  obtain ⟨r, hr, hspec⟩ := hs.find_spec (sanitise raw)
  cases r with
  | some t =>
    obtain ⟨c, hc, hname⟩ := (hspec t).1 rfl
    exact absurd (mem_names.2 ⟨t, c, hc, hname⟩) hnew
  | none => simp only [get, hr]

/-- A name is taken. -/
theorem Represents.construct (h : Represents address s T) (hname : Printable name)
    (hclean : sanitise (text name) = text name) (hnew : name ∉ T.names) :
    Represents address (Symbols.construct (text name) s).2 { T with names := name :: T.names } where
  inv := by
    rw [← hclean]
    apply h.inv.construct
    rw [hclean, h.names name hname]
    exact hnew
  names name' hname' := by
    rw [names_construct, List.mem_append, List.mem_singleton, h.names name' hname',
      List.mem_cons, or_comm]
    exact or_congr ⟨hname'.text_inj hname, congrArg text⟩ Iff.rfl
  counters := h.counters

/-- A call of `unique` ends in memory as it does on the table: with the symbol of the same name,
which is new, or without one if its assertion is compiled. -/
def Agree (address : String → ℕ) (s : Memory) (result : Bool → Option (Ptr × Memory)) :
    Option (Sym × SymbolTable) → Prop
  | some (sym, T') => ∃ name p s', sym = .user name ∧ (∀ ndebug, result ndebug = some (p, s')) ∧
      GetSpec s (text name) p s' ∧ text name ∉ s.names ∧ Represents address s' T'
  | none => result false = none

/-- The counters are not read afterwards. -/
theorem Agree.counters {g : ℕ → BitVec 32} {result : Bool → Option (Ptr × Memory)}
    {r : Option (Sym × SymbolTable)}
    (h : Agree address { s with gPrefixCounters := g } result r) : Agree address s result r := by
  cases r with
  | none => exact h
  | some r =>
    obtain ⟨name, p, s', hsym, hresult, hspec, hnew, hrep⟩ := h
    exact ⟨name, p, s', hsym, hresult, hspec.counters, hnew, hrep⟩

/-- A new name is taken in both. -/
theorem Represents.agree_get (h : Represents address s T) (hname : Printable name)
    (hclean : sanitise (text name) = text name) (hnew : name ∉ T.names) :
    Agree address s (fun _ => get (text name) s)
      (some (.user name, { T with names := name :: T.names })) := by
  have hfresh : text name ∉ s.names := fun hmem => hnew ((h.names name hname).1 hmem)
  obtain ⟨p, s', hget, hspec⟩ := h.inv.get_spec (text name)
  rw [hclean] at hspec
  have hmake : get (text name) s = some (Symbols.construct (text name) s) := by
    rw [h.inv.get_new (by rwa [hclean]), hclean]
  cases hmake.symm.trans hget
  exact ⟨name, _, _, rfl, fun _ => hmake, hspec, hfresh, h.construct hname hclean hnew⟩

/-- The loop tries the same names. -/
theorem prefixLoop_agree (haddress : Function.Injective address) (hstr : Printable str)
    (hlen : str.length ≤ 245) (tries : ℕ) :
    ∀ s T, Represents address s T → T.prefixCounters str + tries ≤ 2 ^ 31 →
      Agree address s (fun ndebug => prefixLoop ndebug (address str) (text str) tries s)
        (SymbolTable.uniqueLoop str tries T) := by
  induction tries with
  | zero => exact fun s T _ _ => rfl
  | succ tries ih =>
    intro s T h hcount
    let name := SymbolTable.indexedName str (T.prefixCounters str)
    have hprefix : prefixName (text str) (s.gPrefixCounters (address str)) = text name := by
      rw [h.counters, hstr.prefixName hlen (by omega)]
    have hname : Printable name := hstr.indexedName _
    have hclean : sanitise (text name) = text name := by
      rw [← hprefix]
      exact sanitise_prefixName hstr.hasControl _
    have hloop : ∀ ndebug, prefixLoop ndebug (address str) (text str) (tries + 1) s =
        if text name ∈ s.names then
          prefixLoop ndebug (address str) (text str) tries (s.count (address str))
        else get (text name) (s.count (address str)) := by
      intro ndebug
      rw [h.inv.prefixLoop_succ, hprefix]
    by_cases hmem : name ∈ T.names
    · have hresult : (fun ndebug => prefixLoop ndebug (address str) (text str) (tries + 1) s) =
          fun ndebug => prefixLoop ndebug (address str) (text str) tries (s.count (address str)) :=
        funext fun ndebug => (hloop ndebug).trans (if_pos ((h.names name hname).2 hmem))
      have hold : ¬ T.isnew name = true := by simpa [SymbolTable.isnew] using hmem
      rw [hresult, SymbolTable.uniqueLoop, if_neg hold]
      refine (ih _ _ (h.count haddress str) ?_).counters
      show Function.update T.prefixCounters str _ str + tries ≤ _
      rw [Function.update_self]
      omega
    · have hfresh : text name ∉ s.names := fun hin => hmem ((h.names name hname).1 hin)
      have hresult : (fun ndebug => prefixLoop ndebug (address str) (text str) (tries + 1) s) =
          fun _ => get (text name) (s.count (address str)) :=
        funext fun ndebug => (hloop ndebug).trans (if_neg hfresh)
      have hnew : T.isnew name = true := by simpa [SymbolTable.isnew] using hmem
      rw [hresult, SymbolTable.uniqueLoop, if_pos hnew]
      exact ((h.count haddress str).agree_get hname hclean hmem).counters

/-- In memory `unique` does what it does on the table, for a printable prefix that is not cut and
whose counter is no overflow. -/
theorem unique_agree (haddress : Function.Injective address) (hstr : Printable str)
    (hlen : str.length ≤ 245) (h : Represents address s T)
    (hcount : T.prefixCounters str + 10000 ≤ 2 ^ 31) :
    Agree address s (fun ndebug => unique ndebug (address str) (text str) s)
      (SymbolTable.unique str T) :=
  prefixLoop_agree haddress hstr hlen 10000 s T h hcount

end Faust.Symbols
