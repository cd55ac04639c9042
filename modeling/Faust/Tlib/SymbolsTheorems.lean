import Faust.Tlib.Symbols

/-!
# Which symbols are new

There is one symbol for each name, and names are clean: `get` finds the symbol of the clean name of
a string or makes it. `isnew` is asked for names that may not be clean, which no symbol has, so
`prefix` takes the first name it tries for a string with a control character, new or not.
-/

namespace Faust.Symbols

/-- The names of the symbols. -/
def Memory.names (s : Memory) : List CString := s.symbols.map Symbol.fName

/-- What the functions keep of the symbols and of the table. -/
structure Inv (s : Memory) : Prop where
  key : ∀ c ∈ s.symbols, c.fHash = calcHashKey c.fName
  linked : InternTable.Linked Symbol.fNext (fun c => bucket c.fHash) s.symbols s.gSymbolTable
  distinct : ∀ (t u : Ptr) (c d : Symbol), s.symbols[t]? = some c → s.symbols[u]? = some d →
    c.fName = d.fName → t = u
  clean : ∀ c ∈ s.symbols, ∃ raw, c.fName = sanitise raw

variable {s s' : Memory} {str raw : CString} {p : Ptr}

theorem Symbol.equiv_iff {hash : BitVec 32} {c : Symbol} :
    c.equiv hash str = true ↔ c.fHash = hash ∧ c.fName = str := by
  simp [Symbol.equiv]

theorem Inv.init : Inv Memory.init where
  key c h := by cases h
  linked := InternTable.Linked.empty
  distinct t u c d h := by simp [Memory.init] at h
  clean c h := by cases h

theorem mem_names : str ∈ s.names ↔ ∃ (t : Ptr) (c : Symbol),
    s.symbols[t]? = some c ∧ c.fName = str := by
  unfold Memory.names
  rw [List.mem_map]
  constructor
  · rintro ⟨c, hc, hname⟩
    obtain ⟨t, ht⟩ := List.getElem?_of_mem hc
    exact ⟨t, c, ht, hname⟩
  · rintro ⟨t, c, ht, hname⟩
    exact ⟨c, List.mem_of_getElem? ht, hname⟩

/-- A symbol is found by its name. -/
theorem Inv.find_spec (hs : Inv s) (str : CString) : ∃ r, find str s = some r ∧
    ∀ t, r = some t ↔ ∃ c, s.symbols[t]? = some c ∧ c.fName = str := by
  have hkey : ∀ (t : Ptr) (c : Symbol), s.symbols[t]? = some c → c.fName = str →
      c.fHash = calcHashKey str := by
    intro t c hc hname
    rw [hs.key c (List.mem_of_getElem? hc), hname]
  have hslot : ∀ (t : Ptr) (c : Symbol), s.symbols[t]? = some c →
      c.equiv (calcHashKey str) str = true → bucket c.fHash = bucket (calcHashKey str) := by
    intro t c _ hp
    rw [(Symbol.equiv_iff.1 hp).1]
  have hone : ∀ (t u : Ptr) (c d : Symbol), s.symbols[t]? = some c → s.symbols[u]? = some d →
      c.equiv (calcHashKey str) str = true → d.equiv (calcHashKey str) str = true → t = u := by
    intro t u c d hc hd hp hq
    have hname : c.fName = d.fName :=
      (Symbol.equiv_iff.1 hp).2.trans (Symbol.equiv_iff.1 hq).2.symm
    exact hs.distinct t u c d hc hd hname
  obtain ⟨r, hr, hspec⟩ := hs.linked.search_spec hslot hone
  refine ⟨r, hr, fun t => ?_⟩
  rw [hspec]
  constructor
  · rintro ⟨c, hc, hp⟩
    exact ⟨c, hc, (Symbol.equiv_iff.1 hp).2⟩
  · rintro ⟨c, hc, hname⟩
    exact ⟨c, hc, Symbol.equiv_iff.2 ⟨hkey t c hc hname, hname⟩⟩

/-- `isnew` tells whether no symbol has the name. -/
theorem Inv.isnew_eq (hs : Inv s) (str : CString) :
    isnew str s = some (decide (str ∉ s.names)) := by
  obtain ⟨r, hr, hspec⟩ := hs.find_spec str
  unfold isnew
  rw [hr]
  cases r with
  | none =>
    have hnot : str ∉ s.names := fun h => by
      obtain ⟨t, c, hc, hname⟩ := mem_names.1 h
      exact absurd ((hspec t).2 ⟨c, hc, hname⟩) (by simp)
    simp [hnot]
  | some t =>
    have hmem : str ∈ s.names := mem_names.2 ⟨t, (hspec t).1 rfl⟩
    simp [hmem]

/-- A new symbol keeps the invariant. -/
theorem Inv.construct (hs : Inv s) (hnew : sanitise raw ∉ s.names) :
    Inv (construct (sanitise raw) s).2 where
  key c hc := by
    rcases List.mem_append.1 hc with hc | hc
    · exact hs.key c hc
    · rw [List.mem_singleton.1 hc]
  linked := hs.linked.push rfl
  distinct t u c d ht hu hname := by
    rcases InternTable.of_getElem?_push ht with ht | ⟨rfl, rfl⟩
    · rcases InternTable.of_getElem?_push hu with hu | ⟨rfl, rfl⟩
      · exact hs.distinct t u c d ht hu hname
      · exact absurd (mem_names.2 ⟨t, c, ht, hname⟩) hnew
    · rcases InternTable.of_getElem?_push hu with hu | ⟨rfl, -⟩
      · exact absurd (mem_names.2 ⟨u, d, hu, hname.symm⟩) hnew
      · rfl
  clean c hc := by
    rcases List.mem_append.1 hc with hc | hc
    · exact hs.clean c hc
    · exact ⟨raw, by rw [List.mem_singleton.1 hc]⟩

/-- What a call that returns the symbol `p` of a name does. -/
structure GetSpec (s : Memory) (name : CString) (p : Ptr) (s' : Memory) : Prop where
  inv : Inv s'
  keeps : ∀ (t : Ptr) (c : Symbol), s.symbols[t]? = some c → s'.symbols[t]? = some c
  found : ∃ c, s'.symbols[p]? = some c ∧ c.fName = name
  fresh : s.symbols.length ≤ p ↔ name ∉ s.names

/-- `get` returns the symbol of the clean name. -/
theorem Inv.get_spec (hs : Inv s) (raw : CString) :
    ∃ p s', get raw s = some (p, s') ∧ GetSpec s (sanitise raw) p s' := by
  obtain ⟨r, hr, hspec⟩ := hs.find_spec (sanitise raw)
  cases r with
  | some t =>
    obtain ⟨c, hc, hname⟩ := (hspec t).1 rfl
    refine ⟨t, s, by simp only [get, hr], hs, fun _ _ h => h, ⟨c, hc, hname⟩, ?_⟩
    have hlt : t < s.symbols.length := (List.getElem?_eq_some_iff.1 hc).1
    have hmem : sanitise raw ∈ s.names := mem_names.2 ⟨t, c, hc, hname⟩
    exact ⟨fun h => absurd hlt (not_lt.2 h), fun h => absurd hmem h⟩
  | none =>
    have hnew : sanitise raw ∉ s.names := fun h => by
      obtain ⟨t, c, hc, hname⟩ := mem_names.1 h
      exact absurd ((hspec t).2 ⟨c, hc, hname⟩) (by simp)
    refine ⟨_, _, by simp only [get, hr]; rfl, hs.construct hnew, ?_, ?_, ?_⟩
    · exact fun t c h => InternTable.getElem?_push h
    · exact ⟨_, InternTable.getElem?_push_length, rfl⟩
    · exact ⟨fun _ => hnew, fun _ => le_rfl⟩

/-! ## Names that are tried -/

/-- A control character is in the part of a string that `prefix` keeps. -/
def hasControl (str : CString) : Bool := (str.chars.take 255).any isControl

/-- No name has a control character. -/
theorem Inv.not_control (hs : Inv s) (hstr : str ∈ s.names) {c : Char8} (hc : c ∈ str.chars) :
    isControl c = false := by
  obtain ⟨t, d, hd, hname⟩ := mem_names.1 hstr
  obtain ⟨raw, hraw⟩ := hs.clean d (List.mem_of_getElem? hd)
  rw [← hname, hraw] at hc
  exact not_control_of_mem_copy hc

theorem prefixName_chars (str : CString) (n : BitVec 32) : (prefixName str n).chars =
    str.chars.take 255 ++ (decimal n.toInt).take (255 - str.chars.length) := List.take_append

/-- A name with a control character is new, whatever the symbols are. -/
theorem Inv.notMem_of_hasControl (hs : Inv s) (h : hasControl str = true) (n : BitVec 32) :
    prefixName str n ∉ s.names := by
  intro hmem
  obtain ⟨c, hc, hcontrol⟩ := List.any_eq_true.1 h
  have hchars : c ∈ (prefixName str n).chars := by
    rw [prefixName_chars]
    exact List.mem_append_left _ hc
  rw [hs.not_control hmem hchars] at hcontrol
  cases hcontrol

/-- A name without one is clean. -/
theorem sanitise_prefixName (h : hasControl str = false) (n : BitVec 32) :
    sanitise (prefixName str n) = prefixName str n := by
  have hcontrol : ∀ c ∈ (prefixName str n).chars, isControl c = false := by
    intro c hc
    rw [prefixName_chars] at hc
    rcases List.mem_append.1 hc with hc | hc
    · simpa using List.any_eq_false.1 h c hc
    · exact not_control_of_mem_decimal (List.mem_of_mem_take hc)
  have hlen : (prefixName str n).chars.length ≤ 1023 := by
    have : (prefixName str n).chars.length ≤ 255 := List.length_take_le _ _
    omega
  have hclean : (prefixName str n).chars.map clean = (prefixName str n).chars.map fun c => c := by
    refine List.map_congr_left fun c hc => ?_
    rw [clean, hcontrol c hc]
    rfl
  ext1
  show copy 0 (prefixName str n).chars = _
  rw [copy_eq, List.take_of_length_le hlen, hclean, List.map_id']

/-! ## New symbols -/

section
variable (ndebug : Bool)

/-- When `unique` makes a new symbol: the first name that is tried for a string with a control
character must be new once it is clean, and one of the names that are tried for another string must
be new. Without the assertion a last name is tried. -/
def FreshWhen (s : Memory) (ptr : ℕ) (str : CString) : Prop :=
  if hasControl str = true then
    sanitise (prefixName str (s.gPrefixCounters ptr)) ∉ s.names
  else
    (∃ j < 10000, prefixName str (s.gPrefixCounters ptr + BitVec.ofNat 32 j) ∉ s.names) ∨
      ndebug = true ∧ uniqueOverflow ∉ s.names

variable {ndebug} {ptr : ℕ} {name : CString}

/-- The invariant says nothing of the counters. -/
theorem Inv.counters (hs : Inv s) (g : ℕ → BitVec 32) : Inv { s with gPrefixCounters := g } :=
  ⟨hs.key, hs.linked, hs.distinct, hs.clean⟩

theorem GetSpec.counters {g : ℕ → BitVec 32}
    (h : GetSpec { s with gPrefixCounters := g } name p s') : GetSpec s name p s' :=
  ⟨h.inv, h.keeps, h.found, h.fresh⟩

/-- How a call of `unique` ends: with the symbol of a name, which is new exactly when `fresh`
holds, or with a failed assertion. -/
def UniqueSpec (s : Memory) (result : Option (Ptr × Memory)) (fresh : Prop) : Prop :=
  match result with
  | some (p, s') => ∃ name, GetSpec s name p s' ∧ (name ∉ s.names ↔ fresh)
  | none => ¬ fresh

theorem Inv.uniqueSpec_get (hs : Inv s) (raw : CString) :
    UniqueSpec s (get raw s) (sanitise raw ∉ s.names) := by
  obtain ⟨p, s', hget, hspec⟩ := hs.get_spec raw
  rw [hget]
  exact ⟨_, hspec, Iff.rfl⟩

theorem UniqueSpec.counters {g : ℕ → BitVec 32} {result : Option (Ptr × Memory)} {fresh : Prop}
    (h : UniqueSpec { s with gPrefixCounters := g } result fresh) : UniqueSpec s result fresh := by
  cases result with
  | none => exact h
  | some r =>
    obtain ⟨name, hspec, hfresh⟩ := h
    exact ⟨name, hspec.counters, hfresh⟩

theorem UniqueSpec.iff {result : Option (Ptr × Memory)} {fresh fresh' : Prop}
    (h : UniqueSpec s result fresh) (hiff : fresh ↔ fresh') : UniqueSpec s result fresh' := by
  rwa [← hiff]

/-- The counter of a pointer is incremented. -/
def Memory.count (s : Memory) (ptr : ℕ) : Memory :=
  { s with gPrefixCounters :=
      Function.update s.gPrefixCounters ptr (s.gPrefixCounters ptr + 1) }

/-- One try. -/
theorem prefixLoop_eq (tries : ℕ) :
    prefixLoop ndebug ptr str (tries + 1) s =
      match isnew (prefixName str (s.gPrefixCounters ptr)) (s.count ptr) with
      | none => none
      | some true => get (prefixName str (s.gPrefixCounters ptr)) (s.count ptr)
      | some false => prefixLoop ndebug ptr str tries (s.count ptr) := rfl

theorem Inv.prefixLoop_succ (hs : Inv s) (tries : ℕ) :
    prefixLoop ndebug ptr str (tries + 1) s =
      if prefixName str (s.gPrefixCounters ptr) ∈ s.names then
        prefixLoop ndebug ptr str tries (s.count ptr)
      else get (prefixName str (s.gPrefixCounters ptr)) (s.count ptr) := by
  have hnew : isnew (prefixName str (s.gPrefixCounters ptr)) (s.count ptr) =
      some (decide (prefixName str (s.gPrefixCounters ptr) ∉ s.names)) :=
    (hs.counters _).isnew_eq _
  rw [prefixLoop_eq, hnew]
  by_cases hmem : prefixName str (s.gPrefixCounters ptr) ∈ s.names
  -- a name of the table is not new, and the loop goes on
  · rw [if_pos hmem, decide_eq_false (not_not.2 hmem)]
  · rw [if_neg hmem, decide_eq_true hmem]

/-- A string without control characters: the loop takes the first new name. -/
theorem prefixLoop_spec (hstr : hasControl str = false) (tries : ℕ) :
    ∀ s, Inv s → UniqueSpec s (prefixLoop ndebug ptr str tries s)
      ((∃ j < tries, prefixName str (s.gPrefixCounters ptr + BitVec.ofNat 32 j) ∉ s.names) ∨
        ndebug = true ∧ uniqueOverflow ∉ s.names) := by
  induction tries with
  | zero =>
    intro s hs
    unfold prefixLoop
    cases ndebug with
    | false => simp [UniqueSpec]
    | true =>
      rw [if_pos rfl]
      have hclean : sanitise uniqueOverflow = uniqueOverflow := by decide
      refine (hs.uniqueSpec_get uniqueOverflow).iff ?_
      rw [hclean]
      simp
  | succ tries ih =>
    intro s hs
    rw [hs.prefixLoop_succ]
    by_cases hmem : prefixName str (s.gPrefixCounters ptr) ∈ s.names
    · rw [if_pos hmem]
      refine ((ih (s.count ptr) (hs.counters _)).counters).iff (or_congr ?_ Iff.rfl)
      -- the names that are left are those from the next number on
      have hcount : (s.count ptr).gPrefixCounters ptr = s.gPrefixCounters ptr + 1 :=
        Function.update_self _ _ _
      have hnext : ∀ j, (s.count ptr).gPrefixCounters ptr + BitVec.ofNat 32 j =
          s.gPrefixCounters ptr + BitVec.ofNat 32 (j + 1) := by
        intro j
        rw [hcount, BitVec.ofNat_add, BitVec.add_assoc]
        exact congrArg (s.gPrefixCounters ptr + ·) (BitVec.add_comm _ _)
      constructor
      · rintro ⟨j, hj, hnew⟩
        exact ⟨j + 1, by omega, by rwa [← hnext]⟩
      · rintro ⟨j, hj, hnew⟩
        cases j with
        | zero => exact absurd hmem (by simpa using hnew)
        | succ j => exact ⟨j, by omega, by rwa [hnext]⟩
    · rw [if_neg hmem]
      have hget : UniqueSpec (s.count ptr)
          (get (prefixName str (s.gPrefixCounters ptr)) (s.count ptr)) _ :=
        (hs.counters _).uniqueSpec_get _
      rw [sanitise_prefixName hstr] at hget
      exact hget.counters.iff ⟨fun _ => Or.inl ⟨0, by omega, by simpa using hmem⟩, fun _ => hmem⟩

/-- How a call of `unique` ends. -/
theorem Inv.unique_spec (hs : Inv s) (ptr : ℕ) (str : CString) :
    UniqueSpec s (unique ndebug ptr str s) (FreshWhen ndebug s ptr str) := by
  unfold FreshWhen unique
  by_cases hstr : hasControl str = true
  · have hnew := hs.notMem_of_hasControl hstr (s.gPrefixCounters ptr)
    rw [if_pos hstr, hs.prefixLoop_succ, if_neg hnew]
    exact (hs.counters _).uniqueSpec_get _ |>.counters
  · rw [if_neg hstr]
    exact prefixLoop_spec (by simpa using hstr) 10000 s hs

/-! ## Sequences of calls -/

/-- What is asked for: the symbol of a name, or a new symbol for the string at an address. -/
inductive Request
  | symbol (name : CString)
  | unique (ptr : ℕ) (str : CString)

/-- A call that has returned. -/
structure Call where
  request : Request
  result : Ptr

variable (ndebug) in
/-- The calls since `init`, when `unique` is called in the states in which it is allowed. -/
inductive Calls (allowed : Memory → ℕ → CString → Prop) : Memory → List Call → Prop
  | init : Calls allowed Memory.init []
  | symbol {s s' : Memory} {log : List Call} {name : CString} {p : Ptr} (h : Calls allowed s log)
      (hget : get name s = some (p, s')) : Calls allowed s' (log ++ [⟨.symbol name, p⟩])
  | symbolString {s s' : Memory} {log : List Call} {name : List Char8} {p : Ptr}
      (h : Calls allowed s log) (hget : getString name s = some (p, s')) :
      Calls allowed s' (log ++ [⟨.symbol (CString.ofChars name), p⟩])
  | unique {s s' : Memory} {log : List Call} {ptr : ℕ} {str : CString} {p : Ptr}
      (h : Calls allowed s log) (hallowed : allowed s ptr str)
      (hunique : Symbols.unique ndebug ptr str s = some (p, s')) :
      Calls allowed s' (log ++ [⟨.unique ptr str, p⟩])

/-- `unique` is called in any state. -/
def always (_ : Memory) (_ : ℕ) (_ : CString) : Prop := True

variable {log : List Call} {allowed : Memory → ℕ → CString → Prop}

/-- The table keeps the invariant, and the symbols returned are there. -/
structure Logged (s : Memory) (log : List Call) : Prop where
  inv : Inv s
  there : ∀ e ∈ log, ∃ c, s.symbols[e.result]? = some c ∧
    ∀ name, e.request = .symbol name → c.fName = sanitise name

/-- One more call. -/
theorem Logged.append (h : Logged s log) (hspec : GetSpec s name p s') {request : Request}
    (hname : ∀ raw, request = .symbol raw → name = sanitise raw) :
    Logged s' (log ++ [⟨request, p⟩]) where
  inv := hspec.inv
  there e he := by
    rcases List.mem_append.1 he with he | he
    · obtain ⟨c, hc, hsymbol⟩ := h.there e he
      exact ⟨c, hspec.keeps e.result c hc, hsymbol⟩
    · obtain ⟨c, hc, hcname⟩ := hspec.found
      rw [List.mem_singleton.1 he]
      exact ⟨c, hc, fun raw hraw => hcname.trans (hname raw hraw)⟩

theorem Logged.symbol (h : Logged s log) (hget : get raw s = some (p, s')) :
    Logged s' (log ++ [⟨.symbol raw, p⟩]) := by
  obtain ⟨q, s'', hget', hspec⟩ := h.inv.get_spec raw
  cases Option.some.inj (hget.symm.trans hget')
  refine h.append hspec fun a ha => ?_
  cases ha
  rfl

theorem Calls.logged (h : Calls ndebug allowed s log) : Logged s log := by
  induction h with
  | init => exact ⟨Inv.init, by simp⟩
  | symbol _ hget ih => exact ih.symbol hget
  | symbolString _ hget ih => exact ih.symbol hget
  | @unique s s' log ptr str p _ _ hunique ih =>
    have hspec : UniqueSpec s (Symbols.unique ndebug ptr str s) _ := ih.inv.unique_spec ptr str
    rw [hunique] at hspec
    obtain ⟨name, hspec, -⟩ := hspec
    exact ih.append hspec nofun

variable (ndebug) in
/-- `unique` returns a symbol that is none of those there, nor one that a call returned. -/
def ReturnsFresh (s : Memory) (log : List Call) (ptr : ℕ) (str : CString) : Prop :=
  ∃ p s', unique ndebug ptr str s = some (p, s') ∧ s.symbols.length ≤ p ∧ ∀ e ∈ log, e.result ≠ p

theorem Logged.returnsFresh_iff (h : Logged s log) (ptr : ℕ) (str : CString) :
    ReturnsFresh ndebug s log ptr str ↔ FreshWhen ndebug s ptr str := by
  have hspec : UniqueSpec s (unique ndebug ptr str s) (FreshWhen ndebug s ptr str) :=
    h.inv.unique_spec ptr str
  unfold ReturnsFresh
  cases hunique : unique ndebug ptr str s with
  | none =>
    rw [hunique] at hspec
    refine ⟨?_, fun hfresh => absurd hfresh hspec⟩
    rintro ⟨p, s', heq, -⟩
    cases heq
  | some r =>
    obtain ⟨p, s'⟩ := r
    rw [hunique] at hspec
    obtain ⟨name, hget, hfresh⟩ := hspec
    rw [← hfresh, ← hget.fresh]
    constructor
    · rintro ⟨q, s'', heq, hq, -⟩
      cases heq
      exact hq
    · intro hp
      refine ⟨p, s', rfl, hp, fun e he heq => ?_⟩
      obtain ⟨c, hc, -⟩ := h.there e he
      have hlt : e.result < s.symbols.length := (List.getElem?_eq_some_iff.1 hc).1
      rw [heq] at hlt
      exact absurd hp (not_le.2 hlt)

/-- Two calls of `symbol` have returned the same symbol exactly when the clean names are equal. -/
theorem Logged.symbol_eq_iff (h : Logged s log) {d e : Call} (hd : d ∈ log) (he : e ∈ log)
    {a b : CString} (ha : d.request = .symbol a) (hb : e.request = .symbol b) :
    d.result = e.result ↔ sanitise a = sanitise b := by
  obtain ⟨c, hc, hcname⟩ := h.there d hd
  obtain ⟨c', hc', hcname'⟩ := h.there e he
  rw [← hcname a ha, ← hcname' b hb]
  constructor
  · intro heq
    rw [heq, hc'] at hc
    rw [Option.some.inj hc]
  · exact h.inv.distinct _ _ c c' hc hc'

/-- No call of `unique` has returned a symbol that a call before it returned. -/
def AllFresh (log : List Call) : Prop :=
  ∀ before e after, log = before ++ e :: after → ∀ ptr str, e.request = .unique ptr str →
    ∀ d ∈ before, d.result ≠ e.result

/-- One more call, which returns another symbol if it is a call of `unique`. -/
theorem AllFresh.append (h : AllFresh log) {e : Call}
    (he : ∀ ptr str, e.request = .unique ptr str → ∀ d ∈ log, d.result ≠ e.result) :
    AllFresh (log ++ [e]) := by
  intro before e' after heq
  rcases List.eq_nil_or_concat after with rfl | ⟨after', a, rfl⟩
  · obtain ⟨rfl, hlast⟩ := List.append_inj' heq rfl
    cases hlast
    exact he
  · rw [List.concat_eq_append, ← List.cons_append, ← List.append_assoc] at heq
    exact h before e' after' (List.append_inj' heq rfl).1

/-- When `unique` is called under its condition only, its symbols are new. -/
theorem Calls.allFresh (h : Calls ndebug (FreshWhen ndebug) s log) : AllFresh log := by
  induction h with
  | init => exact fun before e after heq => by simp at heq
  | symbol _ _ ih => exact ih.append nofun
  | symbolString _ _ ih => exact ih.append nofun
  | unique h hallowed hunique ih =>
    obtain ⟨p, s', heq, -, hother⟩ := (h.logged.returnsFresh_iff _ _).2 hallowed
    cases Option.some.inj (hunique.symm.trans heq)
    exact ih.append fun _ _ _ => hother

/-- After any calls `symbol` returns, the symbols of names are those of their clean names, and
`unique` returns a new symbol exactly under its condition; so all symbols of `unique` are new in a
sequence of calls in which each of its calls meets the condition. -/
theorem unique_fresh_iff :
    (∀ s log, Calls ndebug always s log →
      (∀ ptr str, ReturnsFresh ndebug s log ptr str ↔ FreshWhen ndebug s ptr str) ∧
      (∀ name, ∃ p s', get name s = some (p, s')) ∧
      ∀ d ∈ log, ∀ e ∈ log, ∀ a b, d.request = .symbol a → e.request = .symbol b →
        (d.result = e.result ↔ sanitise a = sanitise b)) ∧
    ∀ s log, Calls ndebug (FreshWhen ndebug) s log → AllFresh log := by
  refine ⟨fun s log h => ?_, fun s log h => h.allFresh⟩
  have hlog := h.logged
  refine ⟨fun ptr str => hlog.returnsFresh_iff ptr str, fun name => ?_,
    fun d hd e he a b ha hb => hlog.symbol_eq_iff hd he ha hb⟩
  obtain ⟨p, s', hget, -⟩ := hlog.inv.get_spec name
  exact ⟨p, s', hget⟩

/-- The characters of a string. -/
def chars (l : List Char) : CString := .ofChars (l.map fun c => BitVec.ofNat 8 c.toNat)

/-- `symbol("a")` twice, and `unique("W")`. -/
theorem unique_fresh_iff_run : ∃ s, Calls true always s
      [⟨.symbol (chars ['a']), 0⟩, ⟨.symbol (chars ['a', '\n']), 1⟩,
        ⟨.symbol (chars ['a', ' ']), 1⟩] ∧
    ReturnsFresh true s [⟨.symbol (chars ['a']), 0⟩, ⟨.symbol (chars ['a', '\n']), 1⟩,
        ⟨.symbol (chars ['a', ' ']), 1⟩] 7 (chars ['W']) := by
  have h₁ : Calls true always _ ([] ++ [⟨.symbol (chars ['a']), 0⟩]) := .symbol .init rfl
  have h₂ : Calls true always _
      ([⟨.symbol (chars ['a']), 0⟩] ++ [⟨.symbol (chars ['a', '\n']), 1⟩]) :=
    .symbol h₁ rfl
  have h₃ : Calls true always _ ([⟨.symbol (chars ['a']), 0⟩, ⟨.symbol (chars ['a', '\n']), 1⟩] ++
      [⟨.symbol (chars ['a', ' ']), 1⟩]) := .symbol h₂ rfl
  refine ⟨_, h₃, ((unique_fresh_iff.1 _ _ h₃).1 7 (chars ['W'])).2 ?_⟩
  unfold FreshWhen
  rw [if_neg (by decide)]
  exact Or.inl ⟨0, by omega, by decide⟩

/-- After `symbol("a 0")`, `unique("a\n")` returns the same symbol. -/
theorem not_unique_fresh : ¬ ∀ s log, Calls false always s log →
    (∀ ptr str, ReturnsFresh false s log ptr str) ∧
    ∀ d ∈ log, ∀ e ∈ log, ∀ a b, d.request = .symbol a → e.request = .symbol b →
      (d.result = e.result ↔ sanitise a = sanitise b) := by
  intro h
  have hrun : Calls false always (construct (sanitise (chars ['a', ' ', '0'])) Memory.init).2
      ([] ++ [⟨.symbol (chars ['a', ' ', '0']), 0⟩]) := .symbol .init rfl
  have hfirst : (unique false 7 (chars ['a', '\n'])
      (construct (sanitise (chars ['a', ' ', '0'])) Memory.init).2).map Prod.fst = some 0 := rfl
  obtain ⟨p, s', hunique, -, hother⟩ := (h _ _ hrun).1 7 (chars ['a', '\n'])
  rw [hunique] at hfirst
  exact hother _ (List.mem_singleton_self _) (Option.some.inj hfirst).symm

end

end Faust.Symbols
