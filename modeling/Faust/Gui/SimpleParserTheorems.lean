import Faust.Gui.SimpleParser
import Faust.Lib.Spans
import Mathlib.Data.Rat.Floor
import Mathlib.Tactic.Ring
import Mathlib.Tactic.FieldSimp

/-!
# What the parsers of menus accept

The grammar of menus, and the texts on which the parsers follow it. They skip the blanks before they
remember where they started, so that a failure leaves the blanks behind; and a number may have
blanks before its point, or digits on one side of the point only.
-/

namespace Faust.SimpleParser

/-! ## The grammar -/

/-- Blanks. -/
def Blank (b : Text) : Prop := ∀ c ∈ b, isspace c = true

/-- Digits, one or more. -/
def IsDigits (ds : Text) : Prop := ds ≠ [] ∧ ∀ c ∈ ds, isdigit c = true

/-- The sign of a number, which may be missing. -/
inductive Sign : Text → ℚ → Prop
  | none : Sign [] 1
  | plus : Sign ['+'] 1
  | minus : Sign ['-'] (-1)

/-- The number that digits write. -/
def digitsValue (ds : Text) : ℚ := ds.foldl (fun a c => a * 10 + (c.toNat - 48 : ℕ)) 0

/-- `[sign]digits[.digits]` and its value. -/
inductive Number : Text → ℚ → Prop
  | integer {sg ds : Text} {sign : ℚ} (hs : Sign sg sign) (hd : IsDigits ds) :
      Number (sg ++ ds) (sign * digitsValue ds)
  | decimal {sg ds fs : Text} {sign : ℚ} (hs : Sign sg sign) (hd : IsDigits ds)
      (hf : IsDigits fs) :
      Number (sg ++ ds ++ '.' :: fs)
        (sign * (digitsValue ds + digitsValue fs / 10 ^ fs.length))

/-- What is read as a number: the digits before or after the point may be missing, and there may be
blanks before the point. -/
inductive LooseNumber : Text → ℚ → Prop
  | integer {sg ds : Text} {sign : ℚ} (hs : Sign sg sign) (hd : IsDigits ds) :
      LooseNumber (sg ++ ds) (sign * digitsValue ds)
  | decimal {sg ds b fs : Text} {sign : ℚ} (hs : Sign sg sign)
      (hd : ∀ c ∈ ds, isdigit c = true) (hb : Blank b) (hf : ∀ c ∈ fs, isdigit c = true)
      (hdf : ds ≠ [] ∨ fs ≠ []) (hfirst : sg = [] → ds = [] → b = []) :
      LooseNumber (sg ++ ds ++ b ++ '.' :: fs)
        (sign * (digitsValue ds + digitsValue fs / 10 ^ fs.length))

/-- A quoted string, after blanks. -/
inductive Quoted (quote : Char) : Text → List Char → Prop
  | mk {b t : Text} (hb : Blank b) (ht : quote ∉ t) : Quoted quote (b ++ quote :: (t ++ [quote])) t

/-- A menu item, each of its tokens after blanks. -/
inductive Item (num : Text → ℚ → Prop) : Text → List Char → ℚ → Prop
  | mk {u b b' w : Text} {t : List Char} {v : ℚ} (hu : Quoted squote u t) (hb : Blank b)
      (hb' : Blank b') (hw : num w v) : Item num (u ++ (b ++ ':' :: (b' ++ w))) t v

/-- The items of a menu, and the brace after them. -/
inductive Items (num : Text → ℚ → Prop) : Text → List (List Char) → List ℚ → Prop
  | last {u b : Text} {t : List Char} {v : ℚ} (hu : Item num u t v) (hb : Blank b) :
      Items num (u ++ (b ++ ['\x7d'])) [t] [v]
  | more {u b w : Text} {t : List Char} {v : ℚ} {names : List (List Char)} {values : List ℚ}
      (hu : Item num u t v) (hb : Blank b) (hw : Items num w names values) :
      Items num (u ++ (b ++ ';' :: w)) (t :: names) (v :: values)

/-- A menu. -/
inductive Menu (num : Text → ℚ → Prop) : Text → List (List Char) → List ℚ → Prop
  | mk {b w : Text} {names : List (List Char)} {values : List ℚ} (hb : Blank b)
      (hw : Items num w names values) : Menu num (b ++ '\x7b' :: w) names values

theorem Number.loose {w : Text} {v : ℚ} (h : Number w v) : LooseNumber w v := by
  cases h with
  | integer hs hd => exact .integer hs hd
  | @decimal sg ds fs sign hs hd hf =>
    have hloose := LooseNumber.decimal (b := []) hs hd.2 (by simp [Blank]) hf.2 (Or.inl hd.1)
      fun _ _ => rfl
    rwa [List.append_nil] at hloose

/-! ## Blanks and characters -/

variable {s b b' t r u w : Text} {x : Char} {v : ℚ}

/-- No blank begins the text. -/
def NoBlank (t : Text) : Prop := ∀ c, t.head? = some c → isspace c = false

theorem skipBlank_append (hb : Blank b) (t : Text) : skipBlank (b ++ t) = skipBlank t := by
  induction b with
  | nil => rfl
  | cons c b ih =>
    rw [List.cons_append, skipBlank, if_pos (hb c List.mem_cons_self)]
    exact ih fun d hd => hb d (List.mem_cons_of_mem _ hd)

theorem skipBlank_of_noBlank (ht : NoBlank t) : skipBlank t = t := by
  cases t with
  | nil => rfl
  | cons c t =>
    rw [skipBlank, if_neg]
    rw [ht c rfl]
    decide

/-- The text after the blanks. -/
theorem skipBlank_spec (s : Text) :
    ∃ b, s = b ++ skipBlank s ∧ Blank b ∧ NoBlank (skipBlank s) := by
  obtain ⟨b, t, rfl, hspan⟩ := exists_span isspace s
  refine ⟨b, ?_, hspan.all, ?_⟩
  · rw [skipBlank_append hspan.all, skipBlank_of_noBlank hspan.stop]
  · rw [skipBlank_append hspan.all, skipBlank_of_noBlank hspan.stop]
    exact hspan.stop

theorem skipBlank_idem (s : Text) : skipBlank (skipBlank s) = skipBlank s := by
  obtain ⟨b, -, -, hno⟩ := skipBlank_spec s
  exact skipBlank_of_noBlank hno

theorem skipBlank_eq_self_iff : skipBlank s = s ↔ NoBlank s := by
  refine ⟨fun h => ?_, skipBlank_of_noBlank⟩
  obtain ⟨b, -, -, hno⟩ := skipBlank_spec s
  rwa [h] at hno

/-- What follows blanks is what is left of the text when they are skipped. -/
theorem skipBlank_cons (hb : Blank b) (hx : isspace x = false) :
    skipBlank (b ++ x :: t) = x :: t := by
  rw [skipBlank_append hb, skipBlank, if_neg]
  rw [hx]
  decide

theorem parseChar_eq (s : Text) (x : Char) :
    parseChar s x = if (skipBlank s).head? = some x then (true, (skipBlank s).tail)
      else (false, skipBlank s) := by
  unfold parseChar
  split
  · next h => simp [h]
  · next c q h =>
    rw [h]
    by_cases hx : x = c
    · simp [hx]
    · simp [hx, Ne.symm hx]

/-- The character is found. -/
theorem parseChar_true (hb : Blank b) (hx : isspace x = false) :
    parseChar (b ++ x :: t) x = (true, t) := by
  rw [parseChar_eq, skipBlank_cons hb hx]
  simp

/-- What is found is the character, after blanks. -/
theorem of_parseChar_true (h : parseChar s x = (true, t)) :
    isspace x = false ∧ skipBlank s = x :: t ∧ ∃ b, Blank b ∧ s = b ++ x :: t := by
  rw [parseChar_eq] at h
  split at h
  · next hx =>
    obtain ⟨b, hs, hb, hno⟩ := skipBlank_spec s
    have ht : skipBlank s = x :: t := by
      cases hskip : skipBlank s with
      | nil => simp [hskip] at hx
      | cons c q =>
        simp only [hskip, List.head?_cons, Option.some.injEq] at hx
        simp only [hskip, List.tail_cons, Prod.mk.injEq, true_and] at h
        rw [hx, h]
    refine ⟨hno x hx, ht, b, hb, ?_⟩
    rw [← ht]
    exact hs
  · cases h

/-- Where the character is not found, only blanks are skipped. -/
theorem of_parseChar_false (h : parseChar s x = (false, t)) :
    t = skipBlank s ∧ (skipBlank s).head? ≠ some x := by
  rw [parseChar_eq] at h
  split at h
  · cases h
  · next hx => exact ⟨(Prod.mk.inj h).2.symm, hx⟩

/-! ## Words and strings -/

theorem matchWord_append (w t : List Char) : matchWord w (w ++ t) = ([], t) := by
  induction w with
  | nil => cases t <;> rfl
  | cons d w ih => rw [List.cons_append, matchWord, if_pos rfl, ih]

theorem of_matchWord {p q : Text} (h : matchWord w p = ([], q)) : p = w ++ q := by
  induction w generalizing p with
  | nil =>
    cases p <;> (unfold matchWord at h; cases h; rfl)
  | cons d w ih =>
    cases p with
    | nil =>
      unfold matchWord at h
      cases h
    | cons c p =>
      rw [matchWord] at h
      split at h
      · next hdc =>
        subst hdc
        rw [ih h]
        rfl
      · cases h

theorem parseWord_true (h : skipBlank s = w ++ t) : parseWord s w = (true, t) := by
  simp only [parseWord, h, matchWord_append]

theorem parseWord_false (h : ¬ w <+: skipBlank s) : parseWord s w = (false, skipBlank s) := by
  unfold parseWord
  simp only
  split
  · next q hq => exact absurd ⟨q, (of_matchWord hq).symm⟩ h
  · rfl

theorem readString_append {quote : Char} (ht : quote ∉ t) (str : List Char) :
    readString quote (t ++ quote :: r) str = (str ++ t, quote :: r) := by
  induction t generalizing str with
  | nil => rw [List.nil_append, readString, if_pos rfl, List.append_nil]
  | cons c t ih =>
    have hc : c ≠ quote := fun h => ht (h ▸ List.mem_cons_self)
    have ht' : quote ∉ t := fun h => ht (List.mem_cons_of_mem _ h)
    rw [List.cons_append, readString, if_neg hc, ih ht', List.append_assoc]
    rfl

theorem of_readString {quote : Char} {p str : List Char} {d : Char} {q : Text}
    (h : readString quote p str = (r, d :: q)) :
    d = quote ∧ ∃ t, quote ∉ t ∧ r = str ++ t ∧ p = t ++ quote :: q := by
  induction p generalizing str with
  | nil => cases h
  | cons c p ih =>
    rw [readString] at h
    split at h
    · next hc =>
      cases h
      exact ⟨hc, [], by simp, (List.append_nil _).symm, by rw [hc]; rfl⟩
    · next hc =>
      obtain ⟨hd, t, ht, rfl, rfl⟩ := ih h
      refine ⟨hd, c :: t, ?_, List.append_assoc _ _ _, rfl⟩
      intro hmem
      rcases List.mem_cons.mp hmem with heq | hmem
      · exact hc heq.symm
      · exact ht hmem

/-- The text has a quoted string, after the blanks. -/
def StringAt (quote : Char) (s : Text) (t : List Char) (r : Text) : Prop :=
  skipBlank s = quote :: (t ++ quote :: r) ∧ quote ∉ t

theorem parseString_true {quote : Char} (h : StringAt quote s t r) (str : List Char) :
    parseString s quote str = (true, r, t) := by
  simp only [parseString, h.1, if_true, readString_append h.2, List.nil_append]

theorem parseString_false {quote : Char} (h : ∀ t r, ¬ StringAt quote s t r) (str : List Char) :
    parseString s quote str = (false, skipBlank s, str) := by
  unfold parseString
  simp only
  split
  · next hs => rw [hs]
  · next c q hs =>
    split
    · next hc =>
      split
      · rw [hs]
      · next t d r hread =>
        obtain ⟨hd, t', ht', rfl, rfl⟩ := of_readString hread
        refine absurd ⟨?_, ht'⟩ (h t r)
        rw [hs, hc]
    · rw [hs]

/-- A string is read, or nothing is. -/
theorem parseString_cases (quote : Char) (s : Text) :
    (∃ t r, StringAt quote s t r) ∨ ∀ t r, ¬ StringAt quote s t r := by
  by_cases h : ∃ t r, StringAt quote s t r
  · exact Or.inl h
  · exact Or.inr fun t r ht => h ⟨t, r, ht⟩

/-- The words of the grammar of strings. -/
theorem Quoted.stringAt {quote : Char} (h : Quoted quote u t) (hq : isspace quote = false)
    (r : Text) : StringAt quote (u ++ r) t r := by
  cases h with
  | @mk b t hb ht =>
    refine ⟨?_, ht⟩
    have heq : b ++ quote :: (t ++ [quote]) ++ r = b ++ quote :: (t ++ quote :: r) := by simp
    rw [heq, skipBlank_cons hb hq]

theorem StringAt.quoted {quote : Char} (h : StringAt quote s t r) :
    ∃ u, s = u ++ r ∧ Quoted quote u t := by
  obtain ⟨b, hs, hb, -⟩ := skipBlank_spec s
  refine ⟨b ++ quote :: (t ++ [quote]), ?_, .mk hb h.2⟩
  calc s = b ++ skipBlank s := hs
    _ = b ++ quote :: (t ++ quote :: r) := by rw [h.1]
    _ = _ := by simp

/-! ## Numbers -/

/-- The parts of a text that `parseDouble` reads: blanks, a sign, digits, and what comes then. -/
structure Scan (s b sg : Text) (sign : ℚ) (ds t : Text) : Prop where
  eq : s = b ++ (sg ++ (ds ++ t))
  blank : IsSpan isspace b (sg ++ (ds ++ t))
  sign : Sign sg sign
  first : sg = [] → ∀ c, (ds ++ t).head? = some c → c ≠ '+' ∧ c ≠ '-'
  digits : IsSpan isdigit ds t

variable {sg ds fs : Text} {sign y : ℚ}

theorem exists_scan (s : Text) : ∃ b sg sign ds t, Scan s b sg sign ds t := by
  obtain ⟨b, u, hs, hb⟩ := exists_span isspace s
  have hsign : ∃ sg sign u', u = sg ++ u' ∧ Sign sg sign ∧
      (sg = [] → ∀ c, u'.head? = some c → c ≠ '+' ∧ c ≠ '-') := by
    cases u with
    | nil => exact ⟨[], 1, [], rfl, .none, by simp⟩
    | cons c u =>
      by_cases hplus : c = '+'
      · exact ⟨['+'], 1, u, by rw [hplus]; rfl, .plus, by simp⟩
      · by_cases hminus : c = '-'
        · exact ⟨['-'], -1, u, by rw [hminus]; rfl, .minus, by simp⟩
        · refine ⟨[], 1, c :: u, rfl, .none, fun _ d hd => ?_⟩
          cases hd
          exact ⟨hplus, hminus⟩
  obtain ⟨sg, sign, u', rfl, hsg, hfirst⟩ := hsign
  obtain ⟨ds, t, rfl, hds⟩ := exists_span isdigit u'
  exact ⟨b, sg, sign, ds, t, hs, hb, hsg, hfirst, hds⟩

/-- A sign and what follows it are read in one manner. -/
theorem Sign.unique {sg' u' : Text} {sign' : ℚ} (h : Sign sg sign) (h' : Sign sg' sign')
    (hfirst : sg = [] → ∀ c, u.head? = some c → c ≠ '+' ∧ c ≠ '-')
    (hfirst' : sg' = [] → ∀ c, u'.head? = some c → c ≠ '+' ∧ c ≠ '-')
    (heq : sg ++ u = sg' ++ u') : sg = sg' ∧ sign = sign' ∧ u = u' := by
  cases h with
  | none =>
    cases h' with
    | none => exact ⟨rfl, rfl, heq⟩
    | plus => exact absurd rfl (hfirst rfl '+' (by rw [show u = '+' :: u' from heq]; rfl)).1
    | minus => exact absurd rfl (hfirst rfl '-' (by rw [show u = '-' :: u' from heq]; rfl)).2
  | plus =>
    cases h' with
    | none => exact absurd rfl (hfirst' rfl '+' (by rw [show u' = '+' :: u from heq.symm]; rfl)).1
    | plus => exact ⟨rfl, rfl, (List.cons.inj heq).2⟩
    | minus => exact absurd (List.cons.inj heq).1 (by decide)
  | minus =>
    cases h' with
    | none => exact absurd rfl (hfirst' rfl '-' (by rw [show u' = '-' :: u from heq.symm]; rfl)).2
    | plus => exact absurd (List.cons.inj heq).1 (by decide)
    | minus => exact ⟨rfl, rfl, (List.cons.inj heq).2⟩

theorem Scan.unique {b' sg' ds' t' : Text} {sign' : ℚ} (h : Scan s b sg sign ds t)
    (h' : Scan s b' sg' sign' ds' t') :
    b = b' ∧ sg = sg' ∧ sign = sign' ∧ ds = ds' ∧ t = t' := by
  obtain ⟨hb, hrest⟩ := h.blank.unique h'.blank (h.eq.symm.trans h'.eq)
  obtain ⟨hsg, hsign, hrest⟩ := h.sign.unique h'.sign h.first h'.first hrest
  obtain ⟨hds, ht⟩ := h.digits.unique h'.digits hrest
  exact ⟨hb, hsg, hsign, hds, ht⟩

theorem digitLoop_append (h : IsSpan isdigit ds t) (valid : Bool) (part coef : ℚ) :
    digitLoop (ds ++ t) valid part coef =
      (valid || decide (ds ≠ []), ds.foldl (fun (a : ℚ) c => a * 10 + (c.toNat - 48 : ℕ)) part,
        coef * 10 ^ ds.length, t) := by
  induction ds generalizing valid part coef with
  | nil =>
    cases t with
    | nil => simp [digitLoop]
    | cons c t => simp [digitLoop, h.stop c rfl]
  | cons c ds ih =>
    have hrest : IsSpan isdigit ds t := ⟨fun e he => h.all e (List.mem_cons_of_mem _ he), h.stop⟩
    rw [List.cons_append, digitLoop, if_pos (h.all c List.mem_cons_self), ih hrest]
    simp [pow_succ, mul_assoc, mul_comm]

theorem Scan.skipBlank_eq (h : Scan s b sg sign ds t) : skipBlank s = sg ++ (ds ++ t) := by
  rw [h.eq, skipBlank_append h.blank.all, skipBlank_of_noBlank h.blank.stop]

theorem Scan.parseSign_eq (h : Scan s b sg sign ds t) :
    parseSign (skipBlank s) = (sign, ds ++ t) := by
  have hskip := skipBlank_idem s
  rw [h.skipBlank_eq] at hskip ⊢
  have hfirst := h.first
  unfold parseSign
  cases h.sign with
  | none =>
    have hnot : ∀ x, (x = '+' ∨ x = '-') → ¬ (ds ++ t).head? = some x := by
      intro x hx hhead
      have hne := hfirst rfl x hhead
      rcases hx with rfl | rfl
      · exact hne.1 rfl
      · exact hne.2 rfl
    rw [List.nil_append] at hskip ⊢
    have hplus := parseChar_eq (ds ++ t) '+'
    have hminus := parseChar_eq (ds ++ t) '-'
    rw [hskip, if_neg (hnot _ (Or.inl rfl))] at hplus
    rw [hskip, if_neg (hnot _ (Or.inr rfl))] at hminus
    simp only [hplus, hminus]
  | plus =>
    have hplus := parseChar_eq (['+'] ++ (ds ++ t)) '+'
    rw [hskip, if_pos (by rfl)] at hplus
    rw [hplus]
    rfl
  | minus =>
    have hplus := parseChar_eq (['-'] ++ (ds ++ t)) '+'
    have hminus := parseChar_eq (['-'] ++ (ds ++ t)) '-'
    rw [hskip, if_neg (by simp)] at hplus
    rw [hskip, if_pos (by rfl)] at hminus
    simp only [hplus, hminus]
    rfl

/-- A number with a point. -/
theorem Scan.parseDouble_point (h : Scan s b sg sign ds (b' ++ '.' :: (fs ++ r)))
    (hb : Blank b') (hf : IsSpan isdigit fs r) (x : ℚ) :
    parseDouble s x = if ds ≠ [] ∨ fs ≠ [] then
      (true, r, sign * (digitsValue ds + digitsValue fs / 10 ^ fs.length))
      else (false, skipBlank s, x) := by
  have hpoint : parseChar (b' ++ '.' :: (fs ++ r)) '.' = (true, fs ++ r) :=
    parseChar_true hb (by decide)
  simp only [parseDouble, h.parseSign_eq, digitLoop_append h.digits, hpoint,
    digitLoop_append hf, Bool.false_or, one_mul]
  by_cases hd : ds = [] <;> by_cases hfs : fs = [] <;> simp [hd, hfs, digitsValue]

/-- A number without a point. -/
theorem Scan.parseDouble_noPoint (h : Scan s b sg sign ds t)
    (ht : (skipBlank t).head? ≠ some '.') (x : ℚ) :
    parseDouble s x = if ds ≠ [] then (true, skipBlank t, sign * digitsValue ds)
      else (false, skipBlank s, x) := by
  have hpoint : parseChar t '.' = (false, skipBlank t) := by rw [parseChar_eq, if_neg ht]
  simp only [parseDouble, h.parseSign_eq, digitLoop_append h.digits, hpoint, Bool.false_or]
  by_cases hd : ds = [] <;> simp [hd, digitsValue]

/-- There is a point after the blanks, or there is none. -/
theorem point_cases (t : Text) :
    (∃ b fs r, Blank b ∧ IsSpan isdigit fs r ∧ t = b ++ '.' :: (fs ++ r)) ∨
      (skipBlank t).head? ≠ some '.' := by
  by_cases h : (skipBlank t).head? = some '.'
  · refine Or.inl ?_
    obtain ⟨b, ht, hb, -⟩ := skipBlank_spec t
    cases hskip : skipBlank t with
    | nil => simp [hskip] at h
    | cons c u =>
      simp only [hskip, List.head?_cons, Option.some.injEq] at h
      subst h
      obtain ⟨fs, r, rfl, hfs⟩ := exists_span isdigit u
      rw [hskip] at ht
      exact ⟨b, fs, r, hb, hfs, ht⟩
  · exact Or.inr h

/-- A number starts the text: a digit, or a point and a digit, comes after the sign. -/
def NumberAt (s : Text) : Prop :=
  ∃ b sg sign ds t, Scan s b sg sign ds t ∧
    (ds ≠ [] ∨ ∃ b' c u, Blank b' ∧ isdigit c = true ∧ t = b' ++ '.' :: c :: u)

/-- A number of the grammar starts the text, and what comes after its digits is no blank and no
point, or a point and a digit. -/
def RegularAt (s : Text) : Prop :=
  ∃ b sg sign ds t, Scan s b sg sign ds t ∧ ds ≠ [] ∧
    ((NoBlank t ∧ t.head? ≠ some '.') ∨ ∃ c u, isdigit c = true ∧ t = '.' :: c :: u)

theorem isspace_of_isdigit {c : Char} (h : isdigit c = true) : isspace c = false := by
  simp only [isdigit, Bool.and_eq_true, decide_eq_true_eq] at h
  simp only [isspace, Bool.or_eq_false_iff, Bool.and_eq_false_iff, decide_eq_false_iff_not]
  omega

theorem ne_of_isdigit {c d : Char} (h : isdigit c = true) (hd : isdigit d = false) : c ≠ d := by
  rintro rfl
  rw [h] at hd
  cases hd

/-- A point is followed by a digit when the digits after it are not missing. -/
theorem span_ne_nil {c : Char} (hc : isdigit c = true) (h : IsSpan isdigit fs r)
    (heq : fs ++ r = c :: u) : fs ≠ [] := by
  rintro rfl
  have hhead : r.head? = some c := by rw [show r = c :: u from heq]; rfl
  rw [h.stop c hhead] at hc
  cases hc

theorem span_head (h : IsSpan isdigit fs r) (hne : fs ≠ []) :
    ∃ c u, isdigit c = true ∧ fs ++ r = c :: u := by
  cases fs with
  | nil => exact absurd rfl hne
  | cons c fs => exact ⟨c, fs ++ r, h.all c List.mem_cons_self, rfl⟩

/-- What `parseDouble` does of a text. -/
theorem Scan.parseDouble_spec (h : Scan s b sg sign ds t) (x : ℚ) :
    (parseDouble s x = (false, skipBlank s, x) ∧ ¬ NumberAt s) ∨
    ∃ w b' r v, parseDouble s x = (true, r, v) ∧ NumberAt s ∧ s = b ++ (w ++ (b' ++ r)) ∧
      Blank b' ∧ LooseNumber w v ∧
      ∃ t', t = t' ++ r ∧ (t' = [] → NoBlank t ∧ t.head? ≠ some '.') := by
  have hat : NumberAt s ↔
      (ds ≠ [] ∨ ∃ b' c u, Blank b' ∧ isdigit c = true ∧ t = b' ++ '.' :: c :: u) := by
    refine ⟨fun ⟨_, _, _, _, _, hscan, hnum⟩ => ?_, fun hnum => ⟨b, sg, sign, ds, t, h, hnum⟩⟩
    obtain ⟨-, -, -, rfl, rfl⟩ := hscan.unique h
    exact hnum
  rcases point_cases t with ⟨b', fs, r, hb', hfs, rfl⟩ | hpoint
  · have hparse := h.parseDouble_point hb' hfs x
    by_cases hd : ds ≠ [] ∨ fs ≠ []
    · rw [if_pos hd] at hparse
      refine Or.inr ⟨_, [], r, _, hparse, hat.mpr ?_, ?_, by simp [Blank],
        .decimal h.sign h.digits.all hb' hfs.all hd ?_, b' ++ '.' :: fs, by simp, by simp⟩
      · rcases hd with hd | hf
        · exact Or.inl hd
        · obtain ⟨c, u, hc, heq⟩ := span_head hfs hf
          exact Or.inr ⟨b', c, u, hb', hc, by rw [heq]⟩
      · rw [h.eq]
        simp
      · -- blanks before a point that begins the text are the blanks before the number
        rintro rfl rfl
        cases b' with
        | nil => rfl
        | cons c b' =>
          have hno := h.blank.stop c rfl
          rw [hb' c List.mem_cons_self] at hno
          cases hno
    · rw [if_neg hd] at hparse
      refine Or.inl ⟨hparse, fun hnum => hd ?_⟩
      rcases hat.mp hnum with hds | ⟨b'', c, u, hb'', hc, heq⟩
      · exact Or.inl hds
      · refine Or.inr (span_ne_nil hc hfs (u := u) ?_)
        have hskip := congrArg skipBlank heq
        rw [skipBlank_cons hb' (by decide), skipBlank_cons hb'' (by decide)] at hskip
        exact (List.cons.inj hskip).2
  · have hparse := h.parseDouble_noPoint hpoint x
    by_cases hd : ds ≠ []
    · rw [if_pos hd] at hparse
      obtain ⟨b', ht, hb', hno⟩ := skipBlank_spec t
      refine Or.inr ⟨_, b', skipBlank t, _, hparse, hat.mpr (Or.inl hd), ?_, hb',
        .integer h.sign ⟨hd, h.digits.all⟩, b', ht, fun hnil => ?_⟩
      · rw [← ht, h.eq]
        simp
      · have hself : skipBlank t = t := by
          rw [hnil] at ht
          exact ht.symm
        rw [hself] at hno hpoint
        exact ⟨hno, hpoint⟩
    · rw [if_neg hd] at hparse
      refine Or.inl ⟨hparse, fun hnum => ?_⟩
      rcases hat.mp hnum with hds | ⟨b', c, u, hb', hc, rfl⟩
      · exact hd hds
      · rw [skipBlank_cons hb' (by decide)] at hpoint
        exact hpoint rfl

/-! ## Exactness -/

/-- A parser that returned `ok`, the position `p` and the output `out'`, on the text `s` and the
output `out`, has read a word of the grammar and its value, or nothing; and it has read something
where a word of the grammar starts the text. -/
structure Exact {β : Type} (grammar : Text → β → Prop) (s : Text) (out : β) (ok : Bool) (p : Text)
    (out' : β) : Prop where
  accepts : ok = true → ∃ w, s = w ++ p ∧ grammar w out'
  keeps : ok = false → p = s ∧ out' = out
  complete : ∀ w r v, s = w ++ r → grammar w v → ok = true

/-- A word after blanks. -/
inductive Padded {β : Type} (grammar : Text → β → Prop) : Text → β → Prop
  | mk {b w : Text} {v : β} (hb : Blank b) (hw : grammar w v) : Padded grammar (b ++ w) v

/-- The grammar of a fixed word. -/
def Word (w u : Text) (_ : Unit) : Prop := u = w

theorem NoBlank.append_inv (h : NoBlank (b ++ t)) (hb : Blank b) : b = [] := by
  cases b with
  | nil => rfl
  | cons c b =>
    have hc := h c rfl
    rw [hb c List.mem_cons_self] at hc
    cases hc

/-- `parseChar` is exact where no blank comes before a character that is not found. -/
theorem parseChar_exact_iff (s : Text) (x : Char) :
    Exact (Padded (Word [x])) s () (parseChar s x).1 (parseChar s x).2 () ↔
      ((skipBlank s).head? ≠ some x → NoBlank s) := by
  rw [parseChar_eq]
  by_cases hx : (skipBlank s).head? = some x
  · rw [if_pos hx]
    refine iff_of_true ?_ fun h => absurd hx h
    have hread : parseChar s x = (true, (skipBlank s).tail) := by rw [parseChar_eq, if_pos hx]
    obtain ⟨-, -, b, hb, hs⟩ := of_parseChar_true hread
    refine ⟨fun _ => ⟨b ++ [x], ?_, .mk hb rfl⟩, fun h => (by cases h), fun _ _ _ _ _ => rfl⟩
    simpa using hs
  · rw [if_neg hx]
    constructor
    · intro h _
      exact skipBlank_eq_self_iff.mp (h.keeps rfl).1
    · intro h
      have hno := h hx
      refine ⟨fun hf => (by cases hf), fun _ => ⟨skipBlank_of_noBlank hno, rfl⟩, ?_⟩
      intro w r v hs hw
      cases hw with
      | @mk b w _ hb hw =>
        subst hs
        rw [show w = [x] from hw, List.append_assoc] at hno hx
        rw [skipBlank_of_noBlank hno, hno.append_inv hb] at hx
        exact absurd rfl hx

/-- `parseWord` is exact where no blank comes before a word that is not found. -/
theorem parseWord_exact_iff (s : Text) (w : List Char) :
    Exact (Padded (Word w)) s () (parseWord s w).1 (parseWord s w).2 () ↔
      (¬ w <+: skipBlank s → NoBlank s) := by
  by_cases hw : w <+: skipBlank s
  · refine iff_of_true ?_ fun h => absurd hw h
    obtain ⟨t, ht⟩ := hw
    rw [parseWord_true ht.symm]
    obtain ⟨b, hs, hb, -⟩ := skipBlank_spec s
    refine ⟨fun _ => ⟨b ++ w, ?_, .mk hb rfl⟩, fun h => (by cases h), fun _ _ _ _ _ => rfl⟩
    rw [List.append_assoc, ht]
    exact hs
  · rw [parseWord_false hw]
    constructor
    · intro h _
      exact skipBlank_eq_self_iff.mp (h.keeps rfl).1
    · intro h
      have hno := h hw
      refine ⟨fun hf => (by cases hf), fun _ => ⟨skipBlank_of_noBlank hno, rfl⟩, ?_⟩
      intro u r v hs hu
      cases hu with
      | @mk b u _ hb hu =>
        subst hs
        rw [show u = w from hu, List.append_assoc] at hno hw
        rw [skipBlank_of_noBlank hno, hno.append_inv hb] at hw
        exact absurd ⟨r, rfl⟩ hw

/-- `parseString` is exact where no blank comes before what is not a quoted string. -/
theorem parseString_exact_iff (s : Text) (quote : Char) (str : List Char) :
    Exact (Quoted quote) s str (parseString s quote str).1 (parseString s quote str).2.1
        (parseString s quote str).2.2 ↔
      ((∀ t r, ¬ StringAt quote s t r) → NoBlank s) := by
  rcases parseString_cases quote s with ⟨t, r, h⟩ | h
  · refine iff_of_true ?_ fun hnot => absurd h (hnot t r)
    rw [parseString_true h]
    exact ⟨fun _ => h.quoted, fun hf => (by cases hf), fun _ _ _ _ _ => rfl⟩
  · rw [parseString_false h]
    constructor
    · intro hex _
      exact skipBlank_eq_self_iff.mp (hex.keeps rfl).1
    · intro hcond
      have hno := hcond h
      refine ⟨fun hf => (by cases hf), fun _ => ⟨skipBlank_of_noBlank hno, rfl⟩, ?_⟩
      intro u r t hs hu
      cases hu with
      | @mk b t hb ht =>
        subst hs
        have heq : b ++ quote :: (t ++ [quote]) ++ r = b ++ quote :: (t ++ quote :: r) := by simp
        rw [heq] at hno h
        refine absurd ⟨?_, ht⟩ (h t r)
        rw [skipBlank_of_noBlank hno, hno.append_inv hb]
        rfl

/-- The parts of a number of the grammar. -/
theorem Number.scan (h : Number w v) (hb : Blank b) :
    ∃ sg sign ds t, Scan (b ++ w) b sg sign ds t ∧ ds ≠ [] ∧
      (t = [] ∨ ∃ c u, isdigit c = true ∧ t = '.' :: c :: u) := by
  have key : ∀ {sg : Text} {sign : ℚ} {ds t : Text}, Sign sg sign → IsDigits ds →
      (∀ c, t.head? = some c → isdigit c = false) →
      Scan (b ++ (sg ++ (ds ++ t))) b sg sign ds t := by
    intro sg sign ds t hs hd ht
    obtain ⟨c, u, hc, hhead⟩ := span_head (r := t) ⟨hd.2, ht⟩ hd.1
    refine ⟨rfl, ⟨hb, fun e he => ?_⟩, hs, fun _ e he => ?_, hd.2, ht⟩
    · cases hs with
      | none =>
        rw [List.nil_append, hhead] at he
        cases he
        exact isspace_of_isdigit hc
      | plus =>
        cases he
        decide
      | minus =>
        cases he
        decide
    · rw [hhead] at he
      cases he
      exact ⟨ne_of_isdigit hc (by decide), ne_of_isdigit hc (by decide)⟩
  cases h with
  | @integer sg ds sign hs hd =>
    refine ⟨sg, sign, ds, [], ?_, hd.1, Or.inl rfl⟩
    have hscan := key (t := []) hs hd (by simp)
    rwa [List.append_nil] at hscan
  | @decimal sg ds fs sign hs hd hf =>
    obtain ⟨c, u, hc, hhead⟩ := span_head (r := []) ⟨hf.2, by simp⟩ hf.1
    rw [List.append_nil] at hhead
    refine ⟨sg, sign, ds, '.' :: fs, ?_, hd.1, Or.inr ⟨c, u, hc, by rw [hhead]⟩⟩
    have hpoint : ∀ e, ('.' :: fs).head? = some e → isdigit e = false := by
      intro e he
      cases he
      decide
    have hscan := key (t := '.' :: fs) hs hd hpoint
    rwa [List.append_assoc]

/-- A number of the grammar is found. -/
theorem Number.numberAt (h : Number w v) (hb : Blank b) (r : Text) : NumberAt (b ++ w ++ r) := by
  obtain ⟨sg, sign, ds, t, hscan, hds, -⟩ := h.scan hb
  -- more digits may come after the word
  obtain ⟨ds', t', heq, hspan⟩ := exists_span isdigit (ds ++ (t ++ r))
  obtain ⟨c, u, hc, hhead⟩ := span_head hscan.digits hds
  have hcons : ds ++ (t ++ r) = c :: (u ++ r) := by
    rw [← List.append_assoc, hhead]
    rfl
  refine ⟨b, sg, sign, ds', t', ⟨?_, ⟨hb, ?_⟩, hscan.sign, ?_, hspan⟩, Or.inl ?_⟩
  · rw [hscan.eq, ← heq]
    simp
  · rw [← heq, hcons]
    intro e he
    refine hscan.blank.stop e ?_
    rw [hhead]
    cases sg with
    | nil => exact he
    | cons d sg => exact he
  · intro hnil e he
    rw [← heq, hcons] at he
    refine hscan.first hnil e ?_
    rw [hhead]
    exact he
  · rintro rfl
    have hstop := hspan.stop c (by rw [show t' = c :: (u ++ r) from (hcons ▸ heq).symm]; rfl)
    rw [hc] at hstop
    cases hstop

/-- The beginning of a text has the parts that are in it. -/
theorem Scan.take {t' : Text} (h : Scan s b sg sign ds (t' ++ r)) :
    Scan (b ++ (sg ++ (ds ++ t'))) b sg sign ds t' := by
  have hhead : ∀ {l : Text} {c : Char}, l.head? = some c → (l ++ r).head? = some c := by
    intro l c hl
    cases l with
    | nil => cases hl
    | cons d l => exact hl
  refine ⟨rfl, ⟨h.blank.all, fun c hc => ?_⟩, h.sign, fun hsg c hc => ?_, h.digits.all,
    fun c hc => h.digits.stop c (hhead hc)⟩
  · have hlong := hhead hc
    rw [List.append_assoc, List.append_assoc] at hlong
    exact h.blank.stop c hlong
  · have hlong := hhead hc
    rw [List.append_assoc] at hlong
    exact h.first hsg c hlong

/-- `parseDouble` is exact where the number that it finds is regular, or where it finds none and no
blank starts the text. -/
theorem parseDouble_exact_iff (s : Text) (x : ℚ) :
    Exact (Padded Number) s x (parseDouble s x).1 (parseDouble s x).2.1 (parseDouble s x).2.2 ↔
      (NumberAt s → RegularAt s) ∧ (¬ NumberAt s → NoBlank s) := by
  obtain ⟨b, sg, sign, ds, t, hscan⟩ := exists_scan s
  rcases hscan.parseDouble_spec x with
    ⟨hparse, hnot⟩ | ⟨w, b', r, y, hparse, hat, -, -, -, t', ht, hnil⟩
  · rw [hparse]
    constructor
    · intro h
      exact ⟨fun hat => absurd hat hnot, fun _ => skipBlank_eq_self_iff.mp (h.keeps rfl).1⟩
    · intro h
      refine ⟨fun hf => (by cases hf), fun _ => ⟨skipBlank_of_noBlank (h.2 hnot), rfl⟩, ?_⟩
      intro w r v hs hw
      cases hw with
      | mk hb hw => exact absurd (hs ▸ hw.numberAt hb r) hnot
  · rw [hparse]
    constructor
    · intro h
      refine ⟨fun _ => ?_, fun hnot => absurd hat hnot⟩
      obtain ⟨w', hs, hw'⟩ := h.accepts rfl
      cases hw' with
      | @mk b₂ w' _ hb hw' =>
        obtain ⟨sg₂, sign₂, ds₂, t₂, hscan₂, hds₂, hend⟩ := hw'.scan hb
        -- the word and the text up to `r` are one
        have hword : b₂ ++ w' = b ++ (sg ++ (ds ++ t')) := by
          have hsame : b₂ ++ w' ++ r = b ++ (sg ++ (ds ++ t')) ++ r := by
            rw [← hs, hscan.eq, ht]
            simp
          exact List.append_cancel_right hsame
        have htake := (ht ▸ hscan).take
        rw [← hword] at htake
        obtain ⟨-, -, -, hdseq, hteq⟩ := hscan₂.unique htake
        refine ⟨b, sg, sign, ds, t, hscan, hdseq ▸ hds₂, ?_⟩
        rcases hend with hend | ⟨c, u, hc, hend⟩
        · exact Or.inl (hnil (hteq.symm.trans hend))
        · refine Or.inr ⟨c, u ++ r, hc, ?_⟩
          rw [ht, ← hteq, hend]
          rfl
    · intro h
      refine ⟨fun _ => ?_, fun hf => (by cases hf), fun _ _ _ _ _ => rfl⟩
      obtain ⟨b₂, sg₂, sign₂, ds₂, t₂, hscan₂, hds, hend⟩ := h.1 hat
      obtain ⟨rfl, rfl, rfl, rfl, rfl⟩ := hscan₂.unique hscan
      rcases hend with ⟨hno, hpoint⟩ | ⟨c, u, hc, rfl⟩
      · have hskip := skipBlank_of_noBlank hno
        have hread := hscan.parseDouble_noPoint (by rwa [hskip]) x
        rw [if_pos hds, hskip] at hread
        cases hread.symm.trans hparse
        refine ⟨b₂ ++ (sg₂ ++ ds₂), ?_, .mk hscan.blank.all (.integer hscan.sign ⟨hds, ?_⟩)⟩
        · rw [hscan.eq]
          simp
        · exact hscan.digits.all
      · obtain ⟨fs, r', heq, hfs⟩ := exists_span isdigit (c :: u)
        have hne : fs ≠ [] := span_ne_nil hc hfs heq.symm
        rw [heq] at hscan
        have hread := (show Scan s b₂ sg₂ sign₂ ds₂ ([] ++ '.' :: (fs ++ r')) from
          hscan).parseDouble_point (by simp [Blank]) hfs x
        rw [if_pos (Or.inl hds)] at hread
        cases hread.symm.trans hparse
        refine ⟨b₂ ++ (sg₂ ++ ds₂ ++ '.' :: fs), ?_, .mk hscan.blank.all
          (.decimal hscan.sign ⟨hds, hscan.digits.all⟩ ⟨hne, hfs.all⟩)⟩
        rw [hscan.eq]
        simp

/-! ## Menu items -/

theorem StringAt.unique {quote : Char} {t' : List Char} {r' : Text} (h : StringAt quote s t r)
    (h' : StringAt quote s t' r') : t = t' ∧ r = r' := by
  have heq := (parseString_true h []).symm.trans (parseString_true h' [])
  simp only [Prod.mk.injEq, true_and] at heq
  exact ⟨heq.2, heq.1⟩

/-- A colon comes after the blanks, and a number starts what is after it. -/
def NumberAfterColon (q q' : Text) : Prop := skipBlank q = ':' :: q' ∧ NumberAt q'

/-- What `parseMenuItem` relies on: after the quoted string that starts the text come a colon and a
regular number; or there is no item, and the string is the name that the caller has. -/
def ItemRegular (s : Text) (name : List Char) : Prop :=
  ∀ t q, StringAt squote s t q →
    (∃ q', NumberAfterColon q q' ∧ RegularAt q') ∨ (¬ ∃ q', NumberAfterColon q q') ∧ t = name

variable {name t : List Char} {q value : ℚ}

theorem squote_not_isspace : isspace squote = false := by decide

theorem Item.stringAt {num : Text → ℚ → Prop} (h : Item num w t v) (r : Text) :
    ∃ b b' n, Blank b ∧ Blank b' ∧ num n v ∧
      StringAt squote (w ++ r) t (b ++ ':' :: (b' ++ n ++ r)) := by
  cases h with
  | @mk u b b' n _ _ hu hb hb' hw =>
    refine ⟨b, b', n, hb, hb', hw, ?_⟩
    have hstring := hu.stringAt squote_not_isspace (b ++ ':' :: (b' ++ n ++ r))
    have heq : u ++ (b ++ ':' :: (b' ++ n)) ++ r = u ++ (b ++ ':' :: (b' ++ n ++ r)) := by simp
    rwa [heq]

/-- What `parseMenuItem` does. -/
theorem parseMenuItem_cases (s : Text) (name : List Char) (value : ℚ) :
    ((∀ t q, ¬ StringAt squote s t q) ∧ parseMenuItem s name value = (false, s, name, value)) ∨
    (∃ t q, StringAt squote s t q ∧ (¬ ∃ q', NumberAfterColon q q') ∧
      parseMenuItem s name value = (false, s, t, value)) ∨
    ∃ t q q' r v, StringAt squote s t q ∧ NumberAfterColon q q' ∧
      parseDouble q' value = (true, r, v) ∧ parseMenuItem s name value = (true, r, t, v) := by
  rcases parseString_cases squote s with ⟨t, q, h⟩ | h
  · refine Or.inr ?_
    have hread : parseSQString s name = (true, q, t) := parseString_true h name
    rcases hchar : parseChar q ':' with ⟨_ | _, q'⟩
    · refine Or.inl ⟨t, q, h, fun ⟨q'', hskip, _⟩ => ?_, by simp only [parseMenuItem, hread, hchar]⟩
      exact (of_parseChar_false hchar).2 (by rw [hskip]; rfl)
    · obtain ⟨-, hskip, -⟩ := of_parseChar_true hchar
      obtain ⟨b, sg, sign, ds, u, hscan⟩ := exists_scan q'
      rcases hscan.parseDouble_spec value with ⟨hparse, hnot⟩ | ⟨_, _, r, v, hparse, hat, -⟩
      · refine Or.inl ⟨t, q, h, fun ⟨q'', hcolon, hnum⟩ => hnot ?_, ?_⟩
        · rw [hskip] at hcolon
          exact (List.cons.inj hcolon).2 ▸ hnum
        · simp only [parseMenuItem, hread, hchar, hparse]
      · refine Or.inr ⟨t, q, q', r, v, h, ⟨hskip, hat⟩, hparse, ?_⟩
        simp only [parseMenuItem, hread, hchar, hparse]
  · have hread : parseSQString s name = (false, skipBlank s, name) := parseString_false h name
    exact Or.inl ⟨h, by simp only [parseMenuItem, hread]⟩

theorem Item.numberAfterColon (h : Item Number w t v) (r : Text) :
    ∃ q q', StringAt squote (w ++ r) t q ∧ NumberAfterColon q q' := by
  obtain ⟨b, b', n, hb, hb', hn, hstring⟩ := h.stringAt r
  exact ⟨_, _, hstring, skipBlank_cons hb (by decide), hn.numberAt hb' r⟩

/-- `parseMenuItem` is exact where what it relies on holds. -/
theorem parseMenuItem_exact_iff (s : Text) (name : List Char) (value : ℚ) :
    Exact (fun w (o : List Char × ℚ) => Item Number w o.1 o.2) s (name, value)
        (parseMenuItem s name value).1 (parseMenuItem s name value).2.1
        (parseMenuItem s name value).2.2 ↔
      ItemRegular s name := by
  rcases parseMenuItem_cases s name value with
    ⟨hno, hparse⟩ | ⟨t, q, hstring, hno, hparse⟩ | ⟨t, q, q', r, v, hstring, hcolon, hnum, hparse⟩
  · rw [hparse]
    refine iff_of_true ⟨fun h => (by cases h), fun _ => ⟨rfl, rfl⟩, ?_⟩ fun t q h => ?_
    · intro w r o hs hw
      obtain ⟨q, -, hstring, -⟩ := hw.numberAfterColon r
      exact absurd (hs ▸ hstring) (hno _ _)
    · exact absurd h (hno t q)
  · rw [hparse]
    constructor
    · intro h t' q' h'
      obtain ⟨rfl, rfl⟩ := hstring.unique h'
      exact Or.inr ⟨hno, congrArg Prod.fst (h.keeps rfl).2⟩
    · intro h
      refine ⟨fun hf => (by cases hf), fun _ => ⟨rfl, ?_⟩, ?_⟩
      · rcases h t q hstring with ⟨q', hcolon, -⟩ | ⟨-, rfl⟩
        · exact absurd ⟨q', hcolon⟩ hno
        · rfl
      · intro w r o hs hw
        obtain ⟨q₂, q₂', hstring₂, hcolon₂⟩ := hw.numberAfterColon r
        obtain ⟨-, rfl⟩ := hstring.unique (hs ▸ hstring₂)
        exact absurd ⟨q₂', hcolon₂⟩ hno
  · rw [hparse]
    have hiff := parseDouble_exact_iff q' value
    rw [hnum] at hiff
    constructor
    · intro h t' q₂ h'
      obtain ⟨rfl, rfl⟩ := hstring.unique h'
      refine Or.inl ⟨q', hcolon, (hiff.mp ⟨fun _ => ?_, fun hf => (by cases hf),
        fun _ _ _ _ _ => rfl⟩).1 hcolon.2⟩
      -- the number is the one of the item that was read
      obtain ⟨w, hs, hw⟩ := h.accepts rfl
      obtain ⟨b, b', n, hb, hb', hn, hstring₂⟩ := hw.stringAt r
      obtain ⟨-, hq⟩ := hstring.unique (hs ▸ hstring₂)
      have hskip := hcolon.1
      rw [hq, skipBlank_cons hb (by decide)] at hskip
      exact ⟨b' ++ n, (List.cons.inj hskip).2.symm, .mk hb' hn⟩
    · intro h
      refine ⟨fun _ => ?_, fun hf => (by cases hf), fun _ _ _ _ _ => rfl⟩
      rcases h t q hstring with ⟨q₂, hcolon₂, hreg⟩ | ⟨hno, -⟩
      · obtain rfl : q₂ = q' := (List.cons.inj (hcolon₂.1.symm.trans hcolon.1)).2
        have hex := hiff.mpr ⟨fun _ => hreg, fun hnot => absurd hcolon.2 hnot⟩
        obtain ⟨n, hq', hn⟩ := hex.accepts rfl
        obtain ⟨u, hs, hu⟩ := hstring.quoted
        obtain ⟨b, hq, hb, -⟩ := skipBlank_spec q
        cases hn with
        | @mk b' n _ hb' hn =>
          refine ⟨u ++ (b ++ ':' :: (b' ++ n)), ?_, .mk hu hb hb' hn⟩
          rw [hs, hq, hcolon.1, hq']
          simp
      · exact absurd ⟨q', hcolon⟩ hno

/-! ## Menus -/

/-- A character that ends a number. -/
def Stop (c : Char) : Prop := isspace c = false ∧ isdigit c = false ∧ c ≠ '.'

variable {c : Char}

/-- A loose number is read up to the blanks after it, or up to what follows them. -/
theorem LooseNumber.parseDouble (h : LooseNumber w v) (hb : Blank b) (hb' : Blank b')
    (hc : Stop c) (r : Text) (x : ℚ) :
    ∃ q, parseDouble (b ++ (w ++ (b' ++ c :: r))) x = (true, q, v) ∧ skipBlank q = c :: r := by
  have hnext : ∀ d, (b' ++ c :: r).head? = some d → isdigit d = false := by
    intro d hd
    cases b' with
    | nil =>
      cases hd
      exact hc.2.1
    | cons e b' =>
      cases hd
      by_contra hdig
      have hdig' : isdigit d = true := by simpa using hdig
      have hspace := isspace_of_isdigit hdig'
      rw [hb' d List.mem_cons_self] at hspace
      cases hspace
  have hskip : skipBlank (b' ++ c :: r) = c :: r := skipBlank_cons hb' hc.1
  have start : ∀ {sg : Text} {sign : ℚ} {d : Char} {u : Text}, Sign sg sign →
      (sg = [] → isspace d = false ∧ d ≠ '+' ∧ d ≠ '-') →
      IsSpan isspace b (sg ++ d :: u) ∧
        (sg = [] → ∀ e, (d :: u).head? = some e → e ≠ '+' ∧ e ≠ '-') := by
    intro sg sign d u hs hd
    refine ⟨⟨hb, fun e he => ?_⟩, fun hsg e he => ?_⟩
    · cases hs with
      | none =>
        cases he
        exact (hd rfl).1
      | plus =>
        cases he
        decide
      | minus =>
        cases he
        decide
    · cases he
      exact (hd hsg).2
  have digit : ∀ {d : Char}, isdigit d = true → isspace d = false ∧ d ≠ '+' ∧ d ≠ '-' :=
    fun hd => ⟨isspace_of_isdigit hd, ne_of_isdigit hd (by decide), ne_of_isdigit hd (by decide)⟩
  cases h with
  | @integer sg ds sign hs hd =>
    obtain ⟨d, u, hdig, hhead⟩ := span_head (r := b' ++ c :: r) ⟨hd.2, hnext⟩ hd.1
    obtain ⟨hblank, hfirst⟩ := start (u := u) hs fun _ => digit hdig
    rw [← hhead] at hblank hfirst
    have hscan : Scan (b ++ (sg ++ ds ++ (b' ++ c :: r))) b sg sign ds (b' ++ c :: r) :=
      ⟨by simp, hblank, hs, hfirst, hd.2, hnext⟩
    refine ⟨c :: r, ?_, ?_⟩
    · rw [hscan.parseDouble_noPoint, if_pos hd.1, hskip]
      rw [hskip]
      intro heq
      cases heq
      exact hc.2.2 rfl
    · rw [← hskip, skipBlank_idem]
  | @decimal sg ds b₁ fs sign hs hd hb₁ hf hdf hfirst₁ =>
    have hpoint : ∀ d, (b₁ ++ '.' :: (fs ++ (b' ++ c :: r))).head? = some d →
        isdigit d = false := by
      intro d hd
      cases b₁ with
      | nil =>
        cases hd
        decide
      | cons e b₁ =>
        cases hd
        by_contra hdig
        have hdig' : isdigit d = true := by simpa using hdig
        have hspace := isspace_of_isdigit hdig'
        rw [hb₁ d List.mem_cons_self] at hspace
        cases hspace
    have hall : ∃ d u, ds ++ (b₁ ++ '.' :: (fs ++ (b' ++ c :: r))) = d :: u ∧
        (sg = [] → isspace d = false ∧ d ≠ '+' ∧ d ≠ '-') := by
      cases ds with
      | nil =>
        cases b₁ with
        | nil => exact ⟨'.', _, rfl, fun _ => by decide⟩
        | cons e b₁ => exact ⟨e, _, rfl, fun hsg => absurd (hfirst₁ hsg rfl) (by simp)⟩
      | cons e ds => exact ⟨e, _, rfl, fun _ => digit (hd e List.mem_cons_self)⟩
    obtain ⟨d, u, hhead, hstart⟩ := hall
    obtain ⟨hblank, hfirst⟩ := start (u := u) hs hstart
    rw [← hhead] at hblank hfirst
    have hscan : Scan (b ++ (sg ++ ds ++ b₁ ++ '.' :: fs ++ (b' ++ c :: r))) b sg sign ds
        (b₁ ++ '.' :: (fs ++ (b' ++ c :: r))) :=
      ⟨by simp, hblank, hs, hfirst, hd, hpoint⟩
    refine ⟨b' ++ c :: r, ?_, hskip⟩
    rw [hscan.parseDouble_point hb₁ ⟨hf, hnext⟩, if_pos hdf]

/-- An item whose number is loose is read up to what follows it. -/
theorem Item.parseMenuItem (h : Item LooseNumber w t v) (hb' : Blank b') (hc : Stop c) (r : Text)
    (name : List Char) (value : ℚ) :
    ∃ q, parseMenuItem (w ++ (b' ++ c :: r)) name value = (true, q, t, v) ∧
      skipBlank q = c :: r := by
  obtain ⟨b, b₁, n, hb, hb₁, hn, hstring⟩ := h.stringAt (b' ++ c :: r)
  obtain ⟨q, hnum, hskip⟩ := hn.parseDouble hb₁ hb' hc r value
  have hread : parseSQString (w ++ (b' ++ c :: r)) name = (true, _, t) :=
    parseString_true hstring name
  have hchar : parseChar (b ++ ':' :: (b₁ ++ n ++ (b' ++ c :: r))) ':' = (true, _) :=
    parseChar_true hb (by decide)
  rw [List.append_assoc] at hread hchar
  refine ⟨q, ?_, hskip⟩
  simp only [SimpleParser.parseMenuItem, hread, hchar, hnum]

/-- What `parseMenuItem` reads is an item, whose number may be loose, and blanks after it. -/
theorem of_parseMenuItem_true {r : Text} (h : parseMenuItem s name value = (true, r, t, v)) :
    ∃ w b, s = w ++ (b ++ r) ∧ Blank b ∧ Item LooseNumber w t v := by
  rcases parseMenuItem_cases s name value with
    ⟨-, hparse⟩ | ⟨_, _, -, -, hparse⟩ | ⟨t', q, q', r', v', hstring, hcolon, hnum, hparse⟩
  · cases hparse.symm.trans h
  · cases hparse.symm.trans h
  · cases hparse.symm.trans h
    obtain ⟨u, hs, hu⟩ := hstring.quoted
    obtain ⟨b, hq, hb, -⟩ := skipBlank_spec q
    obtain ⟨b₁, sg, sign, ds, t₁, hscan⟩ := exists_scan q'
    rcases hscan.parseDouble_spec value with ⟨hfail, -⟩ | ⟨n, b', _, _, hok, -, hq', hb', hn, -⟩
    · cases hfail.symm.trans hnum
    · cases hok.symm.trans hnum
      refine ⟨u ++ (b ++ ':' :: (b₁ ++ n)), b', ?_, hb', .mk hu hb hscan.blank.all hn⟩
      rw [hs, hq, hcolon.1, hq']
      simp

theorem Item.ne_nil {num : Text → ℚ → Prop} (h : Item num w t v) : w ≠ [] := by
  cases h
  simp

theorem stop_semicolon : Stop ';' := ⟨by decide, by decide, by decide⟩

theorem stop_brace : Stop '\x7d' := ⟨by decide, by decide, by decide⟩

variable {k : ℕ} {names names' : List (List Char)} {values values' : List ℚ} {p : Text}

/-- The loop ends when it has more steps than there are characters. -/
theorem menuLoop_isSome (h : p.length < k) (names : List (List Char)) (values : List ℚ) :
    ∃ o, menuLoop k p names values = some o := by
  induction k generalizing p names values with
  | zero => omega
  | succ k ih =>
    unfold menuLoop
    split
    · exact ⟨_, rfl⟩
    · next q n v hitem =>
      split
      · next r hchar =>
        obtain ⟨w, b, hp, -, hw⟩ := of_parseMenuItem_true hitem
        obtain ⟨-, -, b', -, hq⟩ := of_parseChar_true hchar
        have hlen : 0 < w.length := List.length_pos_iff.mpr hw.ne_nil
        refine ih ?_ _ _
        rw [hp, hq] at h
        simp only [List.length_append, List.length_cons] at h
        omega
      · exact ⟨_, rfl⟩

/-- What the loop and the brace after it read are items. -/
theorem of_menuLoop {q r : Text} (h : menuLoop k p names values = some (some (q, names', values')))
    (hbrace : parseChar q '\x7d' = (true, r)) :
    ∃ w ns vs, p = w ++ r ∧ Items LooseNumber w ns vs ∧ names' = names ++ ns ∧
      values' = values ++ vs := by
  induction k generalizing p names values with
  | zero => cases h
  | succ k ih =>
    unfold menuLoop at h
    split at h
    · cases h
    · next q₁ n v hitem =>
      obtain ⟨w, b, hp, hb, hw⟩ := of_parseMenuItem_true hitem
      split at h
      · next r₁ hchar =>
        obtain ⟨-, -, b', hb', hq⟩ := of_parseChar_true hchar
        obtain ⟨w', ns, vs, hr, hitems, hns, hvs⟩ := ih h
        refine ⟨w ++ (b ++ b' ++ ';' :: w'), n :: ns, v :: vs, ?_, .more hw ?_ hitems, ?_, ?_⟩
        · rw [hp, hq, hr]
          simp
        · intro c hc
          rcases List.mem_append.mp hc with hc | hc
          · exact hb c hc
          · exact hb' c hc
        · rw [hns, List.append_assoc]
          rfl
        · rw [hvs, List.append_assoc]
          rfl
      · next r₁ hchar =>
        cases h
        obtain ⟨rfl, -⟩ := of_parseChar_false hchar
        obtain ⟨-, hskip, -⟩ := of_parseChar_true hbrace
        obtain ⟨b', hq, hb', -⟩ := skipBlank_spec q₁
        rw [skipBlank_idem] at hskip
        refine ⟨w ++ (b ++ b' ++ ['\x7d']), [n], [v], ?_, .last hw ?_, rfl, rfl⟩
        · rw [hp, hq, hskip]
          simp
        · intro c hc
          rcases List.mem_append.mp hc with hc | hc
          · exact hb c hc
          · exact hb' c hc

theorem Items.length_le {num : Text → ℚ → Prop} (h : Items num w names values) :
    names.length ≤ w.length := by
  induction h with
  | last hu hb =>
    simp only [List.length_append, List.length_cons]
    omega
  | more hu hb hw ih =>
    simp only [List.length_append, List.length_cons]
    omega

/-- The loop and the brace after it read items. -/
theorem Items.menuLoop (h : Items LooseNumber w names' values') (hk : names'.length ≤ k) (r : Text)
    (names : List (List Char)) (values : List ℚ) :
    ∃ q, menuLoop k (w ++ r) names values = some (some (q, names ++ names', values ++ values')) ∧
      parseChar q '\x7d' = (true, r) := by
  induction h generalizing k names values with
  | @last u b t v hu hb =>
    obtain ⟨k, rfl⟩ : ∃ j, k = j + 1 := ⟨k - 1, by simp only [List.length_singleton] at hk; omega⟩
    obtain ⟨q, hitem, hskip⟩ := hu.parseMenuItem hb stop_brace r [] 0
    have heq : u ++ (b ++ ['\x7d']) ++ r = u ++ (b ++ '\x7d' :: r) := by simp
    have hsemi : parseChar q ';' = (false, skipBlank q) := by
      rw [parseChar_eq, hskip, if_neg (by simp)]
    refine ⟨skipBlank q, ?_, ?_⟩
    · simp only [SimpleParser.menuLoop, heq, hitem, hsemi]
    · rw [parseChar_eq, skipBlank_idem, hskip, if_pos (by rfl)]
      rfl
  | @more u b w t v ns vs hu hb hw ih =>
    obtain ⟨k, rfl⟩ : ∃ j, k = j + 1 := ⟨k - 1, by simp only [List.length_cons] at hk; omega⟩
    obtain ⟨q, hitem, hskip⟩ := hu.parseMenuItem hb stop_semicolon (w ++ r) [] 0
    have heq : u ++ (b ++ ';' :: w) ++ r = u ++ (b ++ ';' :: (w ++ r)) := by simp
    have hsemi : parseChar q ';' = (true, w ++ r) := by
      rw [parseChar_eq, hskip, if_pos (by rfl)]
      rfl
    obtain ⟨q', hloop, hbrace⟩ := ih (by simpa using hk) (names ++ [t]) (values ++ [v])
    refine ⟨q', ?_, hbrace⟩
    simp only [SimpleParser.menuLoop, heq, hitem, hsemi, hloop, List.append_assoc,
      List.singleton_append]

/-- `parseMenuList` returns: it reads a menu whose numbers may be loose, or nothing, and it reads
one that starts the text. -/
theorem parseMenuList_spec (s : Text) (names : List (List Char)) (values : List ℚ) :
    ∃ ok p out, parseMenuList s names values = some (ok, p, out) ∧
      Exact (fun w (o : List (List Char) × List ℚ) => Menu LooseNumber w o.1 o.2) s
        (names, values) ok p out ∧
      ∀ w r o, s = w ++ r → Menu LooseNumber w o.1 o.2 → p = r ∧ out = o := by
  have hread : ∀ w r (o : List (List Char) × List ℚ), s = w ++ r → Menu LooseNumber w o.1 o.2 →
      parseMenuList s names values = some (true, r, o) := by
    rintro w r ⟨ns, vs⟩ rfl hw
    cases hw with
    | @mk b w _ _ hb hw =>
      have heq : b ++ '\x7b' :: w ++ r = b ++ '\x7b' :: (w ++ r) := by simp
      have hopen : parseChar (b ++ '\x7b' :: (w ++ r)) '\x7b' = (true, w ++ r) :=
        parseChar_true hb (by decide)
      have hle : ns.length ≤ (w ++ r).length + 1 := by
        have hnames : ns.length ≤ w.length := hw.length_le
        rw [List.length_append]
        omega
      obtain ⟨q, hloop, hbrace⟩ := hw.menuLoop hle r [] []
      simp only [parseMenuList, heq, hopen, hloop, hbrace, List.nil_append]
  have htotal : ∃ ok p out, parseMenuList s names values = some (ok, p, out) ∧
      (ok = true → ∃ w, s = w ++ p ∧ Menu LooseNumber w out.1 out.2) ∧
      (ok = false → p = s ∧ out = (names, values)) := by
    unfold parseMenuList
    split
    · exact ⟨_, _, _, rfl, fun h => (by cases h), fun _ => ⟨rfl, rfl⟩⟩
    · next q hopen =>
      obtain ⟨-, -, b, hb, hs⟩ := of_parseChar_true hopen
      obtain ⟨o, ho⟩ := menuLoop_isSome (Nat.lt_succ_self q.length) [] []
      rw [ho]
      cases o with
      | none => exact ⟨_, _, _, rfl, fun h => (by cases h), fun _ => ⟨rfl, rfl⟩⟩
      | some o =>
        obtain ⟨r, tmpnames, tmpvalues⟩ := o
        simp only
        split
        · next r' hbrace =>
          refine ⟨_, _, _, rfl, fun _ => ?_, fun h => (by cases h)⟩
          obtain ⟨w, ns, vs, hq, hitems, rfl, rfl⟩ := of_menuLoop ho hbrace
          refine ⟨b ++ '\x7b' :: w, ?_, .mk hb hitems⟩
          rw [hs, hq]
          simp
        · exact ⟨_, _, _, rfl, fun h => (by cases h), fun _ => ⟨rfl, rfl⟩⟩
  obtain ⟨ok, p, out, hparse, haccepts, hkeeps⟩ := htotal
  refine ⟨ok, p, out, hparse, ⟨haccepts, hkeeps, fun w r o hs hw => ?_⟩, fun w r o hs hw => ?_⟩
  · cases (hread w r o hs hw).symm.trans hparse
    rfl
  · cases (hread w r o hs hw).symm.trans hparse
    exact ⟨rfl, rfl⟩

theorem Items.imp {num num' : Text → ℚ → Prop} (h : ∀ w v, num w v → num' w v)
    (hw : Items num w names values) : Items num' w names values := by
  have himp : ∀ {u t v}, Item num u t v → Item num' u t v := by
    rintro u t v ⟨hu, hb, hb', hn⟩
    exact .mk hu hb hb' (h _ _ hn)
  induction hw with
  | last hu hb => exact .last (himp hu) hb
  | more hu hb _ ih => exact .more (himp hu) hb ih

theorem Menu.loose (h : Menu Number w names values) : Menu LooseNumber w names values := by
  cases h with
  | mk hb hw => exact .mk hb (hw.imp fun _ _ => Number.loose)

/-- A menu that starts the text, if its numbers may be loose, is one of the grammar. -/
def MenuRegular (s : Text) : Prop :=
  ∀ w r names values, s = w ++ r → Menu LooseNumber w names values → Menu Number w names values

/-- `parseMenuList` is exact where the numbers of the menu that starts the text are regular. -/
theorem parseMenuList_exact_iff (s : Text) (names : List (List Char)) (values : List ℚ) :
    (∃ ok p out, parseMenuList s names values = some (ok, p, out) ∧
      Exact (fun w (o : List (List Char) × List ℚ) => Menu Number w o.1 o.2) s (names, values) ok
        p out) ↔ MenuRegular s := by
  obtain ⟨ok, p, out, hparse, hex, hunique⟩ := parseMenuList_spec s names values
  constructor
  · rintro ⟨ok', p', out', hparse', hex'⟩ w r ns vs hs hw
    cases hparse.symm.trans hparse'
    obtain ⟨hp, hout⟩ := hunique w r (ns, vs) hs hw
    obtain ⟨w', hs', hw'⟩ := hex'.accepts (hex.complete w r (ns, vs) hs hw)
    rw [hp, hs] at hs'
    rw [hout, ← List.append_cancel_right hs'] at hw'
    exact hw'
  · intro h
    refine ⟨ok, p, out, hparse, fun hok => ?_, hex.keeps, fun w r o hs hw => ?_⟩
    · obtain ⟨w, hs, hw⟩ := hex.accepts hok
      exact ⟨w, hs, h w p out.1 out.2 hs hw⟩
    · exact hex.complete w r o hs hw.loose

theorem blank_space : Blank [' '] := by
  intro c hc
  rw [List.mem_singleton.mp hc]
  decide

/-! ## All the parsers -/

/-- Each parser, called on the text, is exact. -/
structure ParsersExact (s : Text) (x : Char) (word : List Char) (quote : Char) (str : List Char)
    (number : ℚ) (name : List Char) (value : ℚ) (names : List (List Char)) (values : List ℚ) :
    Prop where
  char : Exact (Padded (Word [x])) s () (parseChar s x).1 (parseChar s x).2 ()
  word : Exact (Padded (Word word)) s () (parseWord s word).1 (parseWord s word).2 ()
  string : Exact (Quoted quote) s str (parseString s quote str).1 (parseString s quote str).2.1
    (parseString s quote str).2.2
  double : Exact (Padded Number) s number (parseDouble s number).1 (parseDouble s number).2.1
    (parseDouble s number).2.2
  item : Exact (fun w (o : List Char × ℚ) => Item Number w o.1 o.2) s (name, value)
    (parseMenuItem s name value).1 (parseMenuItem s name value).2.1
    (parseMenuItem s name value).2.2
  list : ∃ ok p out, parseMenuList s names values = some (ok, p, out) ∧
    Exact (fun w (o : List (List Char) × List ℚ) => Menu Number w o.1 o.2) s (names, values) ok p
      out

/-- What the parsers rely on: no blank comes before what is not found, and numbers are regular. -/
structure ParsersRegular (s : Text) (x : Char) (word : List Char) (quote : Char)
    (name : List Char) : Prop where
  char : (skipBlank s).head? ≠ some x → NoBlank s
  word : ¬ word <+: skipBlank s → NoBlank s
  string : (∀ t r, ¬ StringAt quote s t r) → NoBlank s
  double : (NumberAt s → RegularAt s) ∧ (¬ NumberAt s → NoBlank s)
  item : ItemRegular s name
  list : MenuRegular s

/-- The parsers are exact on a text exactly when it is regular. -/
theorem parsers_exact_iff (s : Text) (x : Char) (word : List Char) (quote : Char)
    (str : List Char) (number : ℚ) (name : List Char) (value : ℚ) (names : List (List Char))
    (values : List ℚ) :
    ParsersExact s x word quote str number name value names values ↔
      ParsersRegular s x word quote name := by
  constructor
  · intro h
    exact ⟨(parseChar_exact_iff s x).mp h.char, (parseWord_exact_iff s word).mp h.word,
      (parseString_exact_iff s quote str).mp h.string, (parseDouble_exact_iff s number).mp h.double,
      (parseMenuItem_exact_iff s name value).mp h.item,
      (parseMenuList_exact_iff s names values).mp h.list⟩
  · intro h
    exact ⟨(parseChar_exact_iff s x).mpr h.char, (parseWord_exact_iff s word).mpr h.word,
      (parseString_exact_iff s quote str).mpr h.string,
      (parseDouble_exact_iff s number).mpr h.double,
      (parseMenuItem_exact_iff s name value).mpr h.item,
      (parseMenuList_exact_iff s names values).mpr h.list⟩

/-- The first item of a menu, and what comes after its number. -/
theorem Menu.first {num : Text → ℚ → Prop} (h : Menu num w names values) :
    ∃ w' t v b b' n b₁ c r, skipBlank w = '\x7b' :: w' ∧ Blank b ∧ Blank b' ∧ num n v ∧
      Blank b₁ ∧ Stop c ∧ StringAt squote w' t (b ++ ':' :: (b' ++ n ++ (b₁ ++ c :: r))) := by
  cases h with
  | @mk b₀ w' _ _ hb₀ hw =>
    have hskip : skipBlank (b₀ ++ '\x7b' :: w') = '\x7b' :: w' := skipBlank_cons hb₀ (by decide)
    cases hw with
    | @last u b₁ t v hu hb₁ =>
      obtain ⟨b, b', n, hb, hb', hn, hstring⟩ := hu.stringAt (b₁ ++ ['\x7d'])
      exact ⟨_, t, v, b, b', n, b₁, _, [], hskip, hb, hb', hn, hb₁, stop_brace, hstring⟩
    | @more u b₁ w₁ t v _ _ hu hb₁ _ =>
      obtain ⟨b, b', n, hb, hb', hn, hstring⟩ := hu.stringAt (b₁ ++ ';' :: w₁)
      exact ⟨_, t, v, b, b', n, b₁, _, w₁, hskip, hb, hb', hn, hb₁, stop_semicolon, hstring⟩

/-- The number 5.3, with a blank before its point. -/
def blankPoint : Text := ['5', ' ', '.', '3']

/-- A menu with this number. -/
def blankMenu : Text := '\x7b' :: squote :: 'a' :: squote :: ':' :: (blankPoint ++ ['\x7d'])

theorem scan_blankPoint (r : Text) :
    Scan (blankPoint ++ r) [] [] 1 ['5'] (' ' :: '.' :: '3' :: r) := by
  refine ⟨rfl, .nil fun c hc => ?_, .none, fun _ c hc => ?_,
    .cons (by decide) (.nil fun c hc => ?_)⟩
  · cases hc
    decide
  · cases hc
    decide
  · cases hc
    decide

theorem not_number_blankPoint (hb : Blank b) (hn : Number w v) : b ++ w ≠ blankPoint := by
  intro heq
  obtain ⟨sg, sign, ds, t, hscan, -, hend⟩ := hn.scan hb
  rw [heq] at hscan
  obtain ⟨-, -, -, -, rfl⟩ := hscan.unique (scan_blankPoint [])
  rcases hend with hend | ⟨c, u, -, hend⟩
  · cases hend
  · cases hend

theorem not_menu_blankMenu : ¬ Menu Number blankMenu names values := by
  intro h
  obtain ⟨w', t, v, b, b', n, b₁, c, r, hskip, hb, hb', hn, hb₁, hc, hstring⟩ := h.first
  cases hskip
  have hat : StringAt squote (squote :: 'a' :: squote :: ':' :: (blankPoint ++ ['\x7d'])) ['a']
      (':' :: (blankPoint ++ ['\x7d'])) := ⟨rfl, by decide⟩
  have hcolon := congrArg skipBlank (hstring.unique hat).2
  rw [skipBlank_cons hb (by decide)] at hcolon
  have hnum : b' ++ n ++ (b₁ ++ c :: r) = blankPoint ++ ['\x7d'] := (List.cons.inj hcolon).2
  -- the number is read up to the brace
  obtain ⟨q, hparse, hq⟩ := hn.loose.parseDouble hb' hb₁ hc r 0
  have hscan : Scan (blankPoint ++ ['\x7d']) [] [] 1 ['5'] ([' '] ++ '.' :: (['3'] ++ ['\x7d'])) :=
    scan_blankPoint _
  have hspan : IsSpan isdigit ['3'] ['\x7d'] := .cons (by decide) (.nil (by simp [isdigit]))
  have hread := hscan.parseDouble_point blank_space hspan 0
  rw [if_pos (Or.inl (by decide)), ← hnum, List.append_assoc] at hread
  cases (Prod.mk.inj (Prod.mk.inj (hread.symm.trans hparse)).2).1
  cases (show '\x7d' :: [] = c :: r from hq)
  have hword : b' ++ n ++ b₁ = blankPoint :=
    List.append_cancel_right (by rw [List.append_assoc]; exact hnum)
  rcases List.eq_nil_or_concat b₁ with rfl | ⟨b₂, d, rfl⟩
  · rw [List.append_nil] at hword
    exact not_number_blankPoint hb' hn hword
  · have hlast := congrArg List.getLast? hword
    rw [List.concat_eq_append, ← List.append_assoc, List.getLast?_concat] at hlast
    cases hlast
    exact absurd (hb₁ '3' (by simp)) (by decide)

/-- The menu is read, and it is not of the grammar. -/
theorem not_exact_blankMenu : ¬ ParsersExact blankMenu '\x7b' [] squote [] 0 [] 0 [] [] := by
  intro h
  have hregular := (parseMenuList_exact_iff blankMenu [] []).mp h.list
  have hnil : Blank [] := by simp [Blank]
  have hdigit : ∀ c ∈ ['5'], isdigit c = true := by simp [isdigit]
  have hdigit' : ∀ c ∈ ['3'], isdigit c = true := by simp [isdigit]
  have hloose : LooseNumber blankPoint _ :=
    .decimal .none hdigit blank_space hdigit' (Or.inl (by decide)) (by simp)
  have hquoted : Quoted squote [squote, 'a', squote] ['a'] := .mk (t := ['a']) hnil (by decide)
  have hitem : Item LooseNumber ([squote, 'a', squote] ++ ([] ++ ':' :: ([] ++ blankPoint))) ['a']
      _ := .mk hquoted hnil hnil hloose
  have hmenu : Menu LooseNumber blankMenu _ _ := .mk hnil (.last hitem hnil)
  exact not_menu_blankMenu (hregular blankMenu [] _ _ (List.append_nil _).symm hmenu)

end Faust.SimpleParser
