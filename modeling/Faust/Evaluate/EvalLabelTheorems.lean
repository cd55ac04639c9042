import Faust.Evaluate.EvalLabel
import Mathlib.Algebra.Order.BigOperators.Group.List
import Mathlib.Data.List.TakeWhile

/-!
# Values in labels are replaced exactly

`pieces` splits a label into the characters that are copied and the patterns, a `%` with digits and
an identifier, that are replaced. The loop of `evalLabel` writes the pieces one after another. It
differs from what the pieces mean only in the widths that do not fit an `int`.
-/

namespace Faust

/-- A part of a label: a character to copy, or a pattern with the digits of its width. -/
inductive Piece
  | char (c : Char)
  | pattern (format ident : List Char)
deriving DecidableEq, Repr

/-- The pieces of a label, from the left. A `%` starts a pattern when the digits after it are
followed by an identifier; digits and identifier are taken as long as they go. -/
def pieces (label : List Char) : List Piece :=
  match label with
  | [] => []
  | c :: rest =>
    if c = '%' then
      let after := rest.dropWhile isDigitChar
      let ident := after.takeWhile isIdentChar
      if ident = [] then .char c :: pieces rest
      else .pattern (rest.takeWhile isDigitChar) ident :: pieces (after.dropWhile isIdentChar)
    else .char c :: pieces rest
termination_by label.length
decreasing_by
  · simp
  · have h₁ := (rest.dropWhile_sublist isDigitChar).length_le
    have h₂ := ((rest.dropWhile isDigitChar).dropWhile_sublist isIdentChar).length_le
    simp only [List.length_cons]
    omega
  · simp

/-- The text of a piece, a pattern being replaced by the value of its identifier in decimal.
`width` is the width printed for the digits of a pattern. -/
def Piece.print (width : List Char → ℕ) (value : List Char → ℤ) : Piece → List Char
  | char c => [c]
  | pattern format ident => printInt (width format) (value ident)

/-- A label with the values in place of the patterns. -/
def printPieces (width : List Char → ℕ) (value : List Char → ℤ) (label : List Char) :
    List Char :=
  (pieces label).flatMap (Piece.print width value)

/-- The width that digits ask for, widths above 4 counting as 4. -/
def minimalWidth (format : List Char) : ℕ := min 4 (digitsValue format)

/-- The label with the values in place of the patterns, each with its minimal width. -/
def interpolate (value : List Char → ℤ) (label : List Char) : List Char :=
  printPieces minimalWidth value label

/-- `evalLabel` is exact at a label and an environment of integers: it returns the label with the
values in it, which every environment returns unchanged. -/
def EvalLabelExact (value : List Char → ℤ) (label : List Char) : Prop :=
  evalLabel (fun ident => some (value ident)) label = some (interpolate value label) ∧
    ∀ eval2int, evalLabel eval2int (interpolate value label) = some (interpolate value label)

/-- The width written in a pattern has its effect although the format is chosen by `atoi`: it is
not lost, or the number has as many characters anyway. -/
def WidthKept (format : List Char) (n : ℤ) : Prop :=
  minimalWidth format ≤ max (formatIndex format) (decimal n).length

/-! ## The loop writes the pieces -/

/-- What the loop does at a piece. -/
def Piece.write {m : Type → Type} [Monad m] (eval2int : List Char → m ℤ) (dst : List Char) :
    Piece → m (List Char)
  | char c => pure (dst ++ [c])
  | pattern format ident => writeIdentValue eval2int dst format ident

theorem isIdentChar_of_isDigitChar {c : Char} (h : isDigitChar c = true) :
    isIdentChar c = true := by
  simp only [isDigitChar, isIdentChar, decide_eq_true_eq] at h ⊢
  exact Or.inr (Or.inr (Or.inl h))

theorem percent_not_mem_digits (src : List Char) : '%' ∉ src.takeWhile isDigitChar := by
  intro h
  have hdigit := List.mem_takeWhile_imp h
  exact absurd hdigit (by decide)

/-- A character that is no `%` is copied. -/
theorem pieces_cons {c : Char} (h : c ≠ '%') (rest : List Char) :
    pieces (c :: rest) = .char c :: pieces rest := by
  rw [pieces, if_neg h]

/-- The characters before the first `%` are copied. -/
theorem pieces_append {chars : List Char} (h : '%' ∉ chars) (rest : List Char) :
    pieces (chars ++ rest) = chars.map Piece.char ++ pieces rest := by
  induction chars with
  | nil => rfl
  | cons c chars ih =>
    have hc : c ≠ '%' := fun he => h (by simp [he])
    have hchars : '%' ∉ chars := fun he => h (List.mem_cons_of_mem c he)
    rw [List.cons_append, pieces_cons hc, ih hchars]
    rfl

section Loop

variable {m : Type → Type} [Monad m] [LawfulMonad m] {eval2int : List Char → m ℤ}

theorem writes_char (c : Char) (ps : List Piece) (dst : List Char) :
    (Piece.char c :: ps).foldlM (Piece.write eval2int) dst =
      ps.foldlM (Piece.write eval2int) (dst ++ [c]) := by
  rw [List.foldlM_cons, Piece.write, pure_bind]

theorem writes_chars (chars : List Char) (ps : List Piece) (dst : List Char) :
    (chars.map Piece.char ++ ps).foldlM (Piece.write eval2int) dst =
      ps.foldlM (Piece.write eval2int) (dst ++ chars) := by
  induction chars generalizing dst with
  | nil => simp
  | cons c chars ih =>
    rw [List.map_cons, List.cons_append, writes_char, ih, List.append_assoc]
    rfl

/-- In the state `ident`, the rest of the identifier is read and the value written. -/
theorem evalLabelLoop_ident (src dst ident format : List Char) :
    evalLabelLoop eval2int .ident src dst ident format =
      writeIdentValue eval2int dst format (ident ++ src.takeWhile isIdentChar) >>= fun dst =>
        evalLabelLoop eval2int .text (src.dropWhile isIdentChar) dst
          (ident ++ src.takeWhile isIdentChar) format := by
  induction src generalizing ident with
  | nil => simp [evalLabelLoop]
  | cons c src ih =>
    rw [evalLabelLoop]
    by_cases h : isIdentChar c = true
    · rw [if_pos h, ih]
      simp [h]
    · simp [h]

omit [LawfulMonad m] in
/-- In the state `format`, the digits are read; then comes an identifier, or the pattern is given
up. -/
theorem evalLabelLoop_format (src dst format : List Char) :
    evalLabelLoop eval2int .format src dst [] format =
      if (src.dropWhile isDigitChar).takeWhile isIdentChar = [] then
        evalLabelLoop eval2int .text (src.dropWhile isDigitChar)
          (dst ++ '%' :: (format ++ src.takeWhile isDigitChar)) []
          (format ++ src.takeWhile isDigitChar)
      else
        evalLabelLoop eval2int .ident (src.dropWhile isDigitChar) dst []
          (format ++ src.takeWhile isDigitChar) := by
  induction src generalizing format with
  | nil => simp [evalLabelLoop]
  | cons c src ih =>
    rw [evalLabelLoop]
    by_cases hdigit : isDigitChar c = true
    · rw [if_pos hdigit, ih]
      simp [hdigit]
    · rw [if_neg hdigit]
      by_cases hident : isIdentChar c = true
      · have hread : evalLabelLoop eval2int .ident (c :: src) dst [] format =
            evalLabelLoop eval2int .ident src dst ([] ++ [c]) format := by
          rw [evalLabelLoop, if_pos hident]
        simp [hdigit, hident, hread]
      · simp [hdigit, hident]

/-- In the state `text`, the pieces of the label are written one after another. -/
theorem evalLabelLoop_text (src dst ident format : List Char) :
    evalLabelLoop eval2int .text src dst ident format =
      (pieces src).foldlM (Piece.write eval2int) dst := by
  induction hn : src.length using Nat.strong_induction_on
    generalizing src dst ident format with
  | _ n ih =>
    subst hn
    cases src with
    | nil => simp [evalLabelLoop, pieces]
    | cons c rest =>
      by_cases hc : c = '%'
      · have hdrop := (rest.dropWhile_sublist isDigitChar).length_le
        subst hc
        rw [evalLabelLoop, if_pos rfl, evalLabelLoop_format, pieces, if_pos rfl]
        simp only [List.nil_append]
        split
        · -- no identifier: the digits are copied with the `%`
          next hident =>
          have hsplit : pieces rest = (rest.takeWhile isDigitChar).map Piece.char ++
              pieces (rest.dropWhile isDigitChar) := by
            rw [← pieces_append (percent_not_mem_digits rest), List.takeWhile_append_dropWhile]
          rw [ih _ (by simp only [List.length_cons]; omega) _ _ _ _ rfl, hsplit, writes_char,
            writes_chars, List.append_assoc]
          rfl
        · next hident =>
          have hdrop' :=
            ((rest.dropWhile isDigitChar).dropWhile_sublist isIdentChar).length_le
          rw [evalLabelLoop_ident, List.foldlM_cons, List.nil_append]
          show _ = writeIdentValue eval2int dst _ _ >>= _
          congr 1
          ext1 dst'
          exact ih _ (by simp only [List.length_cons]; omega) _ _ _ _ rfl
      · rw [evalLabelLoop, if_neg hc, pieces_cons hc, writes_char]
        exact ih _ (by simp) _ _ _ _ rfl

theorem evalLabel_eq_foldlM (label : List Char) :
    evalLabel eval2int label = (pieces label).foldlM (Piece.write eval2int) [] :=
  evalLabelLoop_text label [] [] []

end Loop

theorem writes_eq (value : List Char → ℤ) (ps : List Piece) (dst : List Char) :
    ps.foldlM (Piece.write fun ident => some (value ident)) dst =
      some (dst ++ ps.flatMap (Piece.print formatIndex value)) := by
  induction ps generalizing dst with
  | nil => simp
  | cons p ps ih =>
    have hwrite : Piece.write (fun ident => some (value ident)) dst p =
        some (dst ++ p.print formatIndex value) := by
      cases p <;> rfl
    rw [List.foldlM_cons, hwrite]
    show ps.foldlM _ (dst ++ p.print formatIndex value) = _
    rw [ih, List.flatMap_cons, List.append_assoc]

/-- `evalLabel`, when every identifier has a value. -/
theorem evalLabel_eq (value : List Char → ℤ) (label : List Char) :
    evalLabel (fun ident => some (value ident)) label =
      some (printPieces formatIndex value label) := by
  rw [evalLabel_eq_foldlM, writes_eq, List.nil_append, printPieces]

/-! ## Evaluated labels have no pattern left -/

/-- After a `%`, these characters make no pattern. -/
def Stops (chars : List Char) : Prop :=
  (chars.dropWhile isDigitChar).takeWhile isIdentChar = []

/-- No `%` starts a pattern. -/
def Quiet : List Char → Prop
  | [] => True
  | c :: rest => (c = '%' → Stops rest) ∧ Quiet rest

/-- A label without patterns is copied. -/
theorem Quiet.pieces {label : List Char} (h : Quiet label) :
    pieces label = label.map Piece.char := by
  induction label with
  | nil => rw [Faust.pieces]; rfl
  | cons c rest ih =>
    obtain ⟨hstops, hrest⟩ := h
    by_cases hc : c = '%'
    · have hstop : (rest.dropWhile isDigitChar).takeWhile isIdentChar = [] := hstops hc
      rw [Faust.pieces, if_pos hc]
      simp only [hstop, ↓reduceIte]
      rw [ih hrest]
      rfl
    · rw [pieces_cons hc, ih hrest]
      rfl

theorem Quiet.append {chars rest : List Char} (h : '%' ∉ chars) (hrest : Quiet rest) :
    Quiet (chars ++ rest) := by
  induction chars with
  | nil => exact hrest
  | cons c chars ih =>
    have hc : c ≠ '%' := fun he => h (by simp [he])
    exact ⟨fun he => absurd he hc, ih fun he => h (List.mem_cons_of_mem c he)⟩

theorem Stops.nil : Stops [] := rfl

theorem Stops.cons_digit {c : Char} {rest : List Char} (hc : isDigitChar c = true) :
    Stops (c :: rest) ↔ Stops rest := by
  simp [Stops, hc]

/-- A character that belongs to no identifier stops a pattern. -/
theorem Stops.cons {c : Char} (rest : List Char) (hc : isIdentChar c = false) :
    Stops (c :: rest) := by
  have hdigit : isDigitChar c = false := by
    by_contra h
    rw [isIdentChar_of_isDigitChar (by simpa using h)] at hc
    cases hc
  simp [Stops, hdigit, hc]

theorem Stops.append_digits {digits rest : List Char}
    (hdigits : ∀ c ∈ digits, isDigitChar c = true) (h : Stops rest) : Stops (digits ++ rest) := by
  induction digits with
  | nil => exact h
  | cons c digits ih =>
    rw [List.cons_append, Stops.cons_digit (hdigits c List.mem_cons_self)]
    exact ih fun d hd => hdigits d (List.mem_cons_of_mem c hd)

/-- What follows an identifier stops a pattern. -/
theorem stops_dropWhile_ident (src : List Char) : Stops (src.dropWhile isIdentChar) := by
  cases hd : src.dropWhile isIdentChar with
  | nil => exact Stops.nil
  | cons c after =>
    apply Stops.cons
    have hhead := List.head?_dropWhile_not isIdentChar src
    rw [hd] at hhead
    simpa using hhead

theorem isDigitChar_of_mem_toDigits {n : ℕ} {c : Char} (h : c ∈ Nat.toDigits 10 n) :
    isDigitChar c = true := by
  have hdigit := Nat.isDigit_of_mem_toDigits (by decide) (by decide) h
  simpa [Char.isDigit, isDigitChar, Char.le_def] using hdigit

/-- A printed number never starts an identifier: it is made of digits, or starts with a blank or a
minus sign. -/
theorem Stops.printInt (w : ℕ) (n : ℤ) {rest : List Char} (h : Stops rest) :
    Stops (printInt w n ++ rest) := by
  unfold Faust.printInt
  cases hw : w - (decimal n).length with
  | zero =>
    cases n with
    | ofNat n => exact append_digits (fun c hc => isDigitChar_of_mem_toDigits hc) h
    | negSucc n => exact Stops.cons _ (by decide)
  | succ w => exact Stops.cons _ (by decide)

theorem percent_not_mem_printInt (w : ℕ) (n : ℤ) : '%' ∉ printInt w n := by
  have hdigits : ∀ m : ℕ, '%' ∉ Nat.toDigits 10 m := fun m h =>
    absurd (isDigitChar_of_mem_toDigits h) (by decide)
  have hdecimal : '%' ∉ decimal n := by
    cases n with
    | ofNat n => exact hdigits n
    | negSucc n => simpa [decimal] using hdigits (n + 1)
  simpa [printInt] using hdecimal

section Print

variable {width : List Char → ℕ} {value : List Char → ℤ}

theorem printPieces_cons {c : Char} (h : c ≠ '%') (rest : List Char) :
    printPieces width value (c :: rest) = c :: printPieces width value rest := by
  rw [printPieces, pieces_cons h, List.flatMap_cons]
  rfl

/-- After a `%` that starts no pattern, the label is copied. -/
theorem printPieces_stops {rest : List Char} (h : Stops rest) :
    printPieces width value ('%' :: rest) = '%' :: printPieces width value rest := by
  have hstop : (rest.dropWhile isDigitChar).takeWhile isIdentChar = [] := h
  rw [printPieces, pieces, if_pos rfl]
  simp only [hstop, ↓reduceIte]
  rfl

/-- A pattern is replaced, and what follows it starts with no character of an identifier. -/
theorem printPieces_pattern (width : List Char → ℕ) (value : List Char → ℤ) {rest : List Char}
    (h : ¬ Stops rest) :
    ∃ w n after, after.length ≤ rest.length ∧ Stops after ∧
      printPieces width value ('%' :: rest) = printInt w n ++ printPieces width value after := by
  have h₁ := (rest.dropWhile_sublist isDigitChar).length_le
  have h₂ := ((rest.dropWhile isDigitChar).dropWhile_sublist isIdentChar).length_le
  have hident : ¬ (rest.dropWhile isDigitChar).takeWhile isIdentChar = [] := h
  refine ⟨width (rest.takeWhile isDigitChar),
    value ((rest.dropWhile isDigitChar).takeWhile isIdentChar), _, h₂.trans h₁,
    stops_dropWhile_ident _, ?_⟩
  rw [printPieces, pieces, if_pos rfl]
  simp only [hident, ↓reduceIte]
  rfl

/-- What stops a pattern still does after the values have been put in. -/
theorem Stops.printPieces {rest : List Char} (h : Stops rest) :
    Stops (printPieces width value rest) := by
  induction hn : rest.length using Nat.strong_induction_on generalizing rest with
  | _ n ih =>
    subst hn
    cases rest with
    | nil => simpa [Faust.printPieces, Faust.pieces] using h
    | cons c rest =>
      by_cases hc : c = '%'
      · subst hc
        by_cases hrest : Stops rest
        · rw [printPieces_stops hrest]
          exact Stops.cons _ (by decide)
        · -- the value of a pattern, and then what follows the pattern
          obtain ⟨w, n, after, hlen, hafter, hprint⟩ := printPieces_pattern width value hrest
          rw [hprint]
          apply Stops.printInt
          exact ih after.length (by simp only [List.length_cons]; omega) hafter rfl
      · rw [printPieces_cons hc]
        by_cases hdigit : isDigitChar c = true
        · rw [Stops.cons_digit hdigit] at h ⊢
          exact ih rest.length (by simp) h rfl
        · apply Stops.cons
          simpa [Stops, hdigit] using h

/-- With the values put in, no pattern is left. -/
theorem quiet_printPieces (label : List Char) : Quiet (printPieces width value label) := by
  induction hn : label.length using Nat.strong_induction_on generalizing label with
  | _ n ih =>
    subst hn
    cases label with
    | nil => simp [printPieces, pieces, Quiet]
    | cons c rest =>
      by_cases hc : c = '%'
      · subst hc
        by_cases hrest : Stops rest
        · rw [printPieces_stops hrest]
          exact ⟨fun _ => hrest.printPieces, ih rest.length (by simp) rest rfl⟩
        · obtain ⟨w, n, after, hlen, _, hprint⟩ := printPieces_pattern width value hrest
          rw [hprint]
          apply Quiet.append (percent_not_mem_printInt w n)
          exact ih after.length (by simp only [List.length_cons]; omega) after rfl
      · rw [printPieces_cons hc]
        exact ⟨fun he => absurd he hc, ih rest.length (by simp) rest rfl⟩

end Print

/-- A label without patterns is returned unchanged by every environment. -/
theorem Quiet.evalLabel {m : Type → Type} [Monad m] [LawfulMonad m] {label : List Char}
    (h : Quiet label) (eval2int : List Char → m ℤ) : evalLabel eval2int label = pure label := by
  rw [evalLabel_eq_foldlM, h.pieces, ← List.append_nil (label.map Piece.char), writes_chars]
  rfl

/-! ## Widths -/

/-- The width of the chosen format is at most the width asked for. -/
theorem formatIndex_le (format : List Char) : formatIndex format ≤ minimalWidth format := by
  unfold formatIndex minimalWidth
  by_cases h : digitsValue format < 4
  · have hatoi : atoi format = digitsValue format := by
      unfold atoi
      rw [min_eq_left (by omega)]
      exact wrap32_of_isInt32 (by unfold IsInt32; omega)
    rw [hatoi, Int.toNat_natCast]
  · omega

theorem length_printInt (w : ℕ) (n : ℤ) : (printInt w n).length = max w (decimal n).length := by
  simp only [printInt, List.length_append, List.length_replicate]
  omega

theorem printInt_eq_iff {v w : ℕ} (n : ℤ) (h : v ≤ w) :
    printInt v n = printInt w n ↔ w ≤ max v (decimal n).length := by
  constructor
  · intro heq
    have hlen := congrArg List.length heq
    rw [length_printInt, length_printInt] at hlen
    omega
  · intro hw
    have hblanks : v - (decimal n).length = w - (decimal n).length := by omega
    rw [printInt, printInt, hblanks]

/-- The texts of a piece in the two widths. -/
theorem Piece.print_le (value : List Char → ℤ) (p : Piece) :
    (p.print formatIndex value).length ≤ (p.print minimalWidth value).length := by
  cases p with
  | char c => exact le_rfl
  | pattern format ident =>
    have hle := formatIndex_le format
    simp only [Piece.print, length_printInt]
    omega

theorem Piece.print_eq_iff (value : List Char → ℤ) (p : Piece) :
    p.print formatIndex value = p.print minimalWidth value ↔
      ∀ format ident, p = .pattern format ident → WidthKept format (value ident) := by
  cases p with
  | char c => simp [Piece.print]
  | pattern format ident =>
    have hiff := printInt_eq_iff (value ident) (formatIndex_le format)
    constructor
    · rintro heq _ _ ⟨⟩
      exact hiff.1 heq
    · intro h
      exact hiff.2 (h format ident rfl)

/-- Texts put one after another agree only where each of them does, when those of one side are
never longer. -/
theorem flatMap_eq_iff {f g : Piece → List Char} (hle : ∀ p, (f p).length ≤ (g p).length)
    (ps : List Piece) : ps.flatMap f = ps.flatMap g ↔ ∀ p ∈ ps, f p = g p := by
  constructor
  · intro h
    induction ps with
    | nil => simp
    | cons p ps ih =>
      have hlen : (ps.flatMap f).length ≤ (ps.flatMap g).length := by
        rw [List.length_flatMap, List.length_flatMap]
        exact List.sum_le_sum fun q _ => hle q
      have hsum := congrArg List.length h
      rw [List.flatMap_cons, List.flatMap_cons, List.length_append, List.length_append] at hsum
      have hp := hle p
      rw [List.flatMap_cons, List.flatMap_cons] at h
      obtain ⟨hhead, htail⟩ := List.append_inj h (by omega)
      exact List.forall_mem_cons.2 ⟨hhead, ih htail⟩
  · intro h
    exact List.flatMap_congr h

/-- `evalLabel` is exact exactly when no width is lost: `atoi` turns the width of a pattern into
one with the same effect on the number printed. -/
theorem evalLabelExact_iff (value : List Char → ℤ) (label : List Char) :
    EvalLabelExact value label ↔
      ∀ format ident, .pattern format ident ∈ pieces label →
        WidthKept format (value ident) := by
  have hfirst : evalLabel (fun ident => some (value ident)) label =
        some (interpolate value label) ↔
      ∀ p ∈ pieces label, p.print formatIndex value = p.print minimalWidth value := by
    rw [evalLabel_eq, Option.some_inj]
    exact flatMap_eq_iff (Piece.print_le value) _
  have hsecond : ∀ eval2int,
      evalLabel eval2int (interpolate value label) = some (interpolate value label) :=
    (quiet_printPieces label).evalLabel
  unfold EvalLabelExact
  rw [hfirst]
  constructor
  · rintro ⟨h, _⟩ format ident hmem
    exact (Piece.print_eq_iff value _).1 (h _ hmem) format ident rfl
  · intro h
    refine ⟨fun p hp => (Piece.print_eq_iff value p).2 ?_, hsecond⟩
    rintro format ident rfl
    exact h format ident hp

/-- The width 2^32 is turned into 0 by `atoi`. -/
theorem not_evalLabelExact_wideWidth :
    ¬ EvalLabelExact (fun _ => 7) ("%4294967296i".toList) := by
  rintro ⟨h, _⟩
  have hpieces : pieces "%4294967296i".toList = [.pattern "4294967296".toList ['i']] := by
    simp [pieces, isDigitChar, isIdentChar]
  rw [evalLabel_eq, Option.some_inj, interpolate, printPieces, printPieces, hpieces] at h
  exact absurd h (by decide)

end Faust
