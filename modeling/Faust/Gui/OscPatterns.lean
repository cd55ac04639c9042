import Mathlib.Data.List.Basic
import Mathlib.Tactic.Common
import Faust.Lib.Spans

/-!
# OSC patterns (`OSCRegexp.cpp`)

A component of an OSC address is a pattern. `OSCRe2Re` translates it, character by character, into
an expression for the library of regular expressions. The characters that mean nothing in OSC but
something in an expression are copied as they are, so the translation is faithful for plain
patterns only.
-/

namespace Faust.Osc

/-- A text. -/
abbrev Text := List Char

/-- The loop of `OSCRe2Re`. -/
def oscRe2ReFrom (inlist : Bool) : Text → Text
  | [] => []
  | c :: re =>
    if c = '\x7b' then '(' :: oscRe2ReFrom true re
    else if c = ',' then (if inlist then '|' else ',') :: oscRe2ReFrom inlist re
    else if c = '\x7d' then ')' :: oscRe2ReFrom false re
    else if c = '*' then '.' :: '*' :: oscRe2ReFrom inlist re
    else if c = '?' then '.' :: oscRe2ReFrom inlist re
    else c :: oscRe2ReFrom inlist re

/-- `OSCRe2Re`. -/
def oscRe2Re (re : Text) : Text := oscRe2ReFrom false re

/-! ## The rules of OSC -/

/-- The characters of a class: a character, or a range. -/
def InClass : Text → Char → Prop
  | a :: '-' :: b :: cs, d => (a ≤ d ∧ d ≤ b) ∨ InClass cs d
  | c :: cs, d => d = c ∨ InClass cs d
  | [], _ => False

/-- A character that stands for itself before the rest of a pattern. -/
def Stands (c : Char) (p : Text) : Prop :=
  c ≠ '?' ∧ c ≠ '*' ∧ (c = '[' → ']' ∉ p) ∧ (c = '\x7b' → '\x7d' ∉ p)

/-- A component of an address matches a label. -/
inductive OscMatch : Text → Text → Prop
  | nil : OscMatch [] []
  | any {p l : Text} (d : Char) (h : OscMatch p l) : OscMatch ('?' :: p) (d :: l)
  | star {p l : Text} (x : Text) (h : OscMatch p l) : OscMatch ('*' :: p) (x ++ l)
  | inClass {cs p l : Text} {d : Char} (hcs : ']' ∉ cs) (hnot : cs.head? ≠ some '!')
      (hd : InClass cs d) (h : OscMatch p l) : OscMatch ('[' :: (cs ++ ']' :: p)) (d :: l)
  | notInClass {cs p l : Text} {d : Char} (hcs : ']' ∉ cs) (hd : ¬ InClass cs d)
      (h : OscMatch p l) : OscMatch ('[' :: '!' :: (cs ++ ']' :: p)) (d :: l)
  | alternative {s p l x : Text} (hs : '\x7d' ∉ s) (hx : x ∈ s.splitOn ',') (h : OscMatch p l) :
      OscMatch ('\x7b' :: (s ++ '\x7d' :: p)) (x ++ l)
  | char {c : Char} {p l : Text} (hc : Stands c p) (h : OscMatch p l) : OscMatch (c :: p) (c :: l)

/-! ## Plain patterns -/

/-- A part of a class. -/
inductive ClassItem
  | single (c : Char)
  | range (a b : Char)

/-- A part of a plain pattern. -/
inductive Piece
  | char (c : Char)
  | any
  | star
  | charClass (items : List ClassItem)
  | alternatives (ss : List Text)

/-- The characters with a meaning in OSC or in expressions; 92 is the backslash. -/
def specials : List Char :=
  ['?', '*', '[', ']', '\x7b', '\x7d', '.', '+', '(', ')', '|', '^', '$', Char.ofNat 92]

/-- A character that a class can hold. -/
def ClassChar (c : Char) : Prop := c ∉ specials ∧ c ≠ '-' ∧ c ≠ '!'

/-- A part of a plain class. -/
def ClassItem.Plain : ClassItem → Prop
  | single c => ClassChar c
  | range a b => ClassChar a ∧ ClassChar b ∧ a ≤ b

/-- A plain part: its characters have no other meaning in an expression than in OSC. -/
def Piece.Plain : Piece → Prop
  | char c => c ∉ specials
  | any => True
  | star => True
  | charClass items => items ≠ [] ∧ ∀ i ∈ items, i.Plain
  | alternatives ss => ss ≠ [] ∧ ∀ s ∈ ss, s ≠ [] ∧ ∀ c ∈ s, c ∉ specials ∧ c ≠ ','

/-- The text of a part of a class. -/
def ClassItem.text : ClassItem → Text
  | single c => [c]
  | range a b => [a, '-', b]

/-- The text of a part, in OSC. -/
def Piece.oscText : Piece → Text
  | char c => [c]
  | any => ['?']
  | star => ['*']
  | charClass items => '[' :: (items.flatMap ClassItem.text ++ [']'])
  | alternatives ss => '\x7b' :: ([','].intercalate ss ++ ['\x7d'])

/-- The text of a part, in an expression. -/
def Piece.reText : Piece → Text
  | char c => [c]
  | any => ['.']
  | star => ['.', '*']
  | charClass items => '[' :: (items.flatMap ClassItem.text ++ [']'])
  | alternatives ss => '(' :: (['|'].intercalate ss ++ [')'])

/-- A character is in a part of a class. -/
def ClassItem.Has (d : Char) : ClassItem → Prop
  | single c => d = c
  | range a b => a ≤ d ∧ d ≤ b

/-- The language of a part. -/
def Piece.Matches : Piece → Text → Prop
  | char c, x => x = [c]
  | any, x => ∃ d, x = [d]
  | star, _ => True
  | charClass items, x => ∃ d, x = [d] ∧ ∃ i ∈ items, i.Has d
  | alternatives ss, x => x ∈ ss

/-- The language of a sequence of parts. -/
def Lang : List Piece → Text → Prop
  | [], l => l = []
  | p :: ps, l => ∃ x l', l = x ++ l' ∧ p.Matches x ∧ Lang ps l'

/-- What is relied on of the library: on the expressions of plain patterns `matchExact` is their
language, for subjects of one line. -/
def RegexpLibrary (matchExact : Text → Text → Bool) : Prop :=
  ∀ ps : List Piece, (∀ p ∈ ps, p.Plain) → ∀ l : Text, '\n' ∉ l →
    (matchExact (ps.flatMap Piece.reText) l = true ↔ Lang ps l)

/-! ## The translation of plain patterns -/

variable {s rest p l : Text} {c d : Char}

theorem oscRe2ReFrom_append (hs : ∀ c ∈ s, c ∉ specials ∧ c ≠ ',') (inlist : Bool) (rest : Text) :
    oscRe2ReFrom inlist (s ++ rest) = s ++ oscRe2ReFrom inlist rest := by
  induction s with
  | nil => rfl
  | cons c s ih =>
    obtain ⟨hc, hcomma⟩ := hs c List.mem_cons_self
    simp only [specials, List.mem_cons, List.not_mem_nil, or_false, not_or] at hc
    rw [List.cons_append, oscRe2ReFrom, if_neg hc.2.2.2.2.1, if_neg hcomma,
      if_neg hc.2.2.2.2.2.1, if_neg hc.2.1, if_neg hc.1,
      ih fun e he => hs e (List.mem_cons_of_mem _ he)]
    rfl

/-- Outside of a list a comma is copied. -/
theorem oscRe2ReFrom_false_append (hs : ∀ c ∈ s, c ∉ specials) (rest : Text) :
    oscRe2ReFrom false (s ++ rest) = s ++ oscRe2ReFrom false rest := by
  induction s with
  | nil => rfl
  | cons c s ih =>
    have hrest := ih fun e he => hs e (List.mem_cons_of_mem _ he)
    have hc := hs c List.mem_cons_self
    by_cases hcomma : c = ','
    · subst hcomma
      show ',' :: oscRe2ReFrom false (s ++ rest) = _
      rw [hrest]
      rfl
    · have hone := oscRe2ReFrom_append (s := [c]) (by simpa using ⟨hc, hcomma⟩) false (s ++ rest)
      show oscRe2ReFrom false ([c] ++ (s ++ rest)) = _
      rw [hone, hrest]
      rfl

theorem oscRe2ReFrom_alternatives {ss : List Text}
    (hss : ∀ s ∈ ss, ∀ c ∈ s, c ∉ specials ∧ c ≠ ',') (rest : Text) :
    oscRe2ReFrom true ([','].intercalate ss ++ '\x7d' :: rest) =
      ['|'].intercalate ss ++ ')' :: oscRe2ReFrom false rest := by
  induction ss with
  | nil => rfl
  | cons s ss ih =>
    have hs := hss s List.mem_cons_self
    have hrest := ih fun t ht => hss t (List.mem_cons_of_mem _ ht)
    cases ss with
    | nil =>
      rw [List.intercalate_singleton, List.intercalate_singleton, oscRe2ReFrom_append hs]
      rfl
    | cons t ss =>
      rw [List.intercalate_cons_cons, List.intercalate_cons_cons, List.append_assoc,
        List.append_assoc, oscRe2ReFrom_append hs, List.append_assoc, List.append_assoc]
      show s ++ '|' :: oscRe2ReFrom true ([','].intercalate (t :: ss) ++ '\x7d' :: rest) = _
      rw [hrest]
      rfl

theorem ClassItem.Plain.chars {i : ClassItem} (h : i.Plain) : ∀ c ∈ i.text, c ∉ specials := by
  intro c hc
  cases i with
  | single a =>
    rw [List.mem_singleton.mp hc]
    exact h.1
  | range a b =>
    simp only [ClassItem.text, List.mem_cons, List.not_mem_nil, or_false] at hc
    rcases hc with rfl | rfl | rfl
    · exact h.1.1
    · decide
    · exact h.2.1.1

theorem classText_chars {items : List ClassItem} (h : ∀ i ∈ items, i.Plain) :
    ∀ c ∈ items.flatMap ClassItem.text, c ∉ specials := by
  intro c hc
  obtain ⟨i, hi, hc⟩ := List.mem_flatMap.mp hc
  exact (h i hi).chars c hc

/-- A plain part is translated into the expression of the same language. -/
theorem Piece.Plain.oscRe2ReFrom {q : Piece} (h : q.Plain) (rest : Text) :
    oscRe2ReFrom false (q.oscText ++ rest) = q.reText ++ Osc.oscRe2ReFrom false rest := by
  cases q with
  | char c =>
    refine oscRe2ReFrom_false_append (s := [c]) (fun e he => ?_) rest
    rw [List.mem_singleton.mp he]
    exact h
  | any => rfl
  | star => rfl
  | charClass items =>
    have hchars := classText_chars h.2
    show '[' :: Osc.oscRe2ReFrom false (items.flatMap ClassItem.text ++ [']'] ++ rest) = _
    rw [List.append_assoc, oscRe2ReFrom_false_append hchars]
    show _ = '[' :: (items.flatMap ClassItem.text ++ [']'] ++ _)
    rw [List.append_assoc]
    rfl
  | alternatives ss =>
    have htrans := oscRe2ReFrom_alternatives (fun s hs => (h.2 s hs).2) rest
    show '(' :: Osc.oscRe2ReFrom true ([','].intercalate ss ++ ['\x7d'] ++ rest) = _
    rw [List.append_assoc]
    show '(' :: Osc.oscRe2ReFrom true ([','].intercalate ss ++ '\x7d' :: rest) = _
    rw [htrans]
    show _ = '(' :: (['|'].intercalate ss ++ [')'] ++ _)
    rw [List.append_assoc]
    rfl

theorem oscRe2Re_plain {ps : List Piece} (h : ∀ p ∈ ps, p.Plain) :
    oscRe2Re (ps.flatMap Piece.oscText) = ps.flatMap Piece.reText := by
  induction ps with
  | nil => rfl
  | cons q ps ih =>
    have hq := (h q List.mem_cons_self).oscRe2ReFrom (ps.flatMap Piece.oscText)
    have hrest := ih fun p hp => h p (List.mem_cons_of_mem _ hp)
    show Osc.oscRe2ReFrom false (q.oscText ++ ps.flatMap Piece.oscText) = _
    rw [hq]
    show q.reText ++ oscRe2Re _ = _
    rw [hrest]
    rfl

/-! ## The language of plain patterns -/

/-- A text is split at the first place where a character is found. -/
theorem split_unique {s s' p p' : Text} (hs : c ∉ s) (hs' : c ∉ s')
    (heq : s ++ c :: p = s' ++ c :: p') : s = s' ∧ p = p' := by
  have span : ∀ {s p : Text}, c ∉ s → IsSpan (· != c) s (c :: p) := by
    intro s p hs
    refine ⟨fun d hd => ?_, fun d hd => ?_⟩
    · have hne : d ≠ c := fun h => hs (h ▸ hd)
      simpa using hne
    · cases hd
      simp
  obtain ⟨hleft, hright⟩ := (span hs).unique (span hs') heq
  exact ⟨hleft, (List.cons.inj hright).2⟩

/-- The rule that a pattern matches by, for each first character. -/
theorem OscMatch.cons_inv {q : Text} (h : OscMatch q l) (hq : q = c :: p) :
    (c = '?' ∧ ∃ d l', l = d :: l' ∧ OscMatch p l') ∨
    (c = '*' ∧ ∃ x l', l = x ++ l' ∧ OscMatch p l') ∨
    (c = '[' ∧ ∃ cs p' d l', l = d :: l' ∧ p = cs ++ ']' :: p' ∧ ']' ∉ cs ∧
      cs.head? ≠ some '!' ∧ InClass cs d ∧ OscMatch p' l') ∨
    (c = '[' ∧ ∃ cs p', p = '!' :: (cs ++ ']' :: p')) ∨
    (c = '\x7b' ∧ ∃ s p' x l', l = x ++ l' ∧ p = s ++ '\x7d' :: p' ∧ '\x7d' ∉ s ∧
      x ∈ s.splitOn ',' ∧ OscMatch p' l') ∨
    (Stands c p ∧ ∃ l', l = c :: l' ∧ OscMatch p l') := by
  cases h with
  | nil => cases hq
  | any d h =>
    obtain ⟨rfl, rfl⟩ := List.cons.inj hq
    exact Or.inl ⟨rfl, d, _, rfl, h⟩
  | star x h =>
    obtain ⟨rfl, rfl⟩ := List.cons.inj hq
    exact Or.inr (Or.inl ⟨rfl, x, _, rfl, h⟩)
  | inClass hcs hnot hd h =>
    obtain ⟨rfl, rfl⟩ := List.cons.inj hq
    exact Or.inr (Or.inr (Or.inl ⟨rfl, _, _, _, _, rfl, rfl, hcs, hnot, hd, h⟩))
  | notInClass hcs hd h =>
    obtain ⟨rfl, rfl⟩ := List.cons.inj hq
    exact Or.inr (Or.inr (Or.inr (Or.inl ⟨rfl, _, _, rfl⟩)))
  | alternative hs hx h =>
    obtain ⟨rfl, rfl⟩ := List.cons.inj hq
    exact Or.inr (Or.inr (Or.inr (Or.inr (Or.inl ⟨rfl, _, _, _, _, rfl, rfl, hs, hx, h⟩))))
  | char hc h =>
    obtain ⟨rfl, rfl⟩ := List.cons.inj hq
    exact Or.inr (Or.inr (Or.inr (Or.inr (Or.inr ⟨hc, _, rfl, h⟩))))

/-- The text of a plain class starts with a character of a class. -/
theorem classText_head {items : List ClassItem} (h : ∀ i ∈ items, i.Plain) (c : Char)
    (hc : (items.flatMap ClassItem.text).head? = some c) : ClassChar c := by
  cases items with
  | nil => cases hc
  | cons i items =>
    have hi := h i List.mem_cons_self
    cases i with
    | single a =>
      cases hc
      exact hi
    | range a b =>
      cases hc
      exact hi.1

theorem inClass_cons {cs : Text} (h : cs.head? ≠ some '-') :
    InClass (c :: cs) d ↔ d = c ∨ InClass cs d := by
  rw [InClass]
  intro b cs' heq
  rw [heq] at h
  exact h rfl

/-- The characters of a plain class are those of its parts. -/
theorem inClass_items {items : List ClassItem} (h : ∀ i ∈ items, i.Plain) :
    InClass (items.flatMap ClassItem.text) d ↔ ∃ i ∈ items, i.Has d := by
  induction items with
  | nil => simp [InClass]
  | cons i items ih =>
    have hplain : ∀ j ∈ items, j.Plain := fun j hj => h j (List.mem_cons_of_mem _ hj)
    have hrest := ih hplain
    cases i with
    | range a b =>
      show (a ≤ d ∧ d ≤ b) ∨ InClass (items.flatMap ClassItem.text) d ↔ _
      rw [hrest]
      simp [ClassItem.Has]
    | single a =>
      show InClass (a :: items.flatMap ClassItem.text) d ↔ _
      rw [inClass_cons fun hhead => (classText_head hplain _ hhead).2.1 rfl, hrest]
      simp [ClassItem.Has]

theorem bracket_special : ']' ∈ specials := by decide

theorem brace_special : '\x7d' ∈ specials := by decide

/-- A character that is not special stands for itself only. -/
theorem oscMatch_char (hc : c ∉ specials) :
    OscMatch (c :: p) l ↔ ∃ l', l = c :: l' ∧ OscMatch p l' := by
  simp only [specials, List.mem_cons, List.not_mem_nil, or_false, not_or] at hc
  constructor
  · intro h
    rcases h.cons_inv rfl with ⟨rfl, -⟩ | ⟨rfl, -⟩ | ⟨rfl, -⟩ | ⟨rfl, -⟩ | ⟨rfl, -⟩ | ⟨-, h⟩
    · exact absurd rfl hc.1
    · exact absurd rfl hc.2.1
    · exact absurd rfl hc.2.2.1
    · exact absurd rfl hc.2.2.1
    · exact absurd rfl hc.2.2.2.2.1
    · exact h
  · rintro ⟨l', rfl, h⟩
    exact .char ⟨hc.1, hc.2.1, fun h => absurd h hc.2.2.1, fun h => absurd h hc.2.2.2.2.1⟩ h

theorem oscMatch_any : OscMatch ('?' :: p) l ↔ ∃ d l', l = d :: l' ∧ OscMatch p l' := by
  constructor
  · intro h
    rcases h.cons_inv rfl with ⟨-, h⟩ | ⟨hc, -⟩ | ⟨hc, -⟩ | ⟨hc, -⟩ | ⟨hc, -⟩ | ⟨hc, -⟩
    · exact h
    · exact absurd hc (by decide)
    · exact absurd hc (by decide)
    · exact absurd hc (by decide)
    · exact absurd hc (by decide)
    · exact absurd rfl hc.1
  · rintro ⟨d, l', rfl, h⟩
    exact .any d h

theorem oscMatch_star : OscMatch ('*' :: p) l ↔ ∃ x l', l = x ++ l' ∧ OscMatch p l' := by
  constructor
  · intro h
    rcases h.cons_inv rfl with ⟨hc, -⟩ | ⟨-, h⟩ | ⟨hc, -⟩ | ⟨hc, -⟩ | ⟨hc, -⟩ | ⟨hc, -⟩
    · exact absurd hc (by decide)
    · exact h
    · exact absurd hc (by decide)
    · exact absurd hc (by decide)
    · exact absurd hc (by decide)
    · exact absurd rfl hc.2.1
  · rintro ⟨x, l', rfl, h⟩
    exact .star x h

theorem oscMatch_class {cs : Text} (hcs : ']' ∉ cs) (hnot : cs.head? ≠ some '!') (hne : cs ≠ []) :
    OscMatch ('[' :: (cs ++ ']' :: p)) l ↔ ∃ d l', l = d :: l' ∧ InClass cs d ∧ OscMatch p l' := by
  constructor
  · intro h
    rcases h.cons_inv rfl with ⟨hc, -⟩ | ⟨hc, -⟩ | ⟨-, cs', p', d, l', hl, heq, hcs', -, hd, h⟩ |
      ⟨-, cs', p', heq⟩ | ⟨hc, -⟩ | ⟨hc, -⟩
    · exact absurd hc (by decide)
    · exact absurd hc (by decide)
    · obtain ⟨rfl, rfl⟩ := split_unique hcs hcs' heq
      exact ⟨d, l', hl, hd, h⟩
    · cases cs with
      | nil => exact absurd rfl hne
      | cons a cs => exact absurd (congrArg some (List.cons.inj heq).1) hnot
    · exact absurd hc (by decide)
    · exact absurd (List.mem_append_right _ List.mem_cons_self) (hc.2.2.1 rfl)
  · rintro ⟨d, l', rfl, hd, h⟩
    exact .inClass hcs hnot hd h

theorem oscMatch_alternatives {s : Text} (hs : '\x7d' ∉ s) :
    OscMatch ('\x7b' :: (s ++ '\x7d' :: p)) l ↔
      ∃ x l', l = x ++ l' ∧ x ∈ s.splitOn ',' ∧ OscMatch p l' := by
  constructor
  · intro h
    rcases h.cons_inv rfl with ⟨hc, -⟩ | ⟨hc, -⟩ | ⟨hc, -⟩ | ⟨hc, -⟩ |
      ⟨-, s', p', x, l', hl, heq, hs', hx, h⟩ | ⟨hc, -⟩
    · exact absurd hc (by decide)
    · exact absurd hc (by decide)
    · exact absurd hc (by decide)
    · exact absurd hc (by decide)
    · obtain ⟨rfl, rfl⟩ := split_unique hs hs' heq
      exact ⟨x, l', hl, hx, h⟩
    · exact absurd (List.mem_append_right _ List.mem_cons_self) (hc.2.2.2 rfl)
  · rintro ⟨x, l', rfl, hx, h⟩
    exact .alternative hs hx h

theorem mem_intercalate_chars {ss : List Text} {P : Char → Prop} {a : Char} (ha : P a)
    (hss : ∀ s ∈ ss, ∀ c ∈ s, P c) : ∀ c ∈ [a].intercalate ss, P c := by
  induction ss with
  | nil => simp
  | cons s ss ih =>
    have hrest := ih fun t ht => hss t (List.mem_cons_of_mem _ ht)
    cases ss with
    | nil =>
      rw [List.intercalate_singleton]
      exact hss s List.mem_cons_self
    | cons t ss =>
      rw [List.intercalate_cons_cons]
      intro c hc
      simp only [List.append_assoc, List.mem_append, List.mem_singleton] at hc
      rcases hc with hc | rfl | hc
      · exact hss s List.mem_cons_self c hc
      · exact ha
      · exact hrest c hc

/-- A plain pattern matches its language. -/
theorem oscMatch_plain {ps : List Piece} (h : ∀ p ∈ ps, p.Plain) (l : Text) :
    OscMatch (ps.flatMap Piece.oscText) l ↔ Lang ps l := by
  induction ps generalizing l with
  | nil =>
    constructor
    · intro hm
      cases hm
      rfl
    · rintro rfl
      exact .nil
  | cons q ps ih =>
    have hrest := ih fun p hp => h p (List.mem_cons_of_mem _ hp)
    have hq := h q List.mem_cons_self
    rw [List.flatMap_cons]
    cases q with
    | char c =>
      show OscMatch (c :: ps.flatMap Piece.oscText) l ↔ _
      rw [oscMatch_char hq]
      simp only [Lang, Piece.Matches, hrest]
      exact ⟨fun ⟨l', hl, hm⟩ => ⟨[c], l', hl, rfl, hm⟩,
        fun ⟨x, l', hl, hx, hm⟩ => ⟨l', by rw [hl, hx]; rfl, hm⟩⟩
    | any =>
      show OscMatch ('?' :: ps.flatMap Piece.oscText) l ↔ _
      rw [oscMatch_any]
      simp only [Lang, Piece.Matches, hrest]
      exact ⟨fun ⟨d, l', hl, hm⟩ => ⟨[d], l', hl, ⟨d, rfl⟩, hm⟩,
        fun ⟨x, l', hl, ⟨d, hx⟩, hm⟩ => ⟨d, l', by rw [hl, hx]; rfl, hm⟩⟩
    | star =>
      show OscMatch ('*' :: ps.flatMap Piece.oscText) l ↔ _
      rw [oscMatch_star]
      simp only [Lang, Piece.Matches, hrest, true_and]
    | charClass items =>
      have hchars := classText_chars hq.2
      have hbracket : ']' ∉ items.flatMap ClassItem.text :=
        fun hmem => hchars _ hmem bracket_special
      have hne : items.flatMap ClassItem.text ≠ [] := by
        cases items with
        | nil => exact absurd rfl hq.1
        | cons i items => cases i <;> simp [ClassItem.text]
      show OscMatch ('[' :: (items.flatMap ClassItem.text ++ [']'] ++ _)) l ↔ _
      rw [List.append_assoc]
      show OscMatch
        ('[' :: (items.flatMap ClassItem.text ++ ']' :: ps.flatMap Piece.oscText)) l ↔ _
      rw [oscMatch_class hbracket (fun hhead => (classText_head hq.2 _ hhead).2.2 rfl) hne]
      simp only [Lang, Piece.Matches, hrest, inClass_items hq.2]
      exact ⟨fun ⟨d, l', hl, hd, hm⟩ => ⟨[d], l', hl, ⟨d, rfl, hd⟩, hm⟩,
        fun ⟨x, l', hl, ⟨d, hx, hd⟩, hm⟩ => ⟨d, l', by rw [hl, hx]; rfl, hd, hm⟩⟩
    | alternatives ss =>
      have hplain : ∀ s ∈ ss, ∀ c ∈ s, c ≠ '\x7d' := by
        rintro s hs c hc rfl
        exact ((hq.2 s hs).2 _ hc).1 brace_special
      have hbrace : '\x7d' ∉ [','].intercalate ss := fun hmem =>
        mem_intercalate_chars (P := (· ≠ '\x7d')) (by decide) hplain _ hmem rfl
      have hsplit : ([','].intercalate ss).splitOn ',' = ss :=
        List.splitOn_intercalate ',' (fun s hs hmem => ((hq.2 s hs).2 _ hmem).2 rfl) hq.1
      show OscMatch ('\x7b' :: ([','].intercalate ss ++ ['\x7d'] ++ _)) l ↔ _
      rw [List.append_assoc]
      show OscMatch
        ('\x7b' :: ([','].intercalate ss ++ '\x7d' :: ps.flatMap Piece.oscText)) l ↔ _
      rw [oscMatch_alternatives hbrace, hsplit]
      simp only [Lang, Piece.Matches, hrest]

/-- A library matches a plain pattern as OSC does. -/
theorem RegexpLibrary.matches_iff {matchExact : Text → Text → Bool} (h : RegexpLibrary matchExact)
    {ps : List Piece} (hps : ∀ p ∈ ps, p.Plain) (hl : '\n' ∉ l) :
    matchExact (oscRe2Re (ps.flatMap Piece.oscText)) l = true ↔
      OscMatch (ps.flatMap Piece.oscText) l := by
  rw [oscRe2Re_plain hps, h ps hps l hl, oscMatch_plain hps]

/-! ## A library for plain expressions -/

/-- The parts of the text of a class. -/
def classItems : Text → List ClassItem
  | a :: '-' :: b :: cs => .range a b :: classItems cs
  | c :: cs => .single c :: classItems cs
  | [] => []

/-- The parts of a plain expression. -/
def reParts : ℕ → Text → List Piece
  | 0, _ => []
  | _, [] => []
  | k + 1, '.' :: '*' :: r => .star :: reParts k r
  | k + 1, '.' :: r => .any :: reParts k r
  | k + 1, '[' :: r =>
    .charClass (classItems (r.takeWhile (· != ']'))) ::
      reParts k (r.dropWhile (· != ']')).tail
  | k + 1, '(' :: r =>
    .alternatives ((r.takeWhile (· != ')')).splitOn '|') ::
      reParts k (r.dropWhile (· != ')')).tail
  | k + 1, c :: r => .char c :: reParts k r

/-- `ClassItem.Has`, decided. -/
def ClassItem.has (d : Char) : ClassItem → Bool
  | single c => d = c
  | range a b => a ≤ d && d ≤ b

/-- `Piece.Matches`, decided. -/
def Piece.matches : Piece → Text → Bool
  | char c, x => x = [c]
  | any, x => x.length = 1
  | star, _ => true
  | charClass items, [d] => items.any (·.has d)
  | charClass _, _ => false
  | alternatives ss, x => x ∈ ss

/-- `Lang`, decided. -/
def langMatch : List Piece → Text → Bool
  | [], l => l = []
  | q :: ps, l =>
    (List.range (l.length + 1)).any fun k => q.matches (l.take k) && langMatch ps (l.drop k)

/-- `MatchExact` on plain expressions. -/
def matchPlain (re l : Text) : Bool := langMatch (reParts re.length re) l

theorem Piece.matches_iff (q : Piece) (x : Text) : q.matches x = true ↔ q.Matches x := by
  cases q with
  | char c => simp [Piece.matches, Piece.Matches]
  | any => simp [Piece.matches, Piece.Matches, List.length_eq_one_iff]
  | star => simp [Piece.matches, Piece.Matches]
  | alternatives ss => simp [Piece.matches, Piece.Matches]
  | charClass items =>
    have hhas : ∀ (d : Char) (i : ClassItem), i.has d = true ↔ i.Has d := fun d i => by
      cases i <;> simp [ClassItem.has, ClassItem.Has]
    rcases x with _ | ⟨d, _ | ⟨e, x⟩⟩
    · simp [Piece.matches, Piece.Matches]
    · simp [Piece.matches, Piece.Matches, hhas]
    · simp [Piece.matches, Piece.Matches]

theorem langMatch_iff (ps : List Piece) (l : Text) : langMatch ps l = true ↔ Lang ps l := by
  induction ps generalizing l with
  | nil => simp [langMatch, Lang]
  | cons q ps ih =>
    simp only [langMatch, Lang, List.any_eq_true, List.mem_range, Bool.and_eq_true,
      Piece.matches_iff, ih]
    constructor
    · rintro ⟨k, -, hq, hps⟩
      exact ⟨l.take k, l.drop k, (List.take_append_drop k l).symm, hq, hps⟩
    · rintro ⟨x, l', rfl, hq, hps⟩
      refine ⟨x.length, by rw [List.length_append]; omega, ?_, ?_⟩
      · rwa [List.take_left]
      · rwa [List.drop_left]

theorem classItems_text {items : List ClassItem} (h : ∀ i ∈ items, i.Plain) :
    classItems (items.flatMap ClassItem.text) = items := by
  induction items with
  | nil => rfl
  | cons i items ih =>
    have hplain : ∀ j ∈ items, j.Plain := fun j hj => h j (List.mem_cons_of_mem _ hj)
    cases i with
    | range a b =>
      show ClassItem.range a b :: classItems (items.flatMap ClassItem.text) = _
      rw [ih hplain]
    | single a =>
      show classItems (a :: items.flatMap ClassItem.text) = _
      rw [classItems, ih hplain]
      intro b cs heq
      exact (classText_head hplain '-' (by rw [heq]; rfl)).2.1 rfl

theorem span_split {s p : Text} (hs : c ∉ s) :
    (s ++ c :: p).takeWhile (· != c) = s ∧ (s ++ c :: p).dropWhile (· != c) = c :: p := by
  induction s with
  | nil => simp
  | cons d s ih =>
    have hd : d ≠ c := fun h => hs (h ▸ List.mem_cons_self)
    have hrest := ih fun h => hs (List.mem_cons_of_mem _ h)
    simp [hd, hrest]

/-- The expression of a plain pattern does not start with a star. -/
theorem reText_head {ps : List Piece} (h : ∀ p ∈ ps, p.Plain) :
    (ps.flatMap Piece.reText).head? ≠ some '*' := by
  cases ps with
  | nil => simp
  | cons q ps =>
    have hq := h q List.mem_cons_self
    cases q with
    | char c =>
      intro heq
      cases heq
      exact hq (by decide)
    | any => exact fun heq => by cases heq
    | star => exact fun heq => by cases heq
    | charClass items => exact fun heq => by cases heq
    | alternatives ss => exact fun heq => by cases heq

/-- The parts of a plain pattern are read back from its expression. -/
theorem reParts_reText {ps : List Piece} (h : ∀ p ∈ ps, p.Plain) {k : ℕ}
    (hk : (ps.flatMap Piece.reText).length ≤ k) : reParts k (ps.flatMap Piece.reText) = ps := by
  induction ps generalizing k with
  | nil => cases k <;> rfl
  | cons q ps ih =>
    have hplain : ∀ p ∈ ps, p.Plain := fun p hp => h p (List.mem_cons_of_mem _ hp)
    have hq := h q List.mem_cons_self
    rw [List.flatMap_cons, List.length_append] at hk
    rw [List.flatMap_cons]
    have hpos : 0 < q.reText.length := by cases q <;> simp [Piece.reText]
    obtain ⟨k, rfl⟩ : ∃ j, k = j + 1 := ⟨k - 1, by omega⟩
    have hrest := ih hplain (k := k) (by omega)
    cases q with
    | char c =>
      have hc : c ∉ specials := hq
      simp only [specials, List.mem_cons, List.not_mem_nil, or_false, not_or] at hc
      show reParts (k + 1) (c :: ps.flatMap Piece.reText) = _
      rw [reParts, hrest]
      · exact fun r hr _ => hc.2.2.2.2.2.2.1 hr
      · exact fun hr => hc.2.2.2.2.2.2.1 hr
      · exact fun hr => hc.2.2.1 hr
      · exact fun hr => hc.2.2.2.2.2.2.2.2.1 hr
    | any =>
      show reParts (k + 1) ('.' :: ps.flatMap Piece.reText) = _
      rw [reParts, hrest]
      intro r hr
      exact reText_head hplain (by rw [hr]; rfl)
    | star =>
      show Piece.star :: reParts k (ps.flatMap Piece.reText) = _
      rw [hrest]
    | charClass items =>
      have hbracket : ']' ∉ items.flatMap ClassItem.text :=
        fun hmem => classText_chars hq.2 _ hmem bracket_special
      obtain ⟨htake, hdrop⟩ := span_split (p := ps.flatMap Piece.reText) hbracket
      show reParts (k + 1) ('[' :: (items.flatMap ClassItem.text ++ [']'] ++ _)) = _
      rw [List.append_assoc]
      show reParts (k + 1) ('[' :: (items.flatMap ClassItem.text ++ ']' ::
        ps.flatMap Piece.reText)) = _
      rw [reParts, htake, hdrop, classItems_text hq.2]
      show Piece.charClass items :: reParts k (ps.flatMap Piece.reText) = _
      rw [hrest]
    | alternatives ss =>
      have hchars : ∀ s ∈ ss, ∀ c ∈ s, c ≠ ')' := by
        rintro s hs c hc rfl
        exact ((hq.2 s hs).2 _ hc).1 (by decide)
      have hparen : ')' ∉ ['|'].intercalate ss := fun hmem =>
        mem_intercalate_chars (P := (· ≠ ')')) (by decide) hchars _ hmem rfl
      have hsplit : (['|'].intercalate ss).splitOn '|' = ss :=
        List.splitOn_intercalate '|' (fun s hs hmem => ((hq.2 s hs).2 _ hmem).1 (by decide)) hq.1
      obtain ⟨htake, hdrop⟩ := span_split (p := ps.flatMap Piece.reText) hparen
      show reParts (k + 1) ('(' :: (['|'].intercalate ss ++ [')'] ++ _)) = _
      rw [List.append_assoc]
      show reParts (k + 1) ('(' :: (['|'].intercalate ss ++ ')' :: ps.flatMap Piece.reText)) = _
      rw [reParts, htake, hdrop, hsplit]
      show Piece.alternatives ss :: reParts k (ps.flatMap Piece.reText) = _
      rw [hrest]

/-- There is a library that is as relied on. -/
theorem regexpLibrary_matchPlain : RegexpLibrary matchPlain := by
  intro ps hps l _
  rw [matchPlain, reParts_reText hps (Nat.le_refl _), langMatch_iff]

end Faust.Osc
