import Mathlib.Data.List.Forall2
import Mathlib.Tactic.Common

/-!
# JSON texts

The part of JSON that has neither numbers nor literals, and no escapes in its strings: `Reads` is
its grammar, with the value that a text denotes. `decode` reads a text, and finds the value of every
text of the grammar, so a text denotes one value.
-/

namespace Faust

/-- A value. -/
inductive Json
  | string (s : List Char)
  | array (xs : List Json)
  | object (ms : List (List Char × Json))

namespace Json

/-- A blank. -/
def isBlank (c : Char) : Bool := c = ' ' || c = '\t' || c = '\n' || c = '\r'

/-- A character that a string holds as it is: no quote, no backslash, no control character. -/
def isUnescaped (c : Char) : Bool := c != '"' && c.toNat != 92 && 32 ≤ c.toNat

/-- Blanks only. -/
def Blank (w : List Char) : Prop := ∀ c ∈ w, isBlank c = true

/-- The characters of a string without escapes. -/
def Unescaped (s : List Char) : Prop := ∀ c ∈ s, isUnescaped c = true

/-- A string, between quotes. -/
def quoted (s : List Char) : List Char := '"' :: (s ++ ['"'])

/-- What is read: a value, the elements of an array or the members of an object. -/
inductive Item
  | value (x : Json)
  | elements (xs : List Json)
  | members (ms : List (List Char × Json))

/-- The texts of the grammar, without the blanks around a value. -/
inductive Reads : Item → List Char → Prop
  | string {s : List Char} (hs : Unescaped s) : Reads (.value (.string s)) (quoted s)
  | emptyArray {w : List Char} (hw : Blank w) :
      Reads (.value (.array [])) ('[' :: (w ++ [']']))
  | array {xs : List Json} {s : List Char} (h : Reads (.elements xs) s) :
      Reads (.value (.array xs)) ('[' :: (s ++ [']']))
  | emptyObject {w : List Char} (hw : Blank w) :
      Reads (.value (.object [])) ('\x7b' :: (w ++ ['\x7d']))
  | object {ms : List (List Char × Json)} {s : List Char} (h : Reads (.members ms) s) :
      Reads (.value (.object ms)) ('\x7b' :: (s ++ ['\x7d']))
  | lastElement {x : Json} {w s w' : List Char} (hw : Blank w) (h : Reads (.value x) s)
      (hw' : Blank w') : Reads (.elements [x]) (w ++ (s ++ w'))
  | element {x : Json} {xs : List Json} {w s w' t : List Char} (hw : Blank w)
      (h : Reads (.value x) s) (hw' : Blank w') (hrest : Reads (.elements xs) t) :
      Reads (.elements (x :: xs)) (w ++ (s ++ (w' ++ ',' :: t)))
  | lastMember {x : Json} {k w w₁ w₂ s w' : List Char} (hw : Blank w) (hk : Unescaped k)
      (hw₁ : Blank w₁) (hw₂ : Blank w₂) (h : Reads (.value x) s) (hw' : Blank w') :
      Reads (.members [(k, x)]) (w ++ (quoted k ++ (w₁ ++ ':' :: (w₂ ++ (s ++ w')))))
  | member {x : Json} {ms : List (List Char × Json)} {k w w₁ w₂ s w' t : List Char}
      (hw : Blank w) (hk : Unescaped k) (hw₁ : Blank w₁) (hw₂ : Blank w₂)
      (h : Reads (.value x) s) (hw' : Blank w') (hrest : Reads (.members ms) t) :
      Reads (.members ((k, x) :: ms))
        (w ++ (quoted k ++ (w₁ ++ ':' :: (w₂ ++ (s ++ (w' ++ ',' :: t))))))

/-- A text is that of a value, with blanks around it. -/
def Denotes (text : List Char) (x : Json) : Prop :=
  ∃ w s w', text = w ++ (s ++ w') ∧ Blank w ∧ Reads (.value x) s ∧ Blank w'

/-! ## A decoder -/

/-- What comes after the blanks. -/
def skipBlank (s : List Char) : List Char := s.dropWhile isBlank

/-- The characters up to a quote, and what comes after it. -/
def decodeString : List Char → Option (List Char × List Char)
  | [] => none
  | c :: s =>
    if c = '"' then some ([], s)
    else if isUnescaped c then (decodeString s).map fun r => (c :: r.1, r.2)
    else none

mutual

/-- A value, and what comes after it. -/
def decodeValue : ℕ → List Char → Option (Json × List Char)
  | _ + 1, '"' :: s => (decodeString s).map fun r => (.string r.1, r.2)
  | k + 1, '[' :: s =>
    match skipBlank s with
    | ']' :: r => some (.array [], r)
    | _ => (decodeElements k s).map fun r => (.array r.1, r.2)
  | k + 1, '\x7b' :: s =>
    match skipBlank s with
    | '\x7d' :: r => some (.object [], r)
    | _ => (decodeMembers k s).map fun r => (.object r.1, r.2)
  | _, _ => none

/-- The elements of an array, and what comes after its bracket. -/
def decodeElements : ℕ → List Char → Option (List Json × List Char)
  | 0, _ => none
  | k + 1, s =>
    match decodeValue k (skipBlank s) with
    | none => none
    | some (x, s) =>
      match skipBlank s with
      | ',' :: s => (decodeElements k s).map fun r => (x :: r.1, r.2)
      | ']' :: s => some ([x], s)
      | _ => none

/-- The members of an object, and what comes after its brace. -/
def decodeMembers : ℕ → List Char → Option (List (List Char × Json) × List Char)
  | 0, _ => none
  | k + 1, s =>
    match skipBlank s with
    | '"' :: s =>
      match decodeString s with
      | none => none
      | some (key, s) =>
        match skipBlank s with
        | ':' :: s =>
          match decodeValue k (skipBlank s) with
          | none => none
          | some (x, s) =>
            match skipBlank s with
            | ',' :: s => (decodeMembers k s).map fun r => ((key, x) :: r.1, r.2)
            | '\x7d' :: s => some ([(key, x)], s)
            | _ => none
        | _ => none
    | _ => none

end

/-- The value of a text. -/
def decode (s : List Char) : Option Json :=
  match decodeValue s.length (skipBlank s) with
  | some (x, r) => if skipBlank r = [] then some x else none
  | none => none

section
variable {s w r k : List Char} {c : Char}

theorem skipBlank_append (hw : Blank w) (hs : ∀ c, s.head? = some c → isBlank c = false) :
    skipBlank (w ++ s) = s := by
  induction w with
  | nil =>
    cases s with
    | nil => rfl
    | cons c s =>
      rw [List.nil_append, skipBlank, List.dropWhile_cons_of_neg]
      rw [hs c rfl]
      decide
  | cons c w ih =>
    rw [List.cons_append, skipBlank, List.dropWhile_cons_of_pos (hw c List.mem_cons_self)]
    exact ih fun d hd => hw d (List.mem_cons_of_mem _ hd)

theorem skipBlank_cons (hw : Blank w) (hc : isBlank c = false) :
    skipBlank (w ++ c :: s) = c :: s := by
  refine skipBlank_append hw fun d hd => ?_
  cases hd
  exact hc

theorem decodeString_append (hs : Unescaped s) (r : List Char) :
    decodeString (s ++ '"' :: r) = some (s, r) := by
  induction s with
  | nil => rfl
  | cons c s ih =>
    have hc := hs c List.mem_cons_self
    have hquote : c ≠ '"' := by
      intro heq
      rw [heq] at hc
      exact absurd hc (by decide)
    rw [List.cons_append, decodeString, if_neg hquote, if_pos hc,
      ih fun d hd => hs d (List.mem_cons_of_mem _ hd)]
    rfl

/-- The first character of a value. -/
theorem Reads.head {x : Json} (h : Reads (.value x) s) :
    ∃ c t, s = c :: t ∧ isBlank c = false ∧ c ≠ ']' ∧ c ≠ '\x7d' := by
  generalize hi : Item.value x = i at h
  cases h with
  | string hs => exact ⟨_, _, rfl, by decide, by decide, by decide⟩
  | emptyArray hw => exact ⟨_, _, rfl, by decide, by decide, by decide⟩
  | array h => exact ⟨_, _, rfl, by decide, by decide, by decide⟩
  | emptyObject hw => exact ⟨_, _, rfl, by decide, by decide, by decide⟩
  | object h => exact ⟨_, _, rfl, by decide, by decide, by decide⟩
  | lastElement => cases hi
  | element => cases hi
  | lastMember => cases hi
  | member => cases hi

/-- After blanks, a value comes next. -/
theorem Reads.skipBlank {x : Json} (h : Reads (.value x) s) (hw : Blank w) :
    Json.skipBlank (w ++ (s ++ r)) = s ++ r := by
  obtain ⟨c, t, rfl, hc, -⟩ := h.head
  exact skipBlank_cons hw hc

/-- What the decoder finds, with enough fuel. -/
def Finds (i : Item) (s : List Char) : Prop :=
  match i with
  | .value x => ∀ k r, s.length ≤ k → decodeValue k (s ++ r) = some (x, r)
  | .elements xs => ∀ k r, s.length < k → decodeElements k (s ++ ']' :: r) = some (xs, r)
  | .members ms => ∀ k r, s.length < k → decodeMembers k (s ++ '\x7d' :: r) = some (ms, r)

/-- An array does not start with its bracket if it has elements. -/
theorem Reads.elements_head {xs : List Json} (h : Reads (.elements xs) s) (r : List Char) :
    ∃ c t, Json.skipBlank (s ++ r) = c :: t ∧ c ≠ ']' := by
  generalize hi : Item.elements xs = i at h
  have hvalue : ∀ {x : Json} {w s t : List Char}, Blank w → Reads (.value x) s →
      ∃ c t', Json.skipBlank (w ++ (s ++ t) ++ r) = c :: t' ∧ c ≠ ']' := by
    intro x w s t hw h
    obtain ⟨c, t', heq, -, hc, -⟩ := h.head
    refine ⟨c, t' ++ (t ++ r), ?_, hc⟩
    rw [List.append_assoc, List.append_assoc, h.skipBlank hw, heq]
    rfl
  cases h with
  | lastElement hw h => exact hvalue hw h
  | element hw h => exact hvalue hw h
  | string => cases hi
  | emptyArray => cases hi
  | array => cases hi
  | emptyObject => cases hi
  | object => cases hi
  | lastMember => cases hi
  | member => cases hi

/-- An object starts with a quote if it has members. -/
theorem Reads.members_head {ms : List (List Char × Json)} (h : Reads (.members ms) s)
    (r : List Char) : ∃ t, Json.skipBlank (s ++ r) = '"' :: t := by
  generalize hi : Item.members ms = i at h
  have hquote : ∀ {w k t : List Char}, Blank w → Json.skipBlank (w ++ (quoted k ++ t) ++ r) =
      '"' :: (k ++ ['"'] ++ t ++ r) := by
    intro w k t hw
    rw [List.append_assoc]
    exact skipBlank_cons hw (by decide)
  cases h with
  | lastMember hw => exact ⟨_, hquote hw⟩
  | member hw => exact ⟨_, hquote hw⟩
  | string => cases hi
  | emptyArray => cases hi
  | array => cases hi
  | emptyObject => cases hi
  | object => cases hi
  | lastElement => cases hi
  | element => cases hi

theorem decodeElements_cons {x : Json} {t : List Char} {n : ℕ} (hw : Blank w)
    (h : Reads (.value x) s) (hvalue : decodeValue n (s ++ t) = some (x, t)) :
    decodeElements (n + 1) (w ++ (s ++ t)) = match Json.skipBlank t with
      | ',' :: t => (decodeElements n t).map fun r => (x :: r.1, r.2)
      | ']' :: t => some ([x], t)
      | _ => none := by
  rw [decodeElements, h.skipBlank hw, hvalue]

theorem decodeMembers_cons {x : Json} {w₁ w₂ t : List Char} {n : ℕ} (hw : Blank w)
    (hk : Unescaped k) (hw₁ : Blank w₁) (hw₂ : Blank w₂) (h : Reads (.value x) s)
    (hvalue : decodeValue n (s ++ t) = some (x, t)) :
    decodeMembers (n + 1) (w ++ (quoted k ++ (w₁ ++ ':' :: (w₂ ++ (s ++ t))))) =
      match Json.skipBlank t with
      | ',' :: t => (decodeMembers n t).map fun r => ((k, x) :: r.1, r.2)
      | '\x7d' :: t => some ([(k, x)], t)
      | _ => none := by
  have hquote : Json.skipBlank (w ++ (quoted k ++ (w₁ ++ ':' :: (w₂ ++ (s ++ t))))) =
      '"' :: (k ++ '"' :: (w₁ ++ ':' :: (w₂ ++ (s ++ t)))) := by
    rw [quoted, List.cons_append, skipBlank_cons hw (by decide), List.append_assoc]
    rfl
  have hcolon : Json.skipBlank (w₁ ++ ':' :: (w₂ ++ (s ++ t))) = ':' :: (w₂ ++ (s ++ t)) :=
    skipBlank_cons hw₁ (by decide)
  simp only [decodeMembers, hquote, decodeString_append hk, hcolon, h.skipBlank hw₂, hvalue]

theorem decodeArray {t : List Char} {n : ℕ} (h : ∀ t', Json.skipBlank t ≠ ']' :: t') :
    decodeValue (n + 1) ('[' :: t) = (decodeElements n t).map fun r => (.array r.1, r.2) := by
  rw [decodeValue]
  split
  · next hr => exact absurd hr (h _)
  · rfl

theorem decodeObject {t : List Char} {n : ℕ} (h : ∀ t', Json.skipBlank t ≠ '\x7d' :: t') :
    decodeValue (n + 1) ('\x7b' :: t) = (decodeMembers n t).map fun r => (.object r.1, r.2) := by
  rw [decodeValue]
  split
  · next hr => exact absurd hr (h _)
  · rfl

/-- The decoder finds what the grammar tells. -/
theorem Reads.finds {i : Item} (h : Reads i s) : Finds i s := by
  induction h with
  | @string s hs =>
    intro k r hk
    cases k with
    | zero => exact absurd hk (Nat.not_succ_le_zero _)
    | succ k =>
      show decodeValue (k + 1) ('"' :: (s ++ ['"'] ++ r)) = _
      rw [decodeValue, List.append_assoc]
      show (decodeString (s ++ '"' :: r)).map _ = _
      rw [decodeString_append hs]
      rfl
  | @emptyArray w hw =>
    intro k r hk
    cases k with
    | zero => exact absurd hk (Nat.not_succ_le_zero _)
    | succ k =>
      have hskip : Json.skipBlank (w ++ [']'] ++ r) = ']' :: r := by
        rw [List.append_assoc]
        exact skipBlank_cons hw (by decide)
      show decodeValue (k + 1) ('[' :: (w ++ [']'] ++ r)) = _
      rw [decodeValue, hskip]
      rfl
  | @array xs s h ih =>
    intro k r hk
    cases k with
    | zero => exact absurd hk (Nat.not_succ_le_zero _)
    | succ k =>
      show decodeValue (k + 1) ('[' :: (s ++ [']'] ++ r)) = _
      rw [List.append_assoc, decodeArray]
      · have hlen : s.length < k := by
          simp only [List.length_cons, List.length_append, List.length_nil] at hk
          omega
        show (decodeElements k (s ++ ']' :: r)).map _ = _
        rw [ih k r hlen]
        rfl
      · intro t' heq
        obtain ⟨c, t, hc, hne⟩ := h.elements_head (']' :: r)
        exact hne (List.cons.inj (hc.symm.trans heq)).1
  | @emptyObject w hw =>
    intro k r hk
    cases k with
    | zero => exact absurd hk (Nat.not_succ_le_zero _)
    | succ k =>
      have hskip : Json.skipBlank (w ++ ['\x7d'] ++ r) = '\x7d' :: r := by
        rw [List.append_assoc]
        exact skipBlank_cons hw (by decide)
      show decodeValue (k + 1) ('\x7b' :: (w ++ ['\x7d'] ++ r)) = _
      rw [decodeValue, hskip]
      rfl
  | @object ms s h ih =>
    intro k r hk
    cases k with
    | zero => exact absurd hk (Nat.not_succ_le_zero _)
    | succ k =>
      show decodeValue (k + 1) ('\x7b' :: (s ++ ['\x7d'] ++ r)) = _
      rw [List.append_assoc, decodeObject]
      · have hlen : s.length < k := by
          simp only [List.length_cons, List.length_append, List.length_nil] at hk
          omega
        show (decodeMembers k (s ++ '\x7d' :: r)).map _ = _
        rw [ih k r hlen]
        rfl
      · intro t' heq
        obtain ⟨t, hc⟩ := h.members_head ('\x7d' :: r)
        exact absurd (List.cons.inj (hc.symm.trans heq)).1 (by decide)
  | @lastElement x w s w' hw h hw' ih =>
    intro k r hk
    cases k with
    | zero => exact absurd hk (Nat.not_lt_zero _)
    | succ k =>
      have hlen : s.length ≤ k := by
        simp only [List.length_append] at hk
        omega
      rw [List.append_assoc, List.append_assoc, decodeElements_cons hw h (ih k _ hlen),
        skipBlank_cons hw' (by decide)]
      rfl
  | @element x xs w s w' t hw h hw' hrest ih ihrest =>
    intro k r hk
    cases k with
    | zero => exact absurd hk (Nat.not_lt_zero _)
    | succ k =>
      simp only [List.length_append, List.length_cons] at hk
      have hlen : s.length ≤ k := by omega
      rw [List.append_assoc, List.append_assoc, List.append_assoc,
        decodeElements_cons hw h (ih k _ hlen), List.cons_append, skipBlank_cons hw' (by decide)]
      show (decodeElements k (t ++ ']' :: r)).map _ = _
      rw [ihrest k r (by omega)]
      rfl
  | @lastMember x key w w₁ w₂ s w' hw hk hw₁ hw₂ h hw' ih =>
    intro k r hlen
    cases k with
    | zero => exact absurd hlen (Nat.not_lt_zero _)
    | succ k =>
      simp only [List.length_append, List.length_cons] at hlen
      simp only [List.append_assoc, List.cons_append]
      rw [decodeMembers_cons hw hk hw₁ hw₂ h (ih k _ (by omega)), skipBlank_cons hw' (by decide)]
      rfl
  | @member x ms key w w₁ w₂ s w' t hw hk hw₁ hw₂ h hw' hrest ih ihrest =>
    intro k r hlen
    cases k with
    | zero => exact absurd hlen (Nat.not_lt_zero _)
    | succ k =>
      simp only [List.length_append, List.length_cons] at hlen
      simp only [List.append_assoc, List.cons_append]
      rw [decodeMembers_cons hw hk hw₁ hw₂ h (ih k _ (by omega)), skipBlank_cons hw' (by decide)]
      show (decodeMembers k (t ++ '\x7d' :: r)).map _ = _
      rw [ihrest k r (by omega)]
      rfl

/-- A text is decoded to the value it denotes. -/
theorem decode_of_denotes {x : Json} (h : Denotes s x) : decode s = some x := by
  obtain ⟨w, t, w', rfl, hw, h, hw'⟩ := h
  have hlen : t.length ≤ (w ++ (t ++ w')).length := by
    simp only [List.length_append]
    omega
  have hrest : Json.skipBlank w' = [] := by
    rw [← List.append_nil w']
    exact skipBlank_append hw' fun c hc => by cases hc
  rw [decode, h.skipBlank hw, h.finds _ w' hlen]
  show (if Json.skipBlank w' = [] then some x else none) = some x
  rw [if_pos hrest]

end

/-! ## Printing -/

/-- Texts, each after a separator: the first one after `c`, the others after a comma. -/
def joined : List Char → List (List Char) → List Char
  | _, [] => []
  | c, t :: ts => c ++ (t ++ joined [','] ts)

/-- The separator of what comes next. -/
def separator : List Char → List (List Char) → List Char
  | c, [] => c
  | _, _ :: _ => [',']

/-- A text of a value, with blanks before it. -/
def Printed (x : Json) (t : List Char) : Prop :=
  ∃ w s, t = w ++ s ∧ Blank w ∧ Reads (.value x) s

/-- A text of a member, with blanks before it. -/
def PrintedMember (m : List Char × Json) (t : List Char) : Prop :=
  ∃ w s, t = w ++ (quoted m.1 ++ ':' :: s) ∧ Blank w ∧ Unescaped m.1 ∧ Printed m.2 s

section
variable {c w t : List Char} {ts us : List (List Char)}

theorem joined_append : joined c (ts ++ us) = joined c ts ++ joined (separator c ts) us := by
  induction ts generalizing c with
  | nil => rfl
  | cons t ts ih =>
    have hsep : separator [','] ts = [','] := by
      cases ts with
      | nil => rfl
      | cons t ts => rfl
    show c ++ (t ++ joined [','] (ts ++ us)) = c ++ (t ++ joined [','] ts) ++ joined [','] us
    rw [ih, hsep]
    simp only [List.append_assoc]

theorem separator_append : separator c (ts ++ us) = separator (separator c ts) us := by
  cases ts with
  | nil => rfl
  | cons t ts =>
    cases us with
    | nil => rw [List.append_nil]; rfl
    | cons u us => rfl

theorem blank_nil : Blank [] := fun _ h => absurd h List.not_mem_nil

theorem blank_space : Blank [' '] := by
  intro c hc
  rw [List.mem_singleton.1 hc]
  decide

theorem unescaped_of_all (h : t.all isUnescaped = true) : Unescaped t := List.all_eq_true.1 h

theorem Blank.append {w' : List Char} (hw : Blank w) (hw' : Blank w') : Blank (w ++ w') := by
  intro c hc
  cases List.mem_append.1 hc with
  | inl h => exact hw c h
  | inr h => exact hw' c h

theorem Unescaped.append {s s' : List Char} (hs : Unescaped s) (hs' : Unescaped s') :
    Unescaped (s ++ s') := by
  intro c hc
  cases List.mem_append.1 hc with
  | inl h => exact hs c h
  | inr h => exact hs' c h

theorem Printed.blank {x : Json} (h : Printed x t) (hw : Blank w) : Printed x (w ++ t) := by
  obtain ⟨w', s, rfl, hw', h⟩ := h
  exact ⟨w ++ w', s, (List.append_assoc _ _ _).symm, hw.append hw', h⟩

theorem Printed.denotes {x : Json} (h : Printed x t) (hw : Blank w) : Denotes (t ++ w) x := by
  obtain ⟨w', s, rfl, hw', h⟩ := h
  exact ⟨w', s, w, List.append_assoc _ _ _, hw', h, hw⟩

theorem printed_string (hs : Unescaped t) : Printed (.string t) (quoted t) :=
  ⟨[], _, rfl, blank_nil, .string hs⟩

theorem joined_comma (hne : ts ≠ []) : joined [','] ts = ',' :: joined [] ts := by
  cases ts with
  | nil => exact absurd rfl hne
  | cons t ts => rfl

theorem reads_elements {xs : List Json} (h : List.Forall₂ Printed xs ts) (hne : xs ≠ [])
    (hc : Blank c) (hw : Blank w) : Reads (.elements xs) (joined c ts ++ w) := by
  induction h generalizing c with
  | nil => exact absurd rfl hne
  | @cons x t xs ts hx h ih =>
    obtain ⟨w', s, rfl, hw', hx⟩ := hx
    cases h with
    | nil =>
      have := Reads.lastElement (hc.append hw') hx hw
      simpa only [joined, List.append_assoc, List.append_nil] using this
    | @cons y u ys us hy h =>
      have := Reads.element (hc.append hw') hx blank_nil (ih (List.cons_ne_nil y ys) blank_nil)
      rw [joined, joined_comma (List.cons_ne_nil u us)]
      simpa only [List.append_assoc, List.cons_append, List.nil_append] using this

theorem reads_members {ms : List (List Char × Json)} (h : List.Forall₂ PrintedMember ms ts)
    (hne : ms ≠ []) (hc : Blank c) (hw : Blank w) : Reads (.members ms) (joined c ts ++ w) := by
  induction h generalizing c with
  | nil => exact absurd rfl hne
  | @cons m t ms ts hm h ih =>
    obtain ⟨w', s, rfl, hw', hk, w₂, s', rfl, hw₂, hx⟩ := hm
    cases h with
    | nil =>
      have := Reads.lastMember (hc.append hw') hk blank_nil hw₂ hx hw
      simpa only [joined, List.append_assoc, List.append_nil, List.cons_append,
        List.nil_append] using this
    | @cons n u ns us hn h =>
      have := Reads.member (hc.append hw') hk blank_nil hw₂ hx blank_nil
        (ih (List.cons_ne_nil n ns) blank_nil)
      rw [joined, joined_comma (List.cons_ne_nil u us)]
      simpa only [List.append_assoc, List.cons_append, List.nil_append] using this

theorem printed_array {xs : List Json} (h : List.Forall₂ Printed xs ts) (hc : Blank c)
    (hw : Blank w) : Printed (.array xs) ('[' :: (joined c ts ++ (w ++ [']']))) := by
  refine ⟨[], _, rfl, blank_nil, ?_⟩
  rw [← List.append_assoc]
  by_cases hne : xs = []
  · cases hne
    cases h
    exact Reads.emptyArray hw
  · exact Reads.array (reads_elements h hne hc hw)

theorem printed_object {ms : List (List Char × Json)} (h : List.Forall₂ PrintedMember ms ts)
    (hc : Blank c) (hw : Blank w) :
    Printed (.object ms) ('\x7b' :: (joined c ts ++ (w ++ ['\x7d']))) := by
  refine ⟨[], _, rfl, blank_nil, ?_⟩
  rw [← List.append_assoc]
  by_cases hne : ms = []
  · cases hne
    cases h
    exact Reads.emptyObject hw
  · exact Reads.object (reads_members h hne hc hw)

end

end Json

end Faust
