import Faust.Generator.Metadata

/-!
# Metadata are extracted as they were inserted

`Text` is a text whose special characters are escaped, with balanced brackets left as they are
where the text is a value. An annotated label is a list of characters and of pairs; its encoding
is read back by `extractMetadata`.
-/

namespace Faust

/-! ## Leading and trailing blanks -/

/-- A string without its leading and trailing blanks. -/
def trim (s : List Char) : List Char := (s.dropWhile isBlank).rdropWhile isBlank

theorem findFirstNotBlank_blank {s : List Char} (h : ∀ c ∈ s, isBlank c = true) :
    findFirstNotBlank s = none := by
  simpa [findFirstNotBlank] using h

/-- The first character that is no blank is the one after the leading blanks. -/
theorem findFirstNotBlank_append {blanks : List Char} (h : ∀ c ∈ blanks, isBlank c = true)
    {c : Char} (hc : isBlank c = false) (rest : List Char) :
    findFirstNotBlank (blanks ++ c :: rest) = some blanks.length := by
  unfold findFirstNotBlank
  induction blanks with
  | nil => simp [List.findIdx?_cons, hc]
  | cons b blanks ih =>
    have hrest := ih fun d hd => h d (List.mem_cons_of_mem b hd)
    rw [List.cons_append, List.findIdx?_cons, h b List.mem_cons_self, hrest]
    rfl

/-- Between the leading and the trailing blanks, `rmWhiteSpaces` keeps everything. -/
theorem rmWhiteSpaces_append {left mid right : List Char}
    (hleft : ∀ c ∈ left, isBlank c = true) (hright : ∀ c ∈ right, isBlank c = true)
    (hne : mid ≠ []) (hhead : isBlank (mid.head hne) = false)
    (hlast : isBlank (mid.getLast hne) = false) :
    rmWhiteSpaces (left ++ mid ++ right) = mid := by
  have hfirst : findFirstNotBlank (left ++ mid ++ right) = some left.length := by
    rw [← List.cons_head_tail hne, List.append_assoc, List.cons_append]
    exact findFirstNotBlank_append hleft hhead _
  have hback : findFirstNotBlank (left ++ mid ++ right).reverse = some right.length := by
    rw [← List.dropLast_append_getLast hne]
    simp only [List.reverse_append, List.reverse_cons, List.reverse_nil, List.nil_append,
      List.cons_append]
    rw [← @List.length_reverse _ right]
    exact findFirstNotBlank_append (by simpa using hright) hlast _
  have hpos := List.length_pos_iff.2 hne
  have hend : findLastNotBlank (left ++ mid ++ right) = some (left.length + mid.length - 1) := by
    unfold findFirstNotBlank at hback
    rw [findLastNotBlank, hback]
    simp only [Option.map_some, List.length_append, Option.some_inj]
    omega
  unfold rmWhiteSpaces
  rw [hfirst, hend]
  show ((left ++ mid ++ right).drop left.length).take (1 + (left.length + mid.length - 1) -
    left.length) = mid
  have hlen : 1 + (left.length + mid.length - 1) - left.length = mid.length := by omega
  rw [hlen, List.append_assoc, List.drop_left, List.take_left]

/-- `rmWhiteSpaces` removes the leading and trailing blanks. -/
theorem rmWhiteSpaces_eq_trim (s : List Char) : rmWhiteSpaces s = trim s := by
  by_cases hblank : trim s = []
  · have hall : ∀ c ∈ s, isBlank c = true := by
      intro c hc
      rw [trim, List.rdropWhile_eq_nil_iff] at hblank
      rw [← List.takeWhile_append_dropWhile (p := isBlank) (l := s)] at hc
      rcases List.mem_append.1 hc with hc | hc
      · exact List.mem_takeWhile_imp hc
      · exact hblank c hc
    rw [hblank, rmWhiteSpaces, findFirstNotBlank_blank hall]
  · have hdrop : s.dropWhile isBlank ≠ [] := by
      intro h
      exact hblank (by rw [trim, h, List.rdropWhile_nil])
    have hsplit : s = s.takeWhile isBlank ++ trim s ++
        (s.dropWhile isBlank).rtakeWhile isBlank := by
      rw [List.append_assoc, trim, List.rdropWhile_append_rtakeWhile,
        List.takeWhile_append_dropWhile]
    have hhead : isBlank ((trim s).head hblank) = false := by
      have hprefix : trim s <+: s.dropWhile isBlank := List.rdropWhile_prefix isBlank _
      rw [List.IsPrefix.head hprefix hblank]
      exact List.head_dropWhile_not isBlank hdrop
    have hlast : isBlank ((trim s).getLast hblank) = false :=
      Bool.eq_false_iff.2 (List.rdropWhile_last_not _ _ hblank)
    conv_lhs => rw [hsplit]
    exact rmWhiteSpaces_append (fun c hc => List.mem_takeWhile_imp hc)
      (fun c hc => List.mem_rtakeWhile_imp hc) hblank hhead hlast

namespace Metadata

/-! ## The encoding -/

/-- The characters that are escaped. -/
def isSpecial (c : Char) : Bool := c = '[' ∨ c = ']' ∨ c = ':' ∨ c = '\\'

/-- A character, escaped if it is special. -/
def escape (c : Char) : List Char := if isSpecial c then ['\\', c] else [c]

/-- The text of a value: characters, and texts in brackets. -/
inductive ValueText
  | nil
  | char (c : Char) (rest : ValueText)
  | brackets (inside rest : ValueText)

/-- What a value says. -/
def ValueText.text : ValueText → List Char
  | nil => []
  | char c rest => c :: rest.text
  | brackets inside rest => '[' :: inside.text ++ ']' :: rest.text

/-- How a value is written: its characters are escaped, its brackets are not. -/
def ValueText.encode : ValueText → List Char
  | nil => []
  | char c rest => escape c ++ rest.encode
  | brackets inside rest => '[' :: inside.encode ++ ']' :: rest.encode

/-- An element of an annotated label. -/
inductive Item
  | char (c : Char)
  | pair (key : List Char) (value : ValueText)

/-- How an element is written. -/
def Item.encode : Item → List Char
  | char c => escape c
  | pair key value => '[' :: key.flatMap escape ++ ':' :: value.encode ++ [']']

/-- An annotated label as it is written. -/
def encode (items : List Item) : List Char := items.flatMap Item.encode

/-- The text of an annotated label, without the pairs. -/
def labelText (items : List Item) : List Char :=
  items.filterMap fun i =>
    match i with
    | .char c => some c
    | .pair .. => none

/-- The pairs of an annotated label. -/
def pairs (items : List Item) : List (List Char × List Char) :=
  items.filterMap fun i =>
    match i with
    | .char _ => none
    | .pair key value => some (key, value.text)

/-! ## Reading one element -/

attribute [local simp] Extraction.read Extraction.readKey Extraction.readValue ValueText.text
  ValueText.encode Item.encode

/-- Reading characters leads from `e` to `e'`. -/
def Reads (chars : List Char) (e e' : Extraction) : Prop :=
  chars.foldlM Extraction.read e = some e'

theorem Reads.nil (e : Extraction) : Reads [] e e := rfl

theorem Reads.append {l₁ l₂ : List Char} {e₁ e₂ e₃ : Extraction} (h₁ : Reads l₁ e₁ e₂)
    (h₂ : Reads l₂ e₂ e₃) : Reads (l₁ ++ l₂) e₁ e₃ := by
  unfold Reads at h₁ h₂ ⊢
  rw [List.foldlM_append, h₁]
  exact h₂

theorem Reads.cons {c : Char} {l : List Char} {e₁ e₂ e₃ : Extraction}
    (h₁ : e₁.read c = some e₂) (h₂ : Reads l e₂ e₃) : Reads (c :: l) e₁ e₃ := by
  unfold Reads at h₂ ⊢
  rw [List.foldlM_cons, h₁]
  exact h₂

theorem Reads.char {c : Char} {e₁ e₂ : Extraction} (h : e₁.read c = some e₂) :
    Reads [c] e₁ e₂ := Reads.cons h (Reads.nil e₂)

section Read

variable {deep : ℤ} {key value label : List Char} {m : MetadataMap}

/-- A character of the label. -/
theorem reads_labelChar (c : Char) :
    Reads (escape c) ⟨.kLabel, 0, key, value, label, m⟩
      ⟨.kLabel, 0, key, value, label ++ [c], m⟩ := by
  unfold Reads escape isSpecial
  by_cases h : c = '[' ∨ c = ']' ∨ c = ':' ∨ c = '\\'
  · simp [h, Extraction.read]
  · push Not at h
    simp [h, Extraction.read]

/-- A character of a key. -/
theorem reads_keyChar (c : Char) :
    Reads (escape c) ⟨.kKey, 1, key, value, label, m⟩ ⟨.kKey, 1, key ++ [c], value, label, m⟩ := by
  unfold Reads escape isSpecial
  by_cases h : c = '[' ∨ c = ']' ∨ c = ':' ∨ c = '\\'
  · simp [h, Extraction.read, Extraction.readKey]
  · push Not at h
    simp [h, Extraction.read, Extraction.readKey]

/-- A character of a value, at any depth of its brackets. -/
theorem reads_valueChar (hdeep : 0 < deep) (c : Char) :
    Reads (escape c) ⟨.kValue, deep, key, value, label, m⟩
      ⟨.kValue, deep, key, value ++ [c], label, m⟩ := by
  unfold Reads escape isSpecial
  by_cases h : c = '[' ∨ c = ']' ∨ c = ':' ∨ c = '\\'
  · simp [h, hdeep, Extraction.read, Extraction.readValue]
  · push Not at h
    simp [h, hdeep, Extraction.read, Extraction.readValue]

/-- An opening bracket inside a value. -/
theorem read_valueOpen (hdeep : 0 < deep) :
    Extraction.read ⟨.kValue, deep, key, value, label, m⟩ '[' =
      some ⟨.kValue, deep + 1, key, value ++ ['['], label, m⟩ := by
  simp [hdeep, Extraction.read, Extraction.readValue]

/-- The closing bracket of a bracket inside a value. -/
theorem read_valueClose (hdeep : 0 < deep) :
    Extraction.read ⟨.kValue, deep + 1, key, value, label, m⟩ ']' =
      some ⟨.kValue, deep, key, value ++ [']'], label, m⟩ := by
  have hpos : 0 < deep + 1 := by omega
  have hinside : ¬ deep < 1 := by omega
  simp [hpos, hinside, Extraction.read, Extraction.readValue]

theorem reads_key (s : List Char) :
    Reads (s.flatMap escape) ⟨.kKey, 1, key, value, label, m⟩
      ⟨.kKey, 1, key ++ s, value, label, m⟩ := by
  induction s generalizing key with
  | nil => simpa using Reads.nil _
  | cons c s ih =>
    have hread : Reads (escape c ++ s.flatMap escape) ⟨.kKey, 1, key, value, label, m⟩
        ⟨.kKey, 1, key ++ [c] ++ s, value, label, m⟩ := (reads_keyChar c).append ih
    simpa using hread

/-- A value, brackets included. The depth is back where it was at the end of each bracket. -/
theorem reads_value (t : ValueText) (hdeep : 0 < deep) :
    Reads t.encode ⟨.kValue, deep, key, value, label, m⟩
      ⟨.kValue, deep, key, value ++ t.text, label, m⟩ := by
  induction t generalizing deep value with
  | nil => simpa [ValueText.text, ValueText.encode] using Reads.nil _
  | char c rest ih =>
    have hread : Reads (escape c ++ rest.encode) ⟨.kValue, deep, key, value, label, m⟩
        ⟨.kValue, deep, key, value ++ [c] ++ rest.text, label, m⟩ :=
      (reads_valueChar hdeep c).append (ih hdeep)
    simpa [ValueText.text, ValueText.encode] using hread
  | brackets inside rest ihInside ihRest =>
    have hopened : 0 < deep + 1 := by omega
    have hread : Reads ('[' :: (inside.encode ++ ']' :: rest.encode))
        ⟨.kValue, deep, key, value, label, m⟩
        ⟨.kValue, deep, key, value ++ ['['] ++ inside.text ++ [']'] ++ rest.text, label, m⟩ :=
      Reads.cons (read_valueOpen hdeep)
        ((ihInside hopened).append (Reads.cons (read_valueClose hdeep) (ihRest hdeep)))
    simpa [ValueText.text, ValueText.encode] using hread

/-- A pair: its value is added to the values of its key, and the label goes on. -/
theorem reads_pair (k : List Char) (t : ValueText) :
    Reads (Item.pair k t).encode ⟨.kLabel, 0, [], [], label, m⟩
      ⟨.kLabel, 0, [], [], label, m.add (rmWhiteSpaces k) (rmWhiteSpaces t.text)⟩ := by
  have hopen : Extraction.read ⟨.kLabel, 0, [], [], label, m⟩ '[' =
      some ⟨.kKey, 1, [], [], label, m⟩ := by simp [Extraction.read]
  have hcolon : Extraction.read ⟨.kKey, 1, k, [], label, m⟩ ':' =
      some ⟨.kValue, 1, k, [], label, m⟩ := by simp [Extraction.read, Extraction.readKey]
  have hclose : Extraction.read ⟨.kValue, 1, k, t.text, label, m⟩ ']' =
      some ⟨.kLabel, 0, [], [], label, m.add (rmWhiteSpaces k) (rmWhiteSpaces t.text)⟩ := by
    simp [Extraction.read, Extraction.readValue]
  have hkey : Reads (k.flatMap escape) ⟨.kKey, 1, [], [], label, m⟩
      ⟨.kKey, 1, k, [], label, m⟩ := reads_key k
  have hvalue : Reads t.encode ⟨.kValue, 1, k, [], label, m⟩
      ⟨.kValue, 1, k, t.text, label, m⟩ := reads_value t Int.one_pos
  have hpair := Reads.cons hopen
    (hkey.append (Reads.cons hcolon (hvalue.append (Reads.char hclose))))
  simpa [Item.encode] using hpair

/-! ## Reading an annotated label -/

/-- The metadata of the pairs, added to those there are. -/
def addPairs (m : MetadataMap) (items : List Item) : MetadataMap :=
  (pairs items).foldl (fun m p => m.add (rmWhiteSpaces p.1) (rmWhiteSpaces p.2)) m

theorem reads_items (items : List Item) :
    Reads (encode items) ⟨.kLabel, 0, [], [], label, m⟩
      ⟨.kLabel, 0, [], [], label ++ labelText items, addPairs m items⟩ := by
  induction items generalizing label m with
  | nil => simpa [encode, labelText, addPairs, pairs] using Reads.nil _
  | cons i items ih =>
    cases i with
    | char c =>
      have hread : Reads (escape c ++ encode items) ⟨.kLabel, 0, [], [], label, m⟩
          ⟨.kLabel, 0, [], [], label ++ [c] ++ labelText items, addPairs m items⟩ :=
        (reads_labelChar c).append ih
      simpa [encode, labelText, addPairs, pairs, Item.encode] using hread
    | pair k t =>
      have hread : Reads ((Item.pair k t).encode ++ encode items) ⟨.kLabel, 0, [], [], label, m⟩
          ⟨.kLabel, 0, [], [], label ++ labelText items,
            addPairs (m.add (rmWhiteSpaces k) (rmWhiteSpaces t.text)) items⟩ :=
        (reads_pair k t).append ih
      simpa [encode, labelText, addPairs, pairs] using hread

end Read

theorem mem_add {m : MetadataMap} {key value k v : List Char} :
    v ∈ m.add key value k ↔ v ∈ m k ∨ k = key ∧ v = value := by
  unfold MetadataMap.add
  by_cases h : k = key
  · subst h
    simp [or_comm]
  · simp [h]

theorem mem_addPairs {m : MetadataMap} {items : List Item} {k v : List Char} :
    v ∈ addPairs m items k ↔
      v ∈ m k ∨ ∃ p ∈ pairs items, rmWhiteSpaces p.1 = k ∧ rmWhiteSpaces p.2 = v := by
  unfold addPairs
  induction pairs items generalizing m with
  | nil => simp
  | cons p ps ih =>
    rw [List.foldl_cons, ih, mem_add]
    simp only [List.exists_mem_cons_iff, or_assoc, eq_comm]

/-- `extractMetadata` on an annotated label returns the text of the label, and for each key the
values it had and those of its pairs, all without their leading and trailing blanks. -/
theorem extractMetadata_encode (items : List Item) (metadata : MetadataMap) :
    ∃ metadata', extractMetadata (encode items) [] metadata =
        some (trim (labelText items), metadata') ∧
      ∀ key value, value ∈ metadata' key ↔
        value ∈ metadata key ∨ ∃ p ∈ pairs items, trim p.1 = key ∧ trim p.2 = value := by
  refine ⟨addPairs metadata items, ?_, fun key value => ?_⟩
  · have hread : (encode items).foldlM Extraction.read ⟨.kLabel, 0, [], [], [], metadata⟩ = _ :=
      reads_items items
    unfold extractMetadata
    rw [hread, ← rmWhiteSpaces_eq_trim]
    rfl
  · rw [mem_addPairs]
    simp only [rmWhiteSpaces_eq_trim]

end Metadata

end Faust
