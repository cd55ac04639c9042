import Faust.Generator.OpenMP

/-!
# Text with directives

The text of the code is read piece by piece. In most pieces, a directive is followed by the
statement or by the block that it governs. What a piece contributes then does not depend on what
is around it, but for the blocks that it is in. A comment that stays open loses statements.
-/

namespace Faust.Omp

open Fir

/-! ## Pieces of the text -/

/-- The statements in the text. -/
def stmts (ts : List Tok) : List StatementInst :=
  ts.filterMap fun t => match t with
    | .stmt s => some s
    | _ => none

@[simp] theorem stmts_nil : stmts [] = [] := rfl

@[simp] theorem stmts_append (a b : List Tok) : stmts (a ++ b) = stmts a ++ stmts b :=
  List.filterMap_append

@[simp] theorem stmts_cons_stmt (s : StatementInst) (ts : List Tok) :
    stmts (.stmt s :: ts) = s :: stmts ts := rfl

@[simp] theorem stmts_cons_directive (d : Directive) (ts : List Tok) :
    stmts (.directive d :: ts) = stmts ts := rfl

@[simp] theorem stmts_cons_lbrace (ts : List Tok) : stmts (.lbrace :: ts) = stmts ts := rfl

@[simp] theorem stmts_cons_rbrace (ts : List Tok) : stmts (.rbrace :: ts) = stmts ts := rfl

@[simp] theorem stmts_cons_openComment (ts : List Tok) :
    stmts (.openComment :: ts) = stmts ts := rfl

@[simp] theorem stmts_cons_closeComment (ts : List Tok) :
    stmts (.closeComment :: ts) = stmts ts := rfl

/-- The statements of a piece, with the directives of the piece that govern them. -/
def read (pos : ℕ) (ts : List Tok) : List (StatementInst × List Governor) :=
  scan [] [] false pos ts

/-- Adds the directives before the blocks that a piece is in. -/
def under (gs : List Governor) (e : StatementInst × List Governor) :
    StatementInst × List Governor := (e.1, gs ++ e.2)

/-- The piece closes what it opens, and its directives govern what is inside. -/
structure Closed (ts : List Tok) : Prop where
  scan_append : ∀ scopes pos rest, scan scopes [] false pos (ts ++ rest) =
    (read pos ts).map (under scopes.reverse.flatten) ++ scan scopes [] false (pos + ts.length) rest
  fst : ∀ pos, (read pos ts).map Prod.fst = stmts ts

theorem map_under_nil (es : List (StatementInst × List Governor)) : es.map (under []) = es := by
  have hid : under [] = id := rfl
  rw [hid, List.map_id]

theorem map_under_under (gs hs : List Governor) (es : List (StatementInst × List Governor)) :
    (es.map (under hs)).map (under gs) = es.map (under (gs ++ hs)) := by
  rw [List.map_map]
  apply List.map_congr_left
  intro e _
  simp [under]

theorem map_fst_under (gs : List Governor) (es : List (StatementInst × List Governor)) :
    (es.map (under gs)).map Prod.fst = es.map Prod.fst := by
  rw [List.map_map]
  rfl

namespace Closed

theorem read_append {a : List Tok} (ha : Closed a) (pos : ℕ) (b : List Tok) :
    read pos (a ++ b) = read pos a ++ read (pos + a.length) b := by
  have h := ha.scan_append [] pos b
  rw [List.reverse_nil, List.flatten_nil, map_under_nil] at h
  exact h

theorem append {a b : List Tok} (ha : Closed a) (hb : Closed b) : Closed (a ++ b) where
  scan_append scopes pos rest := by
    rw [List.append_assoc, ha.scan_append, hb.scan_append, ha.read_append, List.map_append,
      List.append_assoc, List.length_append, Nat.add_assoc]
  fst pos := by
    rw [ha.read_append, List.map_append, ha.fst, hb.fst, stmts_append]

theorem nil : Closed [] where
  scan_append _ _ _ := rfl
  fst _ := rfl

theorem stmt (s : StatementInst) : Closed [.stmt s] where
  scan_append scopes pos rest := by simp [scan, read, under]
  fst _ := rfl

theorem comment : Closed [.openComment, .closeComment] where
  scan_append _ _ _ := by simp [scan, read, Nat.add_assoc]
  fst _ := rfl

theorem directive_stmt (d : Directive) (s : StatementInst) :
    Closed [.directive d, .stmt s] where
  scan_append scopes pos rest := by simp [scan, read, under, Nat.add_assoc]
  fst _ := rfl

/-- The directive before a block governs what is inside. -/
theorem read_directive_block {ts : List Tok} (h : Closed ts) (d : Directive) (pos : ℕ) :
    read pos (.directive d :: .lbrace :: (ts ++ [.rbrace])) =
      (read (pos + 2) ts).map (under [⟨pos, d⟩]) := by
  have hs := h.scan_append [[⟨pos, d⟩]] (pos + 2) [.rbrace]
  simpa [read, scan, Nat.add_assoc] using hs

theorem directive_block {ts : List Tok} (h : Closed ts) (d : Directive) :
    Closed (.directive d :: .lbrace :: (ts ++ [.rbrace])) where
  scan_append scopes pos rest := by
    have hs := h.scan_append ([⟨pos, d⟩] :: scopes) (pos + 2) (.rbrace :: rest)
    rw [h.read_directive_block, map_under_under]
    simp only [List.cons_append, List.append_assoc, List.nil_append, scan, Bool.false_eq_true,
      if_false, Nat.add_assoc, Nat.reduceAdd, hs, List.tail_cons, List.reverse_cons,
      List.flatten_append, List.flatten_cons, List.flatten_nil, List.append_nil,
      List.length_cons, List.length_append, List.length_nil]
    congr 2
    omega
  fst pos := by
    rw [h.read_directive_block, map_fst_under, h.fst]
    simp

theorem read_block {ts : List Tok} (h : Closed ts) (pos : ℕ) :
    read pos (.lbrace :: (ts ++ [.rbrace])) = read (pos + 1) ts := by
  have hs := h.scan_append [[]] (pos + 1) [.rbrace]
  simpa [read, scan, map_under_nil] using hs

theorem block {ts : List Tok} (h : Closed ts) : Closed (.lbrace :: (ts ++ [.rbrace])) where
  scan_append scopes pos rest := by
    have hs := h.scan_append ([] :: scopes) (pos + 1) (.rbrace :: rest)
    rw [h.read_block]
    simp only [List.cons_append, List.append_assoc, List.nil_append, scan, Bool.false_eq_true,
      if_false, Nat.add_assoc, hs, List.tail_cons, List.reverse_cons,
      List.flatten_append, List.flatten_cons, List.flatten_nil, List.append_nil,
      List.length_cons, List.length_append, List.length_nil]
    congr 2
    omega
  fst pos := by
    rw [h.read_block, h.fst]
    simp

end Closed

theorem stmts_map_stmt (ss : List StatementInst) : stmts (ss.map Tok.stmt) = ss := by
  induction ss with
  | nil => rfl
  | cons s ss ih => rw [List.map_cons, stmts_cons_stmt, ih]

theorem closed_stmts (ss : List StatementInst) : Closed (ss.map Tok.stmt) := by
  induction ss with
  | nil => exact Closed.nil
  | cons s ss ih => exact (Closed.stmt s).append ih

/-- The directives that govern a statement are in the piece. -/
theorem scan_pos {scopes : List (List Governor)} {pending : List Governor} {inComment : Bool}
    {pos : ℕ} {ts : List Tok} {e : StatementInst × List Governor}
    (he : e ∈ scan scopes pending inComment pos ts) {g : Governor} (hg : g ∈ e.2) :
    g ∈ scopes.flatten ∨ g ∈ pending ∨ (pos ≤ g.pos ∧ g.pos < pos + ts.length) := by
  induction ts generalizing scopes pending inComment pos with
  | nil => simp [scan] at he
  | cons t ts ih =>
    have hlen : pos + (t :: ts).length = pos + 1 + ts.length := by
      simp only [List.length_cons]
      omega
    rw [hlen]
    have hnext : ∀ {p : ℕ}, (pos + 1 ≤ p ∧ p < pos + 1 + ts.length) →
        pos ≤ p ∧ p < pos + 1 + ts.length := by
      intro p hp
      omega
    have hskip : ∀ {c : Bool}, e ∈ scan scopes pending c (pos + 1) ts →
        g ∈ scopes.flatten ∨ g ∈ pending ∨ (pos ≤ g.pos ∧ g.pos < pos + 1 + ts.length) := by
      intro c h
      exact (ih h).imp id fun h => h.imp id hnext
    cases t with
    | openComment => exact hskip he
    | closeComment => exact hskip he
    | directive d =>
      rw [scan] at he
      split at he
      · exact hskip he
      · rcases ih he with h | h | h
        · exact Or.inl h
        · rcases List.mem_append.1 h with h | h
          · exact Or.inr (Or.inl h)
          · have hg : g = ⟨pos, d⟩ := by simpa using h
            subst hg
            exact Or.inr (Or.inr ⟨Nat.le_refl _, by show pos < _; omega⟩)
        · exact Or.inr (Or.inr (hnext h))
    | lbrace =>
      rw [scan] at he
      split at he
      · exact hskip he
      · rcases ih he with h | h | h
        · rw [List.flatten_cons, List.mem_append] at h
          exact h.elim (fun h => Or.inr (Or.inl h)) Or.inl
        · simp at h
        · exact Or.inr (Or.inr (hnext h))
    | rbrace =>
      rw [scan] at he
      split at he
      · exact hskip he
      · rcases ih he with h | h | h
        · cases scopes with
          | nil => simp at h
          | cons sc scopes => exact Or.inl (by simp_all)
        · simp at h
        · exact Or.inr (Or.inr (hnext h))
    | stmt s =>
      rw [scan] at he
      split at he
      · exact hskip he
      · rcases List.mem_cons.1 he with h | h
        · subst h
          rcases List.mem_append.1 hg with h | h
          · exact Or.inl (by simpa using h)
          · exact Or.inr (Or.inl h)
        · rcases ih h with h | h | h
          · exact Or.inl h
          · simp at h
          · exact Or.inr (Or.inr (hnext h))

theorem read_pos {pos : ℕ} {ts : List Tok} {e : StatementInst × List Governor}
    (he : e ∈ read pos ts) {g : Governor} (hg : g ∈ e.2) :
    pos ≤ g.pos ∧ g.pos < pos + ts.length := by
  rcases scan_pos he hg with h | h | h
  · simp at h
  · simp at h
  · exact h

/-! ## A comment that stays open -/

/-- Statements are not read twice. -/
theorem length_scan_append_le (scopes : List (List Governor)) (pending : List Governor)
    (inComment : Bool) (pos : ℕ) (a b : List Tok) :
    (scan scopes pending inComment pos (a ++ b)).length ≤
      (scan scopes pending inComment pos a).length + (stmts b).length := by
  induction a generalizing scopes pending inComment pos with
  | nil =>
    simp only [List.nil_append, scan, List.length_nil, Nat.zero_add]
    induction b generalizing scopes pending inComment pos with
    | nil => simp [scan]
    | cons t b ih =>
      cases t with
      | openComment | closeComment => exact ih _ _ _ _
      | directive d =>
        rw [scan]
        split <;> exact ih _ _ _ _
      | lbrace | rbrace =>
        rw [scan]
        split <;> exact ih _ _ _ _
      | stmt s =>
        rw [scan]
        split
        · exact Nat.le_succ_of_le (ih _ _ _ _)
        · exact Nat.succ_le_succ (ih _ _ _ _)
  | cons t a ih =>
    rw [List.cons_append]
    cases t with
    | openComment | closeComment => exact ih _ _ _ _
    | directive d =>
      simp only [scan]
      split <;> exact ih _ _ _ _
    | lbrace | rbrace =>
      simp only [scan]
      split <;> exact ih _ _ _ _
    | stmt s =>
      simp only [scan]
      split
      · exact ih _ _ _ _
      · rw [List.length_cons, List.length_cons, Nat.add_right_comm]
        exact Nat.succ_le_succ (ih _ _ _ _)

theorem length_scan_le (scopes : List (List Governor)) (pending : List Governor)
    (inComment : Bool) (pos : ℕ) (ts : List Tok) :
    (scan scopes pending inComment pos ts).length ≤ (stmts ts).length := by
  simpa [scan] using length_scan_append_le scopes pending inComment pos [] ts

/-- A statement of the text is not read, wherever the text is. -/
def Loses (ts : List Tok) : Prop :=
  ∀ scopes pending inComment pos, (scan scopes pending inComment pos ts).length < (stmts ts).length

theorem Loses.cons (t : Tok) {ts : List Tok} (h : Loses ts) : Loses (t :: ts) := by
  intro scopes pending inComment pos
  cases t with
  | openComment | closeComment => exact h _ _ _ _
  | directive d =>
    rw [scan]
    split <;> exact h _ _ _ _
  | lbrace | rbrace =>
    rw [scan]
    split <;> exact h _ _ _ _
  | stmt s =>
    rw [scan]
    split
    · exact Nat.lt_succ_of_lt (h _ _ _ _)
    · exact Nat.succ_lt_succ (h _ _ _ _)

theorem Loses.append_left (a : List Tok) {b : List Tok} (h : Loses b) : Loses (a ++ b) := by
  induction a with
  | nil => exact h
  | cons t a ih => exact ih.cons t

theorem Loses.append_right {a : List Tok} (h : Loses a) (b : List Tok) : Loses (a ++ b) := by
  intro scopes pending inComment pos
  rw [stmts_append, List.length_append]
  exact lt_of_le_of_lt (length_scan_append_le scopes pending inComment pos a b)
    (Nat.add_lt_add_right (h scopes pending inComment pos) _)

/-- The statement that follows the comment is not read. -/
theorem loses_openComment_stmt (s : StatementInst) (ts : List Tok) :
    Loses (.openComment :: .stmt s :: ts) := by
  intro scopes pending inComment pos
  exact Nat.lt_succ_of_le (length_scan_le scopes pending true (pos + 1 + 1) ts)

theorem loses_openComment_directive (d : Directive) (s : StatementInst) (ts : List Tok) :
    Loses (.openComment :: .directive d :: .stmt s :: ts) := by
  intro scopes pending inComment pos
  exact Nat.lt_succ_of_le (length_scan_le scopes pending true (pos + 1 + 1 + 1) ts)

/-! ## Statements that are shared -/

/-- No directive of the piece governs its statements. -/
def Plain (ts : List Tok) : Prop := ∀ pos, ∀ e ∈ read pos ts, e.2 = []

theorem Plain.append {a b : List Tok} (hc : Closed a) (ha : Plain a) (hb : Plain b) :
    Plain (a ++ b) := by
  intro pos e he
  rw [hc.read_append] at he
  exact (List.mem_append.1 he).elim (ha _ e) (hb _ e)

theorem plain_stmts (ss : List StatementInst) : Plain (ss.map Tok.stmt) := by
  induction ss with
  | nil =>
    intro pos e he
    simp [read, scan] at he
  | cons s ss ih =>
    apply Plain.append (a := [.stmt s]) (Closed.stmt s) _ ih
    intro pos e he
    simp only [read, scan, Bool.false_eq_true, if_false, List.mem_singleton] at he
    rw [he]
    rfl

theorem plain_comment : Plain [.openComment, .closeComment] := by
  intro pos e he
  simp [read, scan] at he

/-- Every statement of the piece has one directive of the piece that shares the work. -/
def Shared (pos : ℕ) (ts : List Tok) : Prop := ∀ e ∈ read pos ts, SharedOnce e.2

theorem shared_append {a : List Tok} (ha : Closed a) (pos : ℕ) (b : List Tok) :
    Shared pos (a ++ b) ↔ Shared pos a ∧ Shared (pos + a.length) b := by
  unfold Shared
  rw [ha.read_append]
  exact List.forall_mem_append

theorem not_sharedOnce_nil : ¬ SharedOnce [] := by
  intro h
  obtain ⟨g, hg, _⟩ := h
  simp [units] at hg

theorem sharedOnce_single (pos : ℕ) : SharedOnce [⟨pos, .single⟩] :=
  ⟨⟨pos, .single⟩, rfl, fun h => by simp at h⟩

theorem sharedOnce_for (pos : ℕ) : SharedOnce [⟨pos, .for_⟩] :=
  ⟨⟨pos, .for_⟩, rfl, fun h => by simp at h⟩

theorem sharedOnce_section (pos pos' : ℕ) :
    SharedOnce [⟨pos, .sections⟩, ⟨pos', .section_⟩] :=
  ⟨⟨pos', .section_⟩, rfl, fun _ => ⟨⟨pos, .sections⟩, by simp, rfl⟩⟩

/-- Without directives, only a piece without statements is shared. -/
theorem Plain.shared_iff {ts : List Tok} (hc : Closed ts) (h : Plain ts) (pos : ℕ) :
    Shared pos ts ↔ stmts ts = [] := by
  constructor
  · intro hs
    rw [← hc.fst pos, List.map_eq_nil_iff]
    apply List.eq_nil_iff_forall_not_mem.2
    intro e he
    have hn := hs e he
    rw [h pos e he] at hn
    exact not_sharedOnce_nil hn
  · intro hs e he
    have hm : e.1 ∈ (read pos ts).map Prod.fst := List.mem_map_of_mem he
    rw [hc.fst, hs] at hm
    simp at hm

end Faust.Omp
