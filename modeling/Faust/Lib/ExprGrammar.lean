import Mathlib.Data.Rat.Defs
import Mathlib.Order.Filter.AtTopBot.Basic

/-!
# Expressions of the C family

The grammar of expressions that C, Java and JavaScript share: literals, names, members, array
elements, calls of one or two arguments, casts, unary and binary operators and the conditional.
`Expr` keeps the parentheses of the text, so that a text and its expression are two views of one
thing. The parser climbs the precedences; it has fuel, and a text is read as the result that
every large enough amount of fuel gives.

The names of types are reserved words: after an opening parenthesis they start a cast. Languages
without casts of this form are those with no such name.
-/

namespace ExprGrammar

open Filter

/-! ## Tokens and expressions -/

/-- The binary operators. -/
inductive Oper
  | add | sub | mul | div | rem | shl | shr | gt | lt | ge | le | eq | ne | and | or | xor
deriving DecidableEq, Repr

/-- The precedence of a binary operator, the same in the three languages. -/
def Oper.prec : Oper → ℕ
  | .or => 1
  | .xor => 2
  | .and => 3
  | .eq | .ne => 4
  | .gt | .lt | .ge | .le => 5
  | .shl | .shr => 6
  | .add | .sub => 7
  | .mul | .div | .rem => 8

/-- The tokens. A numeral is its value. -/
inductive Tok
  | name (x : String)
  | int (n : ℕ)
  | real (x : ℚ)
  | op (o : Oper)
  | tilde | lpar | rpar | lbrack | rbrack | comma | dot | question | colon
deriving DecidableEq, Repr

/-- The unary operators. -/
inductive UnOp
  | neg | plus | compl
deriving DecidableEq, Repr

/-- How a unary operator is written. -/
def UnOp.tok : UnOp → Tok
  | .neg => .op .sub
  | .plus => .op .add
  | .compl => .tilde

/-- The expressions. -/
inductive Expr
  | int (n : ℕ)
  | real (x : ℚ)
  | name (x : String)
  | member (a : Expr) (x : String)
  | index (a i : Expr)
  | call1 (f : String) (a : Expr)
  | call2 (f : String) (a b : Expr)
  | paren (a : Expr)
  | unary (o : UnOp) (a : Expr)
  | cast (t : String) (a : Expr)
  | binary (o : Oper) (a b : Expr)
  | cond (c t e : Expr)
deriving DecidableEq, Repr

namespace Expr

/-- The text of an expression. -/
def tokens : Expr → List Tok
  | .int n => [.int n]
  | .real x => [.real x]
  | .name x => [.name x]
  | .member a x => a.tokens ++ [.dot, .name x]
  | .index a i => a.tokens ++ .lbrack :: (i.tokens ++ [.rbrack])
  | .call1 f a => .name f :: .lpar :: (a.tokens ++ [.rpar])
  | .call2 f a b => .name f :: .lpar :: (a.tokens ++ .comma :: (b.tokens ++ [.rpar]))
  | .paren a => .lpar :: (a.tokens ++ [.rpar])
  | .unary o a => o.tok :: a.tokens
  | .cast t a => .lpar :: .name t :: .rpar :: a.tokens
  | .binary o a b => a.tokens ++ .op o :: b.tokens
  | .cond c t e => c.tokens ++ .question :: (t.tokens ++ .colon :: e.tokens)

/-- How tight an expression is: 0 for a conditional, 9 for a unary operator, 10 for what may be
indexed. -/
def prec : Expr → ℕ
  | .cond .. => 0
  | .binary o .. => o.prec
  | .unary .. | .cast .. => 9
  | _ => 10

@[simp] theorem prec_int (n : ℕ) : (int n).prec = 10 := rfl
@[simp] theorem prec_real (x : ℚ) : (real x).prec = 10 := rfl
@[simp] theorem prec_name (x : String) : (name x).prec = 10 := rfl
@[simp] theorem prec_member (a : Expr) (x : String) : (member a x).prec = 10 := rfl
@[simp] theorem prec_index (a i : Expr) : (index a i).prec = 10 := rfl
@[simp] theorem prec_call1 (f : String) (a : Expr) : (call1 f a).prec = 10 := rfl
@[simp] theorem prec_call2 (f : String) (a b : Expr) : (call2 f a b).prec = 10 := rfl
@[simp] theorem prec_paren (a : Expr) : (paren a).prec = 10 := rfl
@[simp] theorem prec_unary (o : UnOp) (a : Expr) : (unary o a).prec = 9 := rfl
@[simp] theorem prec_cast (t : String) (a : Expr) : (cast t a).prec = 9 := rfl
@[simp] theorem prec_binary (o : Oper) (a b : Expr) : (binary o a b).prec = o.prec := rfl
@[simp] theorem prec_cond (c t e : Expr) : (cond c t e).prec = 0 := rfl

/-- The operands are tight enough for the operators they stand under, and the names of types
are used in casts only. -/
def Fits (types : String → Bool) : Expr → Prop
  | .int _ | .real _ => True
  | .name x => types x = false
  | .member a _ => a.Fits types ∧ a.prec = 10
  | .index a i => a.Fits types ∧ a.prec = 10 ∧ i.Fits types
  | .call1 f a => types f = false ∧ a.Fits types
  | .call2 f a b => types f = false ∧ a.Fits types ∧ b.Fits types
  | .paren a => a.Fits types
  | .unary _ a => a.Fits types ∧ 9 ≤ a.prec
  | .cast t a => types t = true ∧ a.Fits types ∧ 9 ≤ a.prec
  | .binary o a b => a.Fits types ∧ o.prec ≤ a.prec ∧ b.Fits types ∧ o.prec < b.prec
  | .cond c t e => c.Fits types ∧ 1 ≤ c.prec ∧ t.Fits types ∧ e.Fits types

end Expr

/-! ## The parser -/

section
variable (types : String → Bool)

mutual

/-- Reads a conditional expression. -/
def readExpr : ℕ → List Tok → Option (Expr × List Tok)
  | 0, _ => none
  | n + 1, ts => do
    let (c, ts) ← readBinary n 1 ts
    match ts with
    | .question :: ts => do
      let (t, ts) ← readExpr n ts
      match ts with
      | .colon :: ts => do
        let (e, ts) ← readExpr n ts
        return (.cond c t e, ts)
      | _ => none
    | ts => return (c, ts)

/-- Reads binary operators of precedence at least `p`. -/
def readBinary : ℕ → ℕ → List Tok → Option (Expr × List Tok)
  | 0, _, _ => none
  | n + 1, p, ts => do
    let (a, ts) ← readUnary n ts
    readOperators n p a ts

/-- Reads the operators of precedence at least `p` that follow the operand `a`. -/
def readOperators : ℕ → ℕ → Expr → List Tok → Option (Expr × List Tok)
  | 0, _, _, _ => none
  | n + 1, p, a, ts =>
    match ts with
    | .op o :: ts' =>
      if p ≤ o.prec then do
        let (b, ts) ← readBinary n (o.prec + 1) ts'
        readOperators n p (.binary o a b) ts
      else some (a, ts)
    | ts => some (a, ts)

/-- Reads unary operators and casts. -/
def readUnary : ℕ → List Tok → Option (Expr × List Tok)
  | 0, _ => none
  | n + 1, ts =>
    match ts with
    | .op .sub :: ts => do
      let (a, ts) ← readUnary n ts
      return (.unary .neg a, ts)
    | .op .add :: ts => do
      let (a, ts) ← readUnary n ts
      return (.unary .plus a, ts)
    | .tilde :: ts => do
      let (a, ts) ← readUnary n ts
      return (.unary .compl a, ts)
    | .lpar :: .name t :: ts' =>
      if types t then
        match ts' with
        | .rpar :: ts => do
          let (a, ts) ← readUnary n ts
          return (.cast t a, ts)
        | _ => none
      else readAccess n ts
    | ts => readAccess n ts

/-- Reads a primary expression and the indices and members that follow it. -/
def readAccess : ℕ → List Tok → Option (Expr × List Tok)
  | 0, _ => none
  | n + 1, ts => do
    let (a, ts) ← readPrimary n ts
    readSuffixes n a ts

/-- Reads the indices and members that follow `a`. -/
def readSuffixes : ℕ → Expr → List Tok → Option (Expr × List Tok)
  | 0, _, _ => none
  | n + 1, a, ts =>
    match ts with
    | .lbrack :: ts => do
      let (i, ts) ← readExpr n ts
      match ts with
      | .rbrack :: ts => readSuffixes n (.index a i) ts
      | _ => none
    | .dot :: ts =>
      match ts with
      | .name x :: ts => readSuffixes n (.member a x) ts
      | _ => none
    | ts => some (a, ts)

/-- Reads a literal, a name, a call or a parenthesised expression. -/
def readPrimary : ℕ → List Tok → Option (Expr × List Tok)
  | 0, _ => none
  | n + 1, ts =>
    match ts with
    | .int k :: ts => some (.int k, ts)
    | .real x :: ts => some (.real x, ts)
    | .name f :: .lpar :: ts => do
      let (a, ts) ← readExpr n ts
      match ts with
      | .rpar :: ts => return (.call1 f a, ts)
      | .comma :: ts => do
        let (b, ts) ← readExpr n ts
        match ts with
        | .rpar :: ts => return (.call2 f a b, ts)
        | _ => none
      | _ => none
    | .name x :: ts => some (.name x, ts)
    | .lpar :: ts => do
      let (a, ts) ← readExpr n ts
      match ts with
      | .rpar :: ts => return (.paren a, ts)
      | _ => none
    | _ => none

end

/-- The text is read as the expression. -/
def Reads (ts : List Tok) (e : Expr) : Prop :=
  ∀ᶠ n in atTop, readExpr types n ts = some (e, [])

variable {types}

/-- A text is read in one way at most. -/
theorem Reads.unique {ts : List Tok} {e e' : Expr} (h : Reads types ts e)
    (h' : Reads types ts e') : e = e' := by
  obtain ⟨n, hn, hn'⟩ := (h.and h').exists
  rw [hn] at hn'
  simpa using hn'

/-! ## Reading back

A text in which an expression stands continues with what cannot belong to it.
-/

/-- What follows an expression of precedence `q` is not part of it. -/
def Follows (q : ℕ) : List Tok → Prop
  | .op o :: _ => o.prec ≤ q
  | .lbrack :: _ | .dot :: _ | .lpar :: _ => False
  | _ => True

/-- What follows a name does not make it a call. -/
def NoCall : List Tok → Prop
  | .lpar :: _ => False
  | _ => True

/-- What follows a whole expression is not part of it. -/
def Ends : List Tok → Prop
  | .op _ :: _ | .lbrack :: _ | .dot :: _ | .lpar :: _ | .question :: _ => False
  | _ => True

theorem Oper.prec_pos (o : Oper) : 1 ≤ o.prec := by cases o <;> decide

theorem Oper.prec_le (o : Oper) : o.prec ≤ 8 := by cases o <;> decide

theorem Ends.follows {q : ℕ} {ts : List Tok} (h : Ends ts) : Follows q ts := by
  match ts, h with
  | [], _ => trivial
  | t :: ts, h => cases t <;> trivial

theorem Follows.mono {q q' : ℕ} {ts : List Tok} (h : Follows q ts) (hq : q ≤ q') :
    Follows q' ts := by
  match ts, h with
  | [], _ => trivial
  | .op o :: ts, h => exact le_trans (show o.prec ≤ q from h) hq
  | .name _ :: _, _ | .int _ :: _, _ | .real _ :: _, _ | .tilde :: _, _ | .rpar :: _, _
  | .rbrack :: _, _ | .comma :: _, _ | .question :: _, _ | .colon :: _, _ => trivial

theorem Follows.noCall {q : ℕ} {ts : List Tok} (h : Follows q ts) : NoCall ts := by
  match ts, h with
  | [], _ => trivial
  | t :: ts, h => cases t <;> trivial

theorem Follows.unary {q : ℕ} {ts : List Tok} (h : Follows q ts) : Follows 9 ts := by
  match ts, h with
  | [], _ => trivial
  | .op o :: ts, _ => exact o.prec_le.trans (by decide)
  | .name _ :: _, _ | .int _ :: _, _ | .real _ :: _, _ | .tilde :: _, _ | .rpar :: _, _
  | .rbrack :: _, _ | .comma :: _, _ | .question :: _, _ | .colon :: _, _ => trivial

/-- Fuel can be spent. -/
theorem eventually_succ {P : ℕ → Prop} (h : ∀ᶠ n in atTop, P (n + 1)) : ∀ᶠ n in atTop, P n := by
  rw [← map_add_atTop_eq_nat 1]
  exact h

/-- What holds of large amounts of fuel holds with one more. -/
theorem eventually_of_succ {P : ℕ → Prop} (h : ∀ᶠ n in atTop, P n) : ∀ᶠ n in atTop, P (n + 1) := by
  rw [← map_add_atTop_eq_nat 1] at h
  exact h

/-- What follows is left alone by the reader of suffixes. -/
theorem readSuffixes_follows {q : ℕ} {e : Expr} {ts : List Tok} (h : Follows q ts) :
    ∀ᶠ n in atTop, readSuffixes types n e ts = some (e, ts) := by
  apply eventually_succ
  filter_upwards with n
  match ts, h with
  | [], _ => simp [readSuffixes]
  | t :: ts, h => cases t <;> simp_all [Follows, readSuffixes]

/-- What follows is left alone by the reader of operators that are tighter. -/
theorem readOperators_follows {p q : ℕ} {e : Expr} {ts : List Tok} (h : Follows q ts)
    (hq : q < p) : ∀ᶠ n in atTop, readOperators types n p e ts = some (e, ts) := by
  apply eventually_succ
  filter_upwards with n
  match ts, h with
  | [], _ => simp [readOperators]
  | .op o :: ts, h =>
    have hp : ¬ p ≤ o.prec := by
      simp only [Follows] at h
      omega
    simp [readOperators, hp]
  | .name _ :: _, _ | .int _ :: _, _ | .real _ :: _, _ | .tilde :: _, _ | .rpar :: _, _
  | .rbrack :: _, _ | .comma :: _, _ | .question :: _, _ | .colon :: _, _ => simp [readOperators]

/-- How the parts of the parser read the text of `e`. -/
structure Readable (types : String → Bool) (e : Expr) : Prop where
  access : e.prec = 10 → ∀ ts r, NoCall ts → (∀ᶠ n in atTop, readSuffixes types n e ts = r) →
    ∀ᶠ n in atTop, readAccess types n (e.tokens ++ ts) = r
  unary : 9 ≤ e.prec → ∀ ts, Follows 9 ts →
    ∀ᶠ n in atTop, readUnary types n (e.tokens ++ ts) = some (e, ts)
  binary : ∀ p, 1 ≤ p → p ≤ e.prec → ∀ ts r, Follows e.prec ts →
    (∀ᶠ n in atTop, readOperators types n p e ts = r) →
    ∀ᶠ n in atTop, readBinary types n p (e.tokens ++ ts) = r
  expr : ∀ ts, Ends ts → ∀ᶠ n in atTop, readExpr types n (e.tokens ++ ts) = some (e, ts)

namespace Readable

/-- A unary expression is a binary one without operators. -/
theorem binary_of_unary {e : Expr}
    (h : ∀ ts, Follows 9 ts → ∀ᶠ n in atTop, readUnary types n (e.tokens ++ ts) = some (e, ts))
    (p : ℕ) (ts : List Tok) (r : Option (Expr × List Tok)) (hts : Follows e.prec ts)
    (hr : ∀ᶠ n in atTop, readOperators types n p e ts = r) :
    ∀ᶠ n in atTop, readBinary types n p (e.tokens ++ ts) = r := by
  apply eventually_succ
  filter_upwards [h ts hts.unary, hr] with n hn hrn
  simp [readBinary, hn, hrn]

/-- A binary expression is a conditional one without question mark. -/
theorem expr_of_binary {e : Expr} (he : 1 ≤ e.prec)
    (h : ∀ p, 1 ≤ p → p ≤ e.prec → ∀ ts r, Follows e.prec ts →
      (∀ᶠ n in atTop, readOperators types n p e ts = r) →
      ∀ᶠ n in atTop, readBinary types n p (e.tokens ++ ts) = r)
    (ts : List Tok) (hts : Ends ts) :
    ∀ᶠ n in atTop, readExpr types n (e.tokens ++ ts) = some (e, ts) := by
  have hb := h 1 le_rfl he ts (some (e, ts)) hts.follows
    (readOperators_follows (q := 0) hts.follows one_pos)
  apply eventually_succ
  filter_upwards [hb] with n hn
  rw [readExpr, hn]
  match ts, hts with
  | [], _ => rfl
  | t :: ts, hts => cases t <;> simp_all [Ends]

/-- What reads a unary operator reads the rest. -/
theorem of_unary {e : Expr} (he : e.prec = 9)
    (h : ∀ ts, Follows 9 ts → ∀ᶠ n in atTop, readUnary types n (e.tokens ++ ts) = some (e, ts)) :
    Readable types e where
  access h10 := by omega
  unary _ := h
  binary p _ _ := binary_of_unary h p
  expr := expr_of_binary (by omega) fun p _ _ => binary_of_unary h p

/-- What reads binary operators reads the rest. -/
theorem of_binary {e : Expr} (h0 : 1 ≤ e.prec) (h8 : e.prec ≤ 8)
    (h : ∀ p, 1 ≤ p → p ≤ e.prec → ∀ ts r, Follows e.prec ts →
      (∀ᶠ n in atTop, readOperators types n p e ts = r) →
      ∀ᶠ n in atTop, readBinary types n p (e.tokens ++ ts) = r) :
    Readable types e where
  access h10 := by omega
  unary h9 := by omega
  binary := h
  expr := expr_of_binary h0 h

end Readable

/-- The text of an expression does not start with the name of a type. -/
theorem types_of_tokens_eq {e : Expr} (hf : e.Fits types) {ts us : List Tok} {t : String}
    (h : e.tokens ++ ts = .name t :: us) : types t = false := by
  induction e generalizing ts us with
  | int | real | paren | cast => simp [Expr.tokens] at h
  | name x | call1 f a | call2 f a b =>
    simp only [Expr.tokens, List.cons_append, List.cons.injEq, Tok.name.injEq] at h
    simp only [Expr.Fits] at hf
    rw [← h.1]
    first | exact hf | exact hf.1
  | unary o a => cases o <;> simp [Expr.tokens, UnOp.tok] at h
  | member a x ih | index a i ih | binary o a b ih | cond c t e ih =>
    simp only [Expr.tokens, List.append_assoc] at h
    exact ih hf.1 h

/-- What may be indexed is not taken for a unary operator or a cast. -/
theorem readUnary_access {e : Expr} (hf : e.Fits types) (he : e.prec = 10) (n : ℕ)
    (ts : List Tok) :
    readUnary types (n + 1) (e.tokens ++ ts) = readAccess types n (e.tokens ++ ts) := by
  induction e generalizing ts with
  | int | real | name | call1 | call2 => simp [Expr.tokens, readUnary]
  | member a x ih =>
    simp only [Expr.tokens, List.append_assoc]
    exact ih hf.1 hf.2 _
  | index a i ih =>
    simp only [Expr.tokens, List.append_assoc]
    exact ih hf.1 hf.2.1 _
  | paren a =>
    simp only [Expr.tokens, List.cons_append, List.append_assoc, List.nil_append]
    -- after the parenthesis a name could only be the type of a cast
    generalize hts : a.tokens ++ .rpar :: ts = us
    match us with
    | [] => simp [readUnary]
    | t :: us =>
      cases t with
      | name t =>
        have ha : a.Fits types := hf
        have ht : types t = false := types_of_tokens_eq ha hts
        simp [readUnary, ht]
      | _ => simp [readUnary]
  | unary | cast => simp [Expr.prec] at he
  | binary o a b =>
    have := o.prec_le
    simp only [Expr.prec] at he
    omega
  | cond => simp [Expr.prec] at he

/-- What reads as something that may be indexed reads the rest. -/
theorem Readable.of_access {e : Expr} (hf : e.Fits types) (he : e.prec = 10)
    (h : ∀ ts r, NoCall ts → (∀ᶠ n in atTop, readSuffixes types n e ts = r) →
      ∀ᶠ n in atTop, readAccess types n (e.tokens ++ ts) = r) : Readable types e := by
  have hu : ∀ ts, Follows 9 ts →
      ∀ᶠ n in atTop, readUnary types n (e.tokens ++ ts) = some (e, ts) := by
    intro ts hts
    apply eventually_succ
    filter_upwards [h ts _ hts.noCall (readSuffixes_follows hts)] with n hn
    rw [readUnary_access hf he, hn]
  exact {
    access := fun _ => h
    unary := fun _ => hu
    binary := fun p _ _ => binary_of_unary hu p
    expr := expr_of_binary (by omega) fun p _ _ => binary_of_unary hu p }

/-- The text of an expression that fits is read back. -/
theorem readable {e : Expr} (hf : e.Fits types) : Readable types e := by
  induction e with
  | int | real =>
    apply Readable.of_access hf rfl
    intro ts r hc hr
    apply eventually_succ
    apply eventually_succ
    filter_upwards [eventually_of_succ hr] with n hn
    simpa [readAccess, readPrimary, Expr.tokens] using hn
  | name x =>
    apply Readable.of_access hf rfl
    intro ts r hc hr
    apply eventually_succ
    apply eventually_succ
    filter_upwards [eventually_of_succ hr] with n hn
    match ts, hc with
    | [], _ => simpa [readAccess, readPrimary, Expr.tokens] using hn
    | t :: ts, hc => cases t <;> simp_all [readAccess, readPrimary, Expr.tokens, NoCall]
  | member a x ih =>
    apply Readable.of_access hf rfl
    intro ts r hc hr
    have hm : ∀ᶠ n in atTop, readSuffixes types n a (.dot :: .name x :: ts) = r := by
      apply eventually_succ
      filter_upwards [hr] with n hn
      simpa [readSuffixes] using hn
    simpa [Expr.tokens] using (ih hf.1).access hf.2 (.dot :: .name x :: ts) r trivial hm
  | index a i iha ihi =>
    apply Readable.of_access hf rfl
    intro ts r hc hr
    have hi := (ihi hf.2.2).expr (.rbrack :: ts) trivial
    have hm : ∀ᶠ n in atTop,
        readSuffixes types n a (.lbrack :: (i.tokens ++ .rbrack :: ts)) = r := by
      apply eventually_succ
      filter_upwards [hr, hi] with n hn hin
      simpa [readSuffixes, hin] using hn
    simpa [Expr.tokens] using (iha hf.1).access hf.2.1
      (.lbrack :: (i.tokens ++ .rbrack :: ts)) r trivial hm
  | call1 f a ih =>
    apply Readable.of_access hf rfl
    intro ts r hc hr
    have ha := (ih hf.2).expr (.rpar :: ts) trivial
    apply eventually_succ
    apply eventually_succ
    filter_upwards [eventually_of_succ hr, ha] with n hn han
    simpa [readAccess, readPrimary, Expr.tokens, han] using hn
  | call2 f a b iha ihb =>
    apply Readable.of_access hf rfl
    intro ts r hc hr
    have ha := (iha hf.2.1).expr (.comma :: (b.tokens ++ .rpar :: ts)) trivial
    have hb := (ihb hf.2.2).expr (.rpar :: ts) trivial
    apply eventually_succ
    apply eventually_succ
    filter_upwards [eventually_of_succ hr, ha, hb] with n hn han hbn
    simpa [readAccess, readPrimary, Expr.tokens, han, hbn] using hn
  | paren a ih =>
    apply Readable.of_access hf rfl
    intro ts r hc hr
    have ha := (ih hf).expr (.rpar :: ts) trivial
    apply eventually_succ
    apply eventually_succ
    filter_upwards [eventually_of_succ hr, ha] with n hn han
    simpa [readAccess, readPrimary, Expr.tokens, han] using hn
  | unary o a ih =>
    apply Readable.of_unary rfl
    intro ts hts
    apply eventually_succ
    filter_upwards [(ih hf.1).unary hf.2 ts hts] with n hn
    cases o <;> simp [readUnary, Expr.tokens, UnOp.tok, hn]
  | cast t a ih =>
    apply Readable.of_unary rfl
    intro ts hts
    apply eventually_succ
    filter_upwards [(ih hf.2.1).unary hf.2.2 ts hts] with n hn
    simp [readUnary, Expr.tokens, hf.1, hn]
  | binary o a b iha ihb =>
    apply Readable.of_binary (e := .binary o a b) o.prec_pos o.prec_le
    intro p hp1 hpo ts r hts hr
    obtain ⟨hfa, hoa, hfb, hob⟩ := hf
    change p ≤ o.prec at hpo
    change Follows o.prec ts at hts
    -- the right operand ends where an operator as loose as `o` follows
    have hb : ∀ᶠ n in atTop, readBinary types n (o.prec + 1) (b.tokens ++ ts) = some (b, ts) :=
      (ihb hfb).binary (o.prec + 1) (by omega) hob ts _ (hts.mono hob.le)
        (readOperators_follows hts (Nat.lt_succ_self _))
    have hm : ∀ᶠ n in atTop, readOperators types n p a (.op o :: (b.tokens ++ ts)) = r := by
      apply eventually_succ
      filter_upwards [hr, hb] with n hn hbn
      simpa [readOperators, hpo, hbn] using hn
    have ho : Follows a.prec (.op o :: (b.tokens ++ ts)) := hoa
    simpa [Expr.tokens] using (iha hfa).binary p hp1 (hpo.trans hoa) _ r ho hm
  | cond c t e ihc iht ihe =>
    obtain ⟨hfc, hpc, hft, hfe⟩ := hf
    refine ⟨fun h => ?_, fun h => ?_, fun p h1 h => ?_, fun ts hts => ?_⟩
    · simp [Expr.prec] at h
    · simp [Expr.prec] at h
    · simp only [Expr.prec] at h
      omega
    · let us := Tok.question :: (t.tokens ++ .colon :: (e.tokens ++ ts))
      have hc : ∀ᶠ n in atTop, readBinary types n 1 (c.tokens ++ us) = some (c, us) :=
        (ihc hfc).binary 1 le_rfl hpc us _ trivial
          (readOperators_follows (q := 0) trivial one_pos)
      have ht := (iht hft).expr (.colon :: (e.tokens ++ ts)) trivial
      have he := (ihe hfe).expr ts hts
      apply eventually_succ
      filter_upwards [hc, ht, he] with n hcn htn hen
      simp [readExpr, Expr.tokens, us] at hcn ⊢
      simp [hcn, htn, hen]

/-- An expression that fits is what its text is read as. -/
theorem reads_tokens {e : Expr} (hf : e.Fits types) : Reads types e.tokens e := by
  have h := (readable hf).expr [] trivial
  simpa [Reads] using h

end

end ExprGrammar
