import Faust.Signals.SigTypeRules

/-!
# The types of tables

A table type is coded by its content alone, and a new one is made from its content alone. So
the table types that are made, in whatever order, have the fields of their content.
-/

namespace Faust

open Faust.Tree AudioType

/-! ## The memo of types -/

/-- The types with the fields of a simple type or of their content. -/
inductive Canonical : AudioType → Prop
  | simple (t : SimpleType) : Canonical (.simple t)
  | table {ct : AudioType} (h : Canonical ct) : Canonical (tableType ct)

theorem codeSimpleType_injective : Function.Injective codeSimpleType := by
  intro t u h
  obtain ⟨n, v, c, vec, b, ⟨valid, lo, hi, _⟩⟩ := t
  obtain ⟨n', v', c', vec', b', ⟨valid', lo', hi', _⟩⟩ := u
  simp only [codeSimpleType, leaf, Tree.node.injEq, List.cons.injEq, Node.int.injEq,
    Node.double.injEq, Nat.cast_inj, and_true, true_and] at h
  obtain ⟨hn, rfl, rfl, rfl, rfl, hvalid, rfl, rfl⟩ := h
  have hn : n = n' := by
    cases n <;> cases n' <;> first | rfl | simp at hn
  have hvalid : valid = valid' := by
    cases valid <;> cases valid' <;> first | rfl | simp at hvalid
  subst hn hvalid
  rfl

/-- Different types have different codes. -/
theorem codeAudioType_injective {t u : AudioType} (ht : Canonical t) (hu : Canonical u)
    (h : codeAudioType t = codeAudioType u) : t = u := by
  induction ht generalizing u with
  | simple t =>
    cases hu with
    | simple u =>
      have htu : codeSimpleType t = codeSimpleType u := by simpa only [codeAudioType] using h
      rw [codeSimpleType_injective htu]
    | table _ => simp [tableType, codeAudioType, codeSimpleType] at h
  | table _ ih =>
    cases hu with
    | simple u => simp [tableType, codeAudioType, codeSimpleType] at h
    | table hd => rw [ih hd (by simpa [tableType, codeAudioType] using h)]

/-- What holds of `gMemoizedTypes` whatever types are made. -/
def MemoOK (memo : TypeMemo) : Prop :=
  ∀ code t, memo code = some t → Canonical t ∧ codeAudioType t = code

section
variable {memo : TypeMemo} {prototype new : AudioType}

/-- Types are made anew, or found as they would be made. -/
theorem memoize_eq (h : MemoOK memo) (hn : Canonical new)
    (hc : codeAudioType prototype = codeAudioType new) : (memoize prototype new memo).1 = new := by
  unfold memoize
  split
  · rename_i t ht
    obtain ⟨hcan, hcode⟩ := h _ t ht
    exact codeAudioType_injective hcan hn (hcode.trans hc)
  · rfl

theorem memoize_memo (h : MemoOK memo) (hn : Canonical new)
    (hc : codeAudioType prototype = codeAudioType new) : MemoOK (memoize prototype new memo).2 := by
  unfold memoize
  split
  · exact h
  · intro code t ht
    by_cases heq : code = codeAudioType prototype
    · subst heq
      have ht : new = t := by simpa using ht
      subst ht
      exact ⟨hn, hc.symm⟩
    · have ht : memo code = some t := by simpa [Function.update_of_ne heq] using ht
      exact h code t ht

end

/-- The calls that make types. The content of a table is a type that was made. -/
inductive TypesMade : TypeMemo → List AudioType → Prop
  | start : TypesMade (fun _ => none) []
  | simple {memo ts} (t : SimpleType) (h : TypesMade memo ts) :
      TypesMade (makeSimpleType t memo).2 ((makeSimpleType t memo).1 :: ts)
  | table {memo ts ct} (hct : ct ∈ ts) (h : TypesMade memo ts) :
      TypesMade (makeTableType ct memo).2 ((makeTableType ct memo).1 :: ts)
  | tableWith {memo ts ct} (n : Nature) (v c vec : ℕ) (hct : ct ∈ ts) (h : TypesMade memo ts) :
      TypesMade (makeTableTypeWith ct n v c vec memo).2
        ((makeTableTypeWith ct n v c vec memo).1 :: ts)
  | tableFull {memo ts ct} (n : Nature) (v c vec b : ℕ) (i : Interval) (hct : ct ∈ ts)
      (h : TypesMade memo ts) :
      TypesMade (makeTableTypeFull ct n v c vec b i memo).2
        ((makeTableTypeFull ct n v c vec b i memo).1 :: ts)

theorem TypesMade.memoOK {memo : TypeMemo} {ts : List AudioType} (h : TypesMade memo ts) :
    MemoOK memo ∧ ∀ t ∈ ts, Canonical t := by
  induction h with
  | start => simp [MemoOK]
  | simple t _ ih =>
    obtain ⟨hM, hts⟩ := ih
    have hn := Canonical.simple t
    refine ⟨memoize_memo hM hn rfl, List.forall_mem_cons.mpr ⟨?_, hts⟩⟩
    rwa [makeSimpleType, memoize_eq hM hn rfl]
  | table hct _ ih =>
    obtain ⟨hM, hts⟩ := ih
    have hn := (hts _ hct).table
    refine ⟨memoize_memo hM hn rfl, List.forall_mem_cons.mpr ⟨?_, hts⟩⟩
    rwa [makeTableType, memoize_eq hM hn rfl]
  | tableWith n v c vec hct _ ih =>
    obtain ⟨hM, hts⟩ := ih
    have hn := (hts _ hct).table
    refine ⟨memoize_memo hM hn rfl, List.forall_mem_cons.mpr ⟨?_, hts⟩⟩
    rwa [makeTableTypeWith, memoize_eq hM hn (by rfl)]
  | tableFull n v c vec b i hct _ ih =>
    obtain ⟨hM, hts⟩ := ih
    have hn := (hts _ hct).table
    refine ⟨memoize_memo hM hn rfl, List.forall_mem_cons.mpr ⟨?_, hts⟩⟩
    rwa [makeTableTypeFull, memoize_eq hM hn (by rfl)]

/-- The type carries the attributes. -/
def Carries (t : AudioType) (n : Nature) (v c vec : ℕ) : Prop :=
  t.fields.nature.join n = t.fields.nature ∧ t.fields.variability ||| v = t.fields.variability ∧
    t.fields.computability ||| c = t.fields.computability ∧
    t.fields.vectorability ||| vec = t.fields.vectorability

/-- A table type carries the attributes it is made with when its content does. -/
theorem makeTableTypeWith_carries {memo : TypeMemo} {ts : List AudioType} (h : TypesMade memo ts)
    {ct : AudioType} (hct : ct ∈ ts) (n : Nature) (v c vec : ℕ) :
    Carries (makeTableTypeWith ct n v c vec memo).1 n v c vec ↔ Carries ct n v c vec := by
  obtain ⟨hM, hts⟩ := h.memoOK
  have heq : (makeTableTypeWith ct n v c vec memo).1 = tableType ct :=
    memoize_eq hM (hts ct hct).table rfl
  rw [heq]
  rfl

/-! ## Signals -/

/-- The elements of a list. -/
def listElements : Tree → List Tree
  | .node (.sym .cons) [hd, tl] => hd :: listElements tl
  | _ => []

/-- `getSubSignals`. -/
def getSubSignals (visitgen : Bool) : Tree → Option (List Tree)
  | .node (.sym (.xtended _)) br | .node (.sym .sigWaveform) br => some br
  | .node (.int _) _ | .node (.double _) _ => some []
  | .node (.sym .sigInput) [.node (.int _) _] => some []
  | .node (.sym .sigOutput) [.node (.int _) _, x] | .node (.sym .sigDelay1) [x] => some [x]
  | .node (.sym .sigFixDelay) [x, y] | .node (.sym .sigPrefix) [x, y] => some [x, y]
  | .node (.sym .sigIota) [x] => some [x]
  | .node (.sym .sigBinOp) [.node (.int _) _, x, y] => some [x, y]
  | .node (.sym .sigFFun) [_, largs] => some (listElements largs)
  | .node (.sym .sigFConst) [_, _, _] | .node (.sym .sigFVar) [_, _, _] => some []
  | .node (.sym .sigTable) [_, x, y] | .node (.sym .sigRDTbl) [x, y] => some [x, y]
  | .node (.sym .sigWRTbl) [_, x, y, z] => some [x, y, z]
  | .node (.sym .sigDocConstantTbl) [x, y] | .node (.sym .sigDocAccessTbl) [x, y] =>
    some [x, y]
  | .node (.sym .sigDocWriteTbl) [x, y, u, v] => some [x, y, u, v]
  | .node (.sym .sigSelect2) [sel, x, y] => some [sel, x, y]
  | .node (.sym .sigSelect3) [sel, x, y, z] => some [sel, x, y, z]
  | .node (.sym .sigGen) [x] => some (if visitgen then [x] else [])
  | .node (.sym .sigProj) [.node (.int _) _, x] | .node (.sym .symRec) [x] => some [x]
  | .node (.sym .sigIntCast) [x] | .node (.sym .sigFloatCast) [x] => some [x]
  | .node (.sym .sigButton) [_] | .node (.sym .sigCheckbox) [_] => some []
  | .node (.sym .sigVSlider) [_, _] | .node (.sym .sigHSlider) [_, _]
  | .node (.sym .sigNumEntry) [_, _] => some []
  | .node (.sym .sigVBargraph) [_, _, _, x] | .node (.sym .sigHBargraph) [_, _, _, x] =>
    some [x]
  | .node (.sym .sigAttach) [x, y] => some [x, y]
  | .node (.sym .cons) [hd, tl] => some [hd, tl]
  | .node (.sym .nil) _ => some []
  | _ => none

/-- The nodes that are not signals by themselves: lists, recursive groups and tables. -/
def IsSpecial (n : Node) : Prop :=
  n ∈ [Node.sym .cons, .sym .nil, .sym .symRec, .sym .sigGen, .sym .sigTable, .sym .sigWRTbl,
    .sym .sigRDTbl]

/-- The signals that the constructors of `signals.cpp` build. Tables are read, or written and
read; a recursive group is projected. -/
inductive IsSignal : Tree → Prop
  | proj (i : ℤ) (v : Sym) : IsSignal (sigProj i (symRef v))
  | readOnly {id n s ri : Tree} (hn : IsSignal n) (hs : IsSignal s) (hri : IsSignal ri) :
      IsSignal (sigRDTbl (sigTable id n (sigGen s)) ri)
  | readWrite {id id' n s wi ws ri : Tree} (hn : IsSignal n) (hs : IsSignal s)
      (hwi : IsSignal wi) (hws : IsSignal ws) (hri : IsSignal ri) :
      IsSignal (sigRDTbl (sigWRTbl id' (sigTable id n (sigGen s)) wi ws) ri)
  | node {n : Node} {br ss : List Tree} (hn : ¬ IsSpecial n) (hp : n ≠ .sym .sigProj)
      (hss : getSubSignals true (.node n br) = some ss) (h : ∀ s ∈ ss, IsSignal s) :
      IsSignal (.node n br)

/-- The lists of signals. -/
def IsSignalList (l : Tree) : Prop := ∃ ss : List Tree, l = ofList ss ∧ ∀ s ∈ ss, IsSignal s

/-! ## What is known of the types of visited trees -/

/-- The tree has the type `t` in a typing. -/
inductive TypedAs (σ : Typing) : Tree → AudioType → Prop
  | group (v : Sym) (ts : List SimpleType) (f : SimpleType) :
      TypedAs σ (symRef v) (.tuplet (ts.map .simple) f)
  | nil (f : SimpleType) : TypedAs σ nil (.tuplet [] f)
  | cons (hd tl : Tree) (ts : List SimpleType) (f : SimpleType) :
      TypedAs σ (cons hd tl) (.tuplet (ts.map .simple) f)
  | gen (s : Tree) (c : SimpleType) : TypedAs σ (sigGen s) (.simple c)
  | table {id n s : Tree} {c : SimpleType} (hc : σ.fType (sigGen s) = some (.simple c)) :
      TypedAs σ (sigTable id n (sigGen s)) (tableType (.simple c))
  | write {id id' n s wi ws : Tree} {c w d : SimpleType}
      (hc : σ.fType (sigGen s) = some (.simple c)) (hw : σ.fType wi = some (.simple w))
      (hd : σ.fType ws = some (.simple d)) :
      TypedAs σ (sigWRTbl id' (sigTable id n (sigGen s)) wi ws) (tableType (.simple c))
  | readOnly {id n s ri : Tree} {c i r : SimpleType}
      (hc : σ.fType (sigGen s) = some (.simple c)) (hi : σ.fType ri = some (.simple i))
      (hr : r.variability = i.variability ||| c.variability) :
      TypedAs σ (sigRDTbl (sigTable id n (sigGen s)) ri) (.simple r)
  | readWrite {id id' n s wi ws ri : Tree} {c w d i r : SimpleType}
      (hc : σ.fType (sigGen s) = some (.simple c)) (hw : σ.fType wi = some (.simple w))
      (hd : σ.fType ws = some (.simple d)) (hi : σ.fType ri = some (.simple i))
      (hr : r.variability = i.variability ||| c.variability) :
      TypedAs σ (sigRDTbl (sigWRTbl id' (sigTable id n (sigGen s)) wi ws) ri) (.simple r)
  | signal {n : Node} {br : List Tree} (hn : ¬ IsSpecial n) (t : SimpleType) :
      TypedAs σ (.node n br) (.simple t)

/-- The invariant of type inference. -/
structure Typing.Inv (σ : Typing) : Prop where
  memo : MemoOK σ.gMemoizedTypes
  typed : ∀ u t, σ.fType u = some t → TypedAs σ u t

/-- From `σ` to `σ'`, types are given to trees of size below `k` and nothing is taken back. -/
structure Grows (k : ℕ) (σ σ' : Typing) : Prop where
  kept : ∀ u t, σ.fType u = some t → σ'.fType u = some t
  below : ∀ u, σ.fType u = none → k ≤ u.size → σ'.fType u = none

theorem Grows.refl (k : ℕ) (σ : Typing) : Grows k σ σ := ⟨fun _ _ h => h, fun _ h _ => h⟩

theorem Grows.trans {k : ℕ} {σ₁ σ₂ σ₃ : Typing} (h₁ : Grows k σ₁ σ₂) (h₂ : Grows k σ₂ σ₃) :
    Grows k σ₁ σ₃ where
  kept u t h := h₂.kept u t (h₁.kept u t h)
  below u h hk := h₂.below u (h₁.below u h hk) hk

theorem Grows.mono {k k' : ℕ} {σ σ' : Typing} (h : Grows k σ σ') (hk : k ≤ k') :
    Grows k' σ σ' := ⟨h.kept, fun u hu hk' => h.below u hu (by omega)⟩

theorem TypedAs.grows {k : ℕ} {σ σ' : Typing} (h : Grows k σ σ') {u : Tree} {t : AudioType}
    (ht : TypedAs σ u t) : TypedAs σ' u t := by
  cases ht with
  | group v ts f => exact .group v ts f
  | nil f => exact .nil f
  | cons hd tl ts f => exact .cons hd tl ts f
  | gen s c => exact .gen s c
  | table hc => exact .table (h.kept _ _ hc)
  | write hc hw hd => exact .write (h.kept _ _ hc) (h.kept _ _ hw) (h.kept _ _ hd)
  | readOnly hc hi hr => exact .readOnly (h.kept _ _ hc) (h.kept _ _ hi) hr
  | readWrite hc hw hd hi hr =>
    exact .readWrite (h.kept _ _ hc) (h.kept _ _ hw) (h.kept _ _ hd) (h.kept _ _ hi) hr
  | signal hn t => exact .signal hn t

/-- What a computation started from `σ` yields when it succeeds. -/
def Yields {α : Type} (σ : Typing) (x : TypeM α) (k : ℕ) (Q : α → Typing → Prop) : Prop :=
  ∀ a σ', x σ = .ok (a, σ') → σ'.Inv ∧ Grows k σ σ' ∧ Q a σ'

section
variable {α β : Type} {σ : Typing} {k : ℕ} {Q : α → Typing → Prop}

theorem Yields.pure (hσ : σ.Inv) {a : α} (h : Q a σ) : Yields σ (Pure.pure a) k Q := by
  intro a' σ' hrun
  cases hrun
  exact ⟨hσ, .refl k σ, h⟩

theorem Yields.throw (e : InferenceError) : Yields σ (throw e : TypeM α) k Q := by
  intro a' σ' hrun
  cases hrun

theorem Yields.bind {x : TypeM β} {f : β → TypeM α} {P : β → Typing → Prop}
    (hx : Yields σ x k P)
    (hf : ∀ b σ₁, σ₁.Inv → Grows k σ σ₁ → P b σ₁ → Yields σ₁ (f b) k Q) :
    Yields σ (x >>= f) k Q := by
  intro a σ' hrun
  cases hx' : x σ with
  | error e => simp [Bind.bind, StateT.bind, Except.bind, hx'] at hrun
  | ok p =>
    obtain ⟨b, σ₁⟩ := p
    obtain ⟨hinv, hg, hP⟩ := hx b σ₁ hx'
    have hrun : f b σ₁ = .ok (a, σ') := by
      simpa [Bind.bind, StateT.bind, Except.bind, hx'] using hrun
    obtain ⟨hinv', hg', hQ⟩ := hf b σ₁ hinv hg hP a σ' hrun
    exact ⟨hinv', hg.trans hg', hQ⟩

theorem Yields.mono {k' : ℕ} {P : α → Typing → Prop} {x : TypeM α} (h : Yields σ x k P)
    (hk : k ≤ k') (hQ : ∀ a σ', σ'.Inv → P a σ' → Q a σ') : Yields σ x k' Q := by
  intro a σ' hrun
  obtain ⟨hinv, hg, hP⟩ := h a σ' hrun
  exact ⟨hinv, hg.mono hk, hQ a σ' hinv hP⟩

end

end Faust
