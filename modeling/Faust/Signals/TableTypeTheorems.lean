import Mathlib
import Faust.Signals.TableTypes
import Faust.Signals.Subtrees

/-!
# Type inference on signals with tables

Signals have simple types, and the type of a table has the fields of the type of its content.
-/

namespace Faust

open Faust.Tree AudioType

/-- The computation yields a simple type. -/
abbrev MakesSimple (σ : Typing) (x : TypeM AudioType) (k : ℕ) : Prop :=
  Yields σ x k fun a _ => ∃ s, a = .simple s

section
variable {σ : Typing} {k : ℕ}

/-! ## Types that are made -/

theorem yields_make {α : Type} {x : StateM TypeMemo α} {Q : α → Typing → Prop} (hσ : σ.Inv)
    (hx : MemoOK (x σ.gMemoizedTypes).2)
    (hQ : Q (x σ.gMemoizedTypes).1 { σ with gMemoizedTypes := (x σ.gMemoizedTypes).2 }) :
    Yields σ (make x) k Q := by
  intro a σ' hrun
  cases hrun
  have hg : Grows k σ { σ with gMemoizedTypes := (x σ.gMemoizedTypes).2 } :=
    ⟨fun _ _ h => h, fun _ h _ => h⟩
  exact ⟨⟨hx, fun u t h => (hσ.typed u t h).grows hg⟩, hg, hQ⟩

theorem yields_makeSimpleType (hσ : σ.Inv) (t : SimpleType) :
    Yields σ (make (makeSimpleType t)) k fun a _ => a = .simple t :=
  yields_make hσ (memoize_memo hσ.memo (.simple t) rfl) (memoize_eq hσ.memo (.simple t) rfl)

theorem makesSimple_makeSimpleType (hσ : σ.Inv) (t : SimpleType) :
    MakesSimple σ (make (makeSimpleType t)) k :=
  (yields_makeSimpleType hσ t).mono le_rfl fun _ _ _ h => ⟨t, h⟩

theorem yields_makeTableType (hσ : σ.Inv) (c : SimpleType) :
    Yields σ (make (makeTableType (.simple c))) k fun a _ => a = tableType (.simple c) :=
  yields_make hσ (memoize_memo hσ.memo (.table (.simple c)) rfl)
    (memoize_eq hσ.memo (.table (.simple c)) rfl)

theorem yields_makeTableTypeWith (hσ : σ.Inv) (c : SimpleType) (n : Nature) (v cc vec : ℕ) :
    Yields σ (make (makeTableTypeWith (.simple c) n v cc vec)) k
      fun a _ => a = tableType (.simple c) :=
  yields_make hσ (memoize_memo hσ.memo (.table (.simple c)) rfl)
    (memoize_eq hσ.memo (.table (.simple c)) rfl)

theorem makesSimple_floatCast (hσ : σ.Inv) (t : AudioType) : MakesSimple σ (floatCast t) k :=
  makesSimple_makeSimpleType hσ _

theorem makesSimple_sampCast (hσ : σ.Inv) (t : AudioType) : MakesSimple σ (sampCast t) k :=
  makesSimple_makeSimpleType hσ _

theorem makesSimple_boolCast (hσ : σ.Inv) (t : AudioType) : MakesSimple σ (boolCast t) k :=
  makesSimple_makeSimpleType hσ _

theorem makesSimple_castInterval (hσ : σ.Inv) (t : AudioType) (i : Interval) :
    MakesSimple σ (castInterval t i) k := makesSimple_makeSimpleType hσ _

theorem makesSimple_joinTypes (hσ : σ.Inv) (t₁ t₂ : SimpleType) :
    MakesSimple σ (joinTypes (.simple t₁) (.simple t₂)) k := by
  unfold joinTypes
  exact makesSimple_makeSimpleType hσ _

/-- A computation goes on from a simple type. -/
theorem MakesSimple.bind {x : TypeM AudioType} {f : AudioType → TypeM AudioType}
    {Q : AudioType → Typing → Prop} (hx : MakesSimple σ x k)
    (hf : ∀ s σ₁, σ₁.Inv → Yields σ₁ (f (.simple s)) k Q) : Yields σ (x >>= f) k Q := by
  apply Yields.bind hx
  intro a σ₁ hσ₁ _ hs
  obtain ⟨s, rfl⟩ := hs
  exact hf s σ₁ hσ₁

/-- A computation that fails or returns `t`, without any effect. -/
def Checks (x : TypeM AudioType) (t : AudioType) : Prop := (∃ e, x = throw e) ∨ x = pure t

theorem checks_checkInit (t : AudioType) : Checks (checkInit t) t := by
  unfold checkInit
  split
  · exact .inl ⟨_, rfl⟩
  · exact .inr rfl

theorem checks_checkKonst (t : AudioType) : Checks (checkKonst t) t := by
  unfold checkKonst
  split
  · exact .inl ⟨_, rfl⟩
  · exact .inr rfl

theorem checks_checkInt (t : AudioType) : Checks (checkInt t) t := by
  unfold checkInt
  split
  · split
    · exact .inr rfl
    · exact .inl ⟨_, rfl⟩
  · exact .inl ⟨_, rfl⟩

/-- A computation goes on from a check. -/
theorem Checks.bind {α : Type} {x : TypeM AudioType} {f : AudioType → TypeM α} {t : AudioType}
    {Q : α → Typing → Prop} (hx : Checks x t) (hf : Yields σ (f t) k Q) :
    Yields σ (x >>= f) k Q := by
  obtain ⟨e, rfl⟩ | rfl := hx
  · intro a σ' hrun
    cases hrun
  · simpa using hf

/-! ## The rules on simple types -/

/-- A promotion of a simple type. -/
theorem yields_promote (hσ : σ.Inv) (s t : SimpleType) :
    Yields σ (make ((AudioType.simple s).promote t)) k fun a _ => a = .simple t :=
  yields_makeSimpleType hσ t

theorem makesSimple_infereDocWriteTblType (hσ : σ.Inv) (size widx wsig : AudioType)
    (init : SimpleType) :
    MakesSimple σ (infereDocWriteTblType size (.simple init) widx wsig) k := by
  unfold infereDocWriteTblType
  apply (checks_checkInit size).bind
  apply (checks_checkInt size).bind
  apply (checks_checkKonst size).bind
  apply MakesSimple.bind (makesSimple_makeSimpleType hσ _)
  intro s₁ σ₁ hσ₁
  apply MakesSimple.bind (makesSimple_makeSimpleType hσ₁ _)
  intro s₂ σ₂ hσ₂
  apply MakesSimple.bind (makesSimple_makeSimpleType hσ₂ _)
  intro s₃ σ₃ hσ₃
  apply MakesSimple.bind (makesSimple_makeSimpleType hσ₃ _)
  intro s₄ σ₄ hσ₄
  exact makesSimple_makeSimpleType hσ₄ _

theorem makesSimple_infereDocAccessTblType (hσ : σ.Inv) (tbl : SimpleType) (ridx : AudioType) :
    MakesSimple σ (infereDocAccessTblType (.simple tbl) ridx) k := by
  unfold infereDocAccessTblType
  apply MakesSimple.bind (makesSimple_makeSimpleType hσ _)
  intro s₁ σ₁ hσ₁
  apply MakesSimple.bind (makesSimple_makeSimpleType hσ₁ _)
  intro s₂ σ₂ hσ₂
  exact makesSimple_makeSimpleType hσ₂ _

theorem makesSimple_infereBinOpRule (hσ : σ.Inv) (i : BinOp) (t₁ t₂ : SimpleType) :
    MakesSimple σ (infereBinOpRule i (.simple t₁) (.simple t₂)) k := by
  unfold infereBinOpRule
  split
  · exact .throw _
  · apply MakesSimple.bind (makesSimple_joinTypes hσ t₁ t₂)
    intro s σ₁ hσ₁
    apply MakesSimple.bind (makesSimple_castInterval hσ₁ _ _)
    intro s₂ σ₂ hσ₂
    split
    · exact makesSimple_floatCast hσ₂ _
    all_goals first | exact makesSimple_boolCast hσ₂ _ | exact .pure hσ₂ ⟨s₂, rfl⟩

theorem makesSimple_infereFixDelayRule (hσ : σ.Inv) (t₁ t₂ : AudioType) :
    MakesSimple σ (infereFixDelayRule t₁ t₂) k := by
  unfold infereFixDelayRule
  dsimp only
  split
  · exact .throw _
  · split
    · exact .throw _
    · apply MakesSimple.bind (makesSimple_sampCast hσ _)
      intro s σ₁ hσ₁
      exact makesSimple_castInterval hσ₁ _ _

theorem makesSimple_infereSliderType (hσ : σ.Inv) (params : Tree) :
    MakesSimple σ (infereSliderType params) k := by
  unfold infereSliderType
  split
  · exact makesSimple_castInterval hσ _ _
  · exact .throw _

theorem makesSimple_infereWaveformRule (hσ : σ.Inv) (v : List Node) :
    MakesSimple σ (infereWaveformRule v) k := by
  unfold infereWaveformRule
  split
  · exact .throw _
  · exact makesSimple_makeSimpleType hσ _

theorem makesSimple_infereSelect2Rule (hσ : σ.Inv) (tsel t₁ t₂ : AudioType) :
    MakesSimple σ (infereSelect2Rule tsel t₁ t₂) k := by
  unfold infereSelect2Rule
  split
  · exact makesSimple_makeSimpleType hσ _
  · exact .throw _

theorem makesSimple_infereProjType (hσ : σ.Inv) (ts : List SimpleType) (f : SimpleType) (i : ℤ)
    (vec : ℕ) : MakesSimple σ (infereProjType (.tuplet (ts.map .simple) f) i vec) k := by
  unfold infereProjType
  dsimp only
  split
  · rename_i ty hty
    obtain ⟨s, rfl⟩ : ∃ s, ty = .simple s := by
      split at hty
      · cases hty
      · simp only [List.getElem?_map, Option.map_eq_some_iff] at hty
        obtain ⟨s, _, hs⟩ := hty
        exact ⟨s, hs.symm⟩
    apply MakesSimple.bind (makesSimple_makeSimpleType hσ _)
    intro s₁ σ₁ hσ₁
    apply MakesSimple.bind (makesSimple_makeSimpleType hσ₁ _)
    intro s₂ σ₂ hσ₂
    exact makesSimple_makeSimpleType hσ₂ _
  · exact .throw _

theorem makesSimple_xtended (libm : Libm) (hσ : σ.Inv) (p : XtPrim) (args : List SimpleType) :
    MakesSimple σ (p.infereSigType libm (args.map .simple)) k := by
  have hjoin : ∀ {f : AudioType → TypeM AudioType} (t₁ t₂ : SimpleType),
      (∀ s σ₁, σ₁.Inv → MakesSimple σ₁ (f (.simple s)) k) →
      MakesSimple σ (joinTypes (.simple t₁) (.simple t₂) >>= f) k :=
    fun t₁ t₂ hf => MakesSimple.bind (makesSimple_joinTypes hσ t₁ t₂) hf
  have hfloat : ∀ t i, MakesSimple σ (do castInterval (← floatCast t) i) k := fun t i =>
    MakesSimple.bind (makesSimple_floatCast hσ t) fun s σ₁ hσ₁ =>
      makesSimple_castInterval hσ₁ _ i
  match args with
  | [] => cases p <;> exact .throw _
  | [t] =>
    cases p
    case abs => exact makesSimple_castInterval hσ _ _
    case sin | cos | tan => exact hfloat _ _
    case log | log10 | rint | sqrt =>
      simp only [List.map_cons, List.map_nil, XtPrim.infereSigType]
      split <;> first | exact hfloat _ _ | exact makesSimple_floatCast hσ _
    all_goals exact makesSimple_floatCast hσ _
  | [t₁, t₂] =>
    cases p
    case min | max | pow => exact hjoin t₁ t₂ fun s σ₁ hσ₁ => makesSimple_castInterval hσ₁ _ _
    case fmod | atan2 => exact hjoin t₁ t₂ fun s σ₁ hσ₁ => makesSimple_floatCast hσ₁ _
    case remainder =>
      apply hjoin t₁ t₂
      intro s σ₁ hσ₁
      apply MakesSimple.bind (makesSimple_floatCast hσ₁ _)
      intro s₂ σ₂ hσ₂
      exact makesSimple_castInterval hσ₂ _ _
    all_goals exact .throw _
  | _ :: _ :: _ :: _ => cases p <;> exact .throw _

/-! ## Visits -/

theorem grows_setSigType (σ : Typing) {u : Tree} (t : AudioType) (hu : σ.fType u = none) :
    Grows (u.size + 1) σ { σ with fType := Function.update σ.fType u (some t) } where
  kept w ty h := by
    have hne : w ≠ u := by
      rintro rfl
      rw [hu] at h
      cases h
    simpa [Function.update_of_ne hne] using h
  below w h hk := by
    have hne : w ≠ u := by
      rintro rfl
      omega
    simpa [Function.update_of_ne hne] using h

theorem Typing.Inv.setSigType (hσ : σ.Inv) {u : Tree} {t : AudioType} (hu : σ.fType u = none)
    (ht : TypedAs σ u t) :
    Typing.Inv { σ with fType := Function.update σ.fType u (some t) } where
  memo := hσ.memo
  typed w ty h := by
    have hg := grows_setSigType σ t hu
    by_cases hw : w = u
    · subst hw
      have hty : t = ty := by simpa using h
      subst hty
      exact ht.grows hg
    · have h : σ.fType w = some ty := by simpa [Function.update_of_ne hw] using h
      exact (hσ.typed w ty h).grows hg

/-- A visit gives the tree the type it yields. -/
theorem yields_T (hσ : σ.Inv) {u : Tree} {x : TypeM AudioType}
    (hx : Yields σ x u.size fun a σ' => TypedAs σ' u a) :
    Yields σ (T u x) (u.size + 1) fun a σ' => σ'.fType u = some a := by
  intro a σ' hrun
  cases hu : σ.fType u with
  | some ty =>
    simp only [T, hu, Bind.bind, StateT.bind, Except.bind, get, getThe, MonadStateOf.get,
      StateT.get, Pure.pure, StateT.pure, Except.pure] at hrun
    cases hrun
    exact ⟨hσ, .refl _ σ, hu⟩
  | none =>
    simp only [T, hu, Bind.bind, StateT.bind, Except.bind, get, getThe, MonadStateOf.get,
      StateT.get, Pure.pure, StateT.pure, Except.pure] at hrun
    cases hx' : x σ with
    | error e => simp [hx'] at hrun
    | ok p =>
      obtain ⟨ty, σ₁⟩ := p
      obtain ⟨hinv, hg, hty⟩ := hx ty σ₁ hx'
      have hu₁ : σ₁.fType u = none := hg.below u hu le_rfl
      simp only [hx', Faust.setSigType, modify, modifyGet, MonadStateOf.modifyGet,
        StateT.modifyGet] at hrun
      cases hrun
      exact ⟨hinv.setSigType hu₁ hty, (hg.mono (by omega)).trans (grows_setSigType σ₁ a hu₁),
        by simp⟩

end

/-! ## Signals have simple types -/

/-- What is proved of a signal, by induction. -/
def Infers (libm : Libm) (u : Tree) : Prop :=
  ∀ σ : Typing, σ.Inv → Yields σ (infereSigType libm u) u.size fun a σ' => TypedAs σ' u a

theorem IsSignal.simple {σ : Typing} {u : Tree} (hu : IsSignal u) {t : AudioType}
    (ht : TypedAs σ u t) : ∃ s, t = .simple s := by
  cases hu with
  | proj i v => cases ht; exact ⟨_, rfl⟩
  | readOnly _ _ _ => cases ht <;> exact ⟨_, rfl⟩
  | readWrite _ _ _ _ _ => cases ht <;> exact ⟨_, rfl⟩
  | node hn hp hss h =>
    cases ht with
    | signal _ s => exact ⟨s, rfl⟩
    | gen s c => exact ⟨c, rfl⟩
    | readOnly _ _ _ => exact ⟨_, rfl⟩
    | readWrite _ _ _ _ _ => exact ⟨_, rfl⟩
    | group | nil | cons | table | write => simp [IsSpecial] at hn

section
variable {libm : Libm} {σ : Typing} {k : ℕ}

attribute [local simp] infereSigType.eq_def

/-- A visit of a signal. -/
theorem Infers.visit {u : Tree} (h : Infers libm u) (hu : IsSignal u) (hσ : σ.Inv)
    (hk : u.size < k) :
    Yields σ (T u (infereSigType libm u)) k
      fun a σ' => ∃ s, a = .simple s ∧ σ'.fType u = some (.simple s) := by
  apply (yields_T hσ (h σ hσ)).mono hk
  intro a σ' hσ' ha
  obtain ⟨s, rfl⟩ := hu.simple (hσ'.typed u a ha)
  exact ⟨s, rfl, ha⟩

/-- What a rule makes after the visit of a signal. -/
theorem Infers.bind {u : Tree} (h : Infers libm u) (hu : IsSignal u) (hσ : σ.Inv)
    (hk : u.size < k) {f : AudioType → TypeM AudioType}
    (hf : ∀ s σ₁, σ₁.Inv → MakesSimple σ₁ (f (.simple s)) k) :
    MakesSimple σ (T u (infereSigType libm u) >>= f) k := by
  apply Yields.bind (h.visit hu hσ hk)
  intro a σ₁ hσ₁ _ hs
  obtain ⟨s, rfl, _⟩ := hs
  exact hf s σ₁ hσ₁

theorem yields_inferTypes (hσ : σ.Inv) {ss : List Tree}
    (h : ∀ s ∈ ss, Infers libm s ∧ IsSignal s ∧ s.size < k) :
    Yields σ (inferTypes libm ss) k fun as _ => ∃ ts : List SimpleType, as = ts.map .simple := by
  induction ss generalizing σ with
  | nil =>
    unfold inferTypes
    exact .pure hσ ⟨[], rfl⟩
  | cons s ss ih =>
    unfold inferTypes
    obtain ⟨hs, hss⟩ := List.forall_mem_cons.mp h
    apply Yields.bind (hs.1.visit hs.2.1 hσ hs.2.2)
    intro a σ₁ hσ₁ _ ha
    obtain ⟨t, rfl, _⟩ := ha
    apply Yields.bind (ih hσ₁ hss)
    intro as σ₂ hσ₂ _ has
    obtain ⟨ts, rfl⟩ := has
    exact .pure hσ₂ ⟨t :: ts, rfl⟩

theorem makesSimple_inferArguments (hσ : σ.Inv) (ls : Tree) (t : SimpleType)
    (h : ∀ s ∈ listElements ls, Infers libm s ∧ IsSignal s ∧ s.size < k) :
    MakesSimple σ (inferArguments libm ls (.simple t)) k := by
  fun_induction listElements ls generalizing σ t with
  | case1 hd tl ih =>
    unfold inferArguments
    obtain ⟨hs, hss⟩ := List.forall_mem_cons.mp h
    apply hs.1.bind hs.2.1 hσ hs.2.2
    intro s σ₁ hσ₁
    apply MakesSimple.bind (makesSimple_joinTypes hσ₁ t s)
    intro s₂ σ₂ hσ₂
    exact ih hσ₂ s₂ hss
  | case2 ls hls =>
    unfold inferArguments
    split
    · exact absurd rfl (hls _ _)
    · exact .pure hσ ⟨t, rfl⟩

/-- The rule of a signal that is not a table yields a simple type. -/
theorem makesSimple_node (hσ : σ.Inv) {n : Node} {br ss : List Tree} (hn : ¬ IsSpecial n)
    (hp : n ≠ .sym .sigProj) (hss : getSubSignals true (.node n br) = some ss)
    (h : ∀ s ∈ ss, Infers libm s ∧ IsSignal s ∧ s.size < k) :
    MakesSimple σ (infereSigType libm (.node n br)) k := by
  -- what the visit of a sub-signal yields, alone and followed by the rest of the rule
  have visit : ∀ s ∈ ss, ∀ σ : Typing, σ.Inv → MakesSimple σ (T s (infereSigType libm s)) k := by
    intro s hs σ hσ
    obtain ⟨hi, hsig, hk⟩ := h s hs
    exact (hi.visit hsig hσ hk).mono le_rfl fun a _ _ ⟨t, ht, _⟩ => ⟨t, ht⟩
  have next : ∀ s ∈ ss, ∀ {σ : Typing} {f : AudioType → TypeM AudioType}, σ.Inv →
      (∀ t σ₁, σ₁.Inv → MakesSimple σ₁ (f (.simple t)) k) →
      MakesSimple σ (T s (infereSigType libm s) >>= f) k :=
    fun s hs _ _ hσ hf => (visit s hs _ hσ).bind hf
  unfold infereSigType
  split
  all_goals try (rename_i heq; obtain ⟨rfl, rfl⟩ := Tree.node.inj heq)
  all_goals try (first | exact absurd rfl hp | (exfalso; apply hn; simp [IsSpecial]; done))
  all_goals try cases hss
  case h_1 p =>
    apply Yields.bind (yields_inferTypes hσ h)
    intro as σ₁ hσ₁ _ has
    obtain ⟨ts, rfl⟩ := has
    exact makesSimple_xtended libm hσ₁ p ts
  case h_2 | h_3 => exact makesSimple_makeSimpleType hσ _
  case h_4 =>
    apply Yields.bind (yields_inferTypes hσ h)
    intro as σ₁ hσ₁ _ _
    exact makesSimple_infereWaveformRule hσ₁ _
  case h_5 | h_16 | h_17 => exact .pure hσ ⟨_, rfl⟩
  case h_6 | h_11 | h_12 =>
    apply next _ (by simp) hσ
    intro t σ₁ hσ₁
    exact makesSimple_makeSimpleType hσ₁ _
  case h_7 =>
    apply next _ (by simp) hσ
    intro t σ₁ hσ₁
    apply MakesSimple.bind (makesSimple_sampCast hσ₁ _)
    intro t₂ σ₂ hσ₂
    exact makesSimple_castInterval hσ₂ _ _
  case h_8 =>
    apply next _ (by simp) hσ
    intro t₁ σ₁ hσ₁
    apply next _ (by simp) hσ₁
    intro t₂ σ₂ hσ₂
    apply (checks_checkInit _).bind
    apply MakesSimple.bind (makesSimple_joinTypes hσ₂ t₁ t₂)
    intro t₃ σ₃ hσ₃
    apply MakesSimple.bind (makesSimple_sampCast hσ₃ _)
    intro t₄ σ₄ hσ₄
    exact makesSimple_castInterval hσ₄ _ _
  case h_9 =>
    apply next _ (by simp) hσ
    intro t₁ σ₁ hσ₁
    apply next _ (by simp) hσ₁
    intro t₂ σ₂ hσ₂
    exact makesSimple_infereFixDelayRule hσ₂ _ _
  case h_10 =>
    apply next _ (by simp) hσ
    intro t₁ σ₁ hσ₁
    apply next _ (by simp) hσ₁
    intro t₂ σ₂ hσ₂
    split
    · exact makesSimple_infereBinOpRule hσ₂ _ t₁ t₂
    · exact .throw _
  case h_13 =>
    dsimp only
    split
    · exact makesSimple_makeSimpleType hσ _
    · apply MakesSimple.bind (makesSimple_inferArguments hσ _ _ h)
      intro t σ₁ hσ₁
      exact makesSimple_makeSimpleType hσ₁ _
  case h_14 | h_15 => exact makesSimple_makeSimpleType hσ _
  case h_18 | h_19 | h_20 => exact makesSimple_infereSliderType hσ _
  case h_21 | h_22 => exact visit _ (by simp) σ hσ
  case h_23 =>
    apply next _ (by simp) hσ
    intro t σ₁ hσ₁
    exact visit _ (by simp) σ₁ hσ₁
  case h_30 =>
    apply next _ (by simp) hσ
    intro t₁ σ₁ hσ₁
    apply next _ (by simp) hσ₁
    intro t₂ σ₂ hσ₂
    apply (checks_checkInit _).bind
    apply (checks_checkInt _).bind
    apply (checks_checkKonst _).bind
    exact .pure hσ₂ ⟨t₂, rfl⟩
  case h_31 =>
    apply next _ (by simp) hσ
    intro t₁ σ₁ hσ₁
    apply next _ (by simp) hσ₁
    intro t₂ σ₂ hσ₂
    apply next _ (by simp) hσ₂
    intro t₃ σ₃ hσ₃
    apply next _ (by simp) hσ₃
    intro t₄ σ₄ hσ₄
    exact makesSimple_infereDocWriteTblType hσ₄ _ _ _ t₂
  case h_32 =>
    apply next _ (by simp) hσ
    intro t₁ σ₁ hσ₁
    apply next _ (by simp) hσ₁
    intro t₂ σ₂ hσ₂
    exact makesSimple_infereDocAccessTblType hσ₂ t₁ _
  case h_33 =>
    apply next _ (by simp) hσ
    intro t₁ σ₁ hσ₁
    apply next _ (by simp) hσ₁
    intro t₂ σ₂ hσ₂
    apply next _ (by simp) hσ₂
    intro t₃ σ₃ hσ₃
    exact makesSimple_infereSelect2Rule hσ₃ _ _ _
  case h_34 =>
    apply next _ (by simp) hσ
    intro t₁ σ₁ hσ₁
    apply next _ (by simp) hσ₁
    intro t₂ σ₂ hσ₂
    apply MakesSimple.bind (makesSimple_joinTypes hσ₂ t₁ t₂)
    intro t₃ σ₃ hσ₃
    apply next _ (by simp) hσ₃
    intro t₄ σ₄ hσ₄
    apply MakesSimple.bind (makesSimple_joinTypes hσ₄ t₃ t₄)
    intro t₅ σ₅ hσ₅
    apply next _ (by simp) hσ₅
    intro t₆ σ₆ hσ₆
    exact makesSimple_joinTypes hσ₆ t₅ t₆
  case h_37 => exact .throw _

/-! ## Tables -/

theorem yields_checkIndex (hσ : σ.Inv) (t : AudioType) :
    Yields σ (checkIndex t) k fun _ _ => True := by
  unfold checkIndex
  split
  · split
    · exact .pure hσ trivial
    · exact .throw _
  · exact .throw _

/-- The type of a read has the variability of the index and of the table. -/
theorem yields_infereReadTableType (hσ : σ.Inv) (c i : SimpleType) :
    Yields σ (infereReadTableType (tableType (.simple c)) (.simple i)) k
      fun a _ => ∃ r, a = .simple r ∧ r.variability = i.variability ||| c.variability := by
  unfold infereReadTableType tableType
  apply Yields.bind (yields_checkIndex hσ _)
  intro _ σ₁ hσ₁ _ _
  apply Yields.bind (yields_promote hσ₁ c _)
  intro _ σ₂ hσ₂ _ h₂
  subst h₂
  apply Yields.bind (yields_promote hσ₂ _ _)
  intro _ σ₃ hσ₃ _ h₃
  subst h₃
  apply Yields.bind (yields_promote hσ₃ _ _)
  intro _ σ₄ hσ₄ _ h₄
  subst h₄
  apply (yields_promote hσ₄ _ _).mono le_rfl
  intro a _ _ ha
  exact ⟨_, ha, by simp⟩

/-- Nothing of what is written is left in the type of a written table. -/
theorem yields_infereWriteTableType (hσ : σ.Inv) (c : SimpleType) (wi wd : AudioType) :
    Yields σ (infereWriteTableType (tableType (.simple c)) wi wd) k
      fun a _ => a = tableType (.simple c) := by
  unfold infereWriteTableType
  apply Yields.bind (yields_checkIndex hσ _)
  intro _ σ₁ hσ₁ _ _
  exact yields_makeTableTypeWith hσ₁ c _ _ _ _

theorem TypedAs.gen_inv {s : Tree} {t : AudioType} (h : TypedAs σ (sigGen s) t) :
    ∃ c, t = .simple c := by
  cases h with
  | gen _ c => exact ⟨c, rfl⟩
  | signal _ c => exact ⟨c, rfl⟩

theorem TypedAs.table_inv {id n s : Tree} {t : AudioType}
    (h : TypedAs σ (sigTable id n (sigGen s)) t) :
    ∃ c, t = tableType (.simple c) ∧ σ.fType (sigGen s) = some (.simple c) := by
  cases h with
  | table hc => exact ⟨_, rfl, hc⟩
  | signal hn _ => exact absurd (by simp [IsSpecial]) hn

theorem TypedAs.write_inv {id id' n s wi ws : Tree} {t : AudioType}
    (h : TypedAs σ (sigWRTbl id' (sigTable id n (sigGen s)) wi ws) t) :
    ∃ c w d, t = tableType (.simple c) ∧ σ.fType (sigGen s) = some (.simple c) ∧
      σ.fType wi = some (.simple w) ∧ σ.fType ws = some (.simple d) := by
  cases h with
  | write hc hw hd => exact ⟨_, _, _, rfl, hc, hw, hd⟩
  | signal hn _ => exact absurd (by simp [IsSpecial]) hn

theorem Infers.gen {s : Tree} (h : Infers libm s) (hs : IsSignal s) :
    Infers libm (sigGen s) := by
  intro σ hσ
  unfold sigGen infereSigType
  apply (h.visit hs hσ (size_lt_of_mem (by simp))).mono le_rfl
  intro a σ' _ ha
  obtain ⟨c, rfl, _⟩ := ha
  exact .gen s c

theorem Infers.table {id n s : Tree} (hn : Infers libm n) (hns : IsSignal n)
    (h : Infers libm s) (hs : IsSignal s) : Infers libm (sigTable id n (sigGen s)) := by
  intro σ hσ
  unfold sigTable infereSigType
  apply Yields.bind (hn.visit hns hσ (size_lt_of_mem (by simp)))
  intro a σ₁ hσ₁ _ _
  apply (checks_checkInit _).bind
  apply (checks_checkInt _).bind
  apply Yields.bind ((yields_T hσ₁ (h.gen hs σ₁ hσ₁)).mono
    (size_lt_of_mem (by simp)) fun _ _ _ h => h)
  intro b σ₂ hσ₂ _ hb
  obtain ⟨c, rfl⟩ := (hσ₂.typed _ _ hb).gen_inv
  apply (checks_checkInit _).bind
  intro a σ₃ hrun
  obtain ⟨hσ₃, hg, rfl⟩ := yields_makeTableType hσ₂ c a σ₃ hrun
  exact ⟨hσ₃, hg, .table (hg.kept _ _ hb)⟩

theorem Infers.write {id id' n s wi ws : Tree} (ht : Infers libm (sigTable id n (sigGen s)))
    (hwi : Infers libm wi) (hwis : IsSignal wi) (hws : Infers libm ws) (hwss : IsSignal ws) :
    Infers libm (sigWRTbl id' (sigTable id n (sigGen s)) wi ws) := by
  intro σ hσ
  unfold sigWRTbl infereSigType
  apply Yields.bind ((yields_T hσ (ht σ hσ)).mono (size_lt_of_mem (by simp))
    fun _ _ _ h => h)
  intro a σ₁ hσ₁ _ ha
  obtain ⟨c, rfl, hc⟩ := (hσ₁.typed _ _ ha).table_inv
  apply Yields.bind (hwi.visit hwis hσ₁ (size_lt_of_mem (by simp)))
  intro _ σ₂ hσ₂ hg₂ hw
  obtain ⟨w, rfl, hw⟩ := hw
  apply Yields.bind (hws.visit hwss hσ₂ (size_lt_of_mem (by simp)))
  intro _ σ₃ hσ₃ hg₃ hd
  obtain ⟨d, rfl, hd⟩ := hd
  intro a σ₄ hrun
  obtain ⟨hσ₄, hg₄, rfl⟩ := yields_infereWriteTableType hσ₃ c _ _ a σ₄ hrun
  have hc₄ := ((hg₂.trans hg₃).trans hg₄).kept _ _ hc
  have hw₄ := (hg₃.trans hg₄).kept _ _ hw
  exact ⟨hσ₄, hg₄, .write hc₄ hw₄ (hg₄.kept _ _ hd)⟩

theorem Infers.readOnly {id n s ri : Tree} (ht : Infers libm (sigTable id n (sigGen s)))
    (hri : Infers libm ri) (hris : IsSignal ri) :
    Infers libm (sigRDTbl (sigTable id n (sigGen s)) ri) := by
  intro σ hσ
  unfold sigRDTbl infereSigType
  apply Yields.bind ((yields_T hσ (ht σ hσ)).mono (size_lt_of_mem (by simp))
    fun _ _ _ h => h)
  intro a σ₁ hσ₁ _ ha
  obtain ⟨c, rfl, hc⟩ := (hσ₁.typed _ _ ha).table_inv
  apply Yields.bind (hri.visit hris hσ₁ (size_lt_of_mem (by simp)))
  intro _ σ₂ hσ₂ hg₂ hi
  obtain ⟨i, rfl, hi⟩ := hi
  intro a σ₃ hrun
  obtain ⟨hσ₃, hg₃, r, rfl, hr⟩ := yields_infereReadTableType hσ₂ c i a σ₃ hrun
  exact ⟨hσ₃, hg₃, .readOnly ((hg₂.trans hg₃).kept _ _ hc) (hg₃.kept _ _ hi) hr⟩

theorem Infers.readWrite {id id' n s wi ws ri : Tree}
    (ht : Infers libm (sigWRTbl id' (sigTable id n (sigGen s)) wi ws))
    (hri : Infers libm ri) (hris : IsSignal ri) :
    Infers libm (sigRDTbl (sigWRTbl id' (sigTable id n (sigGen s)) wi ws) ri) := by
  intro σ hσ
  unfold sigRDTbl infereSigType
  apply Yields.bind ((yields_T hσ (ht σ hσ)).mono (size_lt_of_mem (by simp))
    fun _ _ _ h => h)
  intro a σ₁ hσ₁ _ ha
  obtain ⟨c, w, d, rfl, hc, hw, hd⟩ := (hσ₁.typed _ _ ha).write_inv
  apply Yields.bind (hri.visit hris hσ₁ (size_lt_of_mem (by simp)))
  intro _ σ₂ hσ₂ hg₂ hi
  obtain ⟨i, rfl, hi⟩ := hi
  intro a σ₃ hrun
  obtain ⟨hσ₃, hg₃, r, rfl, hr⟩ := yields_infereReadTableType hσ₂ c i a σ₃ hrun
  have hg := hg₂.trans hg₃
  exact ⟨hσ₃, hg₃, .readWrite (hg.kept _ _ hc) (hg.kept _ _ hw) (hg.kept _ _ hd)
    (hg₃.kept _ _ hi) hr⟩

/-- A recursive group has a type only when it was given one. -/
theorem yields_T_symRef (hσ : σ.Inv) (v : Sym) :
    Yields σ (T (symRef v) (infereSigType libm (symRef v))) (symRef v).size.succ
      fun a _ => ∃ (ts : List SimpleType) (f : SimpleType), a = .tuplet (ts.map .simple) f := by
  have hthrow : Yields σ (infereSigType libm (symRef v)) (symRef v).size
      fun a σ' => TypedAs σ' (symRef v) a := by
    unfold symRef infereSigType
    exact .throw _
  apply (yields_T hσ hthrow).mono le_rfl
  intro a σ' hσ' ha
  cases hσ'.typed _ _ ha with
  | group _ ts f => exact ⟨ts, f, rfl⟩
  | signal hn _ => exact absurd (by simp [IsSpecial]) hn

theorem Infers.proj (i : ℤ) (v : Sym) : Infers libm (sigProj i (symRef v)) := by
  intro σ hσ
  unfold sigProj leaf infereSigType
  apply Yields.bind ((yields_T_symRef hσ v).mono (size_lt_of_mem (by simp)) fun _ _ _ h => h)
  intro a σ₁ hσ₁ _ ha
  obtain ⟨ts, f, rfl⟩ := ha
  apply (makesSimple_infereProjType hσ₁ ts f i kScal).mono le_rfl
  intro a _ _ ha
  obtain ⟨s, rfl⟩ := ha
  exact .signal (by simp [IsSpecial]) s

/-- The types of signals, by induction on the signal. -/
theorem infers {u : Tree} (hu : IsSignal u) : Infers libm u := by
  induction hu with
  | proj i v => exact .proj i v
  | readOnly hn hs hri ihn ihs ihri => exact .readOnly (.table ihn hn ihs hs) ihri hri
  | readWrite hn hs hwi hws hri ihn ihs ihwi ihws ihri =>
    exact .readWrite (.write (.table ihn hn ihs hs) ihwi hwi ihws hws) ihri hri
  | @node n br ss hn hp hss h ih =>
    intro σ hσ
    have hsub : ∀ s ∈ ss, Infers libm s ∧ IsSignal s ∧ s.size < (Tree.node n br).size :=
      fun s hs => ⟨ih s hs, h s hs, size_lt_of_mem_getSubSignals hss hs⟩
    apply (makesSimple_node hσ hn hp hss hsub).mono le_rfl
    intro a _ _ ha
    obtain ⟨s, rfl⟩ := ha
    exact .signal hn s

/-! ## Annotation -/

theorem TypedAs.list_inv {ss : List Tree} {t : AudioType} (h : TypedAs σ (ofList ss) t) :
    ∃ (ts : List SimpleType) (f : SimpleType), t = .tuplet (ts.map .simple) f := by
  cases ss with
  | nil =>
    cases h with
    | nil f => exact ⟨[], f, rfl⟩
    | signal hn _ => exact absurd (by simp [IsSpecial]) hn
  | cons s ss =>
    cases h with
    | cons _ _ ts f => exact ⟨ts, f, rfl⟩
    | signal hn _ => exact absurd (by simp [IsSpecial]) hn

theorem infers_list {ss : List Tree} (h : ∀ s ∈ ss, IsSignal s) : Infers libm (ofList ss) := by
  induction ss with
  | nil =>
    intro σ hσ
    unfold ofList Tree.nil leaf infereSigType
    exact .pure hσ (.nil _)
  | cons s ss ih =>
    obtain ⟨hs, hss⟩ := List.forall_mem_cons.mp h
    intro σ hσ
    unfold ofList Tree.cons infereSigType
    apply Yields.bind ((infers hs).visit hs hσ (size_lt_of_mem (by simp)))
    intro _ σ₁ hσ₁ _ ht
    obtain ⟨t, rfl, _⟩ := ht
    apply Yields.bind ((yields_T hσ₁ (ih hss σ₁ hσ₁)).mono (size_lt_of_mem (by simp))
      fun _ _ _ h => h)
    intro _ σ₂ hσ₂ _ hts
    obtain ⟨ts, f, rfl⟩ := (hσ₂.typed _ _ hts).list_inv
    exact .pure hσ₂ (.cons s (ofList ss) (t :: ts) _)

/-- The computation keeps the invariant. -/
def Keeps {α : Type} (x : TypeM α) (Q : α → Prop) : Prop :=
  ∀ σ : Typing, σ.Inv → ∀ a σ', x σ = .ok (a, σ') → σ'.Inv ∧ Q a

theorem Keeps.pure {α : Type} {Q : α → Prop} {a : α} (h : Q a) : Keeps (Pure.pure a) Q := by
  intro σ hσ a' σ' hrun
  cases hrun
  exact ⟨hσ, h⟩

theorem Keeps.bind {α β : Type} {x : TypeM β} {f : β → TypeM α} {P : β → Prop} {Q : α → Prop}
    (hx : Keeps x P) (hf : ∀ b, P b → Keeps (f b) Q) : Keeps (x >>= f) Q := by
  intro σ hσ a σ' hrun
  cases hx' : x σ with
  | error e => simp [Bind.bind, StateT.bind, Except.bind, hx'] at hrun
  | ok p =>
    obtain ⟨b, σ₁⟩ := p
    obtain ⟨hσ₁, hb⟩ := hx σ hσ b σ₁ hx'
    have hrun : f b σ₁ = .ok (a, σ') := by
      simpa [Bind.bind, StateT.bind, Except.bind, hx'] using hrun
    exact hf b hb σ₁ hσ₁ a σ' hrun

/-- The tuplets of simple types. -/
def IsGroupType (t : AudioType) : Prop :=
  ∃ (ts : List SimpleType) (f : SimpleType), t = .tuplet (ts.map .simple) f

theorem keeps_T_list (ss : List Tree) (h : ∀ s ∈ ss, IsSignal s) :
    Keeps (T (ofList ss) (infereSigType libm (ofList ss))) IsGroupType := by
  intro σ hσ a σ' hrun
  obtain ⟨hσ', _, ha⟩ := yields_T hσ (infers_list h σ hσ) a σ' hrun
  exact ⟨hσ', (hσ'.typed _ _ ha).list_inv⟩

theorem isGroupType_initialRecType (t : Tree) : IsGroupType (initialRecType t) := by
  have h : ∃ ts : List SimpleType, initialRecType.components t = ts.map .simple := by
    fun_induction initialRecType.components t with
    | case1 _ tl ih =>
      obtain ⟨ts, hts⟩ := ih
      exact ⟨_ :: ts, by rw [hts, List.map_cons]; rfl⟩
    | case2 => exact ⟨[], rfl⟩
  obtain ⟨ts, hts⟩ := h
  exact ⟨ts, _, by rw [initialRecType, hts]; rfl⟩

end

/-! ### The loop -/

section
variable {libm : Libm} {σ : Typing} {k : ℕ}

/-- Only recursive groups have types, as after the start of a visit. -/
def OnlyGroups (σ : Typing) : Prop :=
  ∀ u t, σ.fType u = some t → (∃ v, u = symRef v) ∧ IsGroupType t

theorem OnlyGroups.inv (h : OnlyGroups σ) (hm : MemoOK σ.gMemoizedTypes) : σ.Inv where
  memo := hm
  typed u t ht := by
    obtain ⟨⟨v, rfl⟩, ts, f, rfl⟩ := h u t ht
    exact .group v ts f

theorem OnlyGroups.setSigType (h : OnlyGroups σ) (v : Sym) {t : AudioType} (ht : IsGroupType t) :
    OnlyGroups { σ with fType := Function.update σ.fType (symRef v) (some t) } := by
  intro u t' hu
  by_cases huv : u = symRef v
  · subst huv
    have htt : t = t' := by simpa using hu
    subst htt
    exact ⟨⟨v, rfl⟩, ht⟩
  · exact h u t' (by simpa [Function.update_of_ne huv] using hu)

/-- The groups of a signal, with lists of signals as definitions. -/
def AreGroups (sl : List (Tree × Tree)) : Prop :=
  ∀ p ∈ sl, (∃ v, p.1 = symRef v) ∧ IsSignalList p.2

theorem keeps_forM_setSigType {ps : List ((Tree × Tree) × AudioType)}
    (h : ∀ p ∈ ps, (∃ v, p.1.1 = symRef v) ∧ IsGroupType p.2) (hσ : OnlyGroups σ)
    (hm : MemoOK σ.gMemoizedTypes) {a : PUnit} {σ' : Typing}
    (hrun : (ps.forM fun p => setSigType p.1.1 p.2) σ = .ok (a, σ')) :
    OnlyGroups σ' ∧ MemoOK σ'.gMemoizedTypes := by
  induction ps generalizing σ with
  | nil =>
    cases hrun
    exact ⟨hσ, hm⟩
  | cons p ps ih =>
    obtain ⟨⟨⟨v, hv⟩, ht⟩, hps⟩ := List.forall_mem_cons.mp h
    have hset := hσ.setSigType v ht
    apply ih hps hset hm
    rw [← hv]
    exact hrun

theorem keeps_inferDefinitions {sl : List (Tree × Tree)} (h : AreGroups sl) :
    Keeps (inferDefinitions libm sl) fun ts => ∀ t ∈ ts, IsGroupType t := by
  induction sl with
  | nil => exact .pure (by simp)
  | cons p sl ih =>
    obtain ⟨⟨_, ss, hss, hsig⟩, hsl⟩ := List.forall_mem_cons.mp h
    obtain ⟨v, body⟩ := p
    have hss : body = ofList ss := hss
    subst hss
    unfold inferDefinitions
    apply (keeps_T_list ss hsig).bind
    intro t ht
    apply (ih hsl).bind
    intro ts hts
    exact .pure (List.forall_mem_cons.mpr ⟨ht, hts⟩)

theorem annotationLoop_inv {sl : List (Tree × Tree)} (h : AreGroups sl) (turns : ℕ)
    {vtype : List AudioType} (ht : ∀ t ∈ vtype, IsGroupType t) (hm : MemoOK σ.gMemoizedTypes)
    {a : Unit} {σ' : Typing} (hrun : annotationLoop libm sl turns vtype σ = .ok (a, σ')) :
    σ'.Inv := by
  induction turns generalizing σ vtype with
  | zero => cases hrun
  | succ turns ih =>
    have hps : ∀ p ∈ sl.zip vtype, (∃ v, p.1.1 = symRef v) ∧ IsGroupType p.2 := fun p hp =>
      ⟨(h p.1 (List.of_mem_zip hp).1).1, ht p.2 (List.of_mem_zip hp).2⟩
    set σ₀ : Typing := { σ with fType := fun _ => none } with hσ₀
    have hrun : ((sl.zip vtype).forM (fun p => setSigType p.1.1 p.2) >>= fun _ => do
        let vtype' ← inferDefinitions libm sl
        if beqs vtype vtype' then return else annotationLoop libm sl turns vtype') σ₀ =
        .ok (a, σ') := hrun
    cases hset : (sl.zip vtype).forM (fun p => setSigType p.1.1 p.2) σ₀ with
    | error e => simp [Bind.bind, StateT.bind, Except.bind, hset] at hrun
    | ok p =>
      obtain ⟨b, σ₁⟩ := p
      have hnone : OnlyGroups σ₀ := fun _ _ hu => by cases hu
      obtain ⟨hog, hm₁⟩ := keeps_forM_setSigType hps hnone hm hset
      cases hdef : inferDefinitions libm sl σ₁ with
      | error e => simp [Bind.bind, StateT.bind, Except.bind, hset, hdef] at hrun
      | ok p =>
        obtain ⟨vtype', σ₂⟩ := p
        obtain ⟨hσ₂, ht'⟩ := keeps_inferDefinitions h σ₁ (hog.inv hm₁) vtype' σ₂ hdef
        simp only [Bind.bind, StateT.bind, Except.bind, hset, hdef] at hrun
        split at hrun
        · cases hrun
          exact hσ₂
        · exact ih ht' hσ₂.memo hrun

/-- Whatever types were made before, annotation ends in a typing that meets the invariant. -/
theorem typeAnnotation_inv {sl : List (Tree × Tree)} (h : AreGroups sl) {sig : Tree}
    (hsig : IsSignalList sig) (turns : ℕ) (hm : MemoOK σ.gMemoizedTypes) {a : Unit}
    {σ' : Typing} (hrun : typeAnnotation libm turns sl sig σ = .ok (a, σ')) : σ'.Inv := by
  have ht : ∀ t ∈ sl.map fun p => initialRecType p.2, IsGroupType t := by
    intro t ht
    obtain ⟨p, _, rfl⟩ := List.mem_map.mp ht
    exact isGroupType_initialRecType p.2
  obtain ⟨ss, rfl, hss⟩ := hsig
  unfold typeAnnotation at hrun
  cases hloop : annotationLoop libm sl turns (sl.map fun p => initialRecType p.2) σ with
  | error e => simp [Bind.bind, StateT.bind, Except.bind, hloop] at hrun
  | ok p =>
    obtain ⟨b, σ₁⟩ := p
    have hσ₁ := annotationLoop_inv h turns ht hm hloop
    have hrun : (T (ofList ss) (infereSigType libm (ofList ss)) >>= fun _ => Pure.pure ()) σ₁ =
        .ok (a, σ') := by
      simpa [Bind.bind, StateT.bind, Except.bind, hloop] using hrun
    exact (Keeps.bind (Q := fun _ => True) (keeps_T_list ss hss) fun _ _ => .pure trivial) σ₁ hσ₁ a
      σ' hrun |>.1

end

/-! ## The variability of reads -/

/-- `v` has the bits of `w`. -/
def AtLeast (v w : ℕ) : Prop := v ||| w = v

/-- The read of a table varies at least as fast as its index and its content and, when the
table is written, as the index and the signal of the write. -/
structure VariabilitySound (σ : Typing) : Prop where
  readOnly : ∀ id n s ri t, σ.fType (sigRDTbl (sigTable id n (sigGen s)) ri) = some t →
    ∃ c i, σ.fType (sigGen s) = some c ∧ σ.fType ri = some i ∧
      AtLeast t.fields.variability (i.fields.variability ||| c.fields.variability)
  readWrite : ∀ id id' n s wi ws ri t,
    σ.fType (sigRDTbl (sigWRTbl id' (sigTable id n (sigGen s)) wi ws) ri) = some t →
    ∃ c i w d, σ.fType (sigGen s) = some c ∧ σ.fType ri = some i ∧ σ.fType wi = some w ∧
      σ.fType ws = some d ∧
      AtLeast t.fields.variability (i.fields.variability ||| c.fields.variability |||
        (w.fields.variability ||| d.fields.variability))

/-- The index and the signal of the write of a table that is read vary no faster than the index
of the read or the content of the table. -/
def WritesCovered (σ : Typing) : Prop :=
  ∀ id id' n s wi ws ri,
    (σ.fType (sigRDTbl (sigWRTbl id' (sigTable id n (sigGen s)) wi ws) ri)).isSome →
    ∀ c i w d, σ.fType (sigGen s) = some c → σ.fType ri = some i → σ.fType wi = some w →
      σ.fType ws = some d →
      AtLeast (i.fields.variability ||| c.fields.variability)
        (w.fields.variability ||| d.fields.variability)

theorem atLeast_or_iff (v w : ℕ) : AtLeast v (v ||| w) ↔ AtLeast v w := by
  unfold AtLeast
  rw [← Nat.or_assoc, Nat.or_self]

section
variable {σ : Typing}

theorem TypedAs.readOnly_inv {id n s ri : Tree} {t : AudioType}
    (h : TypedAs σ (sigRDTbl (sigTable id n (sigGen s)) ri) t) :
    ∃ c i, σ.fType (sigGen s) = some c ∧ σ.fType ri = some i ∧
      t.fields.variability = i.fields.variability ||| c.fields.variability := by
  cases h with
  | readOnly hc hi hr => exact ⟨_, _, hc, hi, hr⟩
  | signal hn _ => exact absurd (by simp [IsSpecial]) hn

theorem TypedAs.readWrite_inv {id id' n s wi ws ri : Tree} {t : AudioType}
    (h : TypedAs σ (sigRDTbl (sigWRTbl id' (sigTable id n (sigGen s)) wi ws) ri) t) :
    ∃ c i w d, σ.fType (sigGen s) = some c ∧ σ.fType ri = some i ∧ σ.fType wi = some w ∧
      σ.fType ws = some d ∧
      t.fields.variability = i.fields.variability ||| c.fields.variability := by
  cases h with
  | readWrite hc hw hd hi hr => exact ⟨_, _, _, _, hc, hi, hw, hd, hr⟩
  | signal hn _ => exact absurd (by simp [IsSpecial]) hn

/-- The reads of a typing are sound when what is written varies no faster than they do. -/
theorem variabilitySound_iff_of_inv (hσ : σ.Inv) : VariabilitySound σ ↔ WritesCovered σ := by
  constructor
  · intro h id id' n s wi ws ri hread c i w d hc hi hw hd
    obtain ⟨t, ht⟩ := Option.isSome_iff_exists.mp hread
    obtain ⟨c₁, i₁, w₁, d₁, hc₁, hi₁, hw₁, hd₁, hle⟩ := h.readWrite _ _ _ _ _ _ _ t ht
    obtain ⟨c₂, i₂, w₂, d₂, hc₂, hi₂, -, -, hv⟩ := (hσ.typed _ t ht).readWrite_inv
    obtain rfl := Option.some.inj (hc.symm.trans hc₁)
    obtain rfl := Option.some.inj (hi.symm.trans hi₁)
    obtain rfl := Option.some.inj (hw.symm.trans hw₁)
    obtain rfl := Option.some.inj (hd.symm.trans hd₁)
    obtain rfl := Option.some.inj (hc.symm.trans hc₂)
    obtain rfl := Option.some.inj (hi.symm.trans hi₂)
    rw [hv] at hle
    exact (atLeast_or_iff _ _).mp hle
  · intro h
    constructor
    · intro id n s ri t ht
      obtain ⟨c, i, hc, hi, hv⟩ := (hσ.typed _ t ht).readOnly_inv
      exact ⟨c, i, hc, hi, by rw [hv]; exact Nat.or_self _⟩
    · intro id id' n s wi ws ri t ht
      obtain ⟨c, i, w, d, hc, hi, hw, hd, hv⟩ := (hσ.typed _ t ht).readWrite_inv
      refine ⟨c, i, w, d, hc, hi, hw, hd, ?_⟩
      rw [hv]
      exact (atLeast_or_iff _ _).mpr
        (h id id' n s wi ws ri (by rw [ht]; rfl) c i w d hc hi hw hd)

end

/-- Whatever types were made before, the reads of tables are typed soundly when what is written
varies no faster than what is read, and a table type carries the attributes it is made with
when its content does. -/
theorem tableTypes_sound_iff (libm : Libm) {memo : TypeMemo} {ts : List AudioType}
    (hmade : TypesMade memo ts) :
    (∀ (fType : Tree → Option AudioType) (turns : ℕ) (sl : List (Tree × Tree)) (sig : Tree)
      (σ : Typing), AreGroups sl → IsSignalList sig →
      typeAnnotation libm turns sl sig ⟨memo, fType⟩ = .ok ((), σ) →
      (VariabilitySound σ ↔ WritesCovered σ)) ∧
    ∀ ct ∈ ts, ∀ (n : Nature) (v c vec : ℕ),
      Carries (makeTableTypeWith ct n v c vec memo).1 n v c vec ↔ Carries ct n v c vec :=
  ⟨fun _ turns _ _ _ hsl hsig hrun =>
    variabilitySound_iff_of_inv (typeAnnotation_inv hsl hsig turns hmade.memoOK.1 hrun),
    fun _ hct n v c vec => makeTableTypeWith_carries hmade hct n v c vec⟩

/-! ### A read that never changes -/

/-- `rwtable(10, 0, widx, int(_), 0)`. -/
def readOfWritten (widx : Tree) : Tree :=
  sigRDTbl (sigWRTbl .nil (sigTable .nil (sigInt 10) (sigGen (sigInt 0))) widx
    (sigIntCast (sigInput 0))) (sigInt 0)

theorem isSignal_sigInt (i : ℤ) : IsSignal (sigInt i) :=
  .node (by simp [IsSpecial]) (by simp) rfl (by simp)

theorem isSignal_intCast_input : IsSignal (sigIntCast (sigInput 0)) := by
  have hin : IsSignal (sigInput 0) := .node (by simp [IsSpecial]) (by simp) rfl (by simp)
  exact .node (by simp [IsSpecial]) (by simp) rfl (by simpa using hin)

theorem isSignalList_readOfWritten (i : ℤ) :
    IsSignalList (ofList [readOfWritten (sigInt i)]) := by
  have hread : IsSignal (readOfWritten (sigInt i)) :=
    .readWrite (isSignal_sigInt 10) (isSignal_sigInt 0) (isSignal_sigInt i)
      isSignal_intCast_input (isSignal_sigInt 0)
  exact ⟨_, rfl, by simpa using hread⟩

/-- A `libm` for signals without primitives. -/
def noLibm : Libm := ⟨fun _ x => x, fun _ x _ => x⟩

/-- The types of `rwtable(10, 0, 0, int(_), 0)`. -/
def typesOfRead : Typing :=
  match typeAnnotation noLibm 1 [] (ofList [readOfWritten (sigInt 0)])
    ⟨fun _ => none, fun _ => none⟩ with
  | .ok (_, σ) => σ
  | .error _ => ⟨fun _ => none, fun _ => none⟩

theorem typeAnnotation_read : typeAnnotation noLibm 1 [] (ofList [readOfWritten (sigInt 0)])
    ⟨fun _ => none, fun _ => none⟩ = .ok ((), typesOfRead) := rfl

/-- The constant `0` as a type. -/
def zeroType : SimpleType := ⟨.kInt, kKonst, kComp, kVect, kNum, .point 0⟩

theorem tableTypes_sound_iff_read :
    (VariabilitySound typesOfRead ↔ WritesCovered typesOfRead) ∧
      (Carries (makeTableTypeWith (.simple zeroType) .kInt kSamp kExec kScal
          (makeSimpleType zeroType fun _ => none).2).1 .kInt kSamp kExec kScal ↔
        Carries (.simple zeroType) .kInt kSamp kExec kScal) :=
  ⟨(tableTypes_sound_iff noLibm .start).1 _ 1 [] _ _ (fun _ h => by cases h)
      (isSignalList_readOfWritten 0) typeAnnotation_read,
    (tableTypes_sound_iff noLibm (.simple zeroType .start)).2 _ List.mem_cons_self _ _ _ _⟩

/-- The read of a table that an input signal writes is typed as a constant, and a table type
made with the variability `kSamp` has the variability of its constant content. -/
theorem not_variabilitySound_read :
    ¬ VariabilitySound typesOfRead ∧
      ¬ Carries (makeTableTypeWith (.simple zeroType) .kInt kSamp kExec kScal
          (makeSimpleType zeroType fun _ => none).2).1 .kInt kSamp kExec kScal := by
  constructor
  · intro h
    obtain ⟨c, i, w, d, -, -, -, hd, hle⟩ := h.readWrite _ _ _ _ _ _ _
      (.simple zeroType) (rfl : typesOfRead.fType (readOfWritten (sigInt 0)) = _)
    have hd' : typesOfRead.fType (sigIntCast (sigInput 0)) =
      some (.simple ⟨.kInt, kSamp, kExec, kVect, kNum, .invalid⟩) := rfl
    obtain rfl := Option.some.inj (hd'.symm.trans hd)
    have hbits : kKonst ||| (i.fields.variability ||| c.fields.variability |||
        (w.fields.variability ||| kSamp)) = kKonst := hle
    simp [kKonst, kSamp, Nat.or_eq_zero_iff] at hbits
  · intro h
    exact absurd h.2.1 (by decide)

end Faust
