import Faust.Generator.FunctionBuilder
import Mathlib.Data.List.Forall2
import Mathlib.Data.List.Nodup

/-!
# The functions that `Loop2FunctionBuider` makes

The parameters are the variables of the enclosing context that an instruction reads or writes where
the visitor comes to it. They are those that the block names exactly when the visitor misses none of
them: a variable whose address is taken must also be read or written, and a variable of the block
must be declared before it is used.
-/

namespace Faust.Fir.Extract

/-! ## What the visitor goes through -/

mutual
/-- The visitor of the builder sees no more than `DispatchVisitor`. -/
theorem Address.events_sublist : (a : Address) → (a.events false).Sublist (a.events true)
  | .named _ => by simp [Address.events]
  | .indexed a index => by
    rw [Address.events, Address.events]
    exact List.Sublist.append (Address.events_sublist a) (ValueInst.events_sublist index)

theorem ValueInst.events_sublist : (v : ValueInst) → (v.events false).Sublist (v.events true)
  | .loadVar a => by
    rw [ValueInst.events, ValueInst.events]
    exact List.Sublist.append (Address.events_sublist a) (List.Sublist.refl _)
  | .loadVarAddress _ => by simp [ValueInst.events]
  | .binop _ x y => by
    rw [ValueInst.events, ValueInst.events]
    exact List.Sublist.append (ValueInst.events_sublist x) (ValueInst.events_sublist y)
  | .castNum x _ => by
    rw [ValueInst.events, ValueInst.events]
    exact ValueInst.events_sublist x
  | .funCall _ args => by
    rw [ValueInst.events, ValueInst.events]
    exact eventsOfValues_sublist args
  | .select2 c x y => by
    rw [ValueInst.events, ValueInst.events]
    exact List.Sublist.append (List.Sublist.append (ValueInst.events_sublist c)
      (ValueInst.events_sublist x)) (ValueInst.events_sublist y)
  | .null => by simp [ValueInst.events]
  | .intNum _ => by simp [ValueInst.events]
  | .realNum _ _ => by simp [ValueInst.events]
  | .boolNum _ => by simp [ValueInst.events]
  | .intArrayNum _ => by simp [ValueInst.events]
  | .realArrayNum _ _ => by simp [ValueInst.events]

theorem eventsOfValues_sublist : (vs : List ValueInst) →
    (eventsOfValues false vs).Sublist (eventsOfValues true vs)
  | [] => by simp [eventsOfValues]
  | v :: vs => by
    rw [eventsOfValues, eventsOfValues]
    exact List.Sublist.append (ValueInst.events_sublist v) (eventsOfValues_sublist vs)
end

theorem eventsOfOption_sublist (v : Option ValueInst) :
    (eventsOfOption false v).Sublist (eventsOfOption true v) := by
  cases v with
  | none => exact List.Sublist.refl _
  | some v => exact v.events_sublist

mutual
theorem StatementInst.events_sublist : (s : StatementInst) →
    (s.events false).Sublist (s.events true)
  | .declareVar a _ v => by
    rw [StatementInst.events, StatementInst.events]
    exact List.Sublist.append (List.Sublist.append a.events_sublist (eventsOfOption_sublist v))
      (List.Sublist.refl _)
  | .declareFun _ _ (some code) => by
    rw [StatementInst.events, StatementInst.events]
    exact List.Sublist.append (List.Sublist.refl _) (eventsOfBlock_sublist code)
  | .declareFun _ _ none => by simp [StatementInst.events]
  | .storeVar a v => by
    rw [StatementInst.events, StatementInst.events]
    exact List.Sublist.append (List.Sublist.append a.events_sublist v.events_sublist)
      (List.Sublist.refl _)
  | .ret v => by
    rw [StatementInst.events, StatementInst.events]
    exact eventsOfOption_sublist v
  | .drop v => by
    rw [StatementInst.events, StatementInst.events]
    exact eventsOfOption_sublist v
  | .ifInst c x y => by
    rw [StatementInst.events, StatementInst.events]
    exact List.Sublist.append (List.Sublist.append c.events_sublist (eventsOfBlock_sublist x))
      (eventsOfBlock_sublist y)
  | .forLoop init e inc code => by
    rw [StatementInst.events, StatementInst.events]
    exact List.Sublist.append (List.Sublist.append
      (List.Sublist.append (StatementInst.events_sublist init) e.events_sublist)
      (StatementInst.events_sublist inc)) (eventsOfBlock_sublist code)
  | .whileLoop c code => by
    rw [StatementInst.events, StatementInst.events]
    exact List.Sublist.append c.events_sublist (eventsOfBlock_sublist code)
  | .switch c cases => by
    rw [StatementInst.events, StatementInst.events]
    exact List.Sublist.append c.events_sublist (eventsOfCases_sublist cases)
  | .block code => by
    rw [StatementInst.events, StatementInst.events]
    exact eventsOfBlock_sublist code
  | .inert _ => by simp [StatementInst.events]

theorem eventsOfBlock_sublist : (ss : List StatementInst) →
    (eventsOfBlock false ss).Sublist (eventsOfBlock true ss)
  | [] => by simp [eventsOfBlock]
  | s :: ss => by
    rw [eventsOfBlock, eventsOfBlock]
    exact List.Sublist.append (StatementInst.events_sublist s) (eventsOfBlock_sublist ss)

theorem eventsOfCases_sublist : (cs : List (ℤ × List StatementInst)) →
    (eventsOfCases false cs).Sublist (eventsOfCases true cs)
  | [] => by simp [eventsOfCases]
  | (_, code) :: cs => by
    rw [eventsOfCases, eventsOfCases]
    exact List.Sublist.append (eventsOfBlock_sublist code) (eventsOfCases_sublist cs)
end

/-! ## What the cloned code names -/

section
variable (deep : Bool) (table : List String)

/-- The instruction after `LoopCloneVisitor`. -/
def visitEvent : Event → Event
  | .declare a => .declare (visitNamed table a)
  | .access a => .access (visitNamed table a)
  | .argument name => .argument name

theorem base_clone (a : Address) : (a.clone table).base = visitNamed table a.base := by
  match a with
  | .named a => rfl
  | .indexed a index => exact base_clone a

mutual
theorem Address.events_clone : (a : Address) →
    (a.clone table).events deep = (a.events deep).map (visitEvent table)
  | .named _ => rfl
  | .indexed a index => by
    rw [Address.clone, Address.events, Address.events, List.map_append,
      Address.events_clone a, ValueInst.events_clone index]

theorem ValueInst.events_clone : (v : ValueInst) →
    (v.clone table).events deep = (v.events deep).map (visitEvent table)
  | .loadVar a => by
    rw [ValueInst.clone, ValueInst.events, ValueInst.events, List.map_append,
      Address.events_clone a, base_clone]
    rfl
  | .loadVarAddress a => by
    rw [ValueInst.clone, ValueInst.events, ValueInst.events]
    split
    · rw [List.map_append, Address.events_clone a, base_clone]
      rfl
    · rfl
  | .binop _ x y => by
    rw [ValueInst.clone, ValueInst.events, ValueInst.events, List.map_append,
      ValueInst.events_clone x, ValueInst.events_clone y]
  | .castNum x _ => by
    rw [ValueInst.clone, ValueInst.events, ValueInst.events, ValueInst.events_clone x]
  | .funCall _ args => by
    rw [ValueInst.clone, ValueInst.events, ValueInst.events, eventsOfValues_clone args]
  | .select2 c x y => by
    rw [ValueInst.clone, ValueInst.events, ValueInst.events, List.map_append, List.map_append,
      ValueInst.events_clone c, ValueInst.events_clone x, ValueInst.events_clone y]
  | .null => rfl
  | .intNum _ => rfl
  | .realNum _ _ => rfl
  | .boolNum _ => rfl
  | .intArrayNum _ => rfl
  | .realArrayNum _ _ => rfl

theorem eventsOfValues_clone : (vs : List ValueInst) →
    eventsOfValues deep (cloneValues table vs) = (eventsOfValues deep vs).map (visitEvent table)
  | [] => rfl
  | v :: vs => by
    rw [cloneValues, eventsOfValues, eventsOfValues, List.map_append, ValueInst.events_clone v,
      eventsOfValues_clone vs]
end

theorem eventsOfOption_clone (v : Option ValueInst) :
    eventsOfOption deep (v.map (·.clone table)) = (eventsOfOption deep v).map (visitEvent table) :=
  match v with
  | none => rfl
  | some v => v.events_clone deep table

theorem map_argument (args : List (String × ArgType)) :
    (args.map (Event.argument ·.1)).map (visitEvent table) = args.map (.argument ·.1) := by
  rw [List.map_map]
  rfl

mutual
theorem StatementInst.events_clone : (s : StatementInst) →
    (s.clone table).events deep = (s.events deep).map (visitEvent table)
  | .declareVar a _ v => by
    rw [StatementInst.clone, StatementInst.events, StatementInst.events, List.map_append,
      List.map_append, Address.events_clone, eventsOfOption_clone, base_clone]
    rfl
  | .declareFun _ args (some code) => by
    rw [StatementInst.clone, StatementInst.events, StatementInst.events, List.map_append,
      map_argument, eventsOfBlock_clone code]
  | .declareFun _ args none => by
    rw [StatementInst.clone, StatementInst.events, map_argument]
  | .storeVar a v => by
    rw [StatementInst.clone, StatementInst.events, StatementInst.events, List.map_append,
      List.map_append, Address.events_clone, ValueInst.events_clone, base_clone]
    rfl
  | .ret v => by
    rw [StatementInst.clone, StatementInst.events, StatementInst.events, eventsOfOption_clone]
  | .drop v => by
    rw [StatementInst.clone, StatementInst.events, StatementInst.events, eventsOfOption_clone]
  | .ifInst c x y => by
    rw [StatementInst.clone, StatementInst.events, StatementInst.events, List.map_append,
      List.map_append, ValueInst.events_clone, eventsOfBlock_clone x, eventsOfBlock_clone y]
  | .forLoop init e inc code => by
    rw [StatementInst.clone, StatementInst.events, StatementInst.events, List.map_append,
      List.map_append, List.map_append, StatementInst.events_clone init, ValueInst.events_clone,
      StatementInst.events_clone inc, eventsOfBlock_clone code]
  | .whileLoop c code => by
    rw [StatementInst.clone, StatementInst.events, StatementInst.events, List.map_append,
      ValueInst.events_clone, eventsOfBlock_clone code]
  | .switch c cases => by
    rw [StatementInst.clone, StatementInst.events, StatementInst.events, List.map_append,
      ValueInst.events_clone, eventsOfCases_clone cases]
  | .block code => by
    rw [StatementInst.clone, StatementInst.events, StatementInst.events, eventsOfBlock_clone code]
  | .inert _ => rfl

theorem eventsOfBlock_clone : (ss : List StatementInst) →
    eventsOfBlock deep (cloneBlock table ss) = (eventsOfBlock deep ss).map (visitEvent table)
  | [] => rfl
  | s :: ss => by
    rw [cloneBlock, eventsOfBlock, eventsOfBlock, List.map_append, StatementInst.events_clone s,
      eventsOfBlock_clone ss]

theorem eventsOfCases_clone : (cs : List (ℤ × List StatementInst)) →
    eventsOfCases deep (cloneCases table cs) = (eventsOfCases deep cs).map (visitEvent table)
  | [] => rfl
  | (_, code) :: cs => by
    rw [cloneCases, eventsOfCases, eventsOfCases, List.map_append, eventsOfBlock_clone code,
      eventsOfCases_clone cs]
end

end

/-! ## The variables that are passed -/

/-- A variable on the stack, or of a loop. -/
def IsLocal (a : NamedAddress) : Prop := a.fAccess = .kStack ∨ a.fAccess = .kLoop

/-- A variable of the function that the block is in. -/
def IsVariable (a : NamedAddress) : Prop := IsLocal a ∨ a.fAccess = .kFunArgs

/-- The name of a variable that one of the instructions declares. -/
def Declares (ev : List Event) (x : String) : Prop := ∃ d, .declare d ∈ ev ∧ IsLocal d ∧ d.fName = x

/-- An access to a function argument, or to a variable that no instruction before declares. -/
def Escapes (pre : List Event) (a : NamedAddress) : Prop :=
  a.fAccess = .kFunArgs ∨ IsLocal a ∧ ¬ Declares pre a.fName

/-- The instructions have such an access to the variable. -/
def Passed (ev : List Event) (x : String) : Prop :=
  ∃ pre a post, ev = pre ++ .access a :: post ∧ a.fName = x ∧ Escapes pre a

/-- The value of a variable, as the stack variable or the function argument that it is. -/
def ValueInst.Loads (x : String) (v : ValueInst) : Prop :=
  v = genLoadStackVar x ∨ v = genLoadFunArgsVar x

variable {ev : List Event} {e : Event} {x : String} {types : String → Option Typed}

theorem declares_snoc :
    Declares (ev ++ [e]) x ↔ Declares ev x ∨ ∃ d, e = .declare d ∧ IsLocal d ∧ d.fName = x := by
  constructor
  · rintro ⟨d, hd, hloc, hname⟩
    rcases List.mem_append.mp hd with hd | hd
    · exact Or.inl ⟨d, hd, hloc, hname⟩
    · exact Or.inr ⟨d, (List.mem_singleton.mp hd).symm, hloc, hname⟩
  · rintro (⟨d, hd, hloc, hname⟩ | ⟨d, rfl, hloc, hname⟩)
    · exact ⟨d, List.mem_append_left _ hd, hloc, hname⟩
    · exact ⟨d, List.mem_append_right _ List.mem_cons_self, hloc, hname⟩

theorem passed_snoc :
    Passed (ev ++ [e]) x ↔ Passed ev x ∨ ∃ a, e = .access a ∧ a.fName = x ∧ Escapes ev a := by
  constructor
  · rintro ⟨pre, a, post, hev, hname, hesc⟩
    -- the access is the last instruction, or one of those before it
    rcases List.eq_nil_or_concat post with rfl | ⟨post, f, rfl⟩
    · obtain ⟨hpre, hlast⟩ := List.append_inj' hev rfl
      cases hlast
      exact Or.inr ⟨a, rfl, hname, hpre ▸ hesc⟩
    · have hev' : ev ++ [e] = (pre ++ .access a :: post) ++ [f] := by simpa using hev
      obtain ⟨hpre, -⟩ := List.append_inj' hev' rfl
      exact Or.inl ⟨pre, a, post, hpre, hname, hesc⟩
  · rintro (⟨pre, a, post, rfl, hname, hesc⟩ | ⟨a, rfl, hname, hesc⟩)
    · exact ⟨pre, a, post ++ [e], by simp, hname, hesc⟩
    · exact ⟨ev, a, [], rfl, hname, hesc⟩

/-- What the builder holds after the instructions. -/
structure Recorded (types : String → Option Typed) (ev : List Event) (b : Loop2FunctionBuider) :
    Prop where
  locals : ∀ x, x ∈ b.fLocalVarTable.map Prod.fst ↔ Declares ev x
  added : ∀ x, x ∈ b.fAddedVarTable ↔ Passed ev x
  nodup : b.fAddedVarTable.Nodup
  names : b.fArgsTypeList.map Prod.fst = b.fAddedVarTable
  typed : ∀ p ∈ b.fArgsTypeList, ∃ t, types p.1 = some t ∧ p.2 = .typed t
  values : List.Forall₂ ValueInst.Loads b.fAddedVarTable b.fArgsValueList

theorem Recorded.start : Recorded types [] ⟨[], [], [], []⟩ where
  locals x := by simp [Declares]
  added x := by simp [Passed]
  nodup := List.nodup_nil
  names := rfl
  typed := by simp
  values := .nil

namespace Loop2FunctionBuider

variable {b b' : Loop2FunctionBuider}

/-- A parameter is added at the end of the lists. -/
theorem addParameter_inv {v : ValueInst} (h : b.addParameter types x v = some b') :
    ∃ t, types x = some t ∧
      b' = ⟨b.fLocalVarTable, b.fAddedVarTable ++ [x], b.fArgsTypeList ++ [(x, .typed t)],
        b.fArgsValueList ++ [v]⟩ := by
  unfold addParameter at h
  split at h
  · cases h
  · next t ht => exact ⟨t, ht, (Option.some.inj h).symm⟩

/-- An access adds its variable when it escapes and the variable is not there, and does nothing
else. -/
theorem createParameter_inv {a : NamedAddress} (hb : Recorded types ev b)
    (h : b.createParameter types a = some b') :
    (b' = b ∧ (Escapes ev a → a.fName ∈ b.fAddedVarTable)) ∨
      (Escapes ev a ∧ a.fName ∉ b.fAddedVarTable ∧
        ∃ v, ValueInst.Loads a.fName v ∧ b.addParameter types a.fName v = some b') := by
  have hlocal : IsLocal a → b.createParameter types a =
      if a.fName ∈ b.fLocalVarTable.map Prod.fst then some b
      else if a.fName ∈ b.fAddedVarTable then some b
      else b.addParameter types a.fName (genLoadStackVar a.fName) := by
    rintro (ha | ha) <;> rw [createParameter, ha]
  by_cases hloc : IsLocal a
  · rw [hlocal hloc] at h
    have hargs : a.fAccess ≠ .kFunArgs := by
      rcases hloc with ha | ha <;> rw [ha] <;> decide
    split at h
    · next hdec =>
      refine Or.inl ⟨(Option.some.inj h).symm, fun hesc => ?_⟩
      rcases hesc with ha | ⟨-, hnot⟩
      · exact absurd ha hargs
      · exact absurd ((hb.locals _).mp hdec) hnot
    · next hdec =>
      split at h
      · next hin => exact Or.inl ⟨(Option.some.inj h).symm, fun _ => hin⟩
      · next hin => exact Or.inr ⟨Or.inr ⟨hloc, mt (hb.locals _).mpr hdec⟩, hin, _, Or.inl rfl, h⟩
  · by_cases ha : a.fAccess = .kFunArgs
    · rw [createParameter, ha] at h
      simp only at h
      split at h
      · next hin => exact Or.inl ⟨(Option.some.inj h).symm, fun _ => hin⟩
      · next hin => exact Or.inr ⟨Or.inl ha, hin, _, Or.inr rfl, h⟩
    · have hother : b.createParameter types a = some b := by
        unfold createParameter
        split
        · next hacc => exact absurd (Or.inl hacc) hloc
        · next hacc => exact absurd (Or.inr hacc) hloc
        · next hacc => exact absurd hacc ha
        · rfl
      rw [hother] at h
      refine Or.inl ⟨(Option.some.inj h).symm, fun hesc => ?_⟩
      rcases hesc with hargs | ⟨hl, -⟩
      · exact absurd hargs ha
      · exact absurd hl hloc

end Loop2FunctionBuider

/-- One more instruction. -/
theorem Recorded.visit {b b' : Loop2FunctionBuider} (hb : Recorded types ev b)
    (h : b.visit types e = some b') : Recorded types (ev ++ [e]) b' := by
  cases e with
  | declare d =>
    obtain rfl := Option.some.inj h
    have hadded : ∀ x, x ∈ b.fAddedVarTable ↔ Passed (ev ++ [.declare d]) x := fun x => by
      rw [hb.added, passed_snoc]
      simp
    by_cases hd : IsLocal d
    · have hkeep : b.keepLocal d = _ := if_pos hd
      rw [hkeep]
      refine ⟨fun x => ?_, hadded, hb.nodup, hb.names, hb.typed, hb.values⟩
      rw [List.map_cons, List.mem_cons, hb.locals, declares_snoc]
      constructor
      · rintro (hx | hx)
        · exact Or.inr ⟨d, rfl, hd, hx.symm⟩
        · exact Or.inl hx
      · rintro (hx | ⟨d', hd', -, hx⟩)
        · exact Or.inr hx
        · cases hd'
          exact Or.inl hx.symm
    · have hkeep : b.keepLocal d = b := if_neg hd
      rw [hkeep]
      refine ⟨fun x => ?_, hadded, hb.nodup, hb.names, hb.typed, hb.values⟩
      rw [hb.locals, declares_snoc]
      refine ⟨Or.inl, fun hx => ?_⟩
      rcases hx with hx | ⟨d', hd', hloc, -⟩
      · exact hx
      · cases hd'
        exact absurd hloc hd
  | argument name =>
    obtain rfl := Option.some.inj h
    refine ⟨fun x => ?_, fun x => ?_, hb.nodup, hb.names, hb.typed, hb.values⟩
    · rw [hb.locals, declares_snoc]
      simp
    · rw [hb.added, passed_snoc]
      simp
  | access a =>
    have hlocals : ∀ x, x ∈ b.fLocalVarTable.map Prod.fst ↔ Declares (ev ++ [.access a]) x :=
      fun x => by
        rw [hb.locals, declares_snoc]
        simp
    rcases Loop2FunctionBuider.createParameter_inv hb h with
      ⟨rfl, hin⟩ | ⟨hesc, hin, v, hv, hadd⟩
    · refine ⟨hlocals, fun x => ?_, hb.nodup, hb.names, hb.typed, hb.values⟩
      rw [passed_snoc, ← hb.added]
      refine ⟨Or.inl, fun hx => ?_⟩
      rcases hx with hx | ⟨a', ha', rfl, hesc⟩
      · exact hx
      · cases ha'
        exact hin hesc
    · obtain ⟨t, ht, rfl⟩ := Loop2FunctionBuider.addParameter_inv hadd
      refine ⟨hlocals, fun x => ?_, ?_, ?_, ?_, ?_⟩
      · rw [passed_snoc, ← hb.added]
        show x ∈ b.fAddedVarTable ++ [a.fName] ↔ _
        rw [List.mem_append, List.mem_singleton]
        refine or_congr_right ⟨fun hx => ⟨a, rfl, hx.symm, hesc⟩, ?_⟩
        rintro ⟨a', ha', rfl, -⟩
        cases ha'
        rfl
      · exact hb.nodup.append (List.nodup_singleton _) (by simpa using hin)
      · show (b.fArgsTypeList ++ [_]).map Prod.fst = _
        rw [List.map_append, hb.names]
        rfl
      · intro p hp
        rcases List.mem_append.mp hp with hp | hp
        · exact hb.typed p hp
        · obtain rfl := List.mem_singleton.mp hp
          exact ⟨t, ht, rfl⟩
      · exact List.rel_append hb.values (.cons hv .nil)

/-- The visitor goes on when the variables that it passes have a type. -/
theorem Recorded.visit_isSome {b : Loop2FunctionBuider} (hb : Recorded types ev b)
    (htypes : ∀ x, Passed (ev ++ [e]) x → ∃ t, types x = some t) :
    ∃ b', b.visit types e = some b' := by
  cases e with
  | declare d => exact ⟨_, rfl⟩
  | argument name => exact ⟨_, rfl⟩
  | access a =>
    cases hadd : b.createParameter types a with
    | some b' => exact ⟨b', hadd⟩
    | none =>
      -- the assertion fails only for a variable that escapes
      have hesc : Escapes ev a := by
        unfold Loop2FunctionBuider.createParameter at hadd
        split at hadd
        · next hacc =>
          refine Or.inr ⟨Or.inl hacc, fun hd => ?_⟩
          rw [if_pos ((hb.locals _).mpr hd)] at hadd
          cases hadd
        · next hacc =>
          refine Or.inr ⟨Or.inr hacc, fun hd => ?_⟩
          rw [if_pos ((hb.locals _).mpr hd)] at hadd
          cases hadd
        · next hacc => exact Or.inl hacc
        · cases hadd
      obtain ⟨t, ht⟩ := htypes a.fName (passed_snoc.mpr (Or.inr ⟨a, rfl, rfl, hesc⟩))
      have hparam : ∀ v, b.addParameter types a.fName v ≠ none := fun v => by
        simp [Loop2FunctionBuider.addParameter, ht]
      unfold Loop2FunctionBuider.createParameter at hadd
      split at hadd
      · split at hadd
        · cases hadd
        · split at hadd
          · cases hadd
          · exact absurd hadd (hparam _)
      · split at hadd
        · cases hadd
        · split at hadd
          · cases hadd
          · exact absurd hadd (hparam _)
      · split at hadd
        · cases hadd
        · exact absurd hadd (hparam _)
      · cases hadd

theorem Passed.append (h : Passed ev x) (ev' : List Event) : Passed (ev ++ ev') x := by
  obtain ⟨pre, a, post, rfl, hname, hesc⟩ := h
  exact ⟨pre, a, post ++ ev', by simp, hname, hesc⟩

theorem Recorded.run_isSome {b : Loop2FunctionBuider} (hb : Recorded types ev b)
    {ev' : List Event} (htypes : ∀ x, Passed (ev ++ ev') x → ∃ t, types x = some t) :
    ∃ b', ev'.foldlM (Loop2FunctionBuider.visit types) b = some b' := by
  induction ev' generalizing ev b with
  | nil => exact ⟨b, rfl⟩
  | cons e es ih =>
    have hes : ev ++ e :: es = (ev ++ [e]) ++ es := by simp
    rw [hes] at htypes
    obtain ⟨c, hc⟩ := hb.visit_isSome fun x hx => htypes x (hx.append es)
    obtain ⟨b', hb'⟩ := ih (hb.visit hc) htypes
    exact ⟨b', by rw [List.foldlM_cons, hc]; exact hb'⟩

/-- All the instructions of a list. -/
theorem Recorded.run {b b' : Loop2FunctionBuider} (hb : Recorded types ev b) {ev' : List Event}
    (h : ev'.foldlM (Loop2FunctionBuider.visit types) b = some b') :
    Recorded types (ev ++ ev') b' := by
  induction ev' generalizing ev b with
  | nil =>
    obtain rfl := Option.some.inj h
    rwa [List.append_nil]
  | cons e es ih =>
    rw [List.foldlM_cons] at h
    obtain ⟨c, hc, hes⟩ := Option.bind_eq_some_iff.mp h
    have hrun := ih (hb.visit hc) hes
    rwa [List.append_assoc] at hrun

/-! ## The function -/

/-- A name that the instructions declare, as a variable or as the argument of a function. -/
def Binds (ev : List Event) (x : String) : Prop := Declares ev x ∨ .argument x ∈ ev

/-- A variable of the enclosing context that the block reads, writes or takes the address of. -/
def Free (block : List StatementInst) (x : String) : Prop :=
  (∃ a, .access a ∈ eventsOfBlock true block ∧ IsVariable a ∧ a.fName = x) ∧
    ¬ Binds (eventsOfBlock true block) x

/-- The names of the parameters. -/
def DeclareFunInst.params (f : DeclareFunInst) : List String := f.fArgsTypes.map Prod.fst

/-- The parameters are the free variables of the block, and the object where it is asked for, each
once; the call passes each of them in its place; and what the code of the function accesses is a
parameter or declared there. -/
structure Closed (block : List StatementInst) (addObject : Bool)
    (r : DeclareFunInst × FunCallInst) : Prop where
  params : ∀ x, x ∈ r.1.params ↔ Free block x ∨ addObject = true ∧ x = "dsp"
  nodup : r.1.params.Nodup
  call : r.2.fName = r.1.fName ∧ List.Forall₂ ValueInst.Loads r.1.params r.2.fArgs
  code : ∀ a, .access a ∈ eventsOfBlock true r.1.fCode → IsVariable a →
    a.fName ∈ r.1.params ∨ Binds (eventsOfBlock true r.1.fCode) a.fName

/-- What the visitor relies on: a variable whose address is taken is also read or written outside
of the `LoadVarAddressInst`, a variable declared in the block is declared before it is accessed and
is no function argument, and `dsp` is left to the object. -/
structure Closable (block : List StatementInst) (addObject : Bool) : Prop where
  accessed : ∀ x, Free block x → ¬ (addObject = true ∧ x = "dsp") →
    ∃ a, .access a ∈ eventsOfBlock false block ∧ IsVariable a ∧ a.fName = x
  declared : ∀ x, Passed (eventsOfBlock false block) x → ¬ Binds (eventsOfBlock true block) x
  object : addObject = true → ¬ Passed (eventsOfBlock false block) "dsp"

variable {funName : String} {block : List StatementInst} {addObject : Bool}
  {r : DeclareFunInst × FunCallInst}

/-- The function has the code of the block, and one parameter for each variable that is passed. -/
theorem loop2Function_inv (h : loop2Function types funName block addObject = some r) :
    ∃ b, Recorded types (eventsOfBlock false block) b ∧
      r.1.fName = funName ∧ r.2.fName = funName ∧
      r.1.params = (if addObject then ["dsp"] else []) ++ b.fAddedVarTable ∧
      r.1.fCode = cloneBlock b.fAddedVarTable block ++ [.ret none] ∧
      List.Forall₂ ValueInst.Loads r.1.params r.2.fArgs := by
  unfold loop2Function at h
  split at h
  · cases h
  · next b hb =>
    have hrec : Recorded types (eventsOfBlock false block) b := Recorded.start.run hb
    cases Option.some.inj h
    refine ⟨b, hrec, rfl, rfl, ?_, rfl, ?_⟩
    · cases addObject with
      | false => exact hrec.names
      | true =>
        show "dsp" :: b.fArgsTypeList.map Prod.fst = _
        rw [hrec.names]
        rfl
    · cases addObject with
      | false =>
        show List.Forall₂ _ (b.fArgsTypeList.map Prod.fst) _
        rw [hrec.names]
        exact hrec.values
      | true =>
        show List.Forall₂ _ ("dsp" :: b.fArgsTypeList.map Prod.fst) _
        rw [hrec.names]
        exact .cons (Or.inr rfl) hrec.values

/-- A variable is passed when the visitor sees an access to it and no declaration. -/
theorem passed_of_access {a : NamedAddress} (ha : .access a ∈ ev) (hvar : IsVariable a)
    (hdec : ¬ Declares ev a.fName) : Passed ev a.fName := by
  obtain ⟨pre, post, rfl⟩ := List.append_of_mem ha
  refine ⟨pre, a, post, rfl, rfl, ?_⟩
  rcases hvar with hloc | hargs
  · refine Or.inr ⟨hloc, fun ⟨d, hd, hdloc, hname⟩ => hdec ?_⟩
    exact ⟨d, List.mem_append_left _ hd, hdloc, hname⟩
  · exact Or.inl hargs

/-- What is passed is a variable that an instruction accesses. -/
theorem Passed.access (h : Passed ev x) : ∃ a, .access a ∈ ev ∧ IsVariable a ∧ a.fName = x := by
  obtain ⟨pre, a, post, rfl, hname, hesc⟩ := h
  refine ⟨a, List.mem_append_right _ List.mem_cons_self, ?_, hname⟩
  rcases hesc with hargs | ⟨hloc, -⟩
  · exact Or.inr hargs
  · exact Or.inl hloc

theorem Declares.deep (h : Declares (eventsOfBlock false block) x) :
    Declares (eventsOfBlock true block) x := by
  obtain ⟨d, hd, hloc, hname⟩ := h
  exact ⟨d, (eventsOfBlock_sublist block).subset hd, hloc, hname⟩

/-- On the blocks that it relies on, what the visitor passes is what is free. -/
theorem Closable.passed_iff (h : Closable block addObject)
    (hx : ¬ (addObject = true ∧ x = "dsp")) :
    Passed (eventsOfBlock false block) x ↔ Free block x := by
  constructor
  · intro hp
    obtain ⟨a, ha, hvar, hname⟩ := hp.access
    exact ⟨⟨a, (eventsOfBlock_sublist block).subset ha, hvar, hname⟩, h.declared x hp⟩
  · intro hf
    obtain ⟨a, ha, hvar, rfl⟩ := h.accessed x hf hx
    exact passed_of_access ha hvar fun hd => hf.2 (Or.inl hd.deep)

theorem eventsOfBlock_append (deep : Bool) (ss ss' : List StatementInst) :
    eventsOfBlock deep (ss ++ ss') = eventsOfBlock deep ss ++ eventsOfBlock deep ss' := by
  induction ss with
  | nil => rfl
  | cons s ss ih => rw [List.cons_append, eventsOfBlock, eventsOfBlock, ih, List.append_assoc]

/-- The code of the function names what the block names, the parameters as such. -/
theorem events_code (table : List String) :
    eventsOfBlock true (cloneBlock table block ++ [.ret none]) =
      (eventsOfBlock true block).map (visitEvent table) := by
  rw [eventsOfBlock_append, eventsOfBlock_clone]
  exact List.append_nil _

theorem visitNamed_fName (table : List String) (a : NamedAddress) :
    (visitNamed table a).fName = a.fName := by
  unfold visitNamed
  split <;> rfl

/-- A name that is not a parameter is bound in the code of the function where it is in the block. -/
theorem Binds.clone {table : List String} (h : Binds (eventsOfBlock true block) x)
    (hx : x ∉ table) : Binds (eventsOfBlock true (cloneBlock table block ++ [.ret none])) x := by
  rw [events_code]
  rcases h with ⟨d, hd, hloc, rfl⟩ | harg
  · have hkeep : visitNamed table d = d := if_neg hx
    refine Or.inl ⟨d, List.mem_map.mpr ⟨.declare d, hd, ?_⟩, hloc, rfl⟩
    rw [visitEvent, hkeep]
  · exact Or.inr (List.mem_map.mpr ⟨_, harg, rfl⟩)

/-- The code of the function is closed when the free variables of the block are parameters. -/
theorem code_closed {table params : List String} (htable : ∀ x ∈ table, x ∈ params)
    (hfree : ∀ x, Free block x → x ∈ params) {a : NamedAddress}
    (ha : .access a ∈ eventsOfBlock true (cloneBlock table block ++ [.ret none]))
    (hvar : IsVariable a) :
    a.fName ∈ params ∨
      Binds (eventsOfBlock true (cloneBlock table block ++ [.ret none])) a.fName := by
  have hacc := ha
  rw [events_code] at hacc
  obtain ⟨e, he, heq⟩ := List.mem_map.mp hacc
  cases e with
  | declare d => cases heq
  | argument name => cases heq
  | access a' =>
    cases heq
    rw [visitNamed_fName]
    by_cases hin : a'.fName ∈ table
    · exact Or.inl (htable _ hin)
    · -- the address is as it was in the block
      have hkeep : visitNamed table a' = a' := if_neg hin
      rw [hkeep] at hvar
      by_cases hbind : Binds (eventsOfBlock true block) a'.fName
      · exact Or.inr (hbind.clone hin)
      · exact Or.inl (hfree _ ⟨⟨a', he, hvar, rfl⟩, hbind⟩)

theorem closed_iff (h : loop2Function types funName block addObject = some r) :
    Closed block addObject r ↔ Closable block addObject := by
  obtain ⟨b, hrec, hdef, hcall, hparams, hcode, hargs⟩ := loop2Function_inv h
  have hmem : ∀ x, x ∈ r.1.params ↔
      addObject = true ∧ x = "dsp" ∨ Passed (eventsOfBlock false block) x := by
    intro x
    rw [hparams, List.mem_append, hrec.added]
    cases addObject <;> simp
  constructor
  · intro hclosed
    have hnodup := hclosed.nodup
    rw [hparams] at hnodup
    have hobject : addObject = true → ¬ Passed (eventsOfBlock false block) "dsp" := by
      rintro rfl hp
      have hdsp : "dsp" ∈ b.fAddedVarTable := (hrec.added _).mpr hp
      exact (List.nodup_cons.mp hnodup).1 hdsp
    refine ⟨fun x hf hx => ?_, fun x hp hbind => ?_, hobject⟩
    · rcases (hmem x).mp ((hclosed.params x).mpr (Or.inl hf)) with hdsp | hp
      · exact absurd hdsp hx
      · exact hp.access
    · rcases (hclosed.params x).mp ((hmem x).mpr (Or.inr hp)) with hf | ⟨hadd, rfl⟩
      · exact hf.2 hbind
      · exact hobject hadd hp
  · intro hcl
    have hpar : ∀ x, x ∈ r.1.params ↔ Free block x ∨ addObject = true ∧ x = "dsp" := by
      intro x
      rw [hmem]
      by_cases hx : addObject = true ∧ x = "dsp"
      · simp [hx]
      · rw [hcl.passed_iff hx]
        simp [hx]
    refine ⟨hpar, ?_, ⟨hcall.trans hdef.symm, hargs⟩, fun a ha hvar => ?_⟩
    · rw [hparams]
      cases addObject with
      | false => exact hrec.nodup
      | true =>
        refine List.nodup_cons.mpr ⟨fun hdsp => ?_, hrec.nodup⟩
        exact hcl.object rfl ((hrec.added _).mp hdsp)
    · rw [hcode] at ha ⊢
      refine code_closed (fun x hx => ?_) (fun x hf => (hpar x).mpr (Or.inl hf)) ha hvar
      exact (hmem x).mpr (Or.inr ((hrec.added x).mp hx))

/-- A function is made of each block whose variables have types, and it is closed exactly when the
visitor can rely on the block. -/
theorem closed_iff_closable (funName : String) (addObject : Bool)
    (htypes : ∀ x, Passed (eventsOfBlock false block) x → ∃ t, types x = some t) :
    ∃ r, loop2Function types funName block addObject = some r ∧
      (Closed block addObject r ↔ Closable block addObject) := by
  obtain ⟨b, hb⟩ := Recorded.start.run_isSome htypes
  have hmade : ∃ r, loop2Function types funName block addObject = some r := by
    unfold loop2Function
    rw [hb]
    exact ⟨_, rfl⟩
  obtain ⟨r, hr⟩ := hmade
  exact ⟨r, hr, closed_iff hr⟩

/-- The types of the variables of a block. -/
def someTypes : String → Option Typed := fun _ => some (.basic .kFloat)

/-- `y[i] = x;`, where `i` is a loop variable of the enclosing context. -/
def storeIndexed : List StatementInst :=
  [.storeVar (.indexed (.named ⟨"y", .kStack⟩) (.loadVar (.named ⟨"i", .kLoop⟩)))
    (.loadVar (.named ⟨"x", .kFunArgs⟩))]

theorem closable_storeIndexed : Closable storeIndexed true := by
  have hev : ∀ deep, eventsOfBlock deep storeIndexed =
      [.access ⟨"i", .kLoop⟩, .access ⟨"x", .kFunArgs⟩, .access ⟨"y", .kStack⟩] := by decide
  have hbinds : ∀ x, ¬ Binds (eventsOfBlock true storeIndexed) x := by
    rintro x (⟨d, hd, -⟩ | harg)
    · simp [hev] at hd
    · simp [hev] at harg
  refine ⟨fun x hf _ => ?_, fun x _ => hbinds x, fun _ hp => ?_⟩
  · rw [hev false, ← hev true]
    exact hf.1
  · obtain ⟨a, ha, -, hname⟩ := hp.access
    simp only [hev, List.mem_cons, Event.access.injEq, List.not_mem_nil, or_false] at ha
    rcases ha with rfl | rfl | rfl <;> exact absurd hname (by decide)

/-- The function of the block is closed: `x`, `y` and the loop variable are its parameters. -/
theorem closed_storeIndexed :
    ∃ r, loop2Function someTypes "fun0" storeIndexed true = some r ∧ Closed storeIndexed true r := by
  have htypes : ∀ x, Passed (eventsOfBlock false storeIndexed) x → ∃ t, someTypes x = some t :=
    fun _ _ => ⟨_, rfl⟩
  obtain ⟨r, hr, hiff⟩ := closed_iff_closable "fun0" true htypes
  exact ⟨r, hr, hiff.mpr closable_storeIndexed⟩

/-- `p = &x[0];`, where `p` is declared in the block and `x` is not. -/
def takeAddress : List StatementInst :=
  [.declareVar (.named ⟨"p", .kStack⟩) (.array .kFloat 0)
    (some (.loadVarAddress (.indexed (.named ⟨"x", .kStack⟩) (.intNum 0))))]

/-- `x` is a variable of the enclosing context, and no parameter. -/
theorem not_closed_takeAddress :
    ∃ r, loop2Function someTypes "fun0" takeAddress false = some r ∧
      ¬ Closed takeAddress false r := by
  refine ⟨_, rfl, fun h => ?_⟩
  have hfree : Free takeAddress "x" := by
    refine ⟨⟨⟨"x", .kStack⟩, by decide, Or.inl (Or.inl rfl), rfl⟩, ?_⟩
    rintro (⟨d, hd, -, hname⟩ | harg)
    · have hev : eventsOfBlock true takeAddress =
          [.access ⟨"x", .kStack⟩, .declare ⟨"p", .kStack⟩] := by decide
      rw [hev] at hd
      simp at hd
      rw [hd] at hname
      exact absurd hname (by decide)
    · exact absurd harg (by decide)
  exact absurd ((h.params "x").mpr (Or.inl hfree)) (by decide)

end Faust.Fir.Extract
