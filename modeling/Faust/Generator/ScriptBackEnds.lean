import Faust.Generator.JavaTheorems

/-!
# The script back-ends and the C text

The texts of Java, JavaScript and asm.js have the value of the C++ text when the types are the
ones the Java visitor goes by and the computation is exact in JavaScript.
-/

namespace Faust.Fir

open ExprGrammar

variable (gVarTypeTable : VarTypeTable)
  (fFieldTable : ASMJAVAScriptInstVisitor.FieldTable) (h : Heap) (m : Memory)

/-- The text is well formed in its language, and has the value of the C++ text if that has one. -/
def SameValue (e : ValueInst) (visit : ValueInst → Option (List Tok))
    (WellFormed : List Tok → Prop) (Means : List Tok → Val → Prop) : Prop :=
  ∃ ts, visit e = some ts ∧ WellFormed ts ∧
    ∀ cs v, CPPInstVisitor.visit e = some cs → C.Means gVarTypeTable m cs v → Means ts v

/-- The texts of the three script languages have the value of the C++ text. -/
structure ScriptsAgree (e : ValueInst) : Prop where
  java : SameValue gVarTypeTable m e (JAVAInstVisitor.visit gVarTypeTable)
    (Java.WellFormed gVarTypeTable) (Java.Means gVarTypeTable m)
  javaScript : SameValue gVarTypeTable m e JAVAScriptInstVisitor.visit
    JavaScript.WellFormed (JavaScript.Means (jsEnv gVarTypeTable m))
  asmJs : SameValue gVarTypeTable m e (ASMJAVAScriptInstVisitor.visit fFieldTable gVarTypeTable)
    JavaScript.WellFormed (JavaScript.Means (h.env gVarTypeTable m))

variable {gVarTypeTable fFieldTable h m}

theorem java_sameValue (hm : Valuation gVarTypeTable m) {e : ValueInst}
    (hw : e.WellTyped gVarTypeTable) (ht : Java.Typed gVarTypeTable e) :
    SameValue gVarTypeTable m e (JAVAInstVisitor.visit gVarTypeTable)
      (Java.WellFormed gVarTypeTable) (Java.Means gVarTypeTable m) := by
  obtain ⟨ts, x, hts, hx, hty, hv⟩ := Java.visit_text hm hw ht
  refine ⟨ts, hts, ⟨x, _, hx.reads, hty⟩, fun cs v hcs hc => ?_⟩
  obtain ⟨w, hew, hhas⟩ := hv v ((C.means_iff hw hcs).mp hc)
  exact ⟨x, w, hx.reads, hew, hhas.toVal⟩

theorem javaScript_sameValue {e : ValueInst} (hw : e.WellTyped gVarTypeTable)
    (he : JavaScript.Exact gVarTypeTable m e) :
    SameValue gVarTypeTable m e JAVAScriptInstVisitor.visit JavaScript.WellFormed
      (JavaScript.Means (jsEnv gVarTypeTable m)) := by
  obtain ⟨ts, x, hts, hx, hv⟩ := JavaScript.visit_text (m := m) hw
  refine ⟨ts, hts, ⟨x, hx.reads⟩, fun cs v hcs hc => ?_⟩
  obtain ⟨r, hr, hrn, -⟩ := hv he v ((C.means_iff hw hcs).mp hc)
  exact ⟨x, r, hx.reads, hr, hrn⟩

theorem asmJs_sameValue (hl : h.Lays gVarTypeTable fFieldTable m) (hm : Valuation gVarTypeTable m)
    {e : ValueInst} (hw : e.WellTyped gVarTypeTable) (ht : TypedByThen gVarTypeTable e) :
    SameValue gVarTypeTable m e (ASMJAVAScriptInstVisitor.visit fFieldTable gVarTypeTable)
      JavaScript.WellFormed (JavaScript.Means (h.env gVarTypeTable m)) := by
  obtain ⟨ts, x, hts, hx, hv⟩ := ASMJAVAScriptInstVisitor.visit_text hl hm hw ht
  refine ⟨ts, hts, ⟨x, hx.reads⟩, fun cs v hcs hc => ?_⟩
  exact ⟨x, _, hx.reads, hv v ((C.means_iff hw hcs).mp hc), rfl⟩

/-- The script back-ends agree with the C++ text on a value that has the types the Java visitor
goes by and that JavaScript computes exactly. -/
theorem scriptsAgree (hl : h.Lays gVarTypeTable fFieldTable m) (hm : Valuation gVarTypeTable m)
    {e : ValueInst} (hw : e.WellTyped gVarTypeTable) (ht : Java.Typed gVarTypeTable e)
    (he : JavaScript.Exact gVarTypeTable m e) :
    ScriptsAgree gVarTypeTable fFieldTable h m e where
  java := java_sameValue hm hw ht
  javaScript := javaScript_sameValue hw he
  asmJs := asmJs_sameValue hl hm hw ht.typedByThen

/-! ## Two values -/

/-- A field of the structure. -/
def slowTable : VarTypeTable := fun x =>
  if x = "iSlow0" then some (.kStruct, .basic .kInt) else none

/-- The value of the field is 5. -/
def slowMemory : Memory := fun x => if x = "iSlow0" then .scalar (some (.int 5)) else .undeclared

/-- The field is the second word of the structure, at address 0. -/
def slowHeap : Heap where
  dsp := 0
  address _ := 0
  heap32 i := if i = 1 then 5 else 0
  heapF32 _ := 0

def slowFields : ASMJAVAScriptInstVisitor.FieldTable := fun x =>
  if x = "iSlow0" then (4, .basic .kInt) else (0, .basic .kFloatMacro)

/-- `((iSlow0 < 10)?(iSlow0 * 3):0)`. -/
def slowSelect : ValueInst :=
  .select2 (.binop .kLT (.loadVar ⟨"iSlow0", .kStruct⟩) (.intNum 10))
    (.binop .kMul (.loadVar ⟨"iSlow0", .kStruct⟩) (.intNum 3)) (.intNum 0)

theorem slowTable_eq_some {x : String} {t : AccessType × Typed} (h : slowTable x = some t) :
    x = "iSlow0" ∧ t = (.kStruct, .basic .kInt) := by
  unfold slowTable at h
  split at h
  next hx => exact ⟨hx, (Option.some.inj h).symm⟩
  · simp at h

theorem slowHeap_lays : slowHeap.Lays slowTable slowFields slowMemory where
  names x t h := by
    obtain ⟨rfl, -⟩ := slowTable_eq_some h
    decide
  scalar x a t h _ := by
    obtain ⟨rfl, ht⟩ := slowTable_eq_some h
    obtain ⟨rfl, hb⟩ := Prod.mk.inj ht
    obtain rfl := Typed.basic.inj hb
    refine ⟨rfl, ⟨by decide, by decide⟩, fun v hv => ?_⟩
    obtain rfl : Val.int 5 = v := by simpa [slowMemory] using hv
    rfl
  array x a t n h := by simpa using (slowTable_eq_some h).2
  buffer x a t n h := by simpa using (slowTable_eq_some h).2

theorem slowMemory_valuation : Valuation slowTable slowMemory where
  scalar x a t v h hv := by
    obtain ⟨rfl, ht⟩ := slowTable_eq_some h
    obtain ⟨-, hb⟩ := Prod.mk.inj ht
    obtain rfl := Typed.basic.inj hb
    obtain rfl : Val.int 5 = v := by simpa [slowMemory] using hv
    rfl
  elem x a t n i v h := by simpa using (slowTable_eq_some h).2

theorem slowSelect_wellTyped : slowSelect.WellTyped slowTable := by
  have hx : (ValueInst.loadVar ⟨"iSlow0", .kStruct⟩).WellTyped slowTable :=
    ⟨by decide, .kInt, by decide, trivial⟩
  have h0 : IsInt32 0 := by decide
  have h3 : IsInt32 3 := by decide
  have h10 : IsInt32 10 := by decide
  exact ⟨⟨hx, h10, by decide⟩, ⟨hx, h3, by decide⟩, h0⟩

theorem slowSelect_typed : Java.Typed slowTable slowSelect := by
  refine ⟨⟨trivial, trivial, by decide, nofun⟩, ⟨trivial, trivial, by decide, ?_⟩, trivial,
    ?_, by decide, by decide, by decide⟩
  · intro _
    refine ⟨⟨?_, by decide⟩, ⟨?_, by decide⟩⟩ <;> simp only [Java.Tagged] <;> decide
  · simp only [Java.Tagged]
    decide

theorem slowSelect_exact : JavaScript.Exact slowTable slowMemory slowSelect := by
  refine ⟨⟨trivial, trivial, fun va vb ha hb => ?_⟩, fun v _ => ⟨fun _ => ?_, fun _ => trivial⟩⟩
  · obtain rfl := Option.some.inj ha
    obtain rfl := Option.some.inj hb
    trivial
  · refine ⟨trivial, trivial, fun va vb ha hb => ?_⟩
    obtain rfl : Val.int 5 = va := by simpa [ValueInst.typedEval, slowMemory] using ha
    obtain rfl := Option.some.inj hb
    show IsInt32 _
    decide

theorem scriptsAgree_slowSelect :
    ScriptsAgree slowTable slowFields slowHeap slowMemory slowSelect :=
  scriptsAgree slowHeap_lays slowMemory_valuation slowSelect_wellTyped slowSelect_typed
    slowSelect_exact

/-- `(1?10:20)`. -/
def intSelect : ValueInst := .select2 (.intNum 1) (.intNum 10) (.intNum 20)

/-- What Java reads: `(((1==0)?true:false)?10:20)`. -/
def intSelectJava : Expr :=
  .paren (.cond (.paren (.cond (.paren (.binary .eq (.int 1) (.int 0))) (.name "true")
    (.name "false"))) (.int 10) (.int 20))

/-- A condition that is a number is tested the wrong way round in Java. -/
theorem not_scriptsAgree_intSelect :
    ¬ ∀ (gVarTypeTable : VarTypeTable) (fFieldTable : ASMJAVAScriptInstVisitor.FieldTable)
      (h : Heap) (m : Memory) (e : ValueInst), h.Lays gVarTypeTable fFieldTable m →
        Valuation gVarTypeTable m → e.WellTyped gVarTypeTable →
        ScriptsAgree gVarTypeTable fFieldTable h m e := by
  intro hall
  have hw : intSelect.WellTyped slowTable := by
    have h1 : IsInt32 1 := by decide
    have h10 : IsInt32 10 := by decide
    have h20 : IsInt32 20 := by decide
    exact ⟨h1, h10, h20⟩
  obtain ⟨ts, hts, -, hmeans⟩ := (hall slowTable slowFields slowHeap slowMemory intSelect
    slowHeap_lays slowMemory_valuation hw).java
  obtain ⟨x, w, hx, hev, hval⟩ := hmeans _ (.int 10) rfl ((C.means_iff hw rfl).mpr rfl)
  have hread : Reads Java.types ts intSelectJava := by
    have hfits : intSelectJava.Fits Java.types := by
      simp [intSelectJava, Expr.Fits, Java.types, Oper.prec]
    rw [← Option.some.inj hts]
    exact reads_tokens hfits
  rw [hx.unique hread] at hev
  have h20 : Java.eval slowTable slowMemory intSelectJava = some (.num (.int 20)) := by decide +kernel
  rw [h20] at hev
  rw [← Option.some.inj hev] at hval
  exact absurd hval (by decide)

end Faust.Fir
