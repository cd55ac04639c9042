import Faust.Signals.SigType
import Faust.Tlib.Tree

/-!
# Audio types (`sigtype.hh`, `sigtype.cpp`)

A type is simple, a table or a tuplet. Simple types and tables are hash-consed: a type is coded
as a tree, and `gMemoizedTypes` holds the type made for each code.
-/

namespace Faust

open Faust.Tree

/-- The variability `kKonst`. -/
def kKonst : ℕ := 0

/-- The variability `kBlock`. -/
def kBlock : ℕ := 1

/-- The computability `kComp`. -/
def kComp : ℕ := 0

/-- The computability `kInit`. -/
def kInit : ℕ := 1

/-- The computability `kExec`. -/
def kExec : ℕ := 3

/-- The vectorability `kVect`. -/
def kVect : ℕ := 0

/-- The vectorability `kScal`. -/
def kScal : ℕ := 1

/-- The booleanity `kNum`. -/
def kNum : ℕ := 0

/-- `class AudioType`. Tables and tuplets have the fields of simple types too. -/
inductive AudioType
  | simple (t : SimpleType)
  | table (content : AudioType) (t : SimpleType)
  | tuplet (components : List AudioType) (t : SimpleType)

namespace AudioType

/-- The fields that all types have. -/
def fields : AudioType → SimpleType
  | simple t | table _ t | tuplet _ t => t

@[simp] theorem fields_simple (t : SimpleType) : (simple t).fields = t := rfl

@[simp] theorem fields_table (c : AudioType) (t : SimpleType) : (table c t).fields = t := rfl

@[simp] theorem fields_tuplet (ts : List AudioType) (t : SimpleType) :
    (tuplet ts t).fields = t := rfl

/-! ## Constructors -/

/-- `TableType(t)`: the fields are those of the content, without its interval. -/
def tableType (t : AudioType) : AudioType := .table t { t.fields with interval := .invalid }

/-- `TableType(t, n, v, c, vec, b, i)`. -/
def tableTypeWith (t : AudioType) (n : Nature) (v c vec b : ℕ) (i : Interval) : AudioType :=
  .table t ⟨t.fields.nature.join n, t.fields.variability ||| v, t.fields.computability ||| c,
    t.fields.vectorability ||| vec, t.fields.boolean ||| b, i⟩

/-- `mergeinterval`. -/
def mergeInterval (v : List AudioType) : Interval :=
  if v.all (·.fields.interval.valid) then
    match v with
    | [] => .invalid
    | t :: ts => ts.foldl (fun i u =>
        .ofBounds (min i.lo u.fields.interval.lo) (max i.hi u.fields.interval.hi))
        (.ofBounds t.fields.interval.lo t.fields.interval.hi)
  else .invalid

/-- The fields of `TupletType(vt)`: `mergenature`, `mergevariability` and so on. -/
def mergeFields (vt : List AudioType) : SimpleType :=
  let merged : SimpleType := (vt.map fields).foldl SimpleType.join
    ⟨.kInt, kKonst, kComp, kVect, kNum, .invalid⟩
  { merged with interval := mergeInterval vt }

/-- `TupletType(vt)`. -/
def tupletType (vt : List AudioType) : AudioType := .tuplet vt (mergeFields vt)

/-- `TupletType(vt, n, v, c, vec, b, i)`. -/
def tupletTypeWith (vt : List AudioType) (t : SimpleType) : AudioType :=
  .tuplet vt { t.join (mergeFields vt) with interval := t.interval }

/-! ## Codes -/

/-- `codeSimpleType`. -/
def codeSimpleType (st : SimpleType) : Tree :=
  .node (.sym (.user "SimpleType"))
    [leaf (.int (match st.nature with | .kInt => 0 | .kReal => 1)), leaf (.int st.variability),
      leaf (.int st.computability), leaf (.int st.vectorability), leaf (.int st.boolean),
      leaf (.int st.interval.valid.toNat), leaf (.double st.interval.lo),
      leaf (.double st.interval.hi)]

mutual
/-- `codeAudioType`: of the fields of tables and tuplets, none is coded. -/
def codeAudioType : AudioType → Tree
  | simple t => codeSimpleType t
  | table content _ => .node (.sym (.user "TableType")) [codeAudioType content]
  | tuplet components _ => .node (.sym (.user "TupletType")) (codeAudioTypes components)

/-- The codes of the components. -/
def codeAudioTypes : List AudioType → List Tree
  | [] => []
  | t :: ts => codeAudioType t :: codeAudioTypes ts
end

/-! ## Equality -/

mutual
/-- `operator==`. -/
def beq : AudioType → AudioType → Bool
  | simple t₁, simple t₂ => t₁ = t₂
  | table c₁ t₁, table c₂ t₂ =>
    t₁.variability = t₂.variability && t₁.computability = t₂.computability && beq c₁ c₂
  | tuplet ts₁ t₁, tuplet ts₂ t₂ =>
    t₁.variability = t₂.variability && t₁.computability = t₂.computability && beqs ts₁ ts₂
  | _, _ => false

/-- `operator==` on the components. -/
def beqs : List AudioType → List AudioType → Bool
  | [], [] => true
  | t₁ :: ts₁, t₂ :: ts₂ => beq t₁ t₂ && beqs ts₁ ts₂
  | _, _ => false
end

end AudioType

/-! ## The memo of types -/

/-- `gMemoizedTypes`. -/
abbrev TypeMemo := Tree → Option AudioType

open AudioType

/-- What the functions that make types do with the memo: the type found under the code of the
prototype, or else a new one, which is added. -/
def memoize (prototype : AudioType) (new : AudioType) : StateM TypeMemo AudioType := fun memo =>
  match memo (codeAudioType prototype) with
  | some t => (t, memo)
  | none => (new, Function.update memo (codeAudioType prototype) (some new))

/-- `makeSimpleType`. -/
def makeSimpleType (t : SimpleType) : StateM TypeMemo AudioType := memoize (.simple t) (.simple t)

/-- `makeTableType(ct)`. -/
def makeTableType (ct : AudioType) : StateM TypeMemo AudioType :=
  memoize (tableType ct) (tableType ct)

/-- `makeTableType(ct, n, v, c, vec, b, i)`. -/
def makeTableTypeFull (ct : AudioType) (n : Nature) (v c vec b : ℕ) (i : Interval) :
    StateM TypeMemo AudioType :=
  memoize (tableTypeWith ct n v c vec b i) (tableType ct)

/-- `makeTableType(ct, n, v, c, vec)`. -/
def makeTableTypeWith (ct : AudioType) (n : Nature) (v c vec : ℕ) : StateM TypeMemo AudioType :=
  memoize (tableTypeWith ct n v c vec kNum .invalid) (tableType ct)

/-! ## Promotions -/

namespace AudioType

/-- The type with the fields `t`, which are its own with one promoted. -/
def promote (ty : AudioType) (t : SimpleType) : StateM TypeMemo AudioType :=
  match ty with
  | simple _ => makeSimpleType t
  | table content _ => makeTableTypeFull content t.nature t.variability t.computability
      t.vectorability t.boolean t.interval
  | tuplet components _ => return tupletTypeWith components t

/-- `promoteNature`. -/
def promoteNature (ty : AudioType) (n : Nature) : StateM TypeMemo AudioType :=
  ty.promote { ty.fields with nature := n.join ty.fields.nature }

/-- `promoteVariability`. -/
def promoteVariability (ty : AudioType) (v : ℕ) : StateM TypeMemo AudioType :=
  ty.promote { ty.fields with variability := v ||| ty.fields.variability }

/-- `promoteComputability`. -/
def promoteComputability (ty : AudioType) (c : ℕ) : StateM TypeMemo AudioType :=
  ty.promote { ty.fields with computability := c ||| ty.fields.computability }

/-- `promoteVectorability`. -/
def promoteVectorability (ty : AudioType) (vec : ℕ) : StateM TypeMemo AudioType :=
  ty.promote { ty.fields with vectorability := vec ||| ty.fields.vectorability }

/-- `promoteBoolean`. -/
def promoteBoolean (ty : AudioType) (b : ℕ) : StateM TypeMemo AudioType :=
  ty.promote { ty.fields with boolean := b ||| ty.fields.boolean }

end AudioType

end Faust
