import Faust.Tlib.Tree
import Mathlib.Logic.Equiv.List
import Mathlib.Data.Rat.Encodable
import Mathlib.Data.Nat.Pairing
import Mathlib.Data.Countable.Basic

/-!
# Numbering trees

There are countably many symbols and nodes, so each tree can have a number of its own: the address
of a tree that is made once is such a number.
-/

namespace Faust

instance : Countable XtPrim := by
  have hsurj : Function.Surjective fun i : ℕ => [XtPrim.abs, .acos, .tan, .sqrt, .sin, .rint,
      .remainder, .pow, .min, .max, .log, .log10, .fmod, .floor, .exp, .cos, .ceil, .atan, .atan2,
      .asin].getD i .abs := fun p => ⟨p.ctorIdx, by cases p <;> rfl⟩
  exact hsurj.countable

instance instCountableText : Countable String := by
  have hchar : Function.Injective Char.toNat := fun a b h => Char.toNat_inj.1 h
  have := hchar.countable
  exact Function.Injective.countable (f := String.toList) fun a b h => String.toList_inj.1 h

/-- The symbols that are no name of the table. -/
def predefined : List Sym :=
  [.cons, .nil, .debruijn, .debruijnRef, .symRec, .sigInput, .sigOutput, .sigDelay1,
    .sigFixDelay, .sigPrefix, .sigIota, .sigRDTbl, .sigWRTbl, .sigTable, .sigGen,
    .sigDocConstantTbl, .sigDocWriteTbl, .sigDocAccessTbl, .sigSelect2, .sigSelect3, .sigBinOp,
    .sigFFun, .sigFConst, .sigFVar, .sigProj, .sigIntCast, .sigFloatCast, .sigButton, .sigCheckbox,
    .sigWaveform, .sigHSlider, .sigVSlider, .sigNumEntry, .sigHBargraph, .sigVBargraph, .sigAttach]

instance : Countable Sym := by
  have hsurj : Function.Surjective fun x : ℕ ⊕ XtPrim ⊕ String =>
      match x with
      | .inl i => predefined.getD i .nil
      | .inr (.inl p) => .xtended p
      | .inr (.inr name) => .user name := by
    intro s
    cases hs : s with
    | xtended p => exact ⟨.inr (.inl p), rfl⟩
    | user name => exact ⟨.inr (.inr name), rfl⟩
    | _ => exact ⟨.inl s.ctorIdx, by rw [hs]; rfl⟩
  exact hsurj.countable

instance : Countable Node := by
  have hsurj : Function.Surjective fun x : ℤ ⊕ ℚ ⊕ Sym ⊕ ℕ =>
      match x with
      | .inl i => Node.int i
      | .inr (.inl x) => .double x
      | .inr (.inr (.inl s)) => .sym s
      | .inr (.inr (.inr p)) => .pointer p := by
    intro n
    cases n with
    | int i => exact ⟨.inl i, rfl⟩
    | double x => exact ⟨.inr (.inl x), rfl⟩
    | sym s => exact ⟨.inr (.inr (.inl s)), rfl⟩
    | pointer p => exact ⟨.inr (.inr (.inr p)), rfl⟩
  exact hsurj.countable

mutual
/-- A number for each tree, from a number for each node. -/
def number (g : Node → ℕ) : Tree → ℕ
  | .node n br => Nat.pair (g n) (numbers g br)

/-- A number for each list of trees. -/
def numbers (g : Node → ℕ) : List Tree → ℕ
  | [] => 0
  | t :: ts => Nat.pair (number g t) (numbers g ts) + 1
end

theorem numbers_injective {g : Node → ℕ} {ts us : List Tree}
    (hts : ∀ t ∈ ts, ∀ u, number g t = number g u → t = u) (h : numbers g ts = numbers g us) :
    ts = us := by
  induction ts generalizing us with
  | nil =>
    cases us with
    | nil => rfl
    | cons u us => simp [numbers] at h
  | cons t ts ih =>
    cases us with
    | nil => simp [numbers] at h
    | cons u us =>
      obtain ⟨htu, htus⟩ := Nat.pair_eq_pair.1 (Nat.succ_injective h)
      rw [hts t List.mem_cons_self u htu,
        ih (fun t' ht' => hts t' (List.mem_cons_of_mem _ ht')) htus]

theorem number_injective {g : Node → ℕ} (hg : Function.Injective g) :
    Function.Injective (number g) := by
  intro t
  induction t using Tree.induction with
  | h n br ih =>
    intro u h
    cases u with
    | node m br' =>
      obtain ⟨hn, hbr⟩ := Nat.pair_eq_pair.1 h
      rw [hg hn, numbers_injective (fun t ht u => @ih t ht u) hbr]

/-- The trees can have different addresses. -/
theorem exists_address : ∃ address : Tree → ℕ, Function.Injective address := by
  obtain ⟨g, hg⟩ := exists_injective_nat Node
  exact ⟨number g, number_injective hg⟩

end Faust
