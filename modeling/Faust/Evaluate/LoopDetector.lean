import Faust.Evaluate.Evaluator
import Faust.Lib.DelayBuffer

/-!
# Detection of endless evaluations (`loopDetector.cpp`)

The evaluator gives each expression it starts to evaluate to a detector, which keeps the last ones
in a ring and looks for the new one in it from time to time. The ring is indexed by a count of the
calls, an `int`: the detection is exact as long as the count does not overflow.
-/

namespace Faust.Detection

open DelayBuffer

variable {α : Type}

/-- `class loopDetector`. -/
structure LoopDetector (α : Type) where
  fBuffersize : ℕ
  fCheckperiod : ℕ
  fBuffer : List (Option α)
  fPhase : ℤ

/-- `loopDetector(buffersize, checkperiod)`. -/
def LoopDetector.new (buffersize checkperiod : ℕ) : LoopDetector α :=
  ⟨buffersize, checkperiod, List.replicate buffersize none, 0⟩

/-- What a call of `detect` does: it returns, or it throws for a cycle of some steps. -/
inductive Answer (α : Type)
  | returns (d : LoopDetector α)
  | cycle (steps : ℕ)

/-- The place `i` before the place `w` of a ring. -/
def placeBefore (size : ℕ) (w : ℤ) (i : ℕ) : ℤ := if w - i < 0 then w - i + size else w - i

section
variable [DecidableEq α]

/-- The number of steps of the cycle that is found from the place `w`, where `t` has just been
written. -/
def LoopDetector.search (d : LoopDetector α) (w : ℤ) (t : α) : Option ℕ :=
  (List.range' 1 (d.fBuffersize - 1)).find? fun i =>
    d.fBuffer[(placeBefore d.fBuffersize w i).toNat]? = some (some t)

/-- `loopDetector::detect`. An overflow of the count and a place outside of the buffer leave no
result. -/
def LoopDetector.detect (d : LoopDetector α) (t : α) : Option (Answer α) :=
  if ¬ IsInt32 (d.fPhase + 1) then none
  else
    let w := (d.fPhase + 1).tmod d.fBuffersize
    if ¬ (0 ≤ w ∧ w < d.fBuffer.length) then none
    else
      let d' := { d with fPhase := d.fPhase + 1, fBuffer := d.fBuffer.set w.toNat (some t) }
      if (d.fPhase + 1).tmod d.fCheckperiod = 0 then
        match d'.search w t with
        | some i => some (.cycle i)
        | none => some (.returns d')
      else some (.returns d')

section
variable (buffersize checkperiod : ℕ) (x : ℕ → α)

/-- The detector after the first `n` calls, on the values of `x`, when all of them return. -/
def calls : ℕ → Option (LoopDetector α)
  | 0 => some (.new buffersize checkperiod)
  | n + 1 =>
    match calls n with
    | some d =>
      match d.detect (x n) with
      | some (.returns d') => some d'
      | _ => none
    | none => none

/-- The call on `x n` reports a cycle of `i` steps. -/
def CycleAt (n i : ℕ) : Prop :=
  ∃ d, calls buffersize checkperiod x n = some d ∧ d.detect (x n) = some (.cycle i)

end

end

/-! ## One call -/

/-- What the calls write, by their counts: nothing is written at count 0. -/
def written (x : ℕ → α) : ℕ → Option α
  | 0 => none
  | n + 1 => some (x n)

/-- The detector after `n` calls that return. -/
structure After (buffersize checkperiod : ℕ) (x : ℕ → α) (n : ℕ) (d : LoopDetector α) : Prop where
  size : d.fBuffersize = buffersize
  period : d.fCheckperiod = checkperiod
  phase : d.fPhase = n
  length : d.fBuffer.length = buffersize
  ring : Ring none (written x) (n + 1) d.fBuffer

/-- The value of the call `n` was already the one of the call that is `i` calls before. -/
def Repeats (x : ℕ → α) (n i : ℕ) : Prop := i ≤ n ∧ x (n - i) = x n

variable {B C : ℕ} {x : ℕ → α} {n : ℕ} {d : LoopDetector α}

theorem after_new (hB : 0 < B) : After B C x 0 (.new B C) where
  size := rfl
  period := rfl
  phase := rfl
  length := List.length_replicate
  ring := by
    have hring := ring_replicate none (written x) hB
    intro s hle hlt
    by_cases hs : s < 0
    · apply hring s _ hs
      rw [List.length_replicate]
      show 0 - (B : ℤ) ≤ s
      have hlen : ((LoopDetector.new B C : LoopDetector α).fBuffer.length : ℤ) = B := by
        simp [LoopDetector.new]
      omega
    · obtain rfl : s = 0 := by omega
      have hlen : (LoopDetector.new B C : LoopDetector α).fBuffer.length = B := by
        simp [LoopDetector.new]
      rw [hlen]
      show (List.replicate B none)[((0 : ℤ) % B).toNat]? = some none
      rw [Int.zero_emod]
      exact List.getElem?_replicate_of_lt hB

/-- The ring once the value of the call has been written. -/
theorem After.written (h : After B C x n d) (hB : 0 < B) :
    Ring none (written x) (n + 2)
      (d.fBuffer.set (((n : ℤ) + 1).tmod B).toNat (some (x n))) := by
  have hring : Ring none (Detection.written x) ((n + 1 : ℕ) : ℤ) d.fBuffer := by
    have := h.ring
    push_cast
    exact this
  have hstore := hring.store (by rw [h.length]; exact hB)
  rw [h.length] at hstore
  have hmod : ((n : ℤ) + 1).tmod B = ((n + 1 : ℕ) : ℤ) % B := by
    push_cast
    exact Int.tmod_eq_emod_of_nonneg (by omega)
  rw [hmod]
  have htwo : (n : ℤ) + 2 = ((n + 1 : ℕ) : ℤ) + 1 := by
    push_cast
    omega
  rw [htwo]
  exact hstore

/-- The place that is `i` before the one of the count `m`. -/
theorem placeBefore_eq {m i : ℕ} (hi : i < B) :
    placeBefore B ((m : ℤ) % B) i = ((m : ℤ) - i) % B := by
  have hpos : (0 : ℤ) < B := by omega
  have h₀ := Int.emod_nonneg (m : ℤ) hpos.ne'
  have h₁ := Int.emod_lt_of_pos (m : ℤ) hpos
  have hsub : ((m : ℤ) % B - i) % B = ((m : ℤ) - i) % B := by
    rw [Int.sub_emod, Int.emod_emod_of_dvd _ (dvd_refl _), ← Int.sub_emod]
  unfold placeBefore
  split
  · have hrange : ((m : ℤ) % B - i + B) % B = (m : ℤ) % B - i + B :=
      Int.emod_eq_of_lt (by omega) (by omega)
    rw [← hrange, Int.add_emod_right, hsub]
  · have hrange : ((m : ℤ) % B - i) % B = (m : ℤ) % B - i :=
      Int.emod_eq_of_lt (by omega) (by omega)
    rw [← hrange, hsub]

/-- What the search compares the new value with, at the place that is `i` before. -/
theorem After.getElem_placeBefore (h : After B C x n d) {i : ℕ} (hi₀ : 0 < i) (hi : i < B) :
    (d.fBuffer.set (((n : ℤ) + 1).tmod B).toNat (some (x n)))[(placeBefore B
      (((n : ℤ) + 1).tmod B) i).toNat]? = some (some (x n)) ↔ Repeats x n i := by
  have hmod : ((n : ℤ) + 1).tmod B = ((n + 1 : ℕ) : ℤ) % B := by
    push_cast
    exact Int.tmod_eq_emod_of_nonneg (by omega)
  have hring := h.written (by omega) (((n + 1 : ℕ) : ℤ) - i)
  rw [List.length_set, h.length] at hring
  have hget := hring (by push_cast; omega) (by push_cast; omega)
  rw [hmod] at hget ⊢
  rw [placeBefore_eq hi, hget]
  unfold Repeats
  by_cases hin : i ≤ n
  · have hcast : ((n + 1 : ℕ) : ℤ) - i = ((n - i + 1 : ℕ) : ℤ) := by
      push_cast
      omega
    rw [hcast, history_natCast]
    show some (some (x (n - i))) = some (some (x n)) ↔ _
    simp [hin]
  · -- nothing is written at the count 0 nor before it
    have hnone : history none (Detection.written x) (((n + 1 : ℕ) : ℤ) - i) = none := by
      by_cases hneg : ((n + 1 : ℕ) : ℤ) - i < 0
      · exact history_of_neg none _ hneg
      · have hzero : ((n + 1 : ℕ) : ℤ) - i = ((0 : ℕ) : ℤ) := by
          push_cast at hneg ⊢
          omega
        rw [hzero, history_natCast]
        rfl
    rw [hnone]
    simp [hin]

section
variable [DecidableEq α]

/-- A call whose count does not overflow: it reports a cycle when it is time to search and the value
is repeated, else it returns. -/
theorem After.detect (h : After B C x n d) (hB : 0 < B) (hn : n + 1 < 2 ^ 31) :
    (C ∣ n + 1 → (∃ i, 0 < i ∧ i < B ∧ Repeats x n i) →
      ∃ i, d.detect (x n) = some (.cycle i)) ∧
    (¬ (C ∣ n + 1 ∧ ∃ i, 0 < i ∧ i < B ∧ Repeats x n i) →
      ∃ d', d.detect (x n) = some (.returns d') ∧ After B C x (n + 1) d') := by
  have hint : IsInt32 ((n : ℤ) + 1) := by
    unfold IsInt32
    omega
  have hmod : ((n : ℤ) + 1).tmod B = ((n : ℤ) + 1) % B :=
    Int.tmod_eq_emod_of_nonneg (by omega)
  have hplace : 0 ≤ ((n : ℤ) + 1).tmod B ∧ ((n : ℤ) + 1).tmod B < d.fBuffer.length := by
    rw [h.length, hmod]
    exact ⟨Int.emod_nonneg _ (by omega), Int.emod_lt_of_pos _ (by omega)⟩
  have htime : ((n : ℤ) + 1).tmod C = 0 ↔ C ∣ n + 1 := by
    rw [← Int.dvd_iff_tmod_eq_zero]
    exact_mod_cast Int.natCast_dvd_natCast (m := C) (n := n + 1)
  let d' : LoopDetector α :=
    ⟨B, C, d.fBuffer.set (((n : ℤ) + 1).tmod B).toNat (some (x n)), (n : ℤ) + 1⟩
  have hafter : After B C x (n + 1) d' := by
    refine ⟨rfl, rfl, by simp [d'], by simp [d', h.length], ?_⟩
    show Ring none (Detection.written x) (((n + 1 : ℕ) : ℤ) + 1) _
    have htwo : ((n + 1 : ℕ) : ℤ) + 1 = (n : ℤ) + 2 := by
      push_cast
      omega
    rw [htwo]
    exact h.written hB
  have hsearch : d'.search (((n : ℤ) + 1).tmod B) (x n) = none ↔
      ¬ ∃ i, 0 < i ∧ i < B ∧ Repeats x n i := by
    unfold LoopDetector.search
    have hsize : d'.fBuffersize = B := rfl
    rw [List.find?_eq_none, hsize]
    constructor
    · intro hnone ⟨i, hi₀, hi, hrep⟩
      apply hnone i (List.mem_range'_1.mpr ⟨by omega, by omega⟩)
      exact decide_eq_true ((h.getElem_placeBefore hi₀ hi).mpr hrep)
    · intro hnone i hi hget
      have hrange := List.mem_range'_1.mp hi
      have hi₀ : 0 < i := by omega
      have hlt : i < B := by omega
      exact hnone ⟨i, hi₀, hlt, (h.getElem_placeBefore hi₀ hlt).mp (of_decide_eq_true hget)⟩
  have hdetect : d.detect (x n) =
      if C ∣ n + 1 then
        match d'.search (((n : ℤ) + 1).tmod B) (x n) with
        | some i => some (.cycle i)
        | none => some (.returns d')
      else some (.returns d') := by
    unfold LoopDetector.detect
    simp only [h.phase, h.size, h.period, not_true_eq_false, hint, hplace, if_false, and_self,
      htime]
    rfl
  rw [hdetect]
  constructor
  · intro hdvd hrep
    rw [if_pos hdvd]
    rcases hfound : d'.search (((n : ℤ) + 1).tmod B) (x n) with _ | i
    · exact absurd hrep (hsearch.mp hfound)
    · exact ⟨i, rfl⟩
  · intro hnot
    by_cases hdvd : C ∣ n + 1
    · rw [if_pos hdvd, hsearch.mpr fun hrep => hnot ⟨hdvd, hrep⟩]
      exact ⟨d', rfl, hafter⟩
    · rw [if_neg hdvd]
      exact ⟨d', rfl, hafter⟩

/-- The call whose count overflows has no result. -/
theorem After.detect_overflow (h : After B C x n d) (hn : n + 1 = 2 ^ 31) :
    d.detect (x n) = none := by
  unfold LoopDetector.detect
  rw [if_pos]
  rw [h.phase]
  unfold IsInt32
  omega

/-! ## Runs -/

/-- The calls return up to the first one that reports a cycle. -/
theorem calls_or_cycle (hB : 0 < B) (x : ℕ → α) {n : ℕ} (hn : n < 2 ^ 31) :
    (∃ d, calls B C x n = some d ∧ After B C x n d) ∨ ∃ m < n, ∃ i, CycleAt B C x m i := by
  induction n with
  | zero => exact .inl ⟨_, rfl, after_new hB⟩
  | succ n ih =>
    rcases ih (by omega) with ⟨d, hd, hafter⟩ | ⟨m, hm, hcycle⟩
    · obtain ⟨hreport, hreturn⟩ := hafter.detect hB hn
      by_cases h : C ∣ n + 1 ∧ ∃ i, 0 < i ∧ i < B ∧ Repeats x n i
      · obtain ⟨i, hi⟩ := hreport h.1 h.2
        exact .inr ⟨n, Nat.lt_succ_self n, i, d, hd, hi⟩
      · obtain ⟨d', hd', hafter'⟩ := hreturn h
        refine .inl ⟨d', ?_, hafter'⟩
        rw [calls, hd]
        simp only [hd']
    · exact .inr ⟨m, by omega, hcycle⟩

/-- No call is made after one that reports a cycle. -/
theorem calls_eq_none_of_cycle {m i : ℕ} (h : CycleAt B C x m i) {n : ℕ} (hn : m < n) :
    calls B C x n = none := by
  obtain ⟨d, hd, hcycle⟩ := h
  induction n with
  | zero => omega
  | succ n ih =>
    rw [calls]
    by_cases hmn : m = n
    · subst hmn
      rw [hd]
      simp only [hcycle]
    · rw [ih (by omega)]

/-- Once the values have a period that is smaller than the buffer, the next search reports a
cycle. -/
theorem cycleAt_of_periodic (hB : 0 < B) (hC : 0 < C) (x : ℕ → α) {N p : ℕ} (hp₀ : 0 < p)
    (hp : p < B) (hper : ∀ k, N ≤ k → x (k + p) = x k) (hbound : N + p + C < 2 ^ 31) :
    ∃ n < N + p + C, ∃ i, CycleAt B C x n i := by
  -- the first count from which a period has passed and that is a time to search
  obtain ⟨n, hle, hlt, hdvd⟩ : ∃ n, N + p ≤ n ∧ n < N + p + C ∧ C ∣ n + 1 := by
    have hmod := Nat.mod_lt (N + p) hC
    have hdiv := Nat.mod_add_div (N + p) C
    refine ⟨C * ((N + p) / C + 1) - 1, ?_, ?_, (N + p) / C + 1, ?_⟩
    all_goals
      rw [Nat.mul_add]
      omega
  rcases calls_or_cycle (C := C) hB x (show n < 2 ^ 31 by omega) with ⟨d, hd, hafter⟩ | ⟨m, hm, hcycle⟩
  · have hrep : Repeats x n p := by
      refine ⟨by omega, ?_⟩
      have := hper (n - p) (by omega)
      rw [Nat.sub_add_cancel (by omega)] at this
      exact this.symm
    obtain ⟨i, hi⟩ := (hafter.detect hB (by omega)).1 hdvd ⟨p, hp₀, hp, hrep⟩
    exact ⟨n, hlt, i, d, hd, hi⟩
  · exact ⟨m, by omega, hcycle⟩

/-- Values that are not repeated within a buffer are never reported, and the calls return until the
count overflows. -/
theorem calls_isSome_iff (hB : 0 < B) (x : ℕ → α) {n : ℕ}
    (hnew : ∀ k i, 0 < i → i < B → k + i < n → x k ≠ x (k + i)) :
    (calls B C x n).isSome ↔ n < 2 ^ 31 := by
  have hrun : ∀ m ≤ n, m < 2 ^ 31 → ∃ d, calls B C x m = some d ∧ After B C x m d := by
    intro m hm
    induction m with
    | zero => exact fun _ => ⟨_, rfl, after_new hB⟩
    | succ m ih =>
      intro hlt
      obtain ⟨d, hd, hafter⟩ := ih (by omega) (by omega)
      have hnot : ¬ (C ∣ m + 1 ∧ ∃ i, 0 < i ∧ i < B ∧ Repeats x m i) := by
        intro ⟨_, i, hi₀, hi, hle, heq⟩
        apply hnew (m - i) i hi₀ hi (by omega)
        rw [heq, Nat.sub_add_cancel hle]
      obtain ⟨d', hd', hafter'⟩ := (hafter.detect hB hlt).2 hnot
      refine ⟨d', ?_, hafter'⟩
      rw [calls, hd]
      simp only [hd']
  constructor
  · intro hsome
    by_contra hge
    -- the calls stop at the one whose count overflows
    have hover : ∀ k, 2 ^ 31 ≤ k → k ≤ n → calls B C x k = none := by
      intro k
      induction k with
      | zero => omega
      | succ k ih =>
        intro hk hle
        rw [calls]
        by_cases hlast : k + 1 = 2 ^ 31
        · obtain ⟨d, hd, hafter⟩ := hrun k (by omega) (by omega)
          rw [hd]
          simp only [hafter.detect_overflow hlast]
        · rw [ih (by omega) (by omega)]
    rw [hover n (by omega) le_rfl] at hsome
    cases hsome
  · intro hlt
    obtain ⟨d, hd, _⟩ := hrun n le_rfl hlt
    rw [hd]
    rfl

/-- The detection is exact in every run whose count does not overflow. -/
theorem detect_exact (hB : 0 < B) (hC : 0 < C) (x : ℕ → α) :
    (∀ N p, 0 < p → p < B → (∀ k, N ≤ k → x (k + p) = x k) → N + p + C < 2 ^ 31 →
      ∃ n < N + p + C, ∃ i, CycleAt B C x n i) ∧
    ∀ n, (∀ k i, 0 < i → i < B → k + i < n → x k ≠ x (k + i)) →
      ((calls B C x n).isSome ↔ n < 2 ^ 31) :=
  ⟨fun _ _ hp₀ hp hper hbound => cycleAt_of_periodic hB hC x hp₀ hp hper hbound,
    fun _ hnew => calls_isSome_iff hB x hnew⟩

/-- An expression that is evaluated again at once, with the sizes of `gLoopDetector`. -/
theorem detect_exact_constant :
    ∃ n < 0 + 1 + 400, ∃ i, CycleAt 1024 400 (fun _ => Tree.nil) n i :=
  (detect_exact (by decide) (by decide) fun _ => Tree.nil).1 0 1 (by decide) (by decide)
    (fun _ _ => rfl) (by decide)

/-- Lists of increasing lengths: an expression that is never evaluated again. -/
def lists (k : ℕ) : Tree := Tree.ofList (List.replicate k Tree.nil)

theorem size_lists (k : ℕ) : (lists k).size = 2 * k + 1 := by
  induction k with
  | zero => rfl
  | succ k ih =>
    show 1 + (Tree.nil.size + ((lists k).size + 0)) = _
    rw [ih]
    show 1 + (1 + (2 * k + 1 + 0)) = _
    omega

/-- The count overflows at the call 2^31, even if no expression is repeated. -/
theorem not_calls_always :
    ¬ ∀ x : ℕ → Tree, (∀ k i, 0 < i → x k ≠ x (k + i)) → ∀ n, (calls 1024 400 x n).isSome := by
  intro h
  have hnew : ∀ k i, 0 < i → lists k ≠ lists (k + i) := by
    intro k i hi heq
    have hsize := congrArg Tree.size heq
    rw [size_lists, size_lists] at hsize
    omega
  have hlt : 2 ^ 31 < 2 ^ 31 :=
    (calls_isSome_iff (by decide) lists fun k i hi _ _ => hnew k i hi).mp (h lists hnew (2 ^ 31))
  exact lt_irrefl _ hlt

end

/-! ## The detector of the evaluator

The state of the evaluator counts the calls without a bound: its detector is this one as long as the
count does not overflow.
-/

/-- The two detectors have the same contents. -/
structure Models (d : LoopDetector (Tree × Tree)) (e : Eval.LoopDetector) : Prop where
  size : d.fBuffersize = Eval.bufferSize
  period : d.fCheckperiod = Eval.checkPeriod
  phase : d.fPhase = e.phase
  length : d.fBuffer.length = Eval.bufferSize
  buffer : ∀ j < Eval.bufferSize, d.fBuffer[j]? = some (e.buffer j)

/-- The places that are searched are all the other ones. -/
theorem exists_placeBefore {w : ℕ} (hw : w < B) (P : ℕ → Prop) :
    (∃ i, 0 < i ∧ i < B ∧ P (placeBefore B w i).toNat) ↔ ∃ r < B, r ≠ w ∧ P r := by
  unfold placeBefore
  constructor
  · intro ⟨i, hi₀, hi, hP⟩
    refine ⟨_, ?_, ?_, hP⟩
    all_goals
      split
      · omega
      · omega
  · intro ⟨r, hr, hne, hP⟩
    by_cases hlt : r < w
    · refine ⟨w - r, by omega, by omega, ?_⟩
      rw [if_neg (by omega)]
      have hplace : ((w : ℤ) - (w - r : ℕ)).toNat = r := by omega
      rwa [hplace]
    · refine ⟨w + B - r, by omega, by omega, ?_⟩
      rw [if_pos (by omega)]
      have hplace : ((w : ℤ) - (w + B - r : ℕ) + B).toNat = r := by omega
      rwa [hplace]

/-- A call does the same on both, when its count does not overflow. -/
theorem Models.detect {d : LoopDetector (Tree × Tree)} {e : Eval.LoopDetector} (h : Models d e)
    (hphase : e.phase + 1 < 2 ^ 31) (t : Tree × Tree) :
    (∃ i, d.detect t = some (.cycle i) ∧ e.detect t = none) ∨
      ∃ d' e', d.detect t = some (.returns d') ∧ e.detect t = some e' ∧ Models d' e' := by
  have hint : IsInt32 ((e.phase : ℤ) + 1) := by
    unfold IsInt32
    omega
  let w := (e.phase + 1) % Eval.bufferSize
  have hw : w < Eval.bufferSize := Nat.mod_lt _ (by decide)
  have hmod : ((e.phase : ℤ) + 1).tmod Eval.bufferSize = (w : ℤ) := by
    rw [Int.tmod_eq_emod_of_nonneg (by omega)]
    rfl
  have htime : ((e.phase : ℤ) + 1).tmod Eval.checkPeriod = 0 ↔
      (e.phase + 1) % Eval.checkPeriod = 0 := by
    rw [← Int.dvd_iff_tmod_eq_zero, ← Nat.dvd_iff_mod_eq_zero]
    exact_mod_cast Int.natCast_dvd_natCast (m := Eval.checkPeriod) (n := e.phase + 1)
  let d' : LoopDetector (Tree × Tree) :=
    ⟨Eval.bufferSize, Eval.checkPeriod, d.fBuffer.set w (some t), (e.phase : ℤ) + 1⟩
  let e' : Eval.LoopDetector := ⟨e.phase + 1, Function.update e.buffer w (some t)⟩
  have hmodels : Models d' e' := by
    refine ⟨rfl, rfl, by simp [d', e'], by simp [d', h.length], fun j hj => ?_⟩
    show (d.fBuffer.set w (some t))[j]? = some (Function.update e.buffer w (some t) j)
    by_cases hjw : j = w
    · subst hjw
      rw [List.getElem?_set_self (by rw [h.length]; exact hj), Function.update_self]
    · rw [List.getElem?_set_ne (Ne.symm hjw), Function.update_of_ne hjw, h.buffer j hj]
  have hdetect : d.detect t =
      if (e.phase + 1) % Eval.checkPeriod = 0 then
        match d'.search w t with
        | some i => some (.cycle i)
        | none => some (.returns d')
      else some (.returns d') := by
    unfold LoopDetector.detect
    have hplace : 0 ≤ (w : ℤ) ∧ (w : ℤ) < (Eval.bufferSize : ℕ) := ⟨by omega, by omega⟩
    simp only [h.phase, h.size, h.period, h.length, not_true_eq_false, hint, hmod, hplace, if_false,
      and_self, htime, Int.toNat_natCast]
    rfl
  have hsearch : (∃ i, d'.search w t = some i) ↔
      ((List.range Eval.bufferSize).any fun r => r ≠ w ∧ e'.buffer r = some t) = true := by
    have hplaces := exists_placeBefore hw fun r => d'.fBuffer[r]? = some (some t)
    rw [← Option.isSome_iff_exists]
    unfold LoopDetector.search
    rw [List.find?_isSome, List.any_eq_true]
    constructor
    · intro ⟨i, hi, hget⟩
      have hrange := List.mem_range'_1.mp hi
      have hsize : d'.fBuffersize = Eval.bufferSize := rfl
      rw [hsize] at hrange
      obtain ⟨r, hr, hne, hat⟩ :=
        hplaces.mp ⟨i, by omega, by omega, of_decide_eq_true hget⟩
      rw [hmodels.buffer r hr] at hat
      exact ⟨r, List.mem_range.mpr hr, decide_eq_true ⟨hne, Option.some.inj hat⟩⟩
    · intro ⟨r, hr, hat⟩
      obtain ⟨hne, hbuf⟩ := of_decide_eq_true hat
      have hlt := List.mem_range.mp hr
      obtain ⟨i, hi₀, hi, hget⟩ := hplaces.mpr ⟨r, hlt, hne, by rw [hmodels.buffer r hlt, hbuf]⟩
      refine ⟨i, List.mem_range'_1.mpr ⟨by omega, ?_⟩, decide_eq_true hget⟩
      show i < 1 + (Eval.bufferSize - 1)
      omega
  have heval : e.detect t =
      if (e.phase + 1) % Eval.checkPeriod = 0 ∧
          ((List.range Eval.bufferSize).any fun r => r ≠ w ∧ e'.buffer r = some t) = true
      then none else some e' := rfl
  rw [hdetect, heval]
  by_cases htime' : (e.phase + 1) % Eval.checkPeriod = 0
  · rw [if_pos htime']
    rcases hfound : d'.search w t with _ | i
    · -- nothing is found by either
      rw [if_neg fun hand => ?_]
      · exact .inr ⟨d', e', rfl, rfl, hmodels⟩
      · obtain ⟨i, hi⟩ := hsearch.mpr hand.2
        rw [hfound] at hi
        cases hi
    · rw [if_pos ⟨htime', hsearch.mp ⟨i, hfound⟩⟩]
      exact .inl ⟨i, rfl, rfl⟩
  · rw [if_neg htime', if_neg fun hand => htime' hand.1]
    exact .inr ⟨d', e', rfl, rfl, hmodels⟩

end Faust.Detection
