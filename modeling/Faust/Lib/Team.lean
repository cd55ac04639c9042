import Mathlib

/-!
# Teams of threads

The threads of a team all go through the same list of statements. A statement may be part of a
unit of work, which one thread of the team takes, or of a shared loop, each iteration of which
is a unit. The units belong to constructs, and no thread goes past the end of a construct before
the others have come there. Which thread takes a unit is arbitrary.
-/

namespace Team

/-- How a statement is shared. -/
structure Slot where
  /-- The construct that the statement is in. -/
  construct : Option ℕ
  /-- The units that it is part of. -/
  units : List ℕ
  /-- Its iterations are units. -/
  split : Bool
deriving DecidableEq, Repr

variable {ι : Type*} [DecidableEq ι]

/-- How many times the statement is run, when a shared loop has `count` iterations. -/
def Slot.runs (s : Slot) (count : ℕ) : ℕ := if s.split then count else 1

/-- The thread runs iteration `j` of the statement. -/
def Slot.mine (s : Slot) (assign : ℕ × ℕ → ι) (i : ι) (j : ℕ) : Bool :=
  s.units.all fun u => assign (u, if s.split then j else 0) = i

/-- What the thread runs of statement `k`. -/
def turn (slots : ℕ → Slot) (count : ℕ) (assign : ℕ × ℕ → ι) (i : ι) (k : ℕ) : List (ℕ × ℕ) :=
  ((List.range ((slots k).runs count)).filter ((slots k).mine assign i)).map fun j => (k, j)

/-- What the thread runs of `n` statements, in order. -/
def program (n : ℕ) (slots : ℕ → Slot) (count : ℕ) (assign : ℕ × ℕ → ι) (i : ι) : List (ℕ × ℕ) :=
  (List.range n).flatMap (turn slots count assign i)

/-- There is a barrier after statement `k`: a construct ends there. -/
def Barrier (n : ℕ) (slots : ℕ → Slot) (k : ℕ) : Prop :=
  ∃ c, (slots k).construct = some c ∧ (k + 1 < n → (slots (k + 1)).construct ≠ some c)

/-- A run of the team: an interleaving of what the threads run, in which nothing after a barrier
comes before what is before it. -/
structure Run (n : ℕ) (slots : ℕ → Slot) (count : ℕ) (assign : ℕ × ℕ → ι)
    (run : List (ι × ℕ × ℕ)) : Prop where
  threads : ∀ i, (run.filter fun e => e.1 = i).map Prod.snd = program n slots count assign i
  barriers : ∀ k, Barrier n slots k →
    (run.filter fun e => e.2.1 ≤ k) ++ (run.filter fun e => ¬ e.2.1 ≤ k) = run

variable {n : ℕ} {slots : ℕ → Slot} {count : ℕ} {assign : ℕ × ℕ → ι} {run : List (ι × ℕ × ℕ)}

/-! ## Each unit is run once -/

theorem count_turn (i : ι) (k k' j : ℕ) :
    (turn slots count assign i k').count (k, j) =
      if k' = k ∧ j < (slots k).runs count ∧ (slots k).mine assign i j then 1 else 0 := by
  unfold turn
  by_cases hk : k' = k
  · subst hk
    have hinj : Function.Injective fun j : ℕ => (k', j) := fun a b h => (Prod.mk.inj h).2
    rw [List.count_map_of_injective _ _ hinj, List.Nodup.count (List.nodup_range.filter _)]
    simp [List.mem_filter]
  · rw [List.count_eq_zero_of_not_mem]
    · simp [hk]
    · simp [hk]

omit [DecidableEq ι] in
theorem sum_map_ite (l : List ℕ) (k c : ℕ) :
    (l.map fun k' => if k' = k then c else 0).sum = l.count k * c := by
  induction l with
  | nil => simp
  | cons k' l ih =>
    rw [List.map_cons, List.sum_cons, ih, List.count_cons]
    by_cases hk : k' = k <;> simp [hk, Nat.add_mul, Nat.add_comm]

theorem count_program (i : ι) {k j : ℕ} (hk : k < n) (hj : j < (slots k).runs count) :
    (program n slots count assign i).count (k, j) =
      if (slots k).mine assign i j then 1 else 0 := by
  rw [program, List.count_flatMap]
  have hturn : (List.count (k, j) ∘ turn slots count assign i) =
      fun k' => if k' = k then (if (slots k).mine assign i j then 1 else 0) else 0 := by
    funext k'
    show (turn slots count assign i k').count (k, j) = _
    rw [count_turn]
    by_cases hk' : k' = k <;> simp [hk', hj]
  rw [hturn]
  rw [sum_map_ite, List.Nodup.count List.nodup_range, if_pos (List.mem_range.2 hk), one_mul]

theorem count_run [Fintype ι] (run : List (ι × ℕ × ℕ)) (e : ℕ × ℕ) :
    (run.map Prod.snd).count e = ∑ i, ((run.filter fun x => x.1 = i).map Prod.snd).count e := by
  induction run with
  | nil => simp
  | cons x run ih =>
    have hsplit : ∀ i, (((x :: run).filter fun y => y.1 = i).map Prod.snd).count e =
        (if x.1 = i then (if x.2 = e then 1 else 0) else 0) +
          ((run.filter fun y => y.1 = i).map Prod.snd).count e := by
      intro i
      by_cases hi : x.1 = i <;> by_cases hx : x.2 = e <;>
        simp [hi, hx, Nat.add_comm]
    simp only [hsplit, Finset.sum_add_distrib, ← ih]
    by_cases hx : x.2 = e <;> simp [hx, Nat.add_comm]

/-- A statement that is part of one unit is run once by the team, and a shared loop runs each of
its iterations once. -/
theorem Run.once [Fintype ι] (h : Run n slots count assign run) {k j u : ℕ} (hk : k < n)
    (hj : j < (slots k).runs count) (hu : (slots k).units = [u]) :
    (run.map Prod.snd).count (k, j) = 1 := by
  have hmine : ∀ i, ((run.filter fun x => x.1 = i).map Prod.snd).count (k, j) =
      if assign (u, if (slots k).split then j else 0) = i then 1 else 0 := by
    intro i
    rw [h.threads i, count_program i hk hj, Slot.mine, hu]
    simp
  rw [count_run, Finset.sum_congr rfl fun i _ => hmine i]
  simp

/-- What comes after a barrier is run after what comes before it. -/
theorem Run.ordered (h : Run n slots count assign run) {k : ℕ} (hk : Barrier n slots k) (a : ℕ) :
    (run.filter fun e => a ≤ e.2.1 ∧ e.2.1 < k + 1) ++ (run.filter fun e => a ≤ e.2.1 ∧
      ¬ e.2.1 < k + 1) = run.filter fun e => a ≤ e.2.1 := by
  conv_rhs => rw [← h.barriers k hk]
  rw [List.filter_append, List.filter_filter, List.filter_filter]
  congr 1
  · apply List.filter_congr
    intro e _
    simp
  · apply List.filter_congr
    intro e _
    simp

end Team
