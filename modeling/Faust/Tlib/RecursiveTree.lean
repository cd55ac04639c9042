import Faust.Tlib.Tree
import Mathlib.Algebra.Order.Group.Int

/-!
# Recursive trees (`recursive-tree.cpp`)

A recursive definition is written `DEBRUIJN(body)`, and `DEBRUIJNREF(level)` refers to the
`level`-th enclosing definition, counted from 1. In symbolic notation the same definition
is a node `SYMREC(var)` whose body is stored aside, under the property `RECDEF`.

The aperture of a tree is its deepest free reference: a tree of aperture at most 0 is
closed. It is a field of `CTree` computed at construction, so it is a function here.
-/

namespace Faust.Tree

/-! ## Constructors -/

/-- `rec(body)`, de Bruijn notation. -/
def debruijn (body : Tree) : Tree := .node (.sym .debruijn) [body]

/-- `ref(level)`, de Bruijn notation. -/
def debruijnRef (level : ℤ) : Tree := .node (.sym .debruijnRef) [leaf (.int level)]

/-- `ref(id)`, symbolic notation, for the variable `tree(v)`. -/
def symRef (v : Sym) : Tree := .node (.sym .symRec) [leaf (.sym v)]

/-- Nodes that take no part in recursive notation. -/
def Plain (n : Node) : Prop :=
  n ≠ .sym .debruijn ∧ n ≠ .sym .debruijnRef ∧ n ≠ .sym .symRec

instance (n : Node) : Decidable (Plain n) := by unfold Plain; infer_instance

/-! ## Aperture -/

mutual
/-- `CTree::calcTreeAperture`. -/
def aperture : Tree → ℤ
  | .node n br =>
    if n = .sym .debruijnRef then
      match br with
      | .node (.int x) _ :: _ => x
      | _ => 0
    else if n = .sym .debruijn then
      match br with
      | b :: _ => aperture b - 1
      | [] => 0
    else maxAperture br

/-- The maximal aperture of the branches, at least 0. -/
def maxAperture : List Tree → ℤ
  | [] => 0
  | t :: ts => max (aperture t) (maxAperture ts)
end

/-- `isClosed`. -/
def isClosed (t : Tree) : Prop := t.aperture ≤ 0

instance (t : Tree) : Decidable t.isClosed := by unfold isClosed; infer_instance

@[simp] theorem aperture_debruijn (b : Tree) : (debruijn b).aperture = b.aperture - 1 := rfl

@[simp] theorem aperture_debruijnRef (l : ℤ) : (debruijnRef l).aperture = l := rfl

@[simp] theorem aperture_symRef (v : Sym) : (symRef v).aperture = 0 := by
  simp [symRef, leaf, aperture, maxAperture]

theorem aperture_node {n : Node} (h : Plain n) (br : List Tree) :
    (Tree.node n br).aperture = maxAperture br := by
  unfold aperture
  rw [if_neg h.2.1, if_neg h.1]

theorem maxAperture_nonneg (ts : List Tree) : 0 ≤ maxAperture ts := by
  cases ts with
  | nil => simp [maxAperture]
  | cons t ts =>
    rw [maxAperture]
    exact le_max_of_le_right (maxAperture_nonneg ts)

theorem maxAperture_le_iff {ts : List Tree} {k : ℤ} (hk : 0 ≤ k) :
    maxAperture ts ≤ k ↔ ∀ t ∈ ts, t.aperture ≤ k := by
  induction ts with
  | nil => simp [maxAperture, hk]
  | cons t ts ih => simp [maxAperture, ih]

/-! ## Lifting and substitution -/

mutual
/-- `calcliftn`: add one to the references that point at least `threshold` binders out.
The closed subtrees are returned as they are. -/
def liftn : Tree → ℤ → Tree
  | .node n br, threshold =>
    if (Tree.node n br).isClosed then .node n br
    else match n, br with
      | .sym .debruijnRef, [.node (.int l) _] =>
        if l < threshold then .node n br else debruijnRef (l + 1)
      | .sym .debruijn, [body] => debruijn (liftn body (threshold + 1))
      | n, br => .node n (liftns br threshold)

/-- `liftn` on every branch. -/
def liftns : List Tree → ℤ → List Tree
  | [], _ => []
  | t :: ts, threshold => liftn t threshold :: liftns ts threshold
end

/-- `lift`. -/
def lift (t : Tree) : Tree := liftn t 1

mutual
/-- `calcsubstitute`: replace the references that point `level` binders out by `id`. The
subtrees whose aperture is below `level` are returned as they are. -/
def substitute : Tree → ℤ → Tree → Tree
  | .node n br, level, id =>
    if (Tree.node n br).aperture < level then .node n br
    else match n, br with
      | .sym .debruijnRef, [.node (.int l) _] => if l = level then id else .node n br
      | .sym .debruijn, [body] => debruijn (substitute body (level + 1) id)
      | n, br => .node n (substitutes br level id)

/-- `substitute` on every branch. -/
def substitutes : List Tree → ℤ → Tree → List Tree
  | [], _, _ => []
  | t :: ts, level, id => substitute t level id :: substitutes ts level id
end

theorem liftns_eq_map (ts : List Tree) (k : ℤ) : liftns ts k = ts.map (liftn · k) := by
  induction ts with
  | nil => rfl
  | cons t ts ih => rw [liftns, ih, List.map_cons]

theorem substitutes_eq_map (ts : List Tree) (k : ℤ) (id : Tree) :
    substitutes ts k id = ts.map (substitute · k id) := by
  induction ts with
  | nil => rfl
  | cons t ts ih => rw [substitutes, ih, List.map_cons]

theorem liftn_of_closed {t : Tree} (h : t.isClosed) (k : ℤ) : liftn t k = t := by
  cases t
  unfold liftn
  rw [if_pos h]

theorem substitute_of_lt {t : Tree} {k : ℤ} (h : t.aperture < k) (id : Tree) :
    substitute t k id = t := by
  cases t
  unfold substitute
  rw [if_pos h]

/-! ## Well-formed trees

What `rec`, `ref` and the signal constructors build: a binder has one branch, a reference
one positive level, a symbolic reference one variable. The variables allowed in symbolic
references are a parameter: a pure de Bruijn tree allows none.
-/

/-- Well-formed trees over the symbolic variables satisfying `V`. -/
inductive WellFormed (V : Sym → Prop) : Tree → Prop
  | debruijnRef (l : ℤ) (hl : 0 < l) : WellFormed V (debruijnRef l)
  | debruijn (b : Tree) (hb : WellFormed V b) : WellFormed V (debruijn b)
  | symRef (v : Sym) (hv : V v) : WellFormed V (symRef v)
  | plain (n : Node) (br : List Tree) (hn : Plain n) (hbr : ∀ t ∈ br, WellFormed V t) :
      WellFormed V (.node n br)

/-- `t` is written with `rec(body)` and `ref(level)` only. -/
def IsDeBruijn (t : Tree) : Prop := WellFormed (fun _ => False) t

theorem WellFormed.mono {V W : Sym → Prop} (h : ∀ v, V v → W v) {t : Tree}
    (ht : WellFormed V t) : WellFormed W t := by
  induction ht with
  | debruijnRef l hl => exact .debruijnRef l hl
  | debruijn b _ ih => exact .debruijn b ih
  | symRef v hv => exact .symRef v (h v hv)
  | plain n br hn _ ih => exact .plain n br hn ih

/-! ### Equations on well-formed trees -/

theorem substitute_debruijnRef (l k : ℤ) (id : Tree) :
    substitute (debruijnRef l) k id = if l = k then id else debruijnRef l := by
  by_cases h : (debruijnRef l).aperture < k
  · rw [substitute_of_lt h, if_neg (by simp at h; omega)]
  · unfold debruijnRef leaf substitute
    exact if_neg h

theorem substitute_debruijn (b : Tree) (k : ℤ) (id : Tree) :
    substitute (debruijn b) k id = debruijn (substitute b (k + 1) id) := by
  by_cases h : (debruijn b).aperture < k
  · rw [substitute_of_lt h, substitute_of_lt (by simp at h; omega)]
  · unfold debruijn
    rw [substitute]
    exact if_neg h

theorem substitute_symRef (v : Sym) {k : ℤ} (hk : 0 < k) (id : Tree) :
    substitute (symRef v) k id = symRef v := substitute_of_lt (by simpa using hk) id

theorem substitute_plain {n : Node} (hn : Plain n) (br : List Tree) {k : ℤ} (hk : 0 < k)
    (id : Tree) :
    substitute (.node n br) k id = .node n (br.map (substitute · k id)) := by
  by_cases h : (Tree.node n br).aperture < k
  · rw [substitute_of_lt h]
    rw [aperture_node hn] at h
    have hle : ∀ t ∈ br, t.aperture ≤ k - 1 := (maxAperture_le_iff (by omega)).mp (by omega)
    have hid : br.map (substitute · k id) = br.map (fun t => t) :=
      List.map_congr_left fun t ht => substitute_of_lt (by have := hle t ht; omega) id
    rw [hid, List.map_id']
  · conv_lhs => unfold substitute
    rw [if_neg h]
    split
    · exact absurd rfl hn.2.1
    · exact absurd rfl hn.1
    · rw [substitutes_eq_map]

theorem liftn_debruijnRef {l : ℤ} (hl : 0 < l) (k : ℤ) :
    liftn (debruijnRef l) k = if l < k then debruijnRef l else debruijnRef (l + 1) := by
  have h : ¬ (debruijnRef l).isClosed := by simp [isClosed]; omega
  unfold debruijnRef leaf liftn
  exact if_neg h

theorem liftn_plain {n : Node} (hn : Plain n) (br : List Tree) (k : ℤ) :
    liftn (.node n br) k = .node n (br.map (liftn · k)) := by
  by_cases h : (Tree.node n br).isClosed
  · rw [liftn_of_closed h]
    rw [isClosed, aperture_node hn, maxAperture_le_iff le_rfl] at h
    have hid : br.map (liftn · k) = br.map (fun t => t) :=
      List.map_congr_left fun t ht => liftn_of_closed (h t ht) k
    rw [hid, List.map_id']
  · conv_lhs => unfold liftn
    rw [if_neg h]
    split
    · exact absurd rfl hn.2.1
    · exact absurd rfl hn.1
    · rw [liftns_eq_map]

theorem liftn_symRef (v : Sym) (k : ℤ) : liftn (symRef v) k = symRef v :=
  liftn_of_closed (by simp [isClosed]) k

/-- Lifting at `k` changes nothing in a tree whose references all point less than `k`
binders out. -/
theorem liftn_of_lt {V : Sym → Prop} {t : Tree} (ht : WellFormed V t) :
    ∀ {k : ℤ}, 0 < k → t.aperture < k → liftn t k = t := by
  induction ht with
  | debruijnRef l hl =>
    intro k _ h
    rw [liftn_debruijnRef hl, if_pos (by simpa using h)]
  | debruijn b hb ih =>
    intro k hk h
    by_cases hc : (debruijn b).isClosed
    · exact liftn_of_closed hc k
    · have hb' := @ih (k + 1) (by omega) (by simp at h; omega)
      unfold debruijn at hc ⊢
      rw [liftn, if_neg hc]
      simp only [hb']
      rfl
  | symRef v _ => intro k _ _; exact liftn_symRef v k
  | plain n br hn _ ih =>
    intro k hk h
    rw [aperture_node hn] at h
    have hle : ∀ t ∈ br, t.aperture ≤ k - 1 := (maxAperture_le_iff (by omega)).mp (by omega)
    rw [liftn_plain hn]
    have hid : br.map (liftn · k) = br.map (fun t => t) :=
      List.map_congr_left fun t ht => ih t ht hk (by have := hle t ht; omega)
    rw [hid, List.map_id']

theorem liftn_debruijn {V : Sym → Prop} {b : Tree} (hb : WellFormed V b) {k : ℤ}
    (hk : 0 < k) : liftn (debruijn b) k = debruijn (liftn b (k + 1)) := by
  by_cases hc : (debruijn b).isClosed
  · rw [liftn_of_closed hc, liftn_of_lt hb (by omega) (by simp [isClosed] at hc; omega)]
  · unfold debruijn at hc ⊢
    rw [liftn, if_neg hc]
    rfl

end Faust.Tree
