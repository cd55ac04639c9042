import Mathlib.Data.Finset.Card
import Mathlib.Data.List.Perm.Basic
import Mathlib.Tactic.Common

/-!
# Walks over a graph

A walk goes through the successors of each vertex the first time that it comes to the vertex. The
edges have labels. Whatever the order of the successors, and with cycles or not, the walk takes
each edge of what it reaches exactly once.
-/

namespace Walk

variable {V E : Type*}

/-- What happens along a walk. -/
inductive Event (E V : Type*)
  /-- The edge leads to a vertex for the first time. -/
  | enter (x : E × V)
  /-- The edge leads to a vertex where the walk has been. -/
  | again (x : E × V)
  /-- The vertex entered by this edge and its successors are done. -/
  | leave (x : E × V)

namespace Event

/-- The edge that is taken. -/
def start : Event E V → Option (E × V)
  | enter x | again x => some x
  | leave _ => none

/-- The edge that is done. -/
def finish : Event E V → Option (E × V)
  | again x | leave x => some x
  | enter _ => none

/-- The end of the edge. -/
def vertex : Event E V → V
  | enter x | again x | leave x => x.2

/-- A vertex is entered. -/
def isEnter : Event E V → Bool
  | enter _ => true
  | _ => false

end Event

/-- The walk takes the edges of a list in order. `seen` has the vertices where it has been. -/
inductive Walks (succ : V → List (E × V)) :
    List V → List (E × V) → List (Event E V) → List V → Prop
  | nil (seen : List V) : Walks succ seen [] [] seen
  | again {seen seen' xs tr} (x : E × V) (hx : x.2 ∈ seen) (h : Walks succ seen xs tr seen') :
      Walks succ seen (x :: xs) (.again x :: tr) seen'
  | enter {seen seen₁ seen₂ xs tr₁ tr₂} (x : E × V) (hx : x.2 ∉ seen)
      (h₁ : Walks succ (x.2 :: seen) (succ x.2) tr₁ seen₁) (h₂ : Walks succ seen₁ xs tr₂ seen₂) :
      Walks succ seen (x :: xs) (.enter x :: (tr₁ ++ .leave x :: tr₂)) seen₂

/-- What the edges of a list lead to. -/
inductive Reach (succ : V → List (E × V)) (xs : List (E × V)) : V → Prop
  | start {x : E × V} (hx : x ∈ xs) : Reach succ xs x.2
  | step {u : V} {x : E × V} (hu : Reach succ xs u) (hx : x ∈ succ u) : Reach succ xs x.2

section
variable {succ : V → List (E × V)} {seen seen' : List V} {xs : List (E × V)}
  {tr : List (Event E V)}

theorem Reach.mono {ys : List (E × V)} (h : ∀ x ∈ xs, Reach succ ys x.2) {v : V}
    (hv : Reach succ xs v) : Reach succ ys v := by
  induction hv with
  | start hx => exact h _ hx
  | step _ hx ih => exact .step ih hx

/-! ## Each edge is taken once -/

/-- The vertices that are new in `seen'` have all their edges taken, and done, once. -/
theorem Walks.edges (h : Walks succ seen xs tr seen') : ∃ new, seen' = new ++ seen ∧
    (tr.filterMap Event.start).Perm (xs ++ new.flatMap succ) ∧
    (tr.filterMap Event.finish).Perm (xs ++ new.flatMap succ) := by
  induction h with
  | nil seen => exact ⟨[], rfl, .nil, .nil⟩
  | again x _ _ ih =>
    obtain ⟨new, hseen, hstart, hfinish⟩ := ih
    exact ⟨new, hseen, hstart.cons x, hfinish.cons x⟩
  | @enter seen seen₁ seen₂ xs tr₁ tr₂ x _ _ _ ih₁ ih₂ =>
    obtain ⟨new₁, hseen₁, hstart₁, hfinish₁⟩ := ih₁
    obtain ⟨new₂, hseen₂, hstart₂, hfinish₂⟩ := ih₂
    have hperm : (x :: (succ x.2 ++ new₁.flatMap succ ++ (xs ++ new₂.flatMap succ))).Perm
        (x :: xs ++ (new₂ ++ (new₁ ++ [x.2])).flatMap succ) := by
      simp only [List.flatMap_append, List.flatMap_cons, List.flatMap_nil, List.append_nil,
        List.cons_append]
      apply List.Perm.cons
      have hcomm : (succ x.2 ++ new₁.flatMap succ).Perm (new₁.flatMap succ ++ succ x.2) :=
        List.perm_append_comm
      rw [← List.append_assoc xs]
      exact List.perm_append_comm.trans (hcomm.append_left (xs ++ new₂.flatMap succ))
    refine ⟨new₂ ++ (new₁ ++ [x.2]), ?_, ?_, ?_⟩
    · rw [hseen₂, hseen₁]
      simp
    · apply List.Perm.trans _ hperm
      simp only [List.filterMap_cons, List.filterMap_append, Event.start]
      exact (hstart₁.append hstart₂).cons x
    · apply List.Perm.trans _ hperm
      simp only [List.filterMap_cons, List.filterMap_append, Event.finish]
      exact List.perm_middle.trans ((hfinish₁.append hfinish₂).cons x)

theorem Walks.nodup (h : Walks succ seen xs tr seen') (hn : seen.Nodup) : seen'.Nodup := by
  induction h with
  | nil seen => exact hn
  | again _ _ _ ih => exact ih hn
  | enter x hx _ _ ih₁ ih₂ => exact ih₂ (ih₁ (List.nodup_cons.2 ⟨hx, hn⟩))

theorem Walks.subset (h : Walks succ seen xs tr seen') : seen ⊆ seen' := by
  obtain ⟨new, hseen, _⟩ := h.edges
  rw [hseen]
  exact List.subset_append_right new seen

/-- The edges that are taken lead to where the walk has been. -/
theorem Walks.start_mem (h : Walks succ seen xs tr seen') {x : E × V}
    (hx : x ∈ tr.filterMap Event.start) : x.2 ∈ seen' := by
  induction h with
  | nil seen => simp at hx
  | again y hy h ih =>
    simp only [List.filterMap_cons, Event.start, List.mem_cons] at hx
    rcases hx with rfl | hx
    · exact h.subset hy
    · exact ih hx
  | enter y hy h₁ h₂ ih₁ ih₂ =>
    simp only [List.filterMap_cons, List.filterMap_append, Event.start, List.mem_cons,
      List.mem_append] at hx
    rcases hx with rfl | hx | hx
    · exact h₂.subset (h₁.subset List.mem_cons_self)
    · exact h₂.subset (ih₁ hx)
    · exact ih₂ hx

/-- The walk has been where it was, and where the edges lead. -/
theorem Walks.mem_iff (h : Walks succ [] xs tr seen') {v : V} :
    v ∈ seen' ↔ Reach succ xs v := by
  obtain ⟨new, hseen, hstart, _⟩ := h.edges
  rw [List.append_nil] at hseen
  subst hseen
  constructor
  · intro hv
    have hreach : ∀ {seen xs tr seen'}, Walks succ seen xs tr seen' → ∀ v ∈ seen', v ∉ seen →
        Reach succ xs v := by
      intro seen xs tr seen' h
      induction h with
      | nil seen => exact fun v hv hn => absurd hv hn
      | again x _ _ ih =>
        intro v hv hn
        exact (ih v hv hn).mono fun y hy => .start (List.mem_cons_of_mem x hy)
      | @enter seen seen₁ _ xs _ _ x _ _ _ ih₁ ih₂ =>
        intro v hv hn
        have hx : Reach succ (x :: xs) x.2 := .start List.mem_cons_self
        by_cases hv₁ : v ∈ seen₁
        · by_cases hvx : v = x.2
          · rw [hvx]
            exact hx
          · apply (ih₁ v hv₁ (by simp [hvx, hn])).mono
            intro y hy
            exact .step hx hy
        · exact (ih₂ v hv hv₁).mono fun y hy => .start (List.mem_cons_of_mem x hy)
    exact hreach h v hv (by simp)
  · intro hv
    induction hv with
    | start hx => exact h.start_mem (hstart.mem_iff.2 (List.mem_append_left _ hx))
    | step _ hx ih =>
      apply h.start_mem (hstart.mem_iff.2 (List.mem_append_right xs _))
      exact List.mem_flatMap.2 ⟨_, ih, hx⟩

/-! ## Walks exist -/

/-- In a finite set of vertices closed under successors, there is a walk. -/
theorem exists_walks [DecidableEq V] (R : Finset V) (hR : ∀ v ∈ R, ∀ x ∈ succ v, x.2 ∈ R)
    (seen : List V) (xs : List (E × V)) (hxs : ∀ x ∈ xs, x.2 ∈ R) :
    ∃ tr seen', Walks succ seen xs tr seen' := by
  induction hn : (R \ seen.toFinset).card using Nat.strong_induction_on generalizing seen xs with
  | _ n ih =>
    induction xs generalizing seen with
    | nil => exact ⟨[], seen, .nil seen⟩
    | cons x xs ihxs =>
      have hx := hxs x List.mem_cons_self
      have hrest : ∀ y ∈ xs, y.2 ∈ R := fun y hy => hxs y (List.mem_cons_of_mem x hy)
      by_cases hseen : x.2 ∈ seen
      · obtain ⟨tr, seen', h⟩ := ihxs seen hrest hn
        exact ⟨_, _, .again x hseen h⟩
      · -- one vertex less is left
        have hlt : (R \ (x.2 :: seen).toFinset).card < n := by
          rw [← hn]
          apply Finset.card_lt_card
          rw [Finset.ssubset_iff_of_subset]
          · exact ⟨x.2, by simp [hx, hseen], by simp⟩
          · intro v
            simp only [Finset.mem_sdiff, List.mem_toFinset, List.mem_cons]
            tauto
        obtain ⟨tr₁, seen₁, h₁⟩ := ih _ hlt _ _ (hR _ hx) rfl
        have hle : (R \ seen₁.toFinset).card < n := by
          apply lt_of_le_of_lt _ hlt
          apply Finset.card_le_card
          intro v
          simp only [Finset.mem_sdiff, List.mem_toFinset]
          exact fun hv => ⟨hv.1, fun hv' => hv.2 (h₁.subset hv')⟩
        obtain ⟨tr₂, seen₂, h₂⟩ := ih _ hle seen₁ xs hrest rfl
        exact ⟨_, _, .enter x hseen h₁ h₂⟩

end

/-! ## Records -/

/-- A record for each vertex: what it is at first, and what an edge does to it. -/
structure Records (E V R : Type*) where
  new : E × V → R
  again : E × V → R → R
  leave : E × V → R → R

namespace Records

variable [DecidableEq V] {R : Type*} (rec : Records E V R)

/-- What an event does to the record of its vertex. -/
def update : Event E V → Option R → Option R
  | .enter x, _ => some (rec.new x)
  | .again x, r => r.map (rec.again x)
  | .leave x, r => r.map (rec.leave x)

/-- What an event does to the records. -/
def apply (σ : V → Option R) (e : Event E V) : V → Option R :=
  Function.update σ e.vertex (rec.update e (σ e.vertex))

theorem apply_of_ne (σ : V → Option R) {e : Event E V} {v : V} (h : v ≠ e.vertex) :
    rec.apply σ e v = σ v := Function.update_of_ne h _ _

theorem apply_self (σ : V → Option R) (e : Event E V) :
    rec.apply σ e e.vertex = rec.update e (σ e.vertex) := Function.update_self _ _ _

/-- The record of a vertex depends on its own events. -/
theorem foldl_apply (σ : V → Option R) (tr : List (Event E V)) (v : V) :
    tr.foldl rec.apply σ v = (tr.filter fun e => e.vertex = v).foldl (fun r e => rec.update e r)
      (σ v) := by
  induction tr generalizing σ with
  | nil => rfl
  | cons e tr ih =>
    rw [List.foldl_cons, ih]
    by_cases hv : e.vertex = v
    · rw [List.filter_cons_of_pos (by simpa using hv), List.foldl_cons, apply]
      subst hv
      rw [Function.update_self]
    · rw [List.filter_cons_of_neg (by simpa using hv), apply,
        Function.update_of_ne (fun h => hv h.symm)]

end Records

section
variable [DecidableEq V] {succ : V → List (E × V)} {seen seen' : List V} {xs : List (E × V)}
  {tr : List (Event E V)}

/-- A vertex is entered first, if at all, and once. -/
theorem Walks.events (h : Walks succ seen xs tr seen') (v : V) :
    (v ∈ seen → ∀ e ∈ tr, e.vertex = v → e.isEnter = false) ∧
    (v ∉ seen' → ∀ e ∈ tr, e.vertex ≠ v) ∧
    (v ∉ seen → v ∈ seen' → ∃ x rest, (tr.filter fun e => e.vertex = v) = .enter x :: rest ∧
      ∀ e ∈ rest, e.isEnter = false) := by
  induction h with
  | nil seen => simp_all
  | again x hx h ih =>
    obtain ⟨ih₁, ih₂, ih₃⟩ := ih
    refine ⟨?_, ?_, ?_⟩
    · intro hv e he hev
      rcases List.mem_cons.1 he with rfl | he
      · rfl
      · exact ih₁ hv e he hev
    · intro hv e he hev
      rcases List.mem_cons.1 he with rfl | he
      · apply hv
        rw [← hev]
        exact h.subset hx
      · exact ih₂ hv e he hev
    · intro hv hv'
      have hne : ¬ x.2 = v := fun heq => hv (heq ▸ hx)
      rw [List.filter_cons_of_neg (by simp [Event.vertex, hne])]
      exact ih₃ hv hv'
  | @enter seen seen₁ seen₂ xs tr₁ tr₂ x hx h₁ h₂ ih₁ ih₂ =>
    obtain ⟨ha₁, ha₂, ha₃⟩ := ih₁
    obtain ⟨hb₁, hb₂, hb₃⟩ := ih₂
    refine ⟨?_, ?_, ?_⟩
    · intro hv e he hev
      simp only [List.mem_cons, List.mem_append] at he
      rcases he with rfl | he | rfl | he
      · exact absurd (by rw [← hev] at hv; exact hv) hx
      · exact ha₁ (List.mem_cons_of_mem _ hv) e he hev
      · rfl
      · exact hb₁ (h₁.subset (List.mem_cons_of_mem _ hv)) e he hev
    · intro hv e he hev
      have hx₂ : x.2 ∈ seen₂ := h₂.subset (h₁.subset List.mem_cons_self)
      simp only [List.mem_cons, List.mem_append] at he
      rcases he with rfl | he | rfl | he
      · exact hv (by rw [← hev]; exact hx₂)
      · exact ha₂ (fun h => hv (h₂.subset h)) e he hev
      · exact hv (by rw [← hev]; exact hx₂)
      · exact hb₂ hv e he hev
    · intro hv hv'
      by_cases hxv : x.2 = v
      · refine ⟨x, (tr₁ ++ .leave x :: tr₂).filter fun e => e.vertex = v, ?_, ?_⟩
        · rw [List.filter_cons_of_pos (by simp [Event.vertex, hxv])]
        · intro e he
          obtain ⟨he, hev⟩ := List.mem_filter.1 he
          have hev : e.vertex = v := by simpa using hev
          simp only [List.mem_cons, List.mem_append] at he
          rcases he with he | rfl | he
          · exact ha₁ (by simp [hxv]) e he hev
          · rfl
          · exact hb₁ (h₁.subset (by simp [hxv])) e he hev
      · rw [List.filter_cons_of_neg (by simp [Event.vertex, hxv]), List.filter_append,
          List.filter_cons_of_neg (by simp [Event.vertex, hxv])]
        by_cases hv₁ : v ∈ seen₁
        · obtain ⟨y, rest, hrest, hno⟩ := ha₃ (by simp [hv, Ne.symm hxv]) hv₁
          refine ⟨y, rest ++ tr₂.filter fun e => e.vertex = v, by rw [hrest]; rfl, ?_⟩
          intro e he
          rcases List.mem_append.1 he with he | he
          · exact hno e he
          · obtain ⟨he, hev⟩ := List.mem_filter.1 he
            exact hb₁ hv₁ e he (by simpa using hev)
        · have hnil : (tr₁.filter fun e => e.vertex = v) = [] := by
            apply List.filter_eq_nil_iff.2
            intro e he
            simpa using ha₂ hv₁ e he
          rw [hnil, List.nil_append]
          exact hb₃ hv₁ hv'

/-- After a walk, there is a record for each vertex where it has been. -/
theorem Walks.isSome {R : Type*} (rec : Records E V R) (h : Walks succ seen xs tr seen')
    {σ : V → Option R} (hσ : ∀ v, (σ v).isSome ↔ v ∈ seen) (v : V) :
    (tr.foldl rec.apply σ v).isSome ↔ v ∈ seen' := by
  induction h generalizing σ v with
  | nil seen => exact hσ v
  | again x hx _ ih =>
    apply ih
    intro u
    by_cases hu : u = x.2
    · subst hu
      rw [← hσ x.2]
      simp [Records.apply, Event.vertex, Records.update]
    · rw [rec.apply_of_ne σ hu]
      exact hσ u
  | @enter seen seen₁ _ _ _ _ x hx h₁ _ ih₁ ih₂ =>
    rw [List.foldl_cons, List.foldl_append, List.foldl_cons]
    apply ih₂
    intro u
    have hfirst := @ih₁ (rec.apply σ (.enter x)) (by
      intro w
      by_cases hw : w = x.2
      · subst hw
        simp [Records.apply, Event.vertex, Records.update]
      · rw [rec.apply_of_ne σ hw, hσ w]
        simp [hw])
    by_cases hu : u = x.2
    · subst hu
      rw [← hfirst x.2]
      simp [Records.apply, Event.vertex, Records.update]
    · rw [rec.apply_of_ne _ hu]
      exact hfirst u

omit [DecidableEq V] in
theorem start_vertex {e : Event E V} {x : E × V} (h : e.start = some x) : x.2 = e.vertex := by
  cases e <;> simp_all [Event.start, Event.vertex]

omit [DecidableEq V] in
theorem finish_vertex {e : Event E V} {x : E × V} (h : e.finish = some x) : x.2 = e.vertex := by
  cases e <;> simp_all [Event.finish, Event.vertex]

/-- The edges to a vertex are those of the events of the vertex. -/
theorem filter_filterMap {f : Event E V → Option (E × V)}
    (hf : ∀ e x, f e = some x → x.2 = e.vertex) (tr : List (Event E V)) (v : V) :
    (tr.filterMap f).filter (fun x => x.2 = v) =
      (tr.filter fun e => e.vertex = v).filterMap f := by
  induction tr with
  | nil => rfl
  | cons e tr ih =>
    cases hfe : f e with
    | none =>
      rw [List.filterMap_cons_none hfe, ih]
      by_cases hv : e.vertex = v
      · rw [List.filter_cons_of_pos (by simpa using hv), List.filterMap_cons_none hfe]
      · rw [List.filter_cons_of_neg (by simpa using hv)]
    | some x =>
      have hx := hf e x hfe
      rw [List.filterMap_cons_some hfe]
      by_cases hv : e.vertex = v
      · rw [List.filter_cons_of_pos (by simpa using hx.trans hv),
          List.filter_cons_of_pos (by simpa using hv), List.filterMap_cons_some hfe, ih]
      · rw [List.filter_cons_of_neg (by simpa [hx] using hv),
          List.filter_cons_of_neg (by simpa using hv), ih]

/-- What an event does to the record of the vertex, once entered. -/
def Records.step {R : Type*} (rec : Records E V R) : R → Event E V → R
  | r, .enter _ => r
  | r, .again x => rec.again x r
  | r, .leave x => rec.leave x r

/-- The record of a vertex after a walk: it is new when the walk first takes an edge to the
vertex, and changes with the others. -/
theorem Walks.record {R : Type*} (rec : Records E V R) (h : Walks succ [] xs tr seen') {v : V}
    (hv : v ∈ seen') : ∃ (x : E × V) (rest : List (Event E V)), (∀ e ∈ rest, e.isEnter = false) ∧
      (tr.filterMap Event.start).filter (fun y => y.2 = v) = x :: rest.filterMap Event.start ∧
      (tr.filterMap Event.finish).filter (fun y => y.2 = v) = rest.filterMap Event.finish ∧
      tr.foldl rec.apply (fun _ => none) v = some (rest.foldl rec.step (rec.new x)) := by
  obtain ⟨x, rest, hrest, hno⟩ := (h.events v).2.2 (by simp) hv
  refine ⟨x, rest, hno, ?_, ?_, ?_⟩
  · rw [filter_filterMap fun e x => start_vertex, hrest]
    rfl
  · rw [filter_filterMap fun e x => finish_vertex, hrest]
    rfl
  · rw [rec.foldl_apply, hrest, List.foldl_cons]
    have hfold : ∀ (r : R) (es : List (Event E V)), (∀ e ∈ es, e.isEnter = false) →
        es.foldl (fun r e => rec.update e r) (some r) = some (es.foldl rec.step r) := by
      intro r es
      induction es generalizing r with
      | nil => exact fun _ => rfl
      | cons e es ih =>
        intro hes
        have hrest := ih (rec.step r e) fun e' he' => hes e' (List.mem_cons_of_mem e he')
        rw [List.foldl_cons, List.foldl_cons, ← hrest]
        have he := hes e List.mem_cons_self
        cases e <;> first | rfl | simp [Event.isEnter] at he
    exact hfold _ _ hno

end

/-! ## Programs that walk -/

section
variable [DecidableEq V] {R ε : Type*}

/-- A program, bounded in depth, that takes one edge: it changes the record of a vertex where it
has been, and otherwise goes on with the successors. The records are as `P` says. -/
structure Follows (succ : V → List (E × V)) (rec : Records E V R) (Ready : V → Prop)
    (P : R → Prop) (run : ℕ → E × V → (V → Option R) → Except ε (V → Option R)) : Prop where
  new : ∀ x, P (rec.new x)
  kept : ∀ x r, P r → P (rec.again x r) ∧ P (rec.leave x r)
  again : ∀ fuel x σ r, σ x.2 = some r → P r →
    run (fuel + 1) x σ = .ok (rec.apply σ (.again x))
  first : ∀ fuel x σ, σ x.2 = none → Ready x.2 →
    run (fuel + 1) x σ = ((succ x.2).foldlM (fun σ y => run fuel y σ)
      (rec.apply σ (.enter x))).map fun σ => rec.apply σ (.leave x)

namespace Follows

variable {succ : V → List (E × V)} {rec : Records E V R} {Ready : V → Prop} {P : R → Prop}
  {run : ℕ → E × V → (V → Option R) → Except ε (V → Option R)}

theorem update (hf : Follows succ rec Ready P run) (e : Event E V) {σ : V → Option R}
    (hσ : ∀ v, ∀ r ∈ σ v, P r) (v : V) : ∀ r ∈ rec.apply σ e v, P r := by
  by_cases hv : v = e.vertex
  · subst hv
    rw [rec.apply_self]
    intro r hr
    cases e with
    | enter x =>
      obtain rfl : rec.new x = r := by simpa [Records.update] using hr
      exact hf.new x
    | again x =>
      obtain ⟨r', hr', rfl⟩ := Option.map_eq_some_iff.1 hr
      exact (hf.kept x r' (hσ _ r' hr')).1
    | leave x =>
      obtain ⟨r', hr', rfl⟩ := Option.map_eq_some_iff.1 hr
      exact (hf.kept x r' (hσ _ r' hr')).2
  · rw [rec.apply_of_ne σ hv]
    exact hσ v

theorem foldl (hf : Follows succ rec Ready P run) (tr : List (Event E V)) {σ : V → Option R}
    (hσ : ∀ v, ∀ r ∈ σ v, P r) (v : V) : ∀ r ∈ tr.foldl rec.apply σ v, P r := by
  induction tr generalizing σ with
  | nil => exact hσ v
  | cons e tr ih => exact ih (hf.update e hσ)

/-- With enough fuel, the program goes along the walk. -/
theorem walks (hf : Follows succ rec Ready P run) {seen seen' : List V} {xs : List (E × V)}
    {tr : List (Event E V)} (h : Walks succ seen xs tr seen') (hready : ∀ v ∈ seen', Ready v)
    {σ : V → Option R} (hdom : ∀ v, (σ v).isSome ↔ v ∈ seen) (hσ : ∀ v, ∀ r ∈ σ v, P r) :
    ∃ n, ∀ fuel ≥ n, xs.foldlM (fun σ y => run fuel y σ) σ = .ok (tr.foldl rec.apply σ) := by
  induction h generalizing σ with
  | nil seen => exact ⟨0, fun _ _ => rfl⟩
  | @again seen seen' xs tr x hx h ih =>
    have hstep : Walks succ seen [x] [.again x] seen := .again x hx (.nil seen)
    obtain ⟨n, hn⟩ := ih hready (hstep.isSome rec hdom) (hf.update (.again x) hσ)
    refine ⟨n + 1, fun fuel hfuel => ?_⟩
    obtain ⟨k, rfl⟩ : ∃ k, fuel = k + 1 := ⟨fuel - 1, by omega⟩
    obtain ⟨r, hr⟩ := Option.isSome_iff_exists.1 ((hdom x.2).2 hx)
    rw [List.foldlM_cons, hf.again k x σ r hr (hσ x.2 r hr)]
    exact hn (k + 1) (by omega)
  | @enter seen seen₁ seen₂ xs tr₁ tr₂ x hx h₁ h₂ ih₁ ih₂ =>
    have hdom₁ : ∀ v, (rec.apply σ (.enter x) v).isSome ↔ v ∈ x.2 :: seen := by
      intro v
      by_cases hv : v = x.2
      · subst hv
        simp [Records.apply, Event.vertex, Records.update]
      · rw [rec.apply_of_ne σ hv, hdom v]
        simp [hv]
    have hdom₂ : ∀ v, ((tr₁ ++ [Event.leave x]).foldl rec.apply (rec.apply σ (.enter x)) v).isSome ↔
        v ∈ seen₁ := by
      have hwalk : Walks succ seen [x] (.enter x :: (tr₁ ++ [.leave x])) seen₁ :=
        .enter x hx h₁ (.nil seen₁)
      exact hwalk.isSome rec hdom
    obtain ⟨n₁, hn₁⟩ := ih₁ (fun v hv => hready v (h₂.subset hv)) hdom₁ (hf.update (.enter x) hσ)
    obtain ⟨n₂, hn₂⟩ := ih₂ hready hdom₂ (hf.foldl _ (hf.update (.enter x) hσ))
    refine ⟨n₁ + n₂ + 1, fun fuel hfuel => ?_⟩
    obtain ⟨k, rfl⟩ : ∃ k, fuel = k + 1 := ⟨fuel - 1, by omega⟩
    have hnone : σ x.2 = none := by
      rw [← Option.not_isSome_iff_eq_none, hdom]
      exact hx
    have hx' := hready x.2 (h₂.subset (h₁.subset List.mem_cons_self))
    rw [List.foldlM_cons, hf.first k x σ hnone hx', hn₁ k (by omega), List.foldl_cons,
      List.foldl_append, List.foldl_cons]
    have hrest := hn₂ (k + 1) (by omega)
    rw [List.foldl_append] at hrest
    exact hrest

end Follows

end

end Walk
