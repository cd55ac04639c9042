import Faust.Propagate.Semantics
import Faust.Propagate.PropagateTheorems
import Mathlib.Data.List.GetD

/-!
# The propagation computes the meaning of the diagram

The proof follows the propagation. Lifting a signal makes room for one more enclosing
recursion and leaves its meaning as it is, so pending inputs and slots mean the same inside
a recursion as outside. The references the propagation builds are all delayed by one sample,
so the body of a recursion is strictly causal and has exactly one fixpoint.
-/

namespace Faust

open Faust.Tree

/-! ## Signals, and signals whose references are delayed -/

namespace Tree

/-- What is neither a list nor a recursion nor a reference. -/
def IsSignal (t : Tree) : Prop :=
  t.label ≠ .sym .cons ∧ t.label ≠ .sym .debruijn ∧ t.label ≠ .sym .debruijnRef

/-- Every free reference is projected and delayed by one sample, and none occurs in what
generates a table. -/
inductive Guarded : Tree → Prop
  | closed {t : Tree} (h : t.isClosed) : Guarded t
  | memProj (i l : ℤ) (hl : 0 < l) : Guarded (sigDelay1 (sigProj i (debruijnRef l)))
  | debruijn {b : Tree} (hb : Guarded b) : Guarded (debruijn b)
  | node {n : Node} {br : List Tree} (h₁ : n ≠ .sym .debruijn) (h₂ : n ≠ .sym .debruijnRef)
      (h₃ : n ≠ .sym .sigGen) (hbr : ∀ t ∈ br, Guarded t) : Guarded (.node n br)

/-- A signal the propagation can send into a box. -/
structure CausalSignal (t : Tree) : Prop where
  guarded : t.Guarded
  isSignal : t.IsSignal

/-! ### The shapes of a tree

The functions on recursive trees treat a reference or a binder of a wrong shape like any
other node.
-/

/-- What a tree is for the functions on recursive trees. -/
inductive Shape : Tree → Prop
  | ref (l : ℤ) (cs : List Tree) : Shape (.node (.sym .debruijnRef) [.node (.int l) cs])
  | badRef (br : List Tree) (h : ∀ l cs, br ≠ [.node (.int l) cs]) :
      Shape (.node (.sym .debruijnRef) br)
  | binder (b : Tree) : Shape (debruijn b)
  | badBinder (br : List Tree) (h : ∀ b, br ≠ [b]) : Shape (.node (.sym .debruijn) br)
  | node (n : Node) (br : List Tree) (h₁ : n ≠ .sym .debruijn) (h₂ : n ≠ .sym .debruijnRef) :
      Shape (.node n br)

lemma shape (t : Tree) : Shape t := by
  obtain ⟨n, br⟩ := t
  by_cases h₁ : n = .sym .debruijn
  · subst h₁
    by_cases h : ∃ b, br = [b]
    · obtain ⟨b, rfl⟩ := h
      exact .binder b
    · exact .badBinder br fun b hb => h ⟨b, hb⟩
  by_cases h₂ : n = .sym .debruijnRef
  · subst h₂
    by_cases h : ∃ l cs, br = [.node (.int l) cs]
    · obtain ⟨l, cs, rfl⟩ := h
      exact .ref l cs
    · exact .badRef br fun l cs hb => h ⟨l, cs, hb⟩
  exact .node n br h₁ h₂

/-! ### Lifting -/

lemma liftn_node {n : Node} {br : List Tree} (h₁ : n ≠ .sym .debruijn)
    (h₂ : n ≠ .sym .debruijnRef) (hc : ¬ (Tree.node n br).isClosed) (k : ℤ) :
    liftn (.node n br) k = .node n (br.map (liftn · k)) := by
  rw [liftn.eq_def]
  simp only [if_neg hc]
  split
  · exact absurd rfl h₂
  · exact absurd rfl h₁
  · rw [liftns_eq_map]

lemma liftn_debruijn_open {b : Tree} (hc : ¬ (debruijn b).isClosed) (k : ℤ) :
    liftn (debruijn b) k = debruijn (liftn b (k + 1)) := by
  unfold debruijn at hc ⊢
  rw [liftn, if_neg hc]
  rfl

lemma liftn_ref {l : ℤ} {cs : List Tree}
    (hc : ¬ (Tree.node (.sym .debruijnRef) [.node (.int l) cs]).isClosed) (k : ℤ) :
    liftn (.node (.sym .debruijnRef) [.node (.int l) cs]) k =
      if l < k then .node (.sym .debruijnRef) [.node (.int l) cs] else debruijnRef (l + 1) := by
  rw [liftn, if_neg hc]

lemma liftn_badRef {br : List Tree} (hc : ¬ (Tree.node (.sym .debruijnRef) br).isClosed)
    (h : ∀ l cs, br ≠ [.node (.int l) cs]) (k : ℤ) : liftn (.node (.sym .debruijnRef) br) k =
      .node (.sym .debruijnRef) (br.map (liftn · k)) := by
  rw [liftn.eq_def]
  simp only [if_neg hc]
  split
  · exact absurd rfl (h _ _)
  · rename_i heq
    cases heq
  · rw [liftns_eq_map]

lemma liftn_badBinder {br : List Tree} (hc : ¬ (Tree.node (.sym .debruijn) br).isClosed)
    (h : ∀ b, br ≠ [b]) (k : ℤ) : liftn (.node (.sym .debruijn) br) k =
      .node (.sym .debruijn) (br.map (liftn · k)) := by
  rw [liftn.eq_def]
  simp only [if_neg hc]
  split
  · rename_i heq
    cases heq
  · exact absurd rfl (h _)
  · rw [liftns_eq_map]

/-- Lifting does not change the label. -/
lemma label_liftn (t : Tree) (k : ℤ) : (liftn t k).label = t.label := by
  obtain ⟨n, br⟩ := t
  unfold liftn
  split
  · rfl
  · split
    · split <;> rfl
    · rfl
    · rfl

lemma ne_ref_liftn {br : List Tree} (h : ∀ l cs, br ≠ [.node (.int l) cs]) (k l : ℤ)
    (cs : List Tree) : br.map (liftn · k) ≠ [.node (.int l) cs] := by
  intro heq
  obtain ⟨t, rfl, ht⟩ := List.map_eq_singleton_iff.mp heq
  obtain ⟨n, br'⟩ := t
  have hn : n = .int l := by
    rw [← label_node n br', ← label_liftn _ k, ht, label_node]
  exact h l br' (by rw [hn])

lemma ne_singleton_liftn {br : List Tree} (h : ∀ b, br ≠ [b]) (k : ℤ) (b : Tree) :
    br.map (liftn · k) ≠ [b] := by
  intro heq
  obtain ⟨t, rfl, -⟩ := List.map_eq_singleton_iff.mp heq
  exact h t rfl

lemma IsSignal.lift {t : Tree} (h : t.IsSignal) : t.lift.IsSignal := by
  unfold IsSignal Tree.lift
  rw [label_liftn]
  exact h

lemma aperture_node_of_ne {n : Node} (h₁ : n ≠ .sym .debruijn) (h₂ : n ≠ .sym .debruijnRef)
    (br : List Tree) : (Tree.node n br).aperture = maxAperture br := by
  unfold aperture
  rw [if_neg h₂, if_neg h₁]

lemma isClosed_node {n : Node} (h₁ : n ≠ .sym .debruijn) (h₂ : n ≠ .sym .debruijnRef)
    {br : List Tree} : (Tree.node n br).isClosed ↔ ∀ t ∈ br, t.isClosed := by
  rw [isClosed, aperture_node_of_ne h₁ h₂, maxAperture_le_iff le_rfl]
  rfl

lemma isClosed_leaf (n : Node) : (leaf n).isClosed := by
  unfold leaf isClosed aperture
  split
  · rfl
  · split
    · rfl
    · exact le_rfl

/-- Lifting keeps the references delayed. -/
lemma Guarded.liftn {t : Tree} (h : t.Guarded) : ∀ k, (liftn t k).Guarded := by
  induction h with
  | closed h =>
    intro k
    rw [liftn_of_closed h]
    exact .closed h
  | memProj i l hl =>
    intro k
    have hopen : ¬ (sigProj i (debruijnRef l)).isClosed := by
      rw [sigProj, isClosed_node (by decide) (by decide)]
      intro h
      have := h (debruijnRef l) (by simp)
      rw [isClosed, aperture_debruijnRef] at this
      omega
    have hopen' : ¬ (sigDelay1 (sigProj i (debruijnRef l))).isClosed := by
      rw [sigDelay1, isClosed_node (by decide) (by decide)]
      exact fun h => hopen (h _ (by simp))
    rw [sigDelay1, liftn_node (by decide) (by decide) hopen', List.map_singleton, sigProj,
      liftn_node (by decide) (by decide) hopen]
    simp only [List.map_cons, List.map_nil, liftn_of_closed (isClosed_leaf _),
      liftn_debruijnRef hl]
    split
    · exact .memProj i l hl
    · exact .memProj i (l + 1) (by omega)
  | @debruijn b _ ih =>
    intro k
    by_cases hc : (Tree.debruijn b).isClosed
    · rw [liftn_of_closed hc]
      exact .closed hc
    · rw [liftn_debruijn_open hc]
      exact .debruijn (ih (k + 1))
  | @node n br h₁ h₂ h₃ _ ih =>
    intro k
    by_cases hc : (Tree.node n br).isClosed
    · rw [liftn_of_closed hc]
      exact .closed hc
    · rw [liftn_node h₁ h₂ hc]
      refine .node h₁ h₂ h₃ fun t ht => ?_
      obtain ⟨u, hu, rfl⟩ := List.mem_map.mp ht
      exact ih u hu k

lemma CausalSignal.lift {t : Tree} (h : t.CausalSignal) : t.lift.CausalSignal :=
  ⟨h.guarded.liftn 1, h.isSignal.lift⟩

/-- A node over causal signals and closed trees. -/
lemma CausalSignal.node {n : Node} {br : List Tree} (h₁ : n ≠ .sym .debruijn)
    (h₂ : n ≠ .sym .debruijnRef) (h₃ : n ≠ .sym .sigGen) (h₄ : n ≠ .sym .cons)
    (hbr : ∀ t ∈ br, t.Guarded) : (Tree.node n br).CausalSignal :=
  ⟨.node h₁ h₂ h₃ hbr, h₄, h₁, h₂⟩

lemma guarded_leaf (n : Node) : (leaf n).Guarded := .closed (isClosed_leaf n)

lemma guarded_ofList {ts : List Tree} (h : ∀ t ∈ ts, t.Guarded) : (ofList ts).Guarded := by
  induction ts with
  | nil => exact guarded_leaf _
  | cons t ts ih =>
    refine .node (by decide) (by decide) (by decide) fun u hu => ?_
    simp only [List.mem_cons, List.not_mem_nil, or_false] at hu
    rcases hu with rfl | rfl
    · exact h _ (by simp)
    · exact ih fun v hv => h v (by simp [hv])

end Tree

namespace SigInterp

variable {libm : Libm} {V : Type} (I : SigInterp libm V) (inputs : ℕ → ℕ → ℚ)

/-! ## Equations -/

lemma denotes_eq_map (ρ : List (Group V)) (ts : List Tree) :
    I.denotes inputs ρ ts = ts.map (I.denote inputs ρ) := by
  induction ts with
  | nil => rfl
  | cons t ts ih => rw [denotes, ih, List.map_cons]

/-- A node that takes no part in de Bruijn notation. -/
lemma denote_node {n : Node} (h₁ : n ≠ .sym .debruijn) (h₂ : n ≠ .sym .debruijnRef)
    (ρ : List (Group V)) (br : List Tree) : I.denote inputs ρ (.node n br) =
      I.node inputs n (br.map label) (br.map (I.denote inputs ρ)) := by
  rw [← denotes_eq_map]
  unfold denote
  split
  · exact absurd rfl h₂
  · exact absurd rfl h₂
  · exact absurd rfl h₁
  · exact absurd rfl h₁
  · rfl

lemma denote_debruijn (ρ : List (Group V)) (b : Tree) : I.denote inputs ρ (debruijn b) =
    Streams.fix I.silence fun G => I.denote inputs (G :: ρ) b := rfl

lemma denote_ref (ρ : List (Group V)) (l : ℤ) (cs : List Tree) :
    I.denote inputs ρ (.node (.sym .debruijnRef) [.node (.int l) cs]) =
      if 0 < l then ρ.getD (l.toNat - 1) I.silence else I.silence := rfl

lemma denote_badRef {br : List Tree} (h : ∀ l cs, br ≠ [.node (.int l) cs])
    (ρ : List (Group V)) : I.denote inputs ρ (.node (.sym .debruijnRef) br) = I.silence := by
  unfold denote
  split
  · exact absurd rfl (h _ _)
  · rfl
  · rename_i heq
    cases heq
  · rfl
  · rename_i href _ _ _
    exact absurd rfl href

lemma denote_badBinder {br : List Tree} (h : ∀ b, br ≠ [b]) (ρ : List (Group V)) :
    I.denote inputs ρ (.node (.sym .debruijn) br) = I.silence := by
  unfold denote
  split
  · rename_i heq
    cases heq
  · rfl
  · exact absurd rfl (h _)
  · rfl
  · rename_i _ hbinder _ _
    exact absurd rfl hbinder

lemma denote_debruijnRef (ρ : List (Group V)) {l : ℤ} (hl : 0 < l) :
    I.denote inputs ρ (debruijnRef l) = ρ.getD (l.toNat - 1) I.silence := if_pos hl

lemma node_eq_const {n : Node} (hn : n ≠ .sym .cons) (labels : List Node)
    (ds : List (Group V)) : ∃ s, I.node inputs n labels ds = const s := by
  unfold node
  split
  case h_4 => exact absurd rfl hn
  all_goals exact ⟨_, rfl⟩

/-- A signal denotes one stream. -/
lemma denote_eq_const {t : Tree} (ht : t.IsSignal) (ρ : List (Group V)) :
    I.denote inputs ρ t = const (I.stream inputs ρ t) := by
  obtain ⟨n, br⟩ := t
  obtain ⟨hc, h₁, h₂⟩ : n ≠ .sym .cons ∧ n ≠ .sym .debruijn ∧ n ≠ .sym .debruijnRef := ht
  obtain ⟨s, hs⟩ := I.node_eq_const inputs hc (br.map label) (br.map (I.denote inputs ρ))
  unfold stream
  rw [denote_node I inputs h₁ h₂, hs]
  rfl

/-! ## The meaning of a tree depends on its free references -/

/-- Two environments that agree on the references of a tree give it the same meaning. -/
lemma denote_congr (t : Tree) : ∀ {ρ ρ' : List (Group V)} {k : ℤ}, t.aperture ≤ k →
    (∀ i : ℕ, (i : ℤ) < k → ρ[i]? = ρ'[i]?) → I.denote inputs ρ t = I.denote inputs ρ' t := by
  induction t using Tree.induction with
  | _ n br ih =>
    intro ρ ρ' k hk h
    cases shape (Tree.node n br) with
    | ref l cs =>
      have hl : l ≤ k := hk
      rw [denote_ref, denote_ref]
      split
      · rw [List.getD_eq_getElem?_getD, List.getD_eq_getElem?_getD, h (l.toNat - 1) (by omega)]
      · rfl
    | badRef _ hbr => rw [denote_badRef I inputs hbr, denote_badRef I inputs hbr]
    | binder b =>
      have hb : b.aperture ≤ k + 1 := by
        have : b.aperture - 1 ≤ k := hk
        omega
      show Streams.fix _ _ = Streams.fix _ _
      congr 1
      funext G
      refine ih b (by simp) hb fun i hi => ?_
      cases i with
      | zero => rfl
      | succ i => exact h i (by omega)
    | badBinder _ hbr => rw [denote_badBinder I inputs hbr, denote_badBinder I inputs hbr]
    | node _ _ h₁ h₂ =>
      rw [denote_node I inputs h₁ h₂, denote_node I inputs h₁ h₂]
      congr 1
      refine List.map_congr_left fun t ht => ih t ht (le_trans ?_ hk) h
      rw [aperture_node_of_ne h₁ h₂]
      exact (maxAperture_le_iff (maxAperture_nonneg br)).mp le_rfl t ht

/-- The meaning of a closed tree does not depend on the environment. -/
lemma denote_closed {t : Tree} (ht : t.isClosed) (ρ ρ' : List (Group V)) :
    I.denote inputs ρ t = I.denote inputs ρ' t :=
  I.denote_congr inputs t ht fun _ h => absurd h (by omega)

/-- A lifted tree means under one more recursion what the tree meant. -/
lemma denote_liftn (t : Tree) : ∀ (ρ₁ : List (Group V)) (G : Group V) (ρ₂ : List (Group V)),
    I.denote inputs (ρ₁ ++ G :: ρ₂) (liftn t (ρ₁.length + 1)) =
      I.denote inputs (ρ₁ ++ ρ₂) t := by
  induction t using Tree.induction with
  | _ n br ih =>
    intro ρ₁ G ρ₂
    by_cases hc : (Tree.node n br).isClosed
    · rw [liftn_of_closed hc]
      exact I.denote_closed inputs hc _ _
    cases shape (Tree.node n br) with
    | ref l cs =>
      have hl : 0 < l := by
        have : ¬ l ≤ 0 := hc
        omega
      rw [liftn_ref hc, denote_ref, if_pos hl]
      by_cases hlt : l < ρ₁.length + 1
      · rw [if_pos hlt, denote_ref, if_pos hl, List.getD_append _ _ _ _ (by omega),
          List.getD_append _ _ _ _ (by omega)]
      · rw [if_neg hlt, denote_debruijnRef _ _ _ (by omega),
          List.getD_append_right _ _ _ _ (by omega), List.getD_append_right _ _ _ _ (by omega)]
        have hidx : (l + 1).toNat - 1 - ρ₁.length = l.toNat - 1 - ρ₁.length + 1 := by omega
        rw [hidx, List.getD_cons_succ]
    | badRef _ hbr =>
      rw [liftn_badRef hc hbr, denote_badRef I inputs hbr, denote_badRef]
      exact ne_ref_liftn hbr _
    | binder b =>
      show I.denote inputs _ (liftn (debruijn b) _) = I.denote inputs _ (debruijn b)
      rw [liftn_debruijn_open hc, denote_debruijn, denote_debruijn]
      congr 1
      funext G'
      exact ih b (by simp) (G' :: ρ₁) G ρ₂
    | badBinder _ hbr =>
      rw [liftn_badBinder hc hbr, denote_badBinder I inputs hbr, denote_badBinder]
      exact ne_singleton_liftn hbr _
    | node _ _ h₁ h₂ =>
      rw [liftn_node h₁ h₂ hc, denote_node I inputs h₁ h₂, denote_node I inputs h₁ h₂,
        List.map_map, List.map_map]
      congr 1
      · exact List.map_congr_left fun t _ => label_liftn t _
      · exact List.map_congr_left fun t ht => ih t ht ρ₁ G ρ₂

/-- Under a new recursion, a lifted signal has the stream it had. -/
lemma stream_lift (t : Tree) (G : Group V) (ρ : List (Group V)) :
    I.stream inputs (G :: ρ) t.lift = I.stream inputs ρ t := by
  unfold stream Tree.lift
  exact congrFun (I.denote_liftn inputs t [] G ρ) 0

/-! ## Causality -/

open Streams

variable {I inputs} {k : ℕ}

lemma arg_agree {ds ds' : List (Group V)} (h : List.Forall₂ (AgreeUpTo k) ds ds') :
    ∀ i, AgreeUpTo k (I.arg ds i) (I.arg ds' i) := by
  induction h with
  | nil => exact fun i => .refl k _
  | cons hd _ ih =>
    intro i
    cases i with
    | zero => exact hd
    | succ i => exact ih i

lemma heads_agree {ds ds' : List (Group V)} (h : List.Forall₂ (AgreeUpTo k) ds ds') {t : ℕ}
    (ht : t < k) : (ds.map (· 0)).map (· t) = (ds'.map (· 0)).map (· t) := by
  induction h with
  | nil => rfl
  | cons hd _ ih =>
    simp only [List.map_cons]
    rw [hd 0 t ht, ih]

lemma cons_agree {s s' : Stream V} {g g' : Group V} (hs : ∀ t < k, s t = s' t)
    (hg : AgreeUpTo k g g') : AgreeUpTo k (cons s g) (cons s' g') := by
  intro i
  cases i with
  | zero => exact hs
  | succ i => exact hg i

/-- The operations are causal, except the generation of tables. -/
lemma node_agree {n : Node} (hn : n ≠ .sym .sigGen) (labels : List Node)
    {ds ds' : List (Group V)} (h : List.Forall₂ (AgreeUpTo k) ds ds') :
    AgreeUpTo k (I.node inputs n labels ds) (I.node inputs n labels ds') := by
  have harg : ∀ i, AgreeUpTo k (I.arg ds i) (I.arg ds' i) := arg_agree h
  unfold node
  split
  · exact .refl k _
  · exact .refl k _
  · exact .refl k _
  · exact cons_agree (harg 0 0) (harg 1)
  · rename_i i _
    exact fun _ => harg 1 i.toNat
  · intro _ t ht
    exact delay_congr I.zero (harg 0 0) t (by omega)
  · intro _ t ht
    simp only [const, fixDelay]
    rw [harg 1 0 t ht]
    split
    · exact harg 0 0 _ (by omega)
    · rfl
  · intro _ t ht
    simp only [const, binOps]
    rw [harg 1 0 t ht, harg 2 0 t ht]
  · intro _ t ht
    simp only [const, intCasts]
    rw [harg 0 0 t ht]
  · intro _ t ht
    simp only [const, floatCasts]
    rw [harg 0 0 t ht]
  · intro _ t ht
    simp only [const, xtendeds]
    rw [heads_agree h ht]
  · exact fun _ => I.op_causal n hn k ds ds' h

/-- The stream of a signal up to a time depends on the recursions before that time. -/
lemma denote_agree {t : Tree} (ht : t.Guarded) : ∀ {ρ ρ' : List (Group V)} {k : ℕ},
    List.Forall₂ (AgreeUpTo k) ρ ρ' →
      AgreeUpTo (k + 1) (I.denote inputs ρ t) (I.denote inputs ρ' t) := by
  induction ht with
  | closed h =>
    intro ρ ρ' k _
    rw [I.denote_closed inputs h ρ ρ']
    exact .refl _ _
  | memProj i l hl =>
    intro ρ ρ' k h
    have hl' : AgreeUpTo k (ρ.getD (l.toNat - 1) I.silence) (ρ'.getD (l.toNat - 1) I.silence) :=
      arg_agree h (l.toNat - 1)
    have hden : ∀ ρ : List (Group V), I.denote inputs ρ (sigDelay1 (sigProj i (debruijnRef l))) =
        const (I.delay1 (ρ.getD (l.toNat - 1) I.silence i.toNat)) := by
      intro ρ
      rw [sigDelay1, denote_node I inputs (by decide) (by decide), List.map_singleton,
        List.map_singleton, sigProj, denote_node I inputs (by decide) (by decide), List.map_cons,
        List.map_cons, List.map_cons, List.map_singleton, denote_debruijnRef I inputs ρ hl]
      rfl
    rw [hden, hden]
    exact fun _ => delay_congr I.zero (hl' i.toNat)
  | @debruijn b _ ih =>
    intro ρ ρ' k h
    rw [denote_debruijn, denote_debruijn]
    have hcausal : ∀ ρ : List (Group V), StrictlyCausal fun G => I.denote inputs (G :: ρ) b :=
      fun ρ m g g' hg => ih (.cons hg (List.forall₂_same.mpr fun _ _ => .refl m _))
    exact (hcausal ρ).fix_congr (hcausal ρ') fun g => ih (.cons (.refl k g) h)
  | node h₁ h₂ h₃ _ ih =>
    intro ρ ρ' k h
    rw [denote_node I inputs h₁ h₂, denote_node I inputs h₁ h₂]
    refine node_agree h₃ _ ?_
    rw [List.forall₂_map_left_iff, List.forall₂_map_right_iff]
    exact List.forall₂_same.mpr fun u hu => ih u hu h

/-- The body of a recursion is a strictly causal function of the recursion. -/
lemma strictlyCausal {b : Tree} (hb : b.Guarded) (ρ : List (Group V)) :
    StrictlyCausal fun G => I.denote inputs (G :: ρ) b :=
  fun m _ _ hg => denote_agree hb (.cons hg (List.forall₂_same.mpr fun _ _ => .refl m _))

/-! ## The streams of signals -/

section
variable (I inputs) (ρ : List (Group V))

lemma stream_sigIntCast (t : Tree) :
    I.stream inputs ρ (sigIntCast t) = I.intCasts (I.stream inputs ρ t) := by
  funext t'
  unfold sigIntCast
  split
  · rename_i i _
    exact (I.intCast_int i).symm
  · rename_i x _
    exact (I.intCast_double x).symm
  · exact (I.intCast_intCast _).symm
  · rfl

lemma stream_sigFloatCast (t : Tree) :
    I.stream inputs ρ (sigFloatCast t) = I.floatCasts (I.stream inputs ρ t) := by
  funext t'
  unfold sigFloatCast
  split
  · rename_i i _
    exact (I.floatCast_int i).symm
  · rename_i x _
    exact (I.floatCast_double x).symm
  · exact (I.floatCast_floatCast _).symm
  · exact (I.floatCast_double _).symm
  · rfl

lemma stream_num {t : Tree} (ht : t.label.isNum = true) :
    I.stream inputs ρ t = fun _ => I.lit t.label := by
  obtain ⟨n, br⟩ := t
  match n with
  | .int i => rfl
  | .double x => rfl

lemma isNum_evalNodes (p : XtPrim) (ns : List Node) : (p.evalNodes libm ns).isNum = true := by
  unfold XtPrim.evalNodes Node.absNode Node.minNode Node.maxNode Node.arith
  repeat' split
  all_goals rfl

lemma stream_computeSigOutput {p : XtPrim} {ts : List Tree} (hlen : ts.length = p.arity) :
    I.stream inputs ρ (p.computeSigOutput libm ts) =
      I.xtendeds p (ts.map (I.stream inputs ρ)) := by
  unfold XtPrim.computeSigOutput
  split
  · rename_i hnum
    rw [List.all_eq_true] at hnum
    have hev : (leaf (p.evalNodes libm (ts.map label))).label.isNum = true :=
      isNum_evalNodes p _
    rw [stream_num I inputs ρ hev]
    funext t
    simp only [xtendeds, List.map_map]
    rw [leaf, label_node, ← I.xtended_lit p _ (by simpa using hnum) (by simpa using hlen),
      List.map_map]
    congr 1
    refine List.map_congr_left fun u hu => ?_
    simp only [Function.comp_apply]
    rw [stream_num I inputs ρ (hnum u hu)]
  · show I.xtendeds p (List.map _ (I.denotes inputs ρ ts)) = _
    rw [denotes_eq_map, List.map_map]
    rfl

/-- The projections of a group have its streams. -/
lemma stream_makeSigProjList (g : Tree) (n : ℕ) :
    (makeSigProjList g n).map (I.stream inputs ρ) =
      (List.range n).map (I.denote inputs ρ g) := by
  rw [makeSigProjList, List.map_map]
  refine List.map_congr_left fun i _ => ?_
  have hcast : I.stream inputs ρ (sigIntCast (sigInt 0)) = fun _ => I.lit (.int 0) := rfl
  show I.fixDelay (I.denote inputs ρ g (i : ℤ).toNat) (I.stream inputs ρ (sigIntCast (sigInt 0))) = _
  funext t
  rw [hcast, fixDelay, I.delayAmount_zero, if_pos (Nat.zero_le t), Int.toNat_natCast, Nat.sub_zero]

/-- The delayed projections of the innermost recursion. -/
lemma stream_makeMemSigProjList (G : Group V) (n : ℕ) :
    (makeMemSigProjList (debruijnRef 1) n).map (I.stream inputs (G :: ρ)) =
      (List.range n).map fun i => I.delay1 (G i) := by
  rw [makeMemSigProjList, List.map_map]
  refine List.map_congr_left fun i _ => ?_
  show I.delay1 (I.denote inputs (G :: ρ) (debruijnRef 1) (i : ℤ).toNat) = _
  rw [denote_debruijnRef I inputs _ one_pos, Int.toNat_natCast]
  rfl

/-- A list of signals denotes the group of their streams. -/
lemma denote_ofList (ts : List Tree) :
    I.denote inputs ρ (ofList ts) = I.group (ts.map (I.stream inputs ρ)) := by
  induction ts with
  | nil => rfl
  | cons t ts ih =>
    show cons (I.stream inputs ρ t) (I.denote inputs ρ (ofList ts)) = _
    rw [ih]
    rfl

/-- What refers to no recursion has the same stream everywhere. -/
lemma stream_atom {t : Tree} (ht : t.isClosed) : I.stream inputs ρ t = I.atom inputs t :=
  congrFun (I.denote_closed inputs ht ρ []) 0

end

end SigInterp

/-! ## Trees without references -/

namespace Tree

lemma isClosed_cons {a b : Tree} : (cons a b).isClosed ↔ a.isClosed ∧ b.isClosed := by
  rw [cons, isClosed_node (by decide) (by decide)]
  simp

lemma isClosed_ofList {ts : List Tree} (h : ∀ t ∈ ts, t.isClosed) : (ofList ts).isClosed := by
  induction ts with
  | nil => exact isClosed_leaf _
  | cons t ts ih =>
    exact isClosed_cons.mpr ⟨h t (by simp), ih fun u hu => h u (by simp [hu])⟩

end Tree

namespace Labels

lemma isClosed_encodeName (g : Char) (name : String) : (encodeName g name).isClosed := by
  have hgroup : ∀ kind, (groupTree kind name).isClosed := fun kind =>
    isClosed_cons.mpr ⟨isClosed_leaf _, isClosed_leaf _⟩
  unfold encodeName
  split <;> exact hgroup _

lemma isClosed_label2path (label : List Char) : ∀ t ∈ label2path label, t.isClosed := by
  fun_induction label2path label with
  | case1 => exact List.forall_mem_singleton.mpr (isClosed_leaf _)
  | case2 rest ih => exact List.forall_mem_cons.mpr ⟨isClosed_leaf _, ih⟩
  | case3 rest ih => exact ih
  | case4 rest ih => exact List.forall_mem_cons.mpr ⟨isClosed_leaf _, ih⟩
  | case5 g rest _ _ ih => exact List.forall_mem_cons.mpr ⟨isClosed_encodeName _ _, ih⟩
  | case6 label => exact List.forall_mem_singleton.mpr (isClosed_leaf _)

lemma isClosed_of_tail? {t tl : Tree} (h : tail? t = some tl) (ht : t.isClosed) :
    tl.isClosed := by
  unfold tail? at h
  split at h
  · cases h
    exact (isClosed_cons.mp ht).2
  · cases h

lemma isClosed_concatPath (relpath : List Tree) : ∀ {abspath : Tree},
    (∀ t ∈ relpath, t.isClosed) → abspath.isClosed → (concatPath relpath abspath).isClosed := by
  induction relpath with
  | nil => exact fun _ h => h
  | cons head relpath ih =>
    intro abspath hrel habs
    have hrel' : ∀ t ∈ relpath, t.isClosed := fun t ht => hrel t (by simp [ht])
    unfold concatPath
    split
    · exact ih hrel' (isClosed_leaf _)
    · split
      · split
        · exact ih hrel' (hrel head (by simp))
        · rename_i htl
          exact ih hrel' (isClosed_of_tail? htl habs)
      · split
        · exact ih hrel' habs
        · exact ih hrel' (isClosed_cons.mpr ⟨hrel head (by simp), habs⟩)

end Labels

/-- A path refers to no recursion. -/
lemma isClosed_normalizePath (path : List PathElement) : (normalizePath path).isClosed := by
  induction path with
  | nil => exact isClosed_leaf _
  | cons label path ih =>
    rw [normalizePath]
    cases label with
    | group kind name =>
      exact isClosed_cons.mpr ⟨isClosed_cons.mpr ⟨isClosed_leaf _, isClosed_leaf _⟩, ih⟩
    | label name => exact Labels.isClosed_concatPath _ (Labels.isClosed_label2path _) ih

end Faust
