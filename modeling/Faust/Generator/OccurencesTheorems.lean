import Faust.Generator.Occurences
import Faust.Signals.Subtrees
import Faust.Lib.Walk

/-!
# What the analyses find

Both traversals are walks over the positions of the graph. So each position is counted once, in
whatever order the signals are met, and the delay of each position is taken into account.
-/

namespace Faust.Occ

open Faust.Tree

/-! ## Positions -/

/-- The positions of the signals that are below a signal, or at the root. -/
def positionsOf (owner : Option Tree) (ss : List Tree) : List (Position × Tree) :=
  ss.zipIdx.map fun c => ((owner, c.2), c.1)

theorem mem_positionsOf {owner : Option Tree} {ss : List Tree} {x : Tree} {p : Position} :
    (p, x) ∈ positionsOf owner ss ↔ ∃ i, p = (owner, i) ∧ ss[i]? = some x := by
  simp only [positionsOf, List.mem_map, Prod.mk.injEq]
  constructor
  · intro h
    obtain ⟨⟨c, i⟩, hc, hp, hx⟩ := h
    refine ⟨i, hp.symm, ?_⟩
    rw [← hx]
    exact List.mem_zipIdx_iff_getElem?.1 hc
  · intro h
    obtain ⟨i, hp, hx⟩ := h
    exact ⟨(x, i), List.mem_zipIdx_iff_getElem?.2 hx, hp.symm, rfl⟩

theorem nodup_positionsOf (owner : Option Tree) (ss : List Tree) :
    (positionsOf owner ss).Nodup := by
  apply List.Nodup.map
  · intro a b hab
    simp only [Prod.mk.injEq, true_and] at hab
    exact Prod.ext hab.2 hab.1
  · exact List.Nodup.of_map Prod.snd (by rw [List.zipIdx_map_snd]; exact List.nodup_range')

section
variable (g : Graph)

/-- The positions below a signal, in the order of `sharingAnnotation`. -/
def sharingSucc (t : Tree) : List (Position × Tree) := positionsOf (some t) (children g t)

/-- The positions below a signal, in the order of `incOcc`. -/
def markSucc (t : Tree) : List (Position × Tree) :=
  match t with
  | .node (.sym .sigPrefix) [y, x] => [((some t, 1), x), ((some t, 0), y)]
  | t => sharingSucc g t

theorem markSucc_perm (t : Tree) : (markSucc g t).Perm (sharingSucc g t) := by
  unfold markSucc
  split
  · exact List.Perm.swap _ _ _
  · exact List.Perm.refl _

variable {g} {root : Tree}

/-- A walk that takes the positions below each signal, in some order. -/
structure IsWalk (g : Graph) (root : Tree) (succ : Tree → List (Position × Tree))
    (tr : List (Walk.Event Position Tree)) (seen : List Tree) : Prop where
  perm : ∀ t, (succ t).Perm (sharingSucc g t)
  walks : Walk.Walks succ [] (positionsOf none (outputs root)) tr seen

variable {succ : Tree → List (Position × Tree)} {tr : List (Walk.Event Position Tree)}
  {seen : List Tree}

theorem IsWalk.mem_seen (h : IsWalk g root succ tr seen) (t : Tree) :
    t ∈ seen ↔ Reached g root t := by
  rw [h.walks.mem_iff]
  constructor
  · intro ht
    induction ht with
    | @start x hx =>
      obtain ⟨p, t⟩ := x
      obtain ⟨i, _, ht⟩ := mem_positionsOf.1 hx
      exact .output (List.mem_of_getElem? ht)
    | @step u x _ hx ih =>
      obtain ⟨p, t⟩ := x
      obtain ⟨i, _, ht⟩ := mem_positionsOf.1 ((h.perm u).mem_iff.1 hx)
      exact .child ih (List.mem_of_getElem? ht)
  · intro ht
    induction ht with
    | @output t ht =>
      obtain ⟨i, hi⟩ := List.mem_iff_getElem?.1 ht
      exact Walk.Reach.start (x := ((none, i), t)) (mem_positionsOf.2 ⟨i, rfl, hi⟩)
    | @child u t _ ht ih =>
      obtain ⟨i, hi⟩ := List.mem_iff_getElem?.1 ht
      apply Walk.Reach.step (x := ((some u, i), t)) ih
      exact (h.perm u).mem_iff.2 (mem_positionsOf.2 ⟨i, rfl, hi⟩)

/-- All the positions. -/
theorem IsWalk.mem_positions (h : IsWalk g root succ tr seen) {p : Position} {x : Tree} :
    (p, x) ∈ positionsOf none (outputs root) ++ seen.flatMap succ ↔ IsPosition g root p x := by
  rw [List.mem_append, mem_positionsOf, List.mem_flatMap]
  obtain ⟨owner, i⟩ := p
  cases owner with
  | none =>
    constructor
    · intro hp
      rcases hp with hp | hp
      · obtain ⟨j, hj, hx⟩ := hp
        obtain rfl : i = j := (Prod.mk.inj hj).2
        exact hx
      · obtain ⟨t, _, ht⟩ := hp
        obtain ⟨j, hj, _⟩ := mem_positionsOf.1 ((h.perm t).mem_iff.1 ht)
        simp at hj
    · intro hx
      exact Or.inl ⟨i, rfl, hx⟩
  | some t =>
    constructor
    · intro hp
      rcases hp with hp | hp
      · obtain ⟨j, hj, _⟩ := hp
        simp at hj
      · obtain ⟨u, hu, hx⟩ := hp
        obtain ⟨j, hj, hx⟩ := mem_positionsOf.1 ((h.perm u).mem_iff.1 hx)
        simp only [Prod.mk.injEq, Option.some.injEq] at hj
        obtain ⟨rfl, rfl⟩ := hj
        exact ⟨(h.mem_seen t).1 hu, hx⟩
    · intro hp
      obtain ⟨ht, hx⟩ := hp
      refine Or.inr ⟨t, (h.mem_seen t).2 ht, ?_⟩
      exact (h.perm t).mem_iff.2 (mem_positionsOf.2 ⟨i, rfl, hx⟩)

theorem IsWalk.nodup_positions (h : IsWalk g root succ tr seen) :
    (positionsOf none (outputs root) ++ seen.flatMap succ).Nodup := by
  rw [List.nodup_append']
  refine ⟨nodup_positionsOf _ _, ?_, ?_⟩
  · rw [List.nodup_flatMap]
    refine ⟨fun t _ => (h.perm t).nodup_iff.2 (nodup_positionsOf _ _), ?_⟩
    apply (h.walks.nodup List.nodup_nil).imp
    intro t u htu
    rintro ⟨p, x⟩ ht hu
    obtain ⟨i, hi, _⟩ := mem_positionsOf.1 ((h.perm t).mem_iff.1 ht)
    obtain ⟨j, hj, _⟩ := mem_positionsOf.1 ((h.perm u).mem_iff.1 hu)
    rw [hi] at hj
    simp only [Prod.mk.injEq, Option.some.injEq] at hj
    exact htu hj.1
  · rintro ⟨p, x⟩ hp hx
    obtain ⟨i, hi, _⟩ := mem_positionsOf.1 hp
    obtain ⟨t, _, ht⟩ := List.mem_flatMap.1 hx
    obtain ⟨j, hj, _⟩ := mem_positionsOf.1 ((h.perm t).mem_iff.1 ht)
    rw [hi] at hj
    simp at hj

/-- The edges that are taken to a signal, and those that are done, are its positions. -/
theorem IsWalk.edges (h : IsWalk g root succ tr seen) :
    (tr.filterMap Walk.Event.start).Perm
      (positionsOf none (outputs root) ++ seen.flatMap succ) ∧
    (tr.filterMap Walk.Event.finish).Perm
      (positionsOf none (outputs root) ++ seen.flatMap succ) := by
  obtain ⟨new, hseen, hstart, hfinish⟩ := h.walks.edges
  rw [List.append_nil] at hseen
  subst hseen
  exact ⟨hstart, hfinish⟩

/-! ## The graph is finite -/

/-- The trees of the graph. -/
def treesOf (g : Graph) (root : Tree) : List Tree :=
  subtreesOf (root :: g.recDefs.map Prod.snd)

theorem mem_treesOf_of_mem {g : Graph} {root t u : Tree} (ht : t ∈ treesOf g root)
    (hu : u ∈ subtrees t) : u ∈ treesOf g root := subtreesOf_trans _ ht hu

theorem mem_treesOf_children {t c : Tree} (ht : t ∈ treesOf g root) (hc : c ∈ children g t) :
    c ∈ treesOf g root := by
  unfold children at hc
  split at hc
  · simp at hc
  · cases hss : g.getSubSignals t with
    | none => simp [hss] at hc
    | some ss =>
      rw [hss, Option.getD_some] at hc
      unfold Graph.getSubSignals at hss
      split at hss
      · -- a recursive group
        obtain ⟨d, hd, rfl⟩ := Option.map_eq_some_iff.1 hss
        obtain rfl : c = d.2 := by simpa using hc
        have hmem : d.2 ∈ root :: g.recDefs.map Prod.snd :=
          List.mem_cons_of_mem _ (List.mem_map_of_mem (List.mem_of_find?_eq_some hd))
        exact mem_subtreesOf hmem (mem_subtrees_self _)
      · exact mem_treesOf_of_mem ht (mem_subtrees_of_getSubSignals hss hc)

theorem mem_treesOf_outputs {t : Tree} (ht : t ∈ outputs root) : t ∈ treesOf g root := by
  have hroot : ∀ {u}, u ∈ subtrees root → u ∈ treesOf g root :=
    fun hu => mem_subtreesOf List.mem_cons_self hu
  unfold outputs at ht
  split at ht
  · exact hroot (mem_subtrees_listElements ht)
  · obtain rfl : t = root := by simpa using ht
    exact hroot (mem_subtrees_self t)

/-- The graph is walked in any order of the positions below each signal. -/
theorem exists_isWalk (g : Graph) (root : Tree) {succ : Tree → List (Position × Tree)}
    (h : ∀ t, (succ t).Perm (sharingSucc g t)) : ∃ tr seen, IsWalk g root succ tr seen := by
  have hclosed : ∀ t ∈ (treesOf g root).toFinset, ∀ x ∈ succ t,
      x.2 ∈ (treesOf g root).toFinset := by
    rintro t ht ⟨p, c⟩ hc
    obtain ⟨i, _, hi⟩ := mem_positionsOf.1 ((h t).mem_iff.1 hc)
    rw [List.mem_toFinset] at ht ⊢
    exact mem_treesOf_children ht (List.mem_of_getElem? hi)
  have hroot : ∀ x ∈ positionsOf none (outputs root), x.2 ∈ (treesOf g root).toFinset := by
    rintro ⟨p, c⟩ hc
    obtain ⟨i, _, hi⟩ := mem_positionsOf.1 hc
    exact List.mem_toFinset.2 (mem_treesOf_outputs (List.mem_of_getElem? hi))
  obtain ⟨tr, seen, hwalks⟩ := Walk.exists_walks _ hclosed [] _ hroot
  exact ⟨tr, seen, h, hwalks⟩

/-! ## The traversals are walks -/

/-- The recursiveness of the context of a position. -/
def recursivnessAt (g : Graph) : Position → ℕ
  | (some t, _) => g.getRecursivness t
  | (none, _) => 0

/-- What `incOcc` does at a position. -/
def markRecords (g : Graph) : Walk.Records Position Tree Occurences where
  new x := .new (g.variability x.2) (g.getRecursivness x.2)
  again x o := o.incOccurences (contextAt g x.1) (recursivnessAt g x.1) (delayAt g x.1)
  leave x o := o.incOccurences (contextAt g x.1) (recursivnessAt g x.1) (delayAt g x.1)

/-- What `sharingAnnotation` does at a position. -/
def sharingRecords (g : Graph) : Walk.Records Position Tree ℕ where
  new x := if g.variability x.2 < contextAt g x.1 then 2 else 1
  again _ count := count + 1
  leave _ count := count

/-- `incOcc` at a position. -/
def incOccAt (g : Graph) (fuel : ℕ) (x : Position × Tree) (marks : Marks) : Except Failure Marks :=
  incOcc g fuel (contextAt g x.1) (recursivnessAt g x.1) (delayAt g x.1) x.2 marks

/-- `sharingAnnotation` at a position. -/
def sharingAt (g : Graph) (fuel : ℕ) (x : Position × Tree) (sharing : Sharing) :
    Except Failure Sharing := sharingAnnotation g fuel (contextAt g x.1) x.2 sharing

/-- The signal can be analysed. -/
structure Ready (g : Graph) (t : Tree) : Prop where
  recognized : (g.getSubSignals t).isSome
  delayed : ∀ x y, t = .node (.sym .sigFixDelay) [x, y] →
    ∃ d, checkDelayInterval (g.getCertifiedSigType y) = some d ∧ 0 ≤ d
  no_delay1 : t.label ≠ .sym .sigDelay1
  no_select3 : t.label ≠ .sym .sigSelect3

theorem Prepared.ready (h : Prepared g root) {t : Tree} (ht : Reached g root t) : Ready g t where
  recognized := h.recognized t ht
  delayed x y hxy := h.delayed x y (hxy ▸ ht)
  no_delay1 hl := by
    cases t with
    | node n br =>
      obtain rfl : n = _ := hl
      exact h.no_delay1 br ht
  no_select3 hl := by
    cases t with
    | node n br =>
      obtain rfl : n = _ := hl
      exact h.no_select3 br ht

theorem foldlM_positionsOf {σ : Type} {f : σ → Position × Tree → Except Failure σ}
    {k : σ → Tree → Except Failure σ} {owner : Option Tree}
    (hf : ∀ a i c, f a ((owner, i), c) = k a c) (ss : List Tree) (a : σ) :
    (positionsOf owner ss).foldlM f a = ss.foldlM k a := by
  have hzip : ∀ start a, (ss.zipIdx start).foldlM (fun a c => f a ((owner, c.2), c.1)) a =
      ss.foldlM k a := by
    induction ss with
    | nil => exact fun _ _ => rfl
    | cons s ss ih =>
      intro start a
      rw [List.zipIdx_cons, List.foldlM_cons, List.foldlM_cons, hf]
      congr 1
      funext a
      exact ih _ a
  rw [positionsOf, List.foldlM_map]
  exact hzip 0 a

theorem children_of_getSubSignals {t : Tree} {ss : List Tree} (h : g.getSubSignals t = some ss) :
    children g t = if isSigGen t then [] else ss := by
  rw [children, h, Option.getD_some]

/-- What `sharingAnnotation` does when it first comes to a signal. -/
theorem sharingAt_first {fuel : ℕ} {x : Position × Tree} {sharing : Sharing}
    (hx : sharing x.2 = none) (hready : Ready g x.2) :
    sharingAt g (fuel + 1) x sharing =
      (sharingSucc g x.2).foldlM (fun sharing y => sharingAt g fuel y sharing)
        ((sharingRecords g).apply sharing (.enter x)) := by
  obtain ⟨p, t⟩ := x
  obtain ⟨ss, hss⟩ := Option.isSome_iff_exists.1 hready.recognized
  have hcount : ¬ getSharingCount sharing t > 0 := by
    have ht : sharing t = none := hx
    rw [getSharingCount, ht]
    simp
  show sharingAnnotation g (fuel + 1) (contextAt g p) t sharing =
    (positionsOf (some t) (children g t)).foldlM _ _
  rw [foldlM_positionsOf (k := fun sharing s => sharingAnnotation g fuel (g.variability t) s
    sharing) (fun _ _ _ => rfl), children_of_getSubSignals hss]
  rw [ sharingAnnotation]
  simp only [if_neg hcount]
  split
  · exact absurd rfl hready.no_select3
  · rw [hss]
    dsimp only
    split <;> rfl

/-- A delay only matters for the delayed operand. -/
theorem delayAt_of_ne {t : Tree} (hfix : ∀ x y, t ≠ .node (.sym .sigFixDelay) [x, y])
    (hpre : ∀ y x, t ≠ .node (.sym .sigPrefix) [y, x]) (hdelay : t.label ≠ .sym .sigDelay1)
    (i : ℕ) : delayAt g (some t, i) = 0 := by
  unfold delayAt
  split
  · next x y heq => exact absurd (Option.some.inj (Prod.mk.inj heq).1) (hfix x y)
  · next y x heq => exact absurd (Option.some.inj (Prod.mk.inj heq).1) (hpre y x)
  · next x heq =>
    rw [Option.some.inj (Prod.mk.inj heq).1] at hdelay
    exact absurd rfl hdelay
  · rfl

/-- The subtrees of a signal are marked at their positions. -/
theorem markSubtrees_eq {fuel : ℕ} {t : Tree} (hready : Ready g t) (marks : Marks) :
    markSubtrees g (incOcc g fuel) t marks =
      (markSucc g t).foldlM (fun marks y => incOccAt g fuel y marks) marks := by
  obtain ⟨ss, hss⟩ := Option.isSome_iff_exists.1 hready.recognized
  unfold markSubtrees
  dsimp only
  split
  · next x y =>
    obtain ⟨d, hd, hpos⟩ := hready.delayed x y rfl
    have hsucc : markSucc g (.node (.sym .sigFixDelay) [x, y]) =
        [((some (.node (.sym .sigFixDelay) [x, y]), 0), x),
          ((some (.node (.sym .sigFixDelay) [x, y]), 1), y)] := rfl
    have hdelay : delayAt g (some (.node (.sym .sigFixDelay) [x, y]), 0) = d := by
      show (checkDelayInterval (g.getCertifiedSigType y)).getD 0 = d
      rw [hd, Option.getD_some]
    simp only [hd, if_neg (not_lt.2 hpos), hsucc, List.foldlM_cons, List.foldlM_nil, incOccAt,
      hdelay]
    exact bind_congr fun marks => (bind_pure _).symm
  · next y x => exact bind_congr fun marks => (bind_pure _).symm
  · exact absurd rfl hready.no_select3
  · next hfix hpre _ =>
    have hsucc : markSucc g t = positionsOf (some t) (children g t) := by
      unfold markSucc
      split
      · exact absurd rfl (hpre _ _)
      · rfl
    have hdelay := delayAt_of_ne (g := g) hfix hpre hready.no_delay1
    rw [hss, hsucc, foldlM_positionsOf (k := fun marks s => incOcc g fuel (g.variability t)
      (g.getRecursivness t) 0 s marks) (fun marks i c => by rw [incOccAt, hdelay i]; rfl),
      children_of_getSubSignals hss]
    dsimp only
    split <;> rfl

/-- What `incOcc` does when it first comes to a signal. -/
theorem incOccAt_first {fuel : ℕ} {x : Position × Tree} {marks : Marks}
    (hx : marks x.2 = none) (hready : Ready g x.2) :
    incOccAt g (fuel + 1) x marks =
      ((markSucc g x.2).foldlM (fun marks y => incOccAt g fuel y marks)
        ((markRecords g).apply marks (.enter x))).map fun marks =>
          (markRecords g).apply marks (.leave x) := by
  have hnone : ¬ (marks x.2).isSome = true := by simp [hx]
  rw [incOccAt, incOcc, if_neg hnone, markSubtrees_eq hready]
  have henter : (markRecords g).apply marks (.enter x) = Function.update marks x.2
      (some (.new (g.variability x.2) (g.getRecursivness x.2))) := rfl
  rw [← henter]
  cases (markSucc g x.2).foldlM (fun marks y => incOccAt g fuel y marks)
    ((markRecords g).apply marks (.enter x)) <;> rfl

/-- `incOcc` goes along a walk. -/
theorem incOcc_follows (g : Graph) :
    Walk.Follows (markSucc g) (markRecords g) (Ready g) (fun _ => True) (incOccAt g) where
  new _ := trivial
  kept _ _ _ := ⟨trivial, trivial⟩
  again fuel x marks occ hocc _ := by
    have hsome : (marks x.2).isSome = true := by simp [hocc]
    rw [incOccAt, incOcc, if_pos hsome]
    rfl
  first _ _ _ hx hready := incOccAt_first hx hready

/-- `sharingAnnotation` goes along a walk. -/
theorem sharingAnnotation_follows (g : Graph) :
    Walk.Follows (sharingSucc g) (sharingRecords g) (Ready g) (fun count => 0 < count)
      (sharingAt g) where
  new x := by
    show 0 < if g.variability x.2 < contextAt g x.1 then 2 else 1
    split <;> decide
  kept _ count hcount := ⟨Nat.succ_pos count, hcount⟩
  again fuel x sharing count hcount hpos := by
    have hget : getSharingCount sharing x.2 = count := by rw [getSharingCount, hcount]; rfl
    rw [sharingAt, sharingAnnotation]
    simp only [hget, if_pos hpos]
    rw [Walk.Records.apply]
    simp only [Walk.Event.vertex, hcount]
    rfl
  first fuel x sharing hx hready := by
    rw [sharingAt_first hx hready]
    -- leaving a signal does not change the counts
    have hleave : (fun sharing => (sharingRecords g).apply sharing (.leave x)) = id := by
      funext sharing
      show Function.update sharing x.2 ((sharing x.2).map id) = sharing
      rw [Option.map_id, id, Function.update_eq_self]
    rw [hleave]
    cases (sharingSucc g x.2).foldlM (fun sharing y => sharingAt g fuel y sharing)
      ((sharingRecords g).apply sharing (.enter x)) <;> rfl

theorem mark_eq (fuel : ℕ) (root : Tree) : mark g fuel root =
    (positionsOf none (outputs root)).foldlM (fun marks y => incOccAt g fuel y marks)
      fun _ => none := by
  rw [foldlM_positionsOf (k := fun marks s => incOcc g fuel kSamp 0 0 s marks)
    (fun _ _ _ => rfl)]
  have hlist : ∀ (l : Tree) (marks : Marks), markList g fuel l marks =
      (listElements l).foldlM (fun marks s => incOcc g fuel kSamp 0 0 s marks) marks := by
    intro l
    induction l using Tree.induction with
    | h n br ih =>
      intro marks
      unfold markList listElements
      split
      · next hd tl heq =>
        obtain ⟨rfl, rfl⟩ := Tree.node.inj heq
        rw [List.foldlM_cons]
        exact bind_congr fun marks => ih tl (by simp) marks
      · next hne =>
        split
        · next heq => exact (hne _ _ heq).elim
        · rfl
  unfold mark outputs
  split
  · exact hlist _ _
  · exact (bind_pure _).symm

theorem sharingAnalysis_eq (fuel : ℕ) (root : Tree) : sharingAnalysis g fuel root =
    (positionsOf none (outputs root)).foldlM (fun sharing y => sharingAt g fuel y sharing)
      fun _ => none := by
  rw [foldlM_positionsOf (k := fun sharing s => sharingAnnotation g fuel kSamp s sharing)
    (fun _ _ _ => rfl)]
  have hlist : ∀ (l : Tree) (sharing : Sharing), sharingList g fuel l sharing =
      (listElements l).foldlM (fun sharing s => sharingAnnotation g fuel kSamp s sharing)
        sharing := by
    intro l
    induction l using Tree.induction with
    | h n br ih =>
      intro sharing
      unfold sharingList listElements
      split
      · next hd tl heq =>
        obtain ⟨rfl, rfl⟩ := Tree.node.inj heq
        rw [List.foldlM_cons]
        exact bind_congr fun sharing => ih tl (by simp) sharing
      · next hne =>
        split
        · next heq => exact (hne _ _ heq).elim
        · rfl
  unfold sharingAnalysis outputs
  split
  · exact hlist _ _
  · exact (bind_pure _).symm

/-! ## What is found -/

/-- The largest delay of some positions. -/
theorem getMaxDelay_foldl (rest : List (Walk.Event Position Tree))
    (hno : ∀ e ∈ rest, e.isEnter = false) (o : Occurences) :
    (rest.foldl (markRecords g).step o).getMaxDelay =
      (rest.filterMap Walk.Event.finish).foldl (fun m x => max m (delayAt g x.1))
        o.getMaxDelay := by
  induction rest generalizing o with
  | nil => rfl
  | cons e rest ih =>
    have hrest := ih fun e' he' => hno e' (List.mem_cons_of_mem e he')
    have hinc : ∀ (x : Position × Tree), (o.incOccurences (contextAt g x.1)
        (recursivnessAt g x.1) (delayAt g x.1)).getMaxDelay =
        max o.getMaxDelay (delayAt g x.1) := by
      intro x
      show (if delayAt g x.1 > o.fMaxDelay then delayAt g x.1 else o.fMaxDelay) =
        max o.fMaxDelay (delayAt g x.1)
      split <;> omega
    rw [List.foldl_cons, hrest]
    cases e with
    | enter x => exact absurd (hno _ List.mem_cons_self) (by simp [Walk.Event.isEnter])
    | again x | leave x =>
      show _ = (x :: rest.filterMap Walk.Event.finish).foldl _ _
      rw [List.foldl_cons, ← hinc x]
      rfl

theorem isGreatest_foldl_max {α : Type} (f : α → ℤ) (xs : List α) (hxs : xs ≠ [])
    (hpos : ∀ x ∈ xs, 0 ≤ f x) :
    IsGreatest {d | ∃ x ∈ xs, f x = d} (xs.foldl (fun m x => max m (f x)) 0) := by
  have hfold : ∀ (m : ℤ) (xs : List α), (m ≤ xs.foldl (fun m x => max m (f x)) m ∧
      ∀ x ∈ xs, f x ≤ xs.foldl (fun m x => max m (f x)) m) ∧
      (xs.foldl (fun m x => max m (f x)) m = m ∨
        ∃ x ∈ xs, f x = xs.foldl (fun m x => max m (f x)) m) := by
    intro m xs
    induction xs generalizing m with
    | nil => simp
    | cons x xs ih =>
      obtain ⟨⟨hm, hle⟩, hmem⟩ := ih (max m (f x))
      simp only [List.foldl_cons, List.forall_mem_cons, List.exists_mem_cons_iff]
      refine ⟨⟨by omega, by omega, hle⟩, ?_⟩
      rcases hmem with h | h
      · rw [h]
        omega
      · exact Or.inr (Or.inr h)
  obtain ⟨⟨hm, hle⟩, hmem⟩ := hfold 0 xs
  constructor
  · rcases hmem with h | h
    · -- no position is delayed
      obtain ⟨x, hx⟩ := List.exists_mem_of_ne_nil xs hxs
      have hx₀ := hle x hx
      rw [h] at hx₀
      exact ⟨x, hx, by rw [h]; exact le_antisymm hx₀ (hpos x hx)⟩
    · exact h
  · rintro d ⟨x, hx, rfl⟩
    exact hle x hx

/-- The counts of uses. -/
theorem count_foldl (rest : List (Walk.Event Position Tree))
    (hno : ∀ e ∈ rest, e.isEnter = false) (count : ℕ) :
    rest.foldl (sharingRecords g).step count =
      count + (rest.filterMap Walk.Event.start).length := by
  induction rest generalizing count with
  | nil => rfl
  | cons e rest ih =>
    rw [List.foldl_cons, ih fun e' he' => hno e' (List.mem_cons_of_mem e he')]
    cases e with
    | enter x => exact absurd (hno _ List.mem_cons_self) (by simp [Walk.Event.isEnter])
    | again x =>
      show count + 1 + _ = count + ((rest.filterMap Walk.Event.start).length + 1)
      omega
    | leave x =>
      rw [List.filterMap_cons_none rfl]
      rfl

/-- A list without repetition has two elements or more when two of them differ. -/
theorem two_le_length_iff {α : Type} [DecidableEq α] {xs : List α} (h : xs.Nodup) :
    2 ≤ xs.length ↔ ∃ x ∈ xs, ∃ y ∈ xs, x ≠ y := by
  rw [← List.toFinset_card_of_nodup h]
  show 1 < xs.toFinset.card ↔ _
  rw [Finset.one_lt_card]
  simp only [List.mem_toFinset]

theorem delayAt_nonneg (h : Prepared g root) {p : Position} {x : Tree}
    (hp : IsPosition g root p x) : 0 ≤ delayAt g p := by
  unfold delayAt
  split
  · next t y =>
    obtain ⟨d, hd, hpos⟩ := h.delayed _ _ hp.1
    rw [hd]
    exact hpos
  · decide
  · decide
  · decide

/-- The delays that are in the interval of the amount are at most what is recorded. -/
theorem delayedBy_le (h : Prepared g root) {p : Position} {x : Tree}
    (hp : IsPosition g root p x) {n : ℤ} (hn : DelayedBy g p n) : 0 ≤ n ∧ n ≤ delayAt g p := by
  unfold DelayedBy at hn
  split at hn
  · next t y =>
    obtain ⟨d, hd, hpos⟩ := h.delayed _ _ hp.1
    have hdelay : delayAt g (some (.node (.sym .sigFixDelay) [t, y]), 0) = d := by
      show (checkDelayInterval (g.getCertifiedSigType y)).getD 0 = d
      rw [hd, Option.getD_some]
    rw [hdelay]
    unfold checkDelayInterval at hd
    dsimp only at hd
    split at hd
    · next hvalid =>
      split at hd
      · -- `n` is at most `hi`, and an integer
        obtain ⟨hlo, hhi⟩ := hn
        have hn₀ : (0 : ℚ) ≤ n := le_trans hvalid.2 hlo
        have hhalf : (n : ℚ) ≤ (g.getCertifiedSigType y).fields.interval.hi + 1 / 2 := by linarith
        have htrunc : truncInt ((g.getCertifiedSigType y).fields.interval.hi + 1 / 2) =
            ⌊(g.getCertifiedSigType y).fields.interval.hi + 1 / 2⌋ := if_pos (by linarith)
        rw [htrunc] at hd
        rw [← Option.some.inj hd]
        exact ⟨by exact_mod_cast hn₀, Int.le_floor.2 hhalf⟩
      · simp at hd
    · -- the interval would be refused
      have hd₁ : (-1 : ℤ) = d := Option.some.inj hd
      omega
  · rw [hn]
    exact ⟨delayAt_nonneg h hp, le_refl _⟩

/-- `mark` records the maximum delay of the signals that are reached, and only of these. -/
theorem mark_analysed (h : Prepared g root) : ∃ marks,
    (∃ n, ∀ fuel ≥ n, mark g fuel root = .ok marks) ∧
      (∀ x, (marks x).isSome = true ↔ Reached g root x) ∧ ∀ x occ, marks x = some occ →
        IsGreatest {d | ∃ p, IsPosition g root p x ∧ delayAt g p = d} occ.getMaxDelay := by
  obtain ⟨tr, seen, hwalk⟩ := exists_isWalk g root (markSucc_perm g)
  have hempty : ∀ t, ((fun _ => none : Marks) t).isSome ↔ t ∈ ([] : List Tree) := by simp
  obtain ⟨n, hn⟩ := (incOcc_follows g).walks hwalk.walks
    (fun t ht => h.ready ((hwalk.mem_seen t).1 ht)) hempty (by simp)
  have hdom : ∀ x, (tr.foldl (markRecords g).apply (fun _ => none) x).isSome ↔
      Reached g root x := by
    intro x
    rw [hwalk.walks.isSome (markRecords g) (by simp) x, hwalk.mem_seen x]
  refine ⟨_, ⟨n, fun fuel hfuel => (mark_eq fuel root).trans (hn fuel hfuel)⟩, hdom, ?_⟩
  intro x occ hocc
  have hx : x ∈ seen := by
    rw [hwalk.mem_seen, ← hdom, hocc]
    rfl
  obtain ⟨e, rest, hno, _, hfinish, hrecord⟩ := hwalk.walks.record (markRecords g) hx
  obtain rfl := Option.some.inj (hocc.symm.trans hrecord)
  -- the positions of `x`
  have hmem : ∀ p, (p, x) ∈ rest.filterMap Walk.Event.finish ↔ IsPosition g root p x := by
    intro p
    rw [← hfinish, List.mem_filter, hwalk.edges.2.mem_iff, hwalk.mem_positions]
    simp
  have hvertex : ∀ y ∈ rest.filterMap Walk.Event.finish, y.2 = x := by
    intro y hy
    rw [← hfinish] at hy
    simpa using (List.mem_filter.1 hy).2
  have hne : rest.filterMap Walk.Event.finish ≠ [] := by
    obtain ⟨p, hp⟩ : ∃ p, IsPosition g root p x := by
      cases (hwalk.mem_seen x).1 hx with
      | output ht =>
        obtain ⟨i, hi⟩ := List.mem_iff_getElem?.1 ht
        exact ⟨(none, i), hi⟩
      | @child u _ hu ht =>
        obtain ⟨i, hi⟩ := List.mem_iff_getElem?.1 ht
        exact ⟨(some u, i), hu, hi⟩
    exact List.ne_nil_of_mem ((hmem p).2 hp)
  rw [getMaxDelay_foldl rest hno]
  have hgreatest := isGreatest_foldl_max (fun y : Position × Tree => delayAt g y.1) _ hne (by
    intro y hy
    obtain ⟨p, t⟩ := y
    obtain rfl : t = x := hvertex _ hy
    exact delayAt_nonneg h ((hmem p).1 hy))
  have hset : {d | ∃ p, IsPosition g root p x ∧ delayAt g p = d} =
      {d | ∃ y ∈ rest.filterMap Walk.Event.finish, delayAt g y.1 = d} := by
    ext d
    constructor
    · rintro ⟨p, hp, hd⟩
      exact ⟨(p, x), (hmem p).2 hp, hd⟩
    · rintro ⟨y, hy, hd⟩
      obtain ⟨p, t⟩ := y
      obtain rfl : t = x := hvertex _ hy
      exact ⟨p, (hmem p).1 hy, hd⟩
  rw [hset]
  exact hgreatest

/-- `sharingAnalysis` finds the signals that are at two positions, or in a faster context. -/
theorem sharingAnalysis_analysed (h : Prepared g root) : ∃ sharing,
    (∃ n, ∀ fuel ≥ n, sharingAnalysis g fuel root = .ok sharing) ∧
      ∀ x, Reached g root x → 0 < getSharingCount sharing x ∧ (2 ≤ getSharingCount sharing x ↔
        (∃ p q, p ≠ q ∧ IsPosition g root p x ∧ IsPosition g root q x) ∨
          ∃ p, IsPosition g root p x ∧ g.variability x < contextAt g p) := by
  obtain ⟨tr, seen, hwalk⟩ := exists_isWalk g root (fun t => List.Perm.refl (sharingSucc g t))
  have hempty : ∀ t, ((fun _ => none : Sharing) t).isSome ↔ t ∈ ([] : List Tree) := by simp
  obtain ⟨n, hn⟩ := (sharingAnnotation_follows g).walks hwalk.walks
    (fun t ht => h.ready ((hwalk.mem_seen t).1 ht)) hempty (by simp)
  refine ⟨_, ⟨n, fun fuel hfuel => (sharingAnalysis_eq fuel root).trans (hn fuel hfuel)⟩, ?_⟩
  intro x hx
  obtain ⟨e, rest, hno, hstart, _, hrecord⟩ :=
    hwalk.walks.record (sharingRecords g) ((hwalk.mem_seen x).2 hx)
  have hcount : getSharingCount (tr.foldl (sharingRecords g).apply fun _ => none) x =
      (if g.variability e.2 < contextAt g e.1 then 2 else 1) +
        (rest.filterMap Walk.Event.start).length := by
    rw [getSharingCount, hrecord, Option.getD_some, count_foldl rest hno]
    rfl
  -- the positions of `x`
  have hnodup : (e :: rest.filterMap Walk.Event.start).Nodup := by
    rw [← hstart]
    exact ((hwalk.edges.1.nodup_iff).2 hwalk.nodup_positions).filter _
  have hmem : ∀ p, (p, x) ∈ e :: rest.filterMap Walk.Event.start ↔ IsPosition g root p x := by
    intro p
    rw [← hstart, List.mem_filter, hwalk.edges.1.mem_iff, hwalk.mem_positions]
    simp
  have hvertex : ∀ y ∈ e :: rest.filterMap Walk.Event.start, y.2 = x := by
    intro y hy
    rw [← hstart] at hy
    simpa using (List.mem_filter.1 hy).2
  have hex : e.2 = x := hvertex e List.mem_cons_self
  have htwo : 2 ≤ (e :: rest.filterMap Walk.Event.start).length ↔
      ∃ p q, p ≠ q ∧ IsPosition g root p x ∧ IsPosition g root q x := by
    rw [two_le_length_iff hnodup]
    constructor
    · rintro ⟨⟨p, t⟩, hy, ⟨q, u⟩, hz, hne⟩
      obtain rfl : t = x := hvertex _ hy
      obtain rfl : u = t := hvertex _ hz
      exact ⟨p, q, fun hpq => hne (by rw [hpq]), (hmem p).1 hy, (hmem q).1 hz⟩
    · rintro ⟨p, q, hne, hp, hq⟩
      exact ⟨(p, x), (hmem p).2 hp, (q, x), (hmem q).2 hq, fun hpq => hne (Prod.mk.inj hpq).1⟩
  have hepos : IsPosition g root e.1 x := by
    apply (hmem e.1).1
    rw [← hex]
    exact List.mem_cons_self
  rw [hcount, ← htwo, List.length_cons, hex]
  refine ⟨by split <;> omega, ?_, ?_⟩
  · intro hle
    by_cases hfast : g.variability x < contextAt g e.1
    · exact Or.inr ⟨e.1, hepos, hfast⟩
    · rw [if_neg hfast] at hle
      exact Or.inl (by omega)
  · intro hor
    rcases hor with hlen | ⟨p, hp, hfast⟩
    · split <;> omega
    · rcases List.mem_cons.1 ((hmem p).2 hp) with heq | hrest
      · rw [← heq, if_pos hfast]
        omega
      · have hlen := List.length_pos_of_mem hrest
        split <;> omega

/-- The analyses of a graph give what is expected of them. -/
theorem analyses_ok (g : Graph) (root : Tree) (h : Prepared g root) :
    ∃ n, ∀ fuel ≥ n, ∃ marks sharing, mark g fuel root = .ok marks ∧
      sharingAnalysis g fuel root = .ok sharing ∧ Analysed g root marks sharing := by
  obtain ⟨marks, ⟨n₁, hmark⟩, hdom, hmax⟩ := mark_analysed h
  obtain ⟨sharing, ⟨n₂, hsharing⟩, hshared⟩ := sharingAnalysis_analysed h
  refine ⟨max n₁ n₂, fun fuel hfuel => ⟨marks, sharing, hmark fuel (le_trans (le_max_left _ _)
    hfuel), hsharing fuel (le_trans (le_max_right _ _) hfuel), ?_, ?_,
    fun x hx => (hshared x hx).2⟩⟩
  · intro x hx
    obtain ⟨occ, hocc⟩ := Option.isSome_iff_exists.1 ((hdom x).2 hx)
    exact ⟨occ, hocc, hmax x occ hocc⟩
  · intro x occ hocc p hp n hn
    obtain ⟨hn₀, hle⟩ := delayedBy_le h hp hn
    exact ⟨hn₀, hle.trans ((hmax x occ hocc).2 ⟨p, hp, rfl⟩)⟩

/-- A list of signals that holds the outputs and what is below its signals holds the graph. -/
theorem Reached.mem_of_closed {ts : List Tree} (hroot : ∀ t ∈ outputs root, t ∈ ts)
    (hbelow : ∀ t ∈ ts, ∀ c ∈ children g t, c ∈ ts) {t : Tree} (ht : Reached g root t) :
    t ∈ ts := by
  induction ht with
  | output h => exact hroot _ h
  | child _ h ih => exact hbelow _ ih _ h

end

/-- The signal `X[0]@1`, where `X` is the group of this signal alone. -/
def delayedLoop : Tree :=
  .node (.sym .sigFixDelay) [sigProj 0 (symRef (.user "X")), sigInt 1]

/-- The graph of this signal. -/
def loopGraph : Graph where
  recDefs := [(symRef (.user "X"), ofList [delayedLoop])]
  getCertifiedSigType t :=
    if t = sigInt 1 then .simple ⟨.kInt, kKonst, kComp, kVect, kNum, .point 1⟩ else TREC
  getRecursivness _ := 0

theorem loopGraph_prepared : Prepared loopGraph (ofList [delayedLoop]) := by
  have hmem : ∀ t, Reached loopGraph (ofList [delayedLoop]) t →
      t ∈ [delayedLoop, sigProj 0 (symRef (.user "X")), sigInt 1, symRef (.user "X"),
        ofList [delayedLoop], nil] := fun t ht => ht.mem_of_closed (by decide) (by decide)
  constructor
  · intro t ht
    have hall : ∀ t ∈ [delayedLoop, sigProj 0 (symRef (.user "X")), sigInt 1,
        symRef (.user "X"), ofList [delayedLoop], nil], (loopGraph.getSubSignals t).isSome := by
      decide
    exact hall t (hmem t ht)
  · intro x y hxy
    have hy : y = sigInt 1 := by
      have h := hmem _ hxy
      simp [delayedLoop, sigProj, symRef, sigInt, leaf, ofList, cons, nil] at h
      exact h.2
    subst hy
    exact ⟨1, by decide +kernel, by decide⟩
  · intro br hbr
    have h := hmem _ hbr
    simp [delayedLoop, sigProj, symRef, sigInt, leaf, ofList, cons, nil] at h
  · intro br hbr
    have h := hmem _ hbr
    simp [delayedLoop, sigProj, symRef, sigInt, leaf, ofList, cons, nil] at h

/-- The analyses of the loop. -/
theorem analyses_ok_loop : ∃ n, ∀ fuel ≥ n, ∃ marks sharing,
    mark loopGraph fuel (ofList [delayedLoop]) = .ok marks ∧
      sharingAnalysis loopGraph fuel (ofList [delayedLoop]) = .ok sharing ∧
        Analysed loopGraph (ofList [delayedLoop]) marks sharing := by
  exact analyses_ok _ _ loopGraph_prepared

end Faust.Occ
