import Faust.Propagate.SemanticsTheorems

/-!
# The signals of a diagram are its streams

`Meets` says that the signals `r` are the meaning of a box fed with the signals `lsig`:
whatever the enclosing recursions are, the diagram relates the streams of `lsig` to the
streams of `r` and to no others. Each rule of `Propagates` preserves it.
-/

namespace Faust

open Faust.Tree

/-- Every slot of the box is in `slots` or bound by an abstraction around it. -/
def Box.SlotsBound : List ℤ → Box → Prop
  | slots, .slot id => id ∈ slots
  | slots, .symbolic id body => body.SlotsBound (id :: slots)
  | slots, .group _ _ b => b.SlotsBound slots
  | slots, .seq a b | slots, .par a b | slots, .split a b | slots, .merge a b
  | slots, .recur a b => a.SlotsBound slots ∧ b.SlotsBound slots
  | _, _ => True

/-- No primitive of the box makes a table. -/
def Box.TableFree : Box → Prop
  | .prim3 .sigReadOnlyTable => False
  | .prim5 .sigWriteReadTable => False
  | .symbolic _ b | .group _ _ b => b.TableFree
  | .seq a b | .par a b | .split a b | .merge a b | .recur a b => a.TableFree ∧ b.TableFree
  | _ => True

attribute [local simp] Diagram Box.generators SigInterp.atoms

section
variable {libm : Libm} {V : Type} {I : SigInterp libm V} {inputs : ℕ → ℕ → ℚ}

/-! ## Widths of a diagram -/

/-- A diagram relates as many streams as the box has inputs and outputs. -/
lemma Diagram.length {box : Box} : ∀ {m n : ℕ} {σ : SlotStreams V} {path : List PathElement}
    {xs ys : List (Stream V)}, HasBoxType box m n → Diagram I inputs box σ path xs ys →
      xs.length = m ∧ ys.length = n := by
  induction box with
  | xtended p | ffun ff =>
    rintro m n σ path xs ys ht ⟨hxs, rfl⟩
    cases ht
    exact ⟨hxs, rfl⟩
  | int _ | real _ | waveform _ | fconst _ | fvar _ | button _ | checkbox _ | vslider _ _
  | hslider _ _ | numEntry _ _ =>
    rintro m n σ path xs ys ht ⟨rfl, rfl⟩
    cases ht
    exact ⟨rfl, rfl⟩
  | cut =>
    rintro m n σ path xs ys ht ⟨hxs, rfl⟩
    cases ht
    exact ⟨hxs, rfl⟩
  | wire =>
    rintro m n σ path xs ys ht ⟨hxs, rfl⟩
    cases ht
    exact ⟨hxs, hxs⟩
  | slot id =>
    rintro m n σ path xs ys ht ⟨rfl, x, -, rfl⟩
    cases ht
    exact ⟨rfl, rfl⟩
  | symbolic slot body ih =>
    rintro m n σ path xs ys ht ⟨x, xs', rfl, h⟩
    obtain ⟨u, rfl, hb⟩ := ht.symbolic_inv
    obtain ⟨hxs, hys⟩ := ih hb h
    exact ⟨by simp [hxs], hys⟩
  | patternVar _ | environment | other _ => exact fun _ h => h.elim
  | prim0 p => cases p
  | prim1 _ | vbargraph _ _ _ | hbargraph _ _ _ =>
    rintro m n σ path xs ys ht ⟨x, rfl, rfl⟩
    cases ht
    exact ⟨rfl, rfl⟩
  | prim2 _ =>
    rintro m n σ path xs ys ht ⟨x, y, rfl, rfl⟩
    cases ht
    exact ⟨rfl, rfl⟩
  | prim3 _ =>
    rintro m n σ path xs ys ht ⟨x, y, z, rfl, rfl⟩
    cases ht
    exact ⟨rfl, rfl⟩
  | prim4 _ =>
    rintro m n σ path xs ys ht ⟨x, y, z, u, rfl, rfl⟩
    cases ht
    exact ⟨rfl, rfl⟩
  | prim5 _ =>
    rintro m n σ path xs ys ht ⟨x, y, z, u, v, rfl, rfl⟩
    cases ht
    exact ⟨rfl, rfl⟩
  | group kind label b ih => exact fun ht h => ih ht.group_inv h
  | seq a b iha ihb =>
    rintro m n σ path xs ys ht ⟨zs, ha, hb⟩
    obtain ⟨k, hta, htb⟩ := ht.seq_inv
    exact ⟨(iha hta ha).1, (ihb htb hb).2⟩
  | par a b iha ihb =>
    rintro m n σ path xs ys ht ⟨xs₁, xs₂, ys₁, ys₂, rfl, rfl, ha, hb⟩
    obtain ⟨m₁, n₁, m₂, n₂, hta, htb, rfl, rfl⟩ := ht.par_inv
    obtain ⟨hxs₁, hys₁⟩ := iha hta ha
    obtain ⟨hxs₂, hys₂⟩ := ihb htb hb
    simp [hxs₁, hxs₂, hys₁, hys₂]
  | split a b iha ihb =>
    rintro m n σ path xs ys ht ⟨zs, ws, ha, hb, -⟩
    obtain ⟨v, x, hta, htb, -⟩ := ht.split_inv
    exact ⟨(iha hta ha).1, (ihb htb hb).2⟩
  | merge a b iha ihb =>
    rintro m n σ path xs ys ht ⟨zs, ws, ha, hb, -⟩
    obtain ⟨v, x, hta, htb, -⟩ := ht.merge_inv
    exact ⟨(iha hta ha).1, (ihb htb hb).2⟩
  | recur a b iha ihb =>
    rintro m n σ path xs ys ht ⟨fb, zs, -, hb, ha⟩
    obtain ⟨u, x, y, hta, htb, -, hu⟩ := ht.recur_inv
    obtain ⟨hzs, hys⟩ := iha hta ha
    obtain ⟨-, hzs'⟩ := ihb htb hb
    rw [List.length_append, hzs'] at hzs
    exact ⟨by omega, hys⟩

/-! ## Signals that are the meaning of a box -/

/-- The streams of the signals in the slots. -/
def SigInterp.slotStreams (I : SigInterp libm V) (inputs : ℕ → ℕ → ℚ) (ρ : List (Group V))
    (slotenv : SlotEnv) : SlotStreams V := slotenv.map fun p => (p.1, I.stream inputs ρ p.2)

/-- The signals `r` are the meaning of the box fed with the signals `lsig`. -/
structure Meets (I : SigInterp libm V) (inputs : ℕ → ℕ → ℚ) (slotenv : SlotEnv)
    (path : List PathElement) (box : Box) (lsig r : List Tree) : Prop where
  causal : ∀ t ∈ r, t.CausalSignal
  diagram : ∀ ρ ys, Diagram I inputs box (I.slotStreams inputs ρ slotenv) path
    (lsig.map (I.stream inputs ρ)) ys ↔ ys = r.map (I.stream inputs ρ)

variable {slotenv : SlotEnv} {path : List PathElement}

/-- A box whose only output is `t`. -/
lemma Meets.of_single {box : Box} {lsig : List Tree} {t : Tree} (hc : t.CausalSignal)
    (h : ∀ ρ ys, Diagram I inputs box (I.slotStreams inputs ρ slotenv) path
      (lsig.map (I.stream inputs ρ)) ys ↔ ys = [I.stream inputs ρ t]) :
    Meets I inputs slotenv path box lsig [t] :=
  ⟨List.forall_mem_singleton.mpr hc, h⟩

/-- A box without inputs whose only output refers to no recursion. -/
lemma Meets.of_atom {box : Box} {t : Tree} (hc : t.isClosed) (hs : t.IsSignal)
    (h : ∀ σ ys, Diagram I inputs box σ path [] ys ↔ [] = ([] : List (Stream V)) ∧
      ys = [I.atom inputs t]) : Meets I inputs slotenv path box [] [t] := by
  refine .of_single ⟨.closed hc, hs⟩ fun ρ ys => ?_
  rw [I.stream_atom inputs ρ hc, List.map_nil, h]
  simp

/-! ## Boxes without parts -/

lemma causalSignal_num {n : Node} (hn : n.isNum = true) : (leaf n).CausalSignal := by
  refine ⟨guarded_leaf n, ?_, ?_, ?_⟩ <;>
  · intro heq
    rw [leaf, label_node] at heq
    rw [heq] at hn
    cases hn

lemma causalSignal_computeSigOutput (p : XtPrim) {ts : List Tree}
    (hts : ∀ t ∈ ts, t.CausalSignal) : (p.computeSigOutput libm ts).CausalSignal := by
  unfold XtPrim.computeSigOutput
  split
  · exact causalSignal_num (SigInterp.isNum_evalNodes p _)
  · exact .node (by simp) (by simp) (by simp) (by simp) fun t ht => (hts t ht).guarded

lemma causalSignal_sigIntCast {t : Tree} (ht : t.CausalSignal) : (sigIntCast t).CausalSignal := by
  unfold sigIntCast
  split
  · exact ht
  · exact causalSignal_num rfl
  · exact ht
  · exact .node (by decide) (by decide) (by decide) (by decide) (by simpa using ht.guarded)

lemma causalSignal_sigFloatCast {t : Tree} (ht : t.CausalSignal) :
    (sigFloatCast t).CausalSignal := by
  unfold sigFloatCast
  split
  · exact causalSignal_num rfl
  · exact ht
  · exact ht
  · exact ht
  · exact .node (by decide) (by decide) (by decide) (by decide) (by simpa using ht.guarded)

lemma causalSignal_sigBinOp (op : BinOp) {x y : Tree} (hx : x.CausalSignal)
    (hy : y.CausalSignal) : (sigBinOp op x y).CausalSignal :=
  .node (by decide) (by decide) (by decide) (by decide)
    (by simpa using ⟨guarded_leaf _, hx.guarded, hy.guarded⟩)

lemma causalSignal_sigSelect2 {s x y : Tree} (hs : s.CausalSignal) (hx : x.CausalSignal)
    (hy : y.CausalSignal) : (sigSelect2 s x y).CausalSignal :=
  .node (by decide) (by decide) (by decide) (by decide)
    (by simpa using ⟨(causalSignal_sigIntCast hs).guarded, hx.guarded, hy.guarded⟩)

/-- A table whose generator refers to no recursion. -/
lemma causalSignal_sigTable {n init : Tree} (hn : n.CausalSignal) (hinit : init.isClosed) :
    (sigTable .nil n (sigGen init)).CausalSignal := by
  have hgen : (sigGen init).isClosed := by
    rw [sigGen, isClosed_node (by decide) (by decide)]
    simpa using hinit
  exact .node (by decide) (by decide) (by decide) (by decide)
    (by simpa using ⟨guarded_leaf _, hn.guarded, .closed hgen⟩)

lemma stream_sigSelect2 (ρ : List (Group V)) {s x y : Tree} (hs : s.CausalSignal)
    (hx : x.CausalSignal) (hy : y.CausalSignal) : I.stream inputs ρ (sigSelect2 s x y) =
      I.select2 (I.stream inputs ρ s) (I.stream inputs ρ x) (I.stream inputs ρ y) := by
  show I.op _ [I.denote inputs ρ (sigIntCast s), I.denote inputs ρ x, I.denote inputs ρ y] = _
  rw [I.denote_eq_const inputs (causalSignal_sigIntCast hs).isSignal,
    I.denote_eq_const inputs hx.isSignal, I.denote_eq_const inputs hy.isSignal,
    I.stream_sigIntCast]
  rfl

lemma stream_sigTable (ρ : List (Group V)) {n init : Tree} (hn : n.CausalSignal)
    (hinit : init.CausalSignal) : I.stream inputs ρ (sigTable .nil n (sigGen init)) =
      I.table (I.stream inputs ρ n) (I.stream inputs ρ init) := by
  have hgen : I.denote inputs ρ (sigGen init) =
      SigInterp.const (I.op (.sym .sigGen) [I.denote inputs ρ init]) := rfl
  show I.op _ [I.denote inputs ρ .nil, I.denote inputs ρ n, I.denote inputs ρ (sigGen init)] = _
  rw [hgen, I.denote_eq_const inputs hn.isSignal, I.denote_eq_const inputs hinit.isSignal]
  rfl

lemma stream_sigRDTbl (ρ : List (Group V)) {t i : Tree} (ht : t.CausalSignal)
    (hi : i.CausalSignal) : I.stream inputs ρ (sigRDTbl t i) =
      I.readTable (I.stream inputs ρ t) (I.stream inputs ρ i) := by
  show I.op _ [I.denote inputs ρ t, I.denote inputs ρ i] = _
  rw [I.denote_eq_const inputs ht.isSignal, I.denote_eq_const inputs hi.isSignal]
  rfl

/-- The primitives of one argument. -/
lemma Meets.prim1 (p : Prim1) {x : Tree} (hx : x.CausalSignal) :
    Meets I inputs slotenv path (.prim1 p) [x] [p.apply x] := by
  have hstream : ∀ ρ, I.stream inputs ρ (p.apply x) = p.meaning I (I.stream inputs ρ x) := by
    intro ρ
    cases p with
    | sigDelay1 => rfl
    | sigIntCast => exact I.stream_sigIntCast inputs ρ x
    | sigFloatCast => exact I.stream_sigFloatCast inputs ρ x
  refine .of_single ?_ fun ρ ys => ?_
  · cases p with
    | sigDelay1 =>
      exact .node (by decide) (by decide) (by decide) (by decide) (by simpa using hx.guarded)
    | sigIntCast => exact causalSignal_sigIntCast hx
    | sigFloatCast => exact causalSignal_sigFloatCast hx
  · rw [hstream]
    simp [Diagram]

/-- The primitives of two arguments. -/
lemma Meets.prim2 (p : Prim2) {x y : Tree} (hx : x.CausalSignal) (hy : y.CausalSignal) :
    Meets I inputs slotenv path (.prim2 p) [x, y] [p.apply x y] := by
  have hstream : ∀ ρ, I.stream inputs ρ (p.apply x y) =
      p.meaning I (I.stream inputs ρ x) (I.stream inputs ρ y) := by
    intro ρ
    have hcx := I.denote_eq_const inputs hx.isSignal ρ
    have hcy := I.denote_eq_const inputs hy.isSignal ρ
    cases p with
    | sigBinOp op => rfl
    | sigPrefix =>
      show I.op _ [I.denote inputs ρ x, I.denote inputs ρ y] = _
      rw [hcx, hcy]
      rfl
    | sigFixDelay =>
      show I.fixDelay _ (I.stream inputs ρ (sigIntCast y)) = _
      rw [I.stream_sigIntCast]
      rfl
    | sigAttach =>
      show I.op _ [I.denote inputs ρ x, I.denote inputs ρ y] = _
      rw [hcx, hcy]
      rfl
  refine .of_single ?_ fun ρ ys => ?_
  · cases p with
    | sigBinOp op => exact causalSignal_sigBinOp op hx hy
    | sigPrefix | sigAttach =>
      exact .node (by decide) (by decide) (by decide) (by decide)
        (by simpa using ⟨hx.guarded, hy.guarded⟩)
    | sigFixDelay =>
      exact .node (by decide) (by decide) (by decide) (by decide)
        (by simpa using ⟨hx.guarded, (causalSignal_sigIntCast hy).guarded⟩)
  · rw [hstream]
    simp [Diagram]

/-- The primitives of three arguments. -/
lemma Meets.prim3 (p : Prim3) {x y z : Tree} (hx : x.CausalSignal) (hy : y.CausalSignal)
    (hz : z.CausalSignal) (hG : ∀ t ∈ Box.generators (.prim3 p) [x, y, z], t.isClosed) :
    Meets I inputs slotenv path (.prim3 p) [x, y, z] [p.apply x y z] := by
  have hstream : ∀ ρ, I.stream inputs ρ (p.apply x y z) =
      p.meaning I (I.stream inputs ρ x) (I.stream inputs ρ y) (I.stream inputs ρ z) := by
    intro ρ
    cases p with
    | sigReadOnlyTable =>
      have htbl := causalSignal_sigTable hx (hG y (by simp [Box.generators]))
      rw [Prim3.apply, sigReadOnlyTable, stream_sigRDTbl ρ htbl hz, stream_sigTable ρ hx hy]
      rfl
    | sigSelect2 => exact stream_sigSelect2 ρ hx hy hz
  refine .of_single ?_ fun ρ ys => ?_
  · cases p with
    | sigReadOnlyTable =>
      have htbl := causalSignal_sigTable hx (hG y (by simp [Box.generators]))
      exact .node (by decide) (by decide) (by decide) (by decide)
        (by simpa using ⟨htbl.guarded, hz.guarded⟩)
    | sigSelect2 => exact causalSignal_sigSelect2 hx hy hz
  · rw [hstream]
    simp [Diagram]

/-- The primitives of four arguments. -/
lemma Meets.prim4 (p : Prim4) {x y z u : Tree} (hx : x.CausalSignal) (hy : y.CausalSignal)
    (hz : z.CausalSignal) (hu : u.CausalSignal) :
    Meets I inputs slotenv path (.prim4 p) [x, y, z, u] [p.apply x y z u] := by
  have hsel : ∀ i, (sigBinOp .kEQ (sigIntCast x) (sigInt i)).CausalSignal := fun i =>
    causalSignal_sigBinOp .kEQ (causalSignal_sigIntCast hx) (causalSignal_num rfl)
  have hselect : ∀ ρ i, I.stream inputs ρ (sigBinOp .kEQ (sigIntCast x) (sigInt i)) =
      I.binOps BinOp.kEQ.opcode (I.intCasts (I.stream inputs ρ x)) fun _ => I.lit (.int i) := by
    intro ρ i
    rw [← I.stream_sigIntCast]
    rfl
  have hstream : ∀ ρ, I.stream inputs ρ (p.apply x y z u) = p.meaning I (I.stream inputs ρ x)
      (I.stream inputs ρ y) (I.stream inputs ρ z) (I.stream inputs ρ u) := by
    intro ρ
    cases p with
    | sigSelect3 =>
      rw [Prim4.apply, sigSelect3, stream_sigSelect2 ρ (hsel 0)
        (causalSignal_sigSelect2 (hsel 1) hu hz) hy, stream_sigSelect2 ρ (hsel 1) hu hz,
        hselect, hselect]
      rfl
  refine .of_single ?_ fun ρ ys => ?_
  · cases p with
    | sigSelect3 => exact causalSignal_sigSelect2 (hsel 0) (causalSignal_sigSelect2 (hsel 1) hu hz) hy
  · rw [hstream]
    simp [Diagram]

/-- The primitives of five arguments. -/
lemma Meets.prim5 (p : Prim5) {x y z u v : Tree} (hx : x.CausalSignal) (hy : y.CausalSignal)
    (hz : z.CausalSignal) (hu : u.CausalSignal) (hv : v.CausalSignal)
    (hG : ∀ t ∈ Box.generators (.prim5 p) [x, y, z, u, v], t.isClosed) :
    Meets I inputs slotenv path (.prim5 p) [x, y, z, u, v] [p.apply x y z u v] := by
  cases p with
  | sigWriteReadTable =>
    have htbl := causalSignal_sigTable hx (hG y (by simp [Box.generators]))
    have hwr : (sigWRTbl .nil (sigTable .nil x (sigGen y)) z u).CausalSignal :=
      .node (by decide) (by decide) (by decide) (by decide)
        (by simpa using ⟨guarded_leaf _, htbl.guarded, hz.guarded, hu.guarded⟩)
    have hstream : ∀ ρ, I.stream inputs ρ (Prim5.sigWriteReadTable.apply x y z u v) =
        Prim5.sigWriteReadTable.meaning I (I.stream inputs ρ x) (I.stream inputs ρ y)
          (I.stream inputs ρ z) (I.stream inputs ρ u) (I.stream inputs ρ v) := by
      intro ρ
      rw [Prim5.apply, sigWriteReadTable, stream_sigRDTbl ρ hwr hv]
      show I.readTable (I.op _ [I.denote inputs ρ .nil, I.denote inputs ρ (sigTable .nil x (sigGen y)),
        I.denote inputs ρ z, I.denote inputs ρ u]) _ = _
      rw [I.denote_eq_const inputs htbl.isSignal, I.denote_eq_const inputs hz.isSignal,
        I.denote_eq_const inputs hu.isSignal, stream_sigTable ρ hx hy]
      rfl
    refine .of_single (.node (by decide) (by decide) (by decide) (by decide)
      (by simpa using ⟨hwr.guarded, hv.guarded⟩)) fun ρ ys => ?_
    rw [hstream]
    simp [Diagram]

/-- The bargraphs. -/
lemma Meets.bargraph {box : Box} {s : Sym} {label : String} {min max : Node} {x : Tree}
    (hs : s = .sigHBargraph ∨ s = .sigVBargraph) (hx : x.CausalSignal)
    (hdiag : ∀ σ x' ys, Diagram I inputs box σ path [x'] ys ↔
      ys = [bargraphMeaning I inputs s label path min max x']) :
    Meets I inputs slotenv path box [x] [.node (.sym s)
      [normalizePath (.label label :: path), leaf min, leaf max, x]] := by
  have hpath := isClosed_normalizePath (.label label :: path)
  refine .of_single ?_ fun ρ ys => ?_
  · have hbr : ∀ t ∈ [normalizePath (.label label :: path), leaf min, leaf max, x],
        t.Guarded := by
      simpa using ⟨.closed hpath, guarded_leaf _, guarded_leaf _, hx.guarded⟩
    rcases hs with rfl | rfl <;>
      exact .node (by decide) (by decide) (by decide) (by decide) hbr
  · have hstream : I.stream inputs ρ (.node (.sym s)
        [normalizePath (.label label :: path), leaf min, leaf max, x]) =
        I.op (.sym s) [I.denote inputs ρ (normalizePath (.label label :: path)),
          I.denote inputs ρ (leaf min), I.denote inputs ρ (leaf max), I.denote inputs ρ x] := by
      rcases hs with rfl | rfl <;> rfl
    rw [hstream, I.denote_closed inputs hpath ρ [], I.denote_closed inputs (isClosed_leaf _) ρ [],
      I.denote_closed inputs (isClosed_leaf _) ρ [], I.denote_eq_const inputs hx.isSignal]
    exact hdiag _ _ _

/-- The foreign functions. -/
lemma Meets.ffun {ff : ForeignFun} {lsig : List Tree} (hlen : lsig.length = ff.arity)
    (hl : ∀ t ∈ lsig, t.CausalSignal) :
    Meets I inputs slotenv path (.ffun ff) lsig [sigFFun ff.tree (ofList lsig)] := by
  have hff : ff.tree.isClosed := by
    rw [ForeignFun.tree, isClosed_node (by decide) (by decide)]
    have hsig : ff.signature.isClosed := by
      refine isClosed_ofList fun t ht => ?_
      simp only [List.mem_cons, List.mem_map] at ht
      rcases ht with rfl | rfl | ⟨a, -, rfl⟩ <;> exact isClosed_leaf _
    simpa using ⟨hsig, isClosed_leaf _, isClosed_leaf _⟩
  refine .of_single (.node (by decide) (by decide) (by decide) (by decide)
    (by simpa using ⟨.closed hff, guarded_ofList fun t ht => (hl t ht).guarded⟩)) fun ρ ys => ?_
  show _ ↔ ys = [I.op _ [I.denote inputs ρ ff.tree, I.denote inputs ρ (ofList lsig)]]
  rw [I.denote_closed inputs hff ρ [], I.denote_ofList]
  simp [Diagram, hlen, SigInterp.atoms]

lemma isClosed_sliderSignal {s : Sym} {make : Tree → Tree → Tree → Tree → Tree → Tree}
    (hmake : make = sigSlider s) (h₁ : s ≠ .debruijn) (h₂ : s ≠ .debruijnRef) (label : String)
    (p : SliderParams) : (sliderSignal make label p path).isClosed := by
  rw [sliderSignal, hmake, sigSlider, isClosed_node (by simpa using h₁) (by simpa using h₂)]
  have hparams : (ofList [leaf p.cur, leaf p.min, leaf p.max, leaf p.step]).isClosed :=
    isClosed_ofList (by simp [isClosed_leaf])
  simpa using ⟨isClosed_normalizePath _, hparams⟩

/-- The boxes without parts. -/
lemma Meets.outputs {box : Box} {lsig r : List Tree} (h : box.outputs libm path lsig = some r)
    (hG : ∀ t ∈ box.generators lsig, t.isClosed) (hl : ∀ t ∈ lsig, t.CausalSignal) :
    Meets I inputs slotenv path box lsig r := by
  unfold Box.outputs at h
  split at h
  · -- an extended primitive
    rename_i p
    split_ifs at h with hlen
    cases h
    refine .of_single (causalSignal_computeSigOutput p hl) fun ρ ys => ?_
    rw [I.stream_computeSigOutput inputs ρ hlen]
    simp [Diagram, hlen]
  · -- numbers and constants
    cases h
    exact .of_atom (isClosed_leaf _) (causalSignal_num rfl).isSignal fun _ _ => .rfl
  · cases h
    exact .of_atom (isClosed_leaf _) (causalSignal_num rfl).isSignal fun _ _ => .rfl
  · rename_i values
    cases h
    have hwf : (sigWaveform values).isClosed := by
      rw [sigWaveform, isClosed_node (by decide) (by decide)]
      simp [isClosed_leaf]
    refine ⟨?_, fun ρ ys => ?_⟩
    · simpa using ⟨causalSignal_num rfl, ⟨.closed hwf, nofun, nofun, nofun⟩⟩
    · rw [List.map_cons, List.map_singleton, I.stream_atom inputs ρ hwf]
      simp only [Diagram, List.map_nil, true_and]
      rfl
  · cases h
    refine .of_atom ?_ ⟨nofun, nofun, nofun⟩ fun _ _ => .rfl
    rw [sigFConst, isClosed_node (by decide) (by decide)]
    simp [isClosed_leaf]
  · cases h
    refine .of_atom ?_ ⟨nofun, nofun, nofun⟩ fun _ _ => .rfl
    rw [sigFVar, isClosed_node (by decide) (by decide)]
    simp [isClosed_leaf]
  · -- wire and cut
    cases h
    exact ⟨by simp, fun ρ ys => by simp [Diagram]⟩
  · cases h
    exact ⟨hl, fun ρ ys => by simp [Diagram]⟩
  · -- primitives
    rename_i p
    cases p
  · rename_i p x
    cases h
    exact .prim1 p (hl x (by simp))
  · rename_i p x y
    cases h
    exact .prim2 p (hl x (by simp)) (hl y (by simp))
  · rename_i p x y z
    cases h
    exact .prim3 p (hl x (by simp)) (hl y (by simp)) (hl z (by simp)) hG
  · rename_i p x y z u
    cases h
    exact .prim4 p (hl x (by simp)) (hl y (by simp)) (hl z (by simp)) (hl u (by simp))
  · rename_i p x y z u v
    cases h
    exact .prim5 p (hl x (by simp)) (hl y (by simp)) (hl z (by simp)) (hl u (by simp))
      (hl v (by simp)) hG
  · split_ifs at h with hlen
    cases h
    exact .ffun hlen hl
  · -- user interface widgets
    cases h
    refine .of_atom ?_ ⟨nofun, nofun, nofun⟩ fun _ _ => .rfl
    rw [sigButton, isClosed_node (by decide) (by decide)]
    simpa using isClosed_normalizePath _
  · cases h
    refine .of_atom ?_ ⟨nofun, nofun, nofun⟩ fun _ _ => .rfl
    rw [sigCheckbox, isClosed_node (by decide) (by decide)]
    simpa using isClosed_normalizePath _
  · cases h
    exact .of_atom (isClosed_sliderSignal rfl (by decide) (by decide) _ _)
      ⟨nofun, nofun, nofun⟩ fun _ _ => .rfl
  · cases h
    exact .of_atom (isClosed_sliderSignal rfl (by decide) (by decide) _ _)
      ⟨nofun, nofun, nofun⟩ fun _ _ => .rfl
  · cases h
    exact .of_atom (isClosed_sliderSignal rfl (by decide) (by decide) _ _)
      ⟨nofun, nofun, nofun⟩ fun _ _ => .rfl
  · rename_i x
    cases h
    exact .bargraph (.inr rfl) (hl x (by simp)) fun σ x' ys => by simp [Diagram]
  · rename_i x
    cases h
    exact .bargraph (.inl rfl) (hl x (by simp)) fun σ x' ys => by simp [Diagram]
  · cases h

/-! ## Buses -/

/-- The lines of bus `j` from line `i` on, where `i` is one of them. -/
lemma filter_range'_mod {w n i j : ℕ} (hw : 0 < w) (hi : i < n) (hij : i % w = j) :
    (List.range' i (n - i)).filter (· % w = j) =
      i :: (List.range' (i + w) (n - (i + w))).filter (· % w = j) := by
  -- the lines of the bus are `w` apart
  have hskip : ∀ k < w, (List.range' (i + 1) k).filter (· % w = j) = [] := by
    intro k hk
    rw [List.filter_eq_nil_iff]
    intro x hx hmod
    rw [List.mem_range'_1] at hx
    have hzero : (x - i) % w = 0 :=
      Nat.sub_mod_eq_zero_of_mod_eq (by rw [hij]; simpa using hmod)
    rw [Nat.mod_eq_of_lt (by omega)] at hzero
    omega
  have hsplit : List.range' i (n - i) = i :: (List.range' (i + 1) (min (w - 1) (n - i - 1)) ++
      List.range' (i + w) (n - (i + w))) := by
    obtain ⟨k, hk⟩ : ∃ k, n - i = k + 1 := ⟨n - i - 1, by omega⟩
    rw [hk, List.range'_succ, Nat.add_sub_cancel]
    rcases Nat.lt_or_ge k w with hkw | hkw
    · rw [Nat.min_eq_right (by omega), show n - (i + w) = 0 by omega]
      simp
    · rw [Nat.min_eq_left (by omega), show i + w = i + 1 + 1 * (w - 1) by omega,
        List.range'_append]
      congr 2
      omega
  rw [hsplit, List.filter_cons_of_pos (by simpa using hij), List.filter_append,
    hskip _ (by omega), List.nil_append]

/-- A bus of `mix` is the sum of its lines. -/
lemma stream_mixLoop (ρ : List (Group V)) {lsig : List Tree} {nbus i j : ℕ} {t : Tree}
    (hn : 0 < nbus) (hij : i % nbus = j) : I.stream inputs ρ (mixLoop lsig nbus i t) =
      (((List.range' i (lsig.length - i)).filter (· % nbus = j)).map fun l =>
        (lsig.map (I.stream inputs ρ)).getD l fun _ => I.zero).foldl I.add
          (I.stream inputs ρ t) := by
  fun_induction mixLoop lsig nbus i t with
  | case1 i t h ih =>
    have hi : i < (lsig.map (I.stream inputs ρ)).length := by simpa using h.1
    rw [ih (by rw [Nat.add_mod_right, hij]), filter_range'_mod hn h.1 hij, List.map_cons,
      List.foldl_cons, List.getD_eq_getElem _ _ hi, List.getElem_map]
    rfl
  | case2 i t h =>
    rw [show lsig.length - i = 0 by omega]
    rfl

/-- The buses of `mix`, when there are at least as many lines as buses. -/
lemma stream_mix (ρ : List (Group V)) {lsig : List Tree} {nbus : ℕ}
    (hle : nbus ≤ lsig.length) : (mix lsig nbus).map (I.stream inputs ρ) =
      (List.range nbus).map fun j => I.sum
        (((List.range lsig.length).filter (· % nbus = j)).map fun l =>
          (lsig.map (I.stream inputs ρ)).getD l fun _ => I.zero) := by
  rw [mix, List.map_map]
  refine List.map_congr_left fun j hj => ?_
  have hj : j < nbus := List.mem_range.mp hj
  have hbefore : (List.range' 0 j).filter (· % nbus = j) = [] := by
    rw [List.filter_eq_nil_iff]
    intro x hx hmod
    rw [List.mem_range'_1] at hx
    rw [decide_eq_true_eq, Nat.mod_eq_of_lt (by omega)] at hmod
    omega
  have hrange : List.range lsig.length = List.range' 0 j ++ List.range' j (lsig.length - j) := by
    have happ : List.range' 0 j ++ List.range' (0 + j) (lsig.length - j) =
        List.range' 0 (j + (lsig.length - j)) := List.range'_append_1
    rw [List.range_eq_range', ← Nat.add_sub_of_le (show j ≤ lsig.length by omega), ← happ,
      Nat.zero_add, Nat.add_sub_of_le (by omega)]
  have hjl : j < (lsig.map (I.stream inputs ρ)).length := by
    rw [List.length_map]
    omega
  rw [Function.comp_apply, stream_mixLoop ρ (by omega) (by rw [Nat.add_mod_right, Nat.mod_eq_of_lt hj]),
    hrange, List.filter_append, hbefore, List.nil_append,
    filter_range'_mod (by omega) (by omega) (Nat.mod_eq_of_lt hj), List.map_cons, SigInterp.sum,
    List.getD_eq_getElem _ _ hjl, List.getElem_map, List.getD_eq_getElem _ _ (by omega)]

lemma causalSignal_mix {lsig : List Tree} {nbus : ℕ} (hl : ∀ t ∈ lsig, t.CausalSignal) :
    ∀ t ∈ mix lsig nbus, t.CausalSignal := by
  have hloop : ∀ i t, t.CausalSignal → (mixLoop lsig nbus i t).CausalSignal := by
    intro i t
    fun_induction mixLoop lsig nbus i t with
    | case1 i t h ih => exact fun ht => ih (causalSignal_sigBinOp .kAdd ht (hl _ (List.getElem_mem _)))
    | case2 i t h => exact id
  intro t ht
  obtain ⟨b, -, rfl⟩ := List.mem_map.mp ht
  refine hloop _ _ ?_
  rcases Nat.lt_or_ge b lsig.length with hb | hb
  · rw [List.getD_eq_getElem _ _ hb]
    exact hl _ (List.getElem_mem _)
  · rw [List.getD_eq_default _ _ hb]
    exact causalSignal_num rfl

/-! ## Recursions -/

/-- Slots mean the same inside a recursion as outside. -/
lemma slotStreams_liftEnv (G : Group V) (ρ : List (Group V)) (slotenv : SlotEnv) :
    I.slotStreams inputs (G :: ρ) (liftEnv slotenv) = I.slotStreams inputs ρ slotenv := by
  rw [SigInterp.slotStreams, SigInterp.slotStreams, liftEnv, List.map_map]
  refine List.map_congr_left fun p _ => ?_
  rw [Function.comp_apply, I.stream_lift]

/-- Pending inputs mean the same inside a recursion as outside. -/
lemma stream_listLift (G : Group V) (ρ : List (Group V)) (lsig : List Tree) :
    (listLift lsig).map (I.stream inputs (G :: ρ)) = lsig.map (I.stream inputs ρ) := by
  rw [listLift, List.map_map]
  exact List.map_congr_left fun t _ => I.stream_lift inputs t G ρ

/-- The streams of a group made of a list. -/
lemma map_group (ss : List (Stream V)) : (List.range ss.length).map (I.group ss) = ss := by
  induction ss with
  | nil => rfl
  | cons s ss ih =>
    rw [List.length_cons, List.range_succ_eq_map, List.map_cons, List.map_map]
    exact congrArg (s :: ·) ih

/-- In a recursion the outputs are the only streams the two boxes allow. -/
lemma Meets.recur {t₁ t₂ : Box} {in₁ out₁ in₂ out₂ : ℕ} {lsig l₁ l₂ : List Tree}
    (ht₁ : HasBoxType t₁ in₁ out₁) (ht₂ : HasBoxType t₂ in₂ out₂) (hle : in₂ ≤ out₁)
    (hlen : l₂.length = out₁)
    (h₁ : Meets I inputs (liftEnv slotenv) path t₂ (makeMemSigProjList (debruijnRef 1) in₂) l₁)
    (h₂ : Meets I inputs (liftEnv slotenv) path t₁ (l₁ ++ listLift lsig) l₂) :
    Meets I inputs slotenv path (.recur t₁ t₂) lsig
      (makeSigProjList (debruijn (ofList l₂)) out₁) := by
  have hguard : (ofList l₂).Guarded := guarded_ofList fun t ht => (h₂.causal t ht).guarded
  refine ⟨fun t ht => ?_, fun ρ ys => ?_⟩
  · obtain ⟨i, -, rfl⟩ := List.mem_map.mp ht
    have hproj : (sigProj (i : ℕ) (debruijn (ofList l₂))).Guarded :=
      .node (by decide) (by decide) (by decide)
        (by simpa using ⟨guarded_leaf _, .debruijn hguard⟩)
    exact .node (by decide) (by decide) (by decide) (by decide)
      (by simpa using ⟨hproj, guarded_leaf _⟩)
  · -- the two boxes under the recursion, when it is read as `G`
    have hB := fun G => h₁.diagram (G :: ρ)
    have hA := fun G => h₂.diagram (G :: ρ)
    simp only [slotStreams_liftEnv, I.stream_makeMemSigProjList, List.map_append,
      stream_listLift] at hB hA
    have hbody : ∀ G, I.denote inputs (G :: ρ) (ofList l₂) =
        I.group (l₂.map (I.stream inputs (G :: ρ))) := fun G => I.denote_ofList inputs _ l₂
    have hcausal : Streams.StrictlyCausal fun G => I.denote inputs (G :: ρ) (ofList l₂) :=
      SigInterp.strictlyCausal hguard ρ
    rw [I.stream_makeSigProjList, I.denote_debruijn]
    constructor
    · rintro ⟨fb, zs, hfb, hb, ha⟩
      have hfblen : fb.length = in₂ := by simpa using (hb.length ht₂).1
      have hyslen : ys.length = out₁ := (ha.length ht₁).2
      have hys : (List.range ys.length).map (I.group ys) = ys := map_group ys
      have hfb' : fb.map I.delay1 = (List.range in₂).map fun i => I.delay1 (I.group ys i) := by
        rw [List.prefix_iff_eq_take.mp hfb, hfblen]
        conv_lhs => rw [← hys]
        rw [← List.map_take, List.take_range, hyslen, Nat.min_eq_left hle, List.map_map]
        rfl
      rw [hfb', hB] at hb
      rw [hb, hA] at ha
      have hfix : I.denote inputs (I.group ys :: ρ) (ofList l₂) = I.group ys := by
        rw [hbody, ← ha]
      rw [← hcausal.eq_fix hfix, ← hyslen, hys]
    · intro hys
      set G := Streams.fix I.silence fun G => I.denote inputs (G :: ρ) (ofList l₂)
      have hfix : I.denote inputs (G :: ρ) (ofList l₂) = G := hcausal.fix_eq
      have hys' : ys = l₂.map (I.stream inputs (G :: ρ)) := by
        calc ys = (List.range out₁).map G := hys
          _ = (List.range out₁).map (I.group (l₂.map (I.stream inputs (G :: ρ)))) := by
            rw [← hbody, hfix]
          _ = l₂.map (I.stream inputs (G :: ρ)) := by
            rw [← hlen, ← l₂.length_map (I.stream inputs (G :: ρ)), map_group]
      refine ⟨ys.take in₂, l₁.map (I.stream inputs (G :: ρ)), List.take_prefix _ _, ?_, ?_⟩
      · have htake : (ys.take in₂).map I.delay1 = (List.range in₂).map fun i => I.delay1 (G i) := by
          rw [hys, ← List.map_take, List.take_range, Nat.min_eq_left hle, List.map_map]
          rfl
        rw [htake, hB]
      · rw [hA, hys']

/-! ## The propagation -/

lemma lookup_slotStreams (ρ : List (Group V)) (id : ℤ) (slotenv : SlotEnv) :
    (I.slotStreams inputs ρ slotenv).lookup id =
      (searchEnv id slotenv).map (I.stream inputs ρ) := by
  induction slotenv with
  | nil => rfl
  | cons p slotenv ih =>
    show List.lookup id ((p.1, _) :: I.slotStreams inputs ρ slotenv) = _
    rw [searchEnv, List.lookup_cons, List.lookup_cons, ih]
    cases id == p.1 <;> rfl

lemma exists_mem_of_searchEnv {id : ℤ} {slotenv : SlotEnv} {sig : Tree}
    (h : searchEnv id slotenv = some sig) : (id, sig) ∈ slotenv := by
  rw [searchEnv, List.lookup_eq_some_iff] at h
  obtain ⟨l₁, l₂, rfl, -⟩ := h
  simp

/-- The results of the propagation are the meaning of the box. -/
theorem Propagates.meets {box : Box} {lsig r : List Tree}
    (h : Propagates libm isClosed slotenv path box lsig r) : ∀ {m n : ℕ},
      HasBoxType box m n → lsig.length = m → box.SlotsBound (slotenv.map (·.1)) →
      (∀ p ∈ slotenv, p.2.CausalSignal) → (∀ t ∈ lsig, t.CausalSignal) →
      Meets I inputs slotenv path box lsig r := by
  induction h with
  | outputs h hG => exact fun _ _ _ _ hl => .outputs h hG hl
  | slot h =>
    intro m n _ _ _ hslots _
    refine .of_single (hslots _ (exists_mem_of_searchEnv h)) fun ρ ys => ?_
    simp [Diagram, lookup_slotStreams, h]
  | @dummy slotenv path id h i =>
    intro m n _ _ hb _ _
    rw [searchEnv, List.lookup_eq_none_iff] at h
    obtain ⟨p, hp, rfl⟩ := List.mem_map.mp hb
    simpa using h p hp
  | @symbolic slotenv path slot body sig lsig r _ ih =>
    intro m n ht hlen hb hslots hl
    obtain ⟨u, rfl, htb⟩ := ht.symbolic_inv
    have hbody := ih htb (by simpa using hlen) hb
      (List.forall_mem_cons.mpr ⟨hl sig (by simp), hslots⟩) fun t ht => hl t (by simp [ht])
    refine ⟨hbody.causal, fun ρ ys => ?_⟩
    rw [← hbody.diagram ρ ys]
    constructor
    · rintro ⟨x, xs', heq, h⟩
      cases heq
      exact h
    · exact fun h => ⟨_, _, rfl, h⟩
  | group _ ih =>
    intro m n ht hlen hb hslots hl
    have hbody := ih ht.group_inv hlen hb hslots hl
    exact ⟨hbody.causal, hbody.diagram⟩
  | @seq slotenv path t₁ t₂ lsig l₁ r h₁ h₂ ih₁ ih₂ =>
    intro m n ht hlen hb hslots hl
    obtain ⟨k, ht₁, ht₂⟩ := ht.seq_inv
    have hm₁ := ih₁ ht₁ hlen hb.1 hslots hl
    have hm₂ := ih₂ ht₂ (h₁.length_eq ht₁) hb.2 hslots hm₁.causal
    refine ⟨hm₂.causal, fun ρ ys => ?_⟩
    simp only [Diagram, hm₁.diagram, exists_eq_left, hm₂.diagram]
  | @par slotenv path t₁ t₂ in₁ out₁ lsig l₁ l₂ ht₁ h₁ h₂ ih₁ ih₂ =>
    intro m n ht hlen hb hslots hl
    obtain ⟨m₁, n₁, m₂, n₂, ht₁', ht₂, rfl, rfl⟩ := ht.par_inv
    obtain ⟨rfl, rfl⟩ := ht₁.unique ht₁'
    have hm₁ := ih₁ ht₁ (by simp [hlen]) hb.1 hslots fun t ht => hl t (List.mem_of_mem_take ht)
    have hm₂ := ih₂ ht₂ (by simp [hlen]) hb.2 hslots fun t ht => hl t (List.mem_of_mem_drop ht)
    refine ⟨fun t ht => (List.mem_append.mp ht).elim (hm₁.causal t) (hm₂.causal t), fun ρ ys => ?_⟩
    rw [List.map_append]
    constructor
    · rintro ⟨xs₁, xs₂, ys₁, ys₂, hxs, rfl, ha, hb⟩
      -- the widths of the boxes tell where the inputs are cut
      have hlen₁ : xs₁.length = in₁ := (ha.length ht₁).1
      have hxs₁ : xs₁ = (lsig.take in₁).map (I.stream inputs ρ) := by
        rw [List.map_take, hxs, ← hlen₁, List.take_left]
      have hxs₂ : xs₂ = (lsig.drop in₁).map (I.stream inputs ρ) := by
        rw [List.map_drop, hxs, ← hlen₁, List.drop_left]
      rw [hxs₁, hm₁.diagram] at ha
      rw [hxs₂, hm₂.diagram] at hb
      rw [ha, hb]
    · rintro rfl
      refine ⟨_, _, _, _, ?_, rfl, (hm₁.diagram ρ _).mpr rfl, (hm₂.diagram ρ _).mpr rfl⟩
      rw [← List.map_append, List.take_append_drop]
  | @split slotenv path t₁ t₂ in₂ out₂ lsig l₁ l₂ r ht₂ h₁ hs h₂ ih₁ ih₂ =>
    intro m n ht hlen hb hslots hl
    obtain ⟨v, x, ht₁, ht₂', hv, -, -⟩ := ht.split_inv
    obtain ⟨rfl, rfl⟩ := ht₂.unique ht₂'
    have hm₁ := ih₁ ht₁ hlen hb.1 hslots hl
    have hpos : 0 < l₁.length := by rw [h₁.length_eq ht₁]; exact hv
    rw [split_eq hpos] at hs
    cases hs
    have hm₂ := ih₂ ht₂ (by simp) hb.2 hslots (by
      simp only [List.mem_map]
      rintro t ⟨i, -, rfl⟩
      exact hm₁.causal _ (List.get_mem _ _))
    refine ⟨hm₂.causal, fun ρ ys => ?_⟩
    rw [← hm₂.diagram]
    simp only [Diagram, hm₁.diagram, exists_and_left, exists_eq_left]
    -- the inputs of the second box are determined by the outputs of the first one
    have hbus : ∀ i < in₂, (((List.range in₂).map fun b => l₁.get ⟨b % l₁.length,
        Nat.mod_lt b hpos⟩).map (I.stream inputs ρ))[i]? =
        (l₁.map (I.stream inputs ρ))[i % (l₁.map (I.stream inputs ρ)).length]? := by
      intro i hi
      simp [hi, Nat.mod_lt i hpos]
    constructor
    · rintro ⟨ws, hb, hws⟩
      have hlen₂ : ws.length = in₂ := (hb.length ht₂).1
      convert hb using 1
      refine List.ext_getElem? fun i => ?_
      by_cases hi : i < in₂
      · rw [hbus i hi, hws i (by omega)]
      · rw [List.getElem?_eq_none (by simpa using hi), List.getElem?_eq_none (by omega)]
    · intro hb
      exact ⟨_, hb, fun i hi => hbus i (by simpa using hi)⟩
  | @merge slotenv path t₁ t₂ in₂ out₂ lsig l₁ r ht₂ h₁ h₂ ih₁ ih₂ =>
    intro m n ht hlen hb hslots hl
    obtain ⟨v, x, ht₁, ht₂', hv, hx, hdvd⟩ := ht.merge_inv
    obtain ⟨rfl, rfl⟩ := ht₂.unique ht₂'
    have hm₁ := ih₁ ht₁ hlen hb.1 hslots hl
    have hle : in₂ ≤ l₁.length := by rw [h₁.length_eq ht₁]; exact Nat.le_of_dvd hv hdvd
    have hm₂ := ih₂ ht₂ (by simp) hb.2 hslots (causalSignal_mix hm₁.causal)
    refine ⟨hm₂.causal, fun ρ ys => ?_⟩
    rw [← hm₂.diagram, stream_mix ρ hle]
    simp only [Diagram, hm₁.diagram, exists_and_left, exists_eq_left]
    constructor
    · rintro ⟨ws, hb, hws⟩
      have hlen₂ : ws.length = in₂ := (hb.length ht₂).1
      convert hb using 1
      refine List.ext_getElem? fun i => ?_
      by_cases hi : i < in₂
      · rw [hws i (by omega), hlen₂]
        simp [hi]
      · rw [List.getElem?_eq_none (by simpa using hi), List.getElem?_eq_none (by omega)]
    · intro hb
      refine ⟨_, hb, fun i hi => ?_⟩
      rw [List.length_map, List.length_range] at hi
      simp [hi]
  | @recur slotenv path t₁ t₂ in₁ out₁ in₂ out₂ lsig l₁ l₂ ht₁ ht₂ h₁ h₂ ih₁ ih₂ =>
    intro m n ht hlen hb hslots hl
    obtain ⟨u, x, y, ht₁', ht₂', hx, hu⟩ := ht.recur_inv
    obtain ⟨rfl, rfl⟩ := ht₁.unique ht₁'
    obtain ⟨rfl, rfl⟩ := ht₂.unique ht₂'
    have hkeys : (liftEnv slotenv).map (·.1) = slotenv.map (·.1) := by
      rw [liftEnv, List.map_map]
      rfl
    have hslots' : ∀ p ∈ liftEnv slotenv, p.2.CausalSignal := by
      intro p hp
      obtain ⟨q, hq, rfl⟩ := List.mem_map.mp hp
      exact (hslots q hq).lift
    have hm₁ := ih₁ ht₂ (by simp) (by rw [hkeys]; exact hb.2) hslots' (by
      intro t ht
      obtain ⟨i, -, rfl⟩ := List.mem_map.mp ht
      exact ⟨.memProj i 1 one_pos, nofun, nofun, nofun⟩)
    have hm₂ := ih₂ ht₁ (by simp [h₁.length_eq ht₂, hlen, hu]) (by rw [hkeys]; exact hb.1) hslots' (by
      intro t ht
      rcases List.mem_append.mp ht with ht | ht
      · exact hm₁.causal t ht
      · obtain ⟨t', ht', rfl⟩ := List.mem_map.mp ht
        exact (hl t' ht').lift)
    exact .recur ht₁ ht₂ hx (h₂.length_eq ht₁) hm₁ hm₂

/-- Without tables nothing is asked of their generators. -/
lemma Propagates.of_tableFree {G : Tree → Prop} {box : Box} {lsig r : List Tree}
    (h : Propagates libm (fun _ => True) slotenv path box lsig r) :
    box.TableFree → Propagates libm G slotenv path box lsig r := by
  induction h with
  | @outputs slotenv path box lsig r h _ =>
    intro hfree
    refine .outputs h fun t ht => ?_
    unfold Box.generators at ht
    split at ht
    · exact hfree.elim
    · exact hfree.elim
    · cases ht
  | slot h => exact fun _ => .slot h
  | dummy h i => exact fun _ => .dummy h i
  | symbolic _ ih => exact fun hfree => .symbolic (ih hfree)
  | group _ ih => exact fun hfree => .group (ih hfree)
  | seq _ _ ih₁ ih₂ => exact fun hfree => .seq (ih₁ hfree.1) (ih₂ hfree.2)
  | par ht₁ _ _ ih₁ ih₂ => exact fun hfree => .par ht₁ (ih₁ hfree.1) (ih₂ hfree.2)
  | split ht₂ _ hs _ ih₁ ih₂ => exact fun hfree => .split ht₂ (ih₁ hfree.1) hs (ih₂ hfree.2)
  | merge ht₂ _ _ ih₁ ih₂ => exact fun hfree => .merge ht₂ (ih₁ hfree.1) (ih₂ hfree.2)
  | recur ht₁ ht₂ _ _ ih₁ ih₂ =>
    exact fun hfree => .recur ht₁ ht₂ (ih₁ hfree.2) (ih₂ hfree.1)

/-- The propagation of the inputs into a typed box without free slots, from any reachable
state, gives signals whose streams are those of the diagram, and no others are: in
particular the recursions of the diagram have exactly one solution. What generates the
content of a table must not depend on an enclosing recursion, which would otherwise depend on
its own future. -/
theorem propagate_meets {s : PropState} (hs : s.Reachable libm) {box : Box} {m n : ℕ}
    (ht : getBoxType box = .ok (some (m, n))) (hb : box.SlotsBound [])
    (path : List PathElement) (I : SigInterp libm V) (inputs : ℕ → ℕ → ℚ) :
    ∃ r s', propagate libm [] path box (makeSigInputList m) s = .ok (r, s') ∧ r.length = n ∧
      (box.TableFree ∨ Propagates libm isClosed [] path box (makeSigInputList m) r →
        ∀ ys, Diagram I inputs box [] path ((List.range m).map (I.inputStream inputs)) ys ↔
          ys = r.map (I.stream inputs [])) := by
  have hlen : (makeSigInputList m).length = m := by simp [makeSigInputList]
  obtain ⟨r, s', hrun, ⟨hr, hn⟩, -⟩ :=
    BoxSound.propagateWith (realPropagate_sound box) [] path _ ht hlen s hs.memoSound
  refine ⟨r, s', hrun, hn, fun hgen ys => ?_⟩
  have hclosed : Propagates libm isClosed [] path box (makeSigInputList m) r :=
    hgen.elim hr.of_tableFree id
  have hinputs : ∀ t ∈ makeSigInputList m, t.CausalSignal := by
    intro t ht
    obtain ⟨i, -, rfl⟩ := List.mem_map.mp ht
    exact .node (by decide) (by decide) (by decide) (by decide) (by simp [guarded_leaf])
  have hmeets : Meets I inputs [] path box (makeSigInputList m) r :=
    hclosed.meets ht hlen hb (by simp) hinputs
  rw [← hmeets.diagram [] ys, makeSigInputList, List.map_map]
  rfl

end

/-! ## An interpretation -/

/-- Values are literals, operated on as the compiler does. -/
def SigInterp.nodes (libm : Libm) : SigInterp libm Node where
  zero := .int 0
  lit := id
  binOp op := (gBinOpTable.getD op.toNat .kAdd).compute wrap32
  intCast v := .int (v.toInt wrap32)
  floatCast v := .double v.toDouble
  xtended p vs := p.evalNodes libm vs
  delayAmount v := (v.toInt wrap32).toNat
  op _ _ _ := .int 0
  intCast_int _ := rfl
  intCast_double _ := rfl
  intCast_intCast _ := rfl
  floatCast_int _ := rfl
  floatCast_double _ := rfl
  floatCast_floatCast _ := rfl
  xtended_lit _ ns _ _ := congrArg _ (List.map_id ns)
  delayAmount_zero := rfl
  op_causal _ _ _ _ _ _ _ _ := rfl

/-- `(+ : (+ ~ _)) ~ _`: a recursion inside a recursion, around an outer input. -/
def nestedIntegrator : Box := .recur (.seq (.prim2 (.sigBinOp .kAdd)) integrator) .wire

theorem propagate_meets_nestedIntegrator :
    ∃ r s', propagate Libm.rounding [] [] nestedIntegrator (makeSigInputList 1)
        ⟨fun _ => none, 0⟩ = .ok (r, s') ∧ r.length = 1 ∧
      ∀ ys, Diagram (SigInterp.nodes Libm.rounding) (fun _ _ => 1) nestedIntegrator [] []
        ((List.range 1).map ((SigInterp.nodes Libm.rounding).inputStream fun _ _ => 1)) ys ↔
          ys = r.map ((SigInterp.nodes Libm.rounding).stream (fun _ _ => 1) []) := by
  have ht : getBoxType nestedIntegrator = .ok (some (1, 1)) := by decide
  have hb : nestedIntegrator.SlotsBound [] := ⟨⟨trivial, trivial, trivial⟩, trivial⟩
  obtain ⟨r, s', hrun, hlen, h⟩ :=
    propagate_meets (.start 0) ht hb [] (SigInterp.nodes Libm.rounding) fun _ _ => 1
  exact ⟨r, s', hrun, hlen, h (.inl ⟨⟨trivial, trivial, trivial⟩, trivial⟩)⟩

end Faust
