import Faust.Generator.InstTheorems

/-!
# Code that leaves variables alone

`Spares W S P` says of code that it does not write the variables `W`, and that it makes no
pointers to the variables `S`: it takes the address of none of them, and copies none of the
variables `P`, which may be such pointers already. Its executions leave `W` unchanged.
-/

namespace Faust.Fir

variable {ext : ExternFun} {W S P : List String}

/-! ## Code -/

/-- The value of an assignment is no pointer to `S`. -/
def ValueInst.Confines (S P : List String) : ValueInst → Prop
  | .loadVar a => a.fName ∉ P
  | .loadArrayVarAddress a _ => a.fName ∉ S
  | _ => True

mutual

/-- A statement that leaves `W` alone and makes no pointer to `S`. -/
def StatementInst.Spares (W S P : List String) : StatementInst → Prop
  | .declareVar a _ v => a.fName ∉ W ∧ ∀ w ∈ v, w.Confines S P
  | .storeVar a v => a.fName ∉ W ∧ v.Confines S P
  | .storeArrayVar a _ _ => a.fName ∉ W ∧ (a.fName ∈ P → W = [])
  | .block code => SparesAll W S P code
  | .ifInst _ t e => SparesAll W S P t ∧ SparesAll W S P e
  | .forLoop init _ incr code =>
    init.Spares W S P ∧ incr.Spares W S P ∧ SparesAll W S P code
  | .whileLoop _ code => SparesAll W S P code
  | .switch _ cases => SparesCases W S P cases

/-- Statements that leave `W` alone and make no pointer to `S`. -/
def SparesAll (W S P : List String) : List StatementInst → Prop
  | [] => True
  | s :: ss => s.Spares W S P ∧ SparesAll W S P ss

/-- Cases of a `switch` that leave `W` alone and make no pointer to `S`. -/
def SparesCases (W S P : List String) : List (ℤ × List StatementInst) → Prop
  | [] => True
  | (_, ss) :: cs => SparesAll W S P ss ∧ SparesCases W S P cs

end

theorem sparesAll_iff {ss : List StatementInst} :
    SparesAll W S P ss ↔ ∀ s ∈ ss, s.Spares W S P := by
  induction ss with
  | nil => simp [SparesAll]
  | cons s ss ih => simp [SparesAll, ih]

@[simp] theorem sparesAll_append {a b : List StatementInst} :
    SparesAll W S P (a ++ b) ↔ SparesAll W S P a ∧ SparesAll W S P b := by
  simp only [sparesAll_iff, List.mem_append]
  exact ⟨fun h => ⟨fun s hs => h s (.inl hs), fun s hs => h s (.inr hs)⟩,
    fun h s hs => hs.elim (h.1 s) (h.2 s)⟩

theorem sparesCases_iff {cs : List (ℤ × List StatementInst)} :
    SparesCases W S P cs ↔ ∀ c ∈ cs, SparesAll W S P c.2 := by
  induction cs with
  | nil => simp [SparesCases]
  | cons c cs ih => simp [SparesCases, ih]

theorem selectCase_spares {i : ℤ} {cases : List (ℤ × List StatementInst)}
    (h : SparesCases W S P cases) : SparesAll W S P (selectCase i cases) := by
  rw [sparesCases_iff] at h
  rcases selectCase_cases i cases with ⟨c, hc, heq⟩ | hnil
  · exact heq ▸ h c hc
  · rw [hnil]
    trivial

/-! ## Memories -/

/-- The arrays a variable points to. -/
def Cell.targets : Cell → List String
  | .pointer (some (base, _)) => [base]
  | .pointers ps => ps.map Prod.fst
  | _ => []

/-- Only the variables `P` point to `S`. -/
structure Guarded (S P : List String) (m : Memory) : Prop where
  targets : ∀ p, p ∉ P → ∀ b ∈ (m p).targets, b ∉ S
  single : ∀ p ∈ P, ∀ ps, m p ≠ .pointers ps

namespace Guarded

variable {m : Memory}

/-- A variable gets a new contents. -/
theorem update (h : Guarded S P m) {n : String} {c : Cell}
    (htargets : n ∉ P → ∀ b ∈ c.targets, b ∉ S) (hsingle : n ∈ P → ∀ ps, c ≠ .pointers ps) :
    Guarded S P (Function.update m n c) := by
  constructor
  · intro p hp b hb
    by_cases hpn : p = n
    · subst hpn
      rw [Function.update_self] at hb
      exact htargets hp b hb
    · rw [Function.update_of_ne hpn] at hb
      exact h.targets p hp b hb
  · intro p hp ps
    by_cases hpn : p = n
    · subst hpn
      rw [Function.update_self]
      exact hsingle hp ps
    · rw [Function.update_of_ne hpn]
      exact h.single p hp ps

/-- An element of a variable outside of `W` and `P` is not in `W`. -/
theorem resolve_notMem (h : Guarded S P m) {n : String} (hnW : n ∉ W) (hnP : n ∉ P)
    (hWS : ∀ n ∈ W, n ∈ S) (i : ℤ) : (m.resolve n i).1 ∉ W := by
  unfold Memory.resolve
  split
  · rename_i base offset hn
    exact fun hW => h.targets n hnP base (by simp [hn, Cell.targets]) (hWS _ hW)
  · exact hnW

variable (hPS : ∀ p ∈ P, p ∈ S)
include hPS

/-- A pointer that is assigned does not point to `S`. -/
theorem evalPointer_notMem (h : Guarded S P m) {v : ValueInst} (hv : v.Confines S P)
    {p : String × ℤ} (hp : v.evalPointer ext m = some p) : p.1 ∉ S := by
  cases v with
  | loadVar a =>
    simp only [ValueInst.evalPointer] at hp
    split at hp
    · rename_i q hq
      subst hp
      exact h.targets a.fName hv p.1 (by simp [hq, Cell.targets])
    · simp at hp
  | loadArrayVar a i =>
    simp only [ValueInst.evalPointer] at hp
    split at hp
    · rename_i ps b hps _
      have haP : a.fName ∉ P := fun haP => h.single a.fName haP ps hps
      apply h.targets a.fName haP p.1
      rw [hps]
      unfold Memory.getAt at hp
      split at hp
      · exact List.mem_map_of_mem (List.mem_of_getElem? hp)
      · simp at hp
    · simp at hp
  | loadArrayVarAddress a i =>
    simp only [ValueInst.evalPointer] at hp
    split at hp
    · obtain rfl := Option.some.inj hp
      exact h.resolve_notMem hv (fun haP => hv (hPS _ haP)) (fun _ hn => hn) _
    · simp at hp
  | _ => simp [ValueInst.evalPointer] at hp

/-- A declared variable points to no variable in `S`. -/
theorem declareCell_targets (h : Guarded S P m) {t : Typed} {v : Option ValueInst}
    (hv : ∀ w ∈ v, w.Confines S P) {c : Cell} (hc : declareCell ext m t v = some c) :
    (∀ b ∈ c.targets, b ∉ S) ∧ ∀ ps, c ≠ .pointers ps := by
  unfold declareCell at hc
  split at hc
  · obtain rfl := Option.some.inj hc
    simp [Cell.targets]
  · obtain ⟨w, _, rfl⟩ := Option.map_eq_some_iff.mp hc
    simp [Cell.targets]
  · obtain rfl := Option.some.inj hc
    simp [Cell.targets]
  · -- a pointer is the only contents that points somewhere
    rename_i w
    obtain ⟨p, hp, rfl⟩ := Option.map_eq_some_iff.mp hc
    simpa [Cell.targets] using h.evalPointer_notMem hPS (hv w rfl) hp
  · obtain rfl := Option.some.inj hc
    simp [Cell.targets]
  · obtain ⟨_, hc⟩ := Option.ite_none_right_eq_some.mp hc
    obtain rfl := Option.some.inj hc
    simp [Cell.targets]
  · obtain ⟨_, hc⟩ := Option.ite_none_right_eq_some.mp hc
    obtain rfl := Option.some.inj hc
    simp [Cell.targets]
  · simp at hc

/-- An assigned variable points to no variable in `S`. -/
theorem storeCell_targets (h : Guarded S P m) {v : ValueInst} (hv : v.Confines S P)
    {c₀ c : Cell} (hc : storeCell ext m v c₀ = some c) :
    (∀ b ∈ c.targets, b ∉ S) ∧ ∀ ps, c ≠ .pointers ps := by
  unfold storeCell at hc
  split at hc
  · obtain ⟨w, _, rfl⟩ := Option.map_eq_some_iff.mp hc
    simp [Cell.targets]
  · obtain ⟨p, hp, rfl⟩ := Option.map_eq_some_iff.mp hc
    simpa [Cell.targets] using h.evalPointer_notMem hPS hv hp
  · simp at hc

end Guarded

/-! ## Executions -/

variable (hWS : ∀ n ∈ W, n ∈ S) (hPS : ∀ p ∈ P, p ∈ S)
include hWS hPS

/-- A step of code that spares `W` leaves `W` unchanged. -/
theorem step_spares {ss r : List StatementInst} {m m' : Memory} (hss : SparesAll W S P ss)
    (hm : Guarded S P m) (h : step ext (ss, m) = some (r, m')) :
    SparesAll W S P r ∧ Guarded S P m' ∧ ∀ n ∈ W, m' n = m n := by
  have hwrite : ∀ {n : String} {c : Cell}, n ∉ W →
      (∀ b ∈ c.targets, b ∉ S) ∧ (∀ ps, c ≠ .pointers ps) →
      Guarded S P (Function.update m n c) ∧ ∀ x ∈ W, Function.update m n c x = m x := by
    intro n c hn hc
    refine ⟨hm.update (fun _ => hc.1) fun _ => hc.2, fun x hx => ?_⟩
    have hxn : x ≠ n := fun hxn => hn (hxn ▸ hx)
    exact Function.update_of_ne hxn _ _
  cases ss with
  | nil => simp [step] at h
  | cons s k =>
    obtain ⟨hs, hk⟩ := hss
    cases s with
    | declareVar a t v =>
      simp only [step, Option.pure_def, Option.bind_eq_bind, Option.bind_eq_some_iff] at h
      obtain ⟨c, hc, h⟩ := h
      obtain ⟨rfl, rfl⟩ := Prod.mk.inj (Option.some.inj h)
      exact ⟨hk, hwrite hs.1 (hm.declareCell_targets hPS hs.2 hc)⟩
    | storeVar a v =>
      simp only [step, Option.pure_def, Option.bind_eq_bind, Option.bind_eq_some_iff] at h
      obtain ⟨c, hc, h⟩ := h
      obtain ⟨rfl, rfl⟩ := Prod.mk.inj (Option.some.inj h)
      exact ⟨hk, hwrite hs.1 (hm.storeCell_targets hPS hs.2 hc)⟩
    | storeArrayVar a i v =>
      simp only [step] at h
      split at h
      · obtain ⟨m₁, hm₁, h⟩ := Option.map_eq_some_iff.mp h
        obtain ⟨rfl, rfl⟩ := Prod.mk.inj h
        unfold Memory.storeArray at hm₁
        split at hm₁
        · simp only [Option.ite_none_right_eq_some] at hm₁
          obtain ⟨_, hm₁⟩ := hm₁
          obtain rfl := Option.some.inj hm₁
          refine ⟨hk, hwrite (fun hW => ?_) (by simp [Cell.targets])⟩
          -- what is written is the variable itself, or what it points to outside of `S`
          have haP : a.fName ∉ P := fun haP => by simp [hs.2 haP] at hW
          exact hm.resolve_notMem hs.1 haP hWS _ hW
        · simp at hm₁
      · simp at h
    | block code =>
      obtain ⟨rfl, rfl⟩ := Prod.mk.inj (Option.some.inj h)
      exact ⟨sparesAll_append.mpr ⟨hs, hk⟩, hm, fun _ _ => rfl⟩
    | ifInst c t e =>
      simp only [step, Option.pure_def, Option.bind_eq_bind, Option.bind_eq_some_iff] at h
      obtain ⟨v, _, h⟩ := h
      obtain ⟨rfl, rfl⟩ := Prod.mk.inj (Option.some.inj h)
      refine ⟨sparesAll_append.mpr ⟨?_, hk⟩, hm, fun _ _ => rfl⟩
      split
      · exact hs.1
      · exact hs.2
    | forLoop init end_ incr code =>
      obtain ⟨rfl, rfl⟩ := Prod.mk.inj (Option.some.inj h)
      exact ⟨⟨hs.1, sparesAll_append.mpr ⟨hs.2.2, hs.2.1, trivial⟩, hk⟩, hm, fun _ _ => rfl⟩
    | whileLoop c code =>
      simp only [step, Option.pure_def, Option.bind_eq_bind, Option.bind_eq_some_iff] at h
      obtain ⟨v, _, h⟩ := h
      obtain ⟨rfl, rfl⟩ := Prod.mk.inj (Option.some.inj h)
      refine ⟨?_, hm, fun _ _ => rfl⟩
      split
      · exact sparesAll_append.mpr ⟨hs, hs, hk⟩
      · exact hk
    | switch c cases =>
      simp only [step] at h
      split at h
      · obtain ⟨rfl, rfl⟩ := Prod.mk.inj (Option.some.inj h)
        exact ⟨sparesAll_append.mpr ⟨selectCase_spares hs, hk⟩, hm, fun _ _ => rfl⟩
      · simp at h

/-- Code that spares `W` leaves `W` unchanged at every point of its executions. -/
theorem steps_spares {c c' : Config} (hss : SparesAll W S P c.1) (hm : Guarded S P c.2)
    (h : Steps ext c c') :
    SparesAll W S P c'.1 ∧ Guarded S P c'.2 ∧ ∀ n ∈ W, c'.2 n = c.2 n := by
  induction h with
  | refl => exact ⟨hss, hm, fun _ _ => rfl⟩
  | tail _ hstep ih =>
    obtain ⟨hr, hg, hkeep⟩ := step_spares hWS hPS ih.1 ih.2.1 hstep
    exact ⟨hr, hg, fun n hn => (hkeep n hn).trans (ih.2.2 n hn)⟩

omit hWS hPS in
/-- Code that leaves `n` alone, in the absence of pointers to `S`. -/
theorem Steps.keeps {n : String} (hn : n ∈ S) {ss r : List StatementInst} {m m' : Memory}
    (h : Steps ext (ss, m) (r, m')) (hss : SparesAll [n] S [] ss) (hm : Guarded S [] m) :
    Guarded S [] m' ∧ m' n = m n := by
  obtain ⟨_, hg, hkeep⟩ := steps_spares (by simpa using hn) (by simp) hss hm h
  exact ⟨hg, hkeep n (by simp)⟩

omit hWS hPS in
theorem Runs.keeps {n : String} (hn : n ∈ S) {ss : List StatementInst} {m m' : Memory}
    (h : Runs ext ss m m') (hss : SparesAll [n] S [] ss) (hm : Guarded S [] m) :
    Guarded S [] m' ∧ m' n = m n :=
  Steps.keeps hn h hss hm

end Faust.Fir
