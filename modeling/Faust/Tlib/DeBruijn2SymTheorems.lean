import Faust.Tlib.DeBruijn2Sym

/-!
# Correctness of `deBruijn2Sym`

The invariant of a conversion is stated over three ghost values: the variables `D` handed
out so far, the definition `ρ v` in de Bruijn notation that a variable stands for, and the
variables `P` whose definition is still being converted. A conversion extends `D` and `ρ`
and leaves `P` as it found it.
-/

namespace Faust

open Faust.Tree

/-! ## The invariant -/

/-- The state of the conversions, with the variables `D`, what they stand for and the
pending ones `P`. -/
structure RecInv (s : RecState) (ρ : Sym → Tree) (D P : Sym → Prop) : Prop where
  /-- The variables are names of the symbol table. -/
  named : ∀ v, D v → ∃ nm, v = .user nm ∧ nm ∈ s.symbols.names
  /-- Each stands for a closed de Bruijn definition. -/
  origin : ∀ v, D v → ∃ b, ρ v = debruijn b ∧ IsDeBruijn (ρ v) ∧ (ρ v).isClosed
  pending : ∀ v, P v → D v
  /-- A variable whose conversion is over has a definition. -/
  complete : ∀ v, D v → P v ∨ ∃ d, s.recDef (symRef v) = some d
  /-- Only symbolic references to variables have definitions. -/
  defined : ∀ u d, s.recDef u = some d → ∃ v, u = symRef v ∧ D v
  /-- A recorded definition is symbolic and stands for one step of the unfolding. -/
  recDef : ∀ v d, s.recDef (symRef v) = some d → Symbolic D d ∧
    ∀ b, ρ v = debruijn b → erase ρ d = inst (debruijn b) b 1
  /-- A memoised result is symbolic and stands for the tree it is recorded on. -/
  memo : ∀ t t2, s.sym t = some t2 → WellFormed D t ∧ Symbolic D t2 ∧ erase ρ t2 = erase ρ t
  /-- A pending variable is not recorded on any definition yet. -/
  fresh : ∀ b v, s.sym (debruijn b) = some (symRef v) → ¬ P v
  /-- Distinct definitions have distinct variables. -/
  distinct : ∀ b b' v, s.sym (debruijn b) = some (symRef v) →
    s.sym (debruijn b') = some (symRef v) → b = b'

/-- `D'` and `ρ'` extend `D` and `ρ`. -/
def Extends (ρ : Sym → Tree) (D : Sym → Prop) (ρ' : Sym → Tree) (D' : Sym → Prop) : Prop :=
  ∀ v, D v → D' v ∧ ρ' v = ρ v

theorem Extends.refl (ρ : Sym → Tree) (D : Sym → Prop) : Extends ρ D ρ D :=
  fun _ h => ⟨h, rfl⟩

theorem Extends.trans {ρ₁ ρ₂ ρ₃ : Sym → Tree} {D₁ D₂ D₃ : Sym → Prop}
    (h : Extends ρ₁ D₁ ρ₂ D₂) (h' : Extends ρ₂ D₂ ρ₃ D₃) : Extends ρ₁ D₁ ρ₃ D₃ :=
  fun v hv => ⟨(h' v (h v hv).1).1, (h' v (h v hv).1).2.trans (h v hv).2⟩

theorem Extends.erase_eq {ρ ρ' : Sym → Tree} {D D' : Sym → Prop}
    (h : Extends ρ D ρ' D') {t : Tree} (ht : WellFormed D t) : erase ρ' t = erase ρ t :=
  erase_congr (fun v hv => (h v hv).2) ht

theorem Symbolic.wellFormed {V : Sym → Prop} {t : Tree} (ht : Symbolic V t) :
    WellFormed V t := by
  induction ht with
  | symRef v hv => exact .symRef v hv
  | plain n br hn _ ih => exact .plain n br hn ih

/-- `t2` is a symbolic tree that stands for `t`. -/
def StandsFor (ρ : Sym → Tree) (D : Sym → Prop) (t t2 : Tree) : Prop :=
  Symbolic D t2 ∧ erase ρ t2 = erase ρ t

theorem StandsFor.extend {ρ ρ' : Sym → Tree} {D D' : Sym → Prop} {t t2 : Tree}
    (h : StandsFor ρ D t t2) (hext : Extends ρ D ρ' D') (ht : WellFormed D t) :
    StandsFor ρ' D' t t2 :=
  ⟨h.1.mono fun v hv => (hext v hv).1,
    by rw [hext.erase_eq h.1.wellFormed, hext.erase_eq ht, h.2]⟩

/-- What stands for the branches makes a tree that stands for the tree. -/
theorem StandsFor.plain {ρ : Sym → Tree} {D : Sym → Prop} {n : Node} (hn : Plain n)
    {ts ts2 : List Tree} (h : List.Forall₂ (StandsFor ρ D) ts ts2) :
    StandsFor ρ D (.node n ts) (.node n ts2) := by
  have hbr : (∀ t2 ∈ ts2, Symbolic D t2) ∧ ts2.map (erase ρ) = ts.map (erase ρ) := by
    induction h with
    | nil => exact ⟨by simp, rfl⟩
    | cons ht _ ih =>
      exact ⟨List.forall_mem_cons.mpr ⟨ht.1, ih.1⟩, congrArg₂ List.cons ht.2 ih.2⟩
  exact ⟨.plain n ts2 hn hbr.1, by rw [erase_plain _ hn, erase_plain _ hn, hbr.2]⟩

/-- A run that started with `ρ`, `D` and `P` ends in a state `s'` of the invariant, and `R`
holds of the variables reached. -/
def Converts (ρ : Sym → Tree) (D P : Sym → Prop)
    (R : (Sym → Tree) → (Sym → Prop) → Prop) (s' : RecState) : Prop :=
  ∃ ρ' D', RecInv s' ρ' D' P ∧ Extends ρ D ρ' D' ∧ R ρ' D'

/-! ## Outcomes of a computation -/

/-- The possible outcomes of running `m` from `s`: it succeeds with a value and a state
satisfying `Q` and leaves names in supply, or the names for new variables have run out. -/
def Outcome {α : Type} (s : RecState) (m : RecM α) (Q : α → RecState → Prop) : Prop :=
  match m s with
  | .ok (a, s') => Q a s' ∧ (s.symbols.Supply "W" → s'.symbols.Supply "W")
  | .error e => e = .uniqueOverflow ∧ ¬ s.symbols.Supply "W"

namespace Outcome

variable {α β : Type} {s : RecState}

theorem pure {a : α} {Q : α → RecState → Prop} (h : Q a s) :
    Outcome s (Pure.pure a) Q := ⟨h, id⟩

/-- Computations in sequence. -/
theorem bind {m : RecM α} {Q : α → RecState → Prop} (h : Outcome s m Q) {f : α → RecM β}
    {R : β → RecState → Prop} (hf : ∀ a s', Q a s' → Outcome s' (f a) R) :
    Outcome s (m >>= f) R := by
  have hrun : (m >>= f) s = (m s).bind fun p => f p.1 p.2 := rfl
  unfold Outcome at h ⊢
  rw [hrun]
  match m s, h with
  | .error e, h => exact h
  | .ok (a, s'), ⟨hQ, hs⟩ =>
    have hres := hf a s' hQ
    unfold Outcome at hres
    simp only [Except.bind]
    match f a s', hres with
    | .error e, hres => exact ⟨hres.1, fun hsup => hres.2 (hs hsup)⟩
    | .ok (b, s''), hres => exact ⟨hres.1, fun hsup => hres.2 (hs hsup)⟩

theorem get : Outcome s MonadState.get fun a s' => a = s ∧ s' = s := ⟨⟨rfl, rfl⟩, id⟩

/-- Setting a property does not touch the symbol table. -/
theorem setProperty {f : RecState → RecState} (Q : Unit → RecState → Prop)
    (hsym : (f s).symbols = s.symbols) (h : Q () (f s)) :
    Outcome s (modify f) Q := ⟨h, fun hs => hsym ▸ hs⟩

/-- `unique` hands out a name that was not in the table and adds it. -/
theorem unique :
    Outcome s (uniqueSym "W") fun v s' => ∃ nm T, v = .user nm ∧ nm ∉ s.symbols.names ∧
      T.names = nm :: s.symbols.names ∧ s' = { s with symbols := T } := by
  unfold Outcome uniqueSym
  cases hu : SymbolTable.unique "W" s.symbols with
  | none =>
    refine ⟨rfl, fun hs => ?_⟩
    obtain ⟨k, T, hT, -⟩ := SymbolTable.unique_of_supply hs
    rw [hu] at hT
    cases hT
  | some p =>
    obtain ⟨v, T⟩ := p
    obtain ⟨k, -, hnew, rfl, hnames, -⟩ := SymbolTable.uniqueLoop_some hu
    refine ⟨⟨_, T, rfl, hnew, hnames, rfl⟩, fun hs => ?_⟩
    obtain ⟨k', T', hT, -, -, hsup⟩ := SymbolTable.unique_of_supply hs
    rw [hu, Option.some.injEq, Prod.mk.injEq] at hT
    rwa [hT.2]

end Outcome

/-! ## What one step does to the invariant -/

/-- A variable handed out by `unique` starts pending, standing for the definition it was
made for. -/
theorem RecInv.add_variable {s : RecState} {ρ : Sym → Tree} {D P : Sym → Prop}
    (h : RecInv s ρ D P) {nm : String} {T : SymbolTable}
    (hnames : T.names = nm :: s.symbols.names) (hnew : nm ∉ s.symbols.names) (b : Tree)
    (hb : IsDeBruijn (debruijn b)) (hcl : (debruijn b).isClosed) :
    RecInv { s with symbols := T } (Function.update ρ (.user nm) (debruijn b))
      (fun v => D v ∨ v = .user nm) (fun v => P v ∨ v = .user nm) := by
  have hfresh : ¬ D (.user nm) := by
    intro hD
    obtain ⟨nm', heq, hmem⟩ := h.named _ hD
    cases heq
    exact hnew hmem
  have hne : ∀ v, D v → v ≠ .user nm := fun v hv heq => hfresh (heq ▸ hv)
  have hext : Extends ρ D (Function.update ρ (.user nm) (debruijn b))
      (fun v => D v ∨ v = .user nm) :=
    fun v hv => ⟨.inl hv, Function.update_of_ne (hne v hv) _ _⟩
  refine ⟨?_, ?_, ?_, ?_, ?_, ?_, ?_, ?_, h.distinct⟩
  · rintro v (hv | rfl)
    · obtain ⟨nm', heq, hmem⟩ := h.named v hv
      exact ⟨nm', heq, by simp [hnames, hmem]⟩
    · exact ⟨nm, rfl, by simp [hnames]⟩
  · rintro v (hv | rfl)
    · rw [(hext v hv).2]
      exact h.origin v hv
    · rw [Function.update_self]
      exact ⟨b, rfl, hb, hcl⟩
  · rintro v (hv | rfl)
    · exact .inl (h.pending v hv)
    · exact .inr rfl
  · rintro v (hv | rfl)
    · exact (h.complete v hv).imp .inl id
    · exact .inl (.inr rfl)
  · intro u d hd
    obtain ⟨v, hu, hv⟩ := h.defined u d hd
    exact ⟨v, hu, .inl hv⟩
  · intro v d hd
    obtain ⟨u, hu, hDu⟩ := h.defined _ d hd
    cases hu
    obtain ⟨hsym, herase⟩ := h.recDef v d hd
    refine ⟨hsym.mono fun _ => .inl, fun b' hb' => ?_⟩
    rw [(hext v hDu).2] at hb'
    rw [hext.erase_eq hsym.wellFormed, herase b' hb']
  · intro t t2 ht
    obtain ⟨hwf, hsym, herase⟩ := h.memo t t2 ht
    refine ⟨hwf.mono fun _ => .inl, hsym.mono fun _ => .inl, ?_⟩
    rw [hext.erase_eq hsym.wellFormed, hext.erase_eq hwf, herase]
  · rintro b' v hbv (hP | rfl)
    · exact h.fresh b' v hbv hP
    · obtain ⟨-, hsym, -⟩ := h.memo _ _ hbv
      cases hsym with
      | symRef _ hv => exact hfresh hv
      | plain n br hn => exact hn.2.2 rfl

/-- Recording a result on a tree that is not a definition keeps the invariant. -/
theorem RecInv.record {s : RecState} {ρ : Sym → Tree} {D P : Sym → Prop}
    (h : RecInv s ρ D P) {t t2 : Tree} (ht : WellFormed D t) (hst : StandsFor ρ D t t2)
    (hne : ∀ b, t ≠ debruijn b) : RecInv (s.setSym t t2) ρ D P := by
  have hold : ∀ b, (s.setSym t t2).sym (debruijn b) = s.sym (debruijn b) :=
    fun b => s.setSym_of_ne (hne b).symm t2
  refine ⟨h.named, h.origin, h.pending, h.complete, h.defined, h.recDef, ?_, ?_, ?_⟩
  · intro u u2 hu
    by_cases heq : u = t
    · subst heq
      rw [s.setSym_self] at hu
      cases hu
      exact ⟨ht, hst⟩
    · rw [s.setSym_of_ne heq] at hu
      exact h.memo u u2 hu
  · intro b v hb
    rw [hold] at hb
    exact h.fresh b v hb
  · intro b b' v hb hb'
    rw [hold] at hb hb'
    exact h.distinct b b' v hb hb'

/-- Once its body is converted, a pending variable gets its definition and is recorded on
the definition it was made for. -/
theorem RecInv.finish_variable {s : RecState} {ρ : Sym → Tree} {D P : Sym → Prop} {v : Sym}
    (h : RecInv s ρ D (fun u => P u ∨ u = v)) (hP : ¬ P v) {b d : Tree}
    (hb : WellFormed D (debruijn b)) (hρ : ρ v = debruijn (erase ρ b)) (hd : Symbolic D d)
    (hinst : erase ρ d = inst (ρ v) (erase ρ b) 1) :
    RecInv ((s.setRecDef (symRef v) d).setSym (debruijn b) (symRef v)) ρ D P := by
  have hDv : D v := h.pending v (.inr rfl)
  have hvar : ∀ u, u ≠ v → symRef u ≠ symRef v := fun u hu e => by cases e; exact hu rfl
  have hmemo : ∀ {u}, u ≠ debruijn b →
      ((s.setRecDef (symRef v) d).setSym (debruijn b) (symRef v)).sym u = s.sym u :=
    fun hu => RecState.setSym_of_ne _ hu _
  refine ⟨h.named, h.origin, fun u hu => h.pending u (.inl hu), ?_, ?_, ?_, ?_, ?_, ?_⟩
  · intro u hu
    by_cases heq : u = v
    · exact .inr ⟨d, by rw [heq]; exact s.setRecDef_self ..⟩
    · rcases h.complete u hu with (hPu | rfl) | ⟨d', hd'⟩
      · exact .inl hPu
      · exact absurd rfl heq
      · exact .inr ⟨d', (s.setRecDef_of_ne (hvar u heq) d).trans hd'⟩
  · intro u d' hd'
    by_cases heq : u = symRef v
    · exact ⟨v, heq, hDv⟩
    · rw [RecState.setSym_recDef, s.setRecDef_of_ne heq] at hd'
      exact h.defined u d' hd'
  · intro u d' hd'
    by_cases heq : u = v
    · subst heq
      rw [RecState.setSym_recDef, s.setRecDef_self] at hd'
      cases hd'
      refine ⟨hd, fun b' hb' => ?_⟩
      have hbody : b' = erase ρ b := by
        rw [hρ] at hb'
        cases hb'
        rfl
      rw [hinst, hb', hbody]
    · rw [RecState.setSym_recDef, s.setRecDef_of_ne (hvar u heq)] at hd'
      exact h.recDef u d' hd'
  · intro u u2 hu
    by_cases heq : u = debruijn b
    · subst heq
      rw [RecState.setSym_self] at hu
      cases hu
      exact ⟨hb, .symRef v hDv, by rw [erase_symRef, hρ, erase_debruijn]⟩
    · rw [hmemo heq] at hu
      exact h.memo u u2 hu
  · intro b' u hb'
    by_cases heq : debruijn b' = debruijn b
    · rw [heq, RecState.setSym_self] at hb'
      cases hb'
      exact hP
    · rw [hmemo heq] at hb'
      exact fun hPu => h.fresh b' u hb' (.inl hPu)
  -- `v` was pending, so no definition was recorded with it before `b`
  · intro b₁ b₂ u h₁ h₂
    by_cases e₁ : debruijn b₁ = debruijn b <;> by_cases e₂ : debruijn b₂ = debruijn b
    · cases e₁
      cases e₂
      rfl
    · rw [e₁, RecState.setSym_self] at h₁
      cases h₁
      rw [hmemo e₂] at h₂
      exact absurd (.inr rfl) (h.fresh b₂ v h₂)
    · rw [e₂, RecState.setSym_self] at h₂
      cases h₂
      rw [hmemo e₁] at h₁
      exact absurd (.inr rfl) (h.fresh b₁ v h₁)
    · rw [hmemo e₁] at h₁
      rw [hmemo e₂] at h₂
      exact h.distinct b₁ b₂ u h₁ h₂

/-! ## The conversion -/

/-- What a call of `deBruijn2Sym` on `t` establishes. -/
def Converted (t : Tree) : Prop :=
  ∀ (s : RecState) (ρ : Sym → Tree) (D P : Sym → Prop), RecInv s ρ D P → WellFormed D t →
    t.isClosed → Outcome s (deBruijn2Sym t) fun t2 s' =>
      s'.sym t = some t2 ∧ Converts ρ D P (fun ρ' D' => StandsFor ρ' D' t t2) s'

/-- The loop over the branches converts them all. -/
theorem branchesDeBruijn2Sym_outcome {ts : List Tree} (hts : ∀ t ∈ ts, Converted t)
    (s : RecState) (ρ : Sym → Tree) (D P : Sym → Prop) (h : RecInv s ρ D P)
    (hwf : ∀ t ∈ ts, WellFormed D t) (hcl : ∀ t ∈ ts, t.isClosed) :
    Outcome s (branchesDeBruijn2Sym ts) fun ts2 s' =>
      Converts ρ D P (fun ρ' D' => List.Forall₂ (StandsFor ρ' D') ts ts2) s' := by
  induction ts generalizing s ρ D with
  | nil =>
    rw [branchesDeBruijn2Sym]
    exact .pure ⟨ρ, D, h, .refl ρ D, .nil⟩
  | cons t ts ih =>
    rw [List.forall_mem_cons] at hts hwf hcl
    rw [branchesDeBruijn2Sym]
    refine (hts.1 s ρ D P h hwf.1 hcl.1).bind ?_
    rintro t2 s₁ ⟨-, ρ₁, D₁, h₁, hext₁, hst⟩
    have hwf₁ : ∀ u ∈ t :: ts, WellFormed D₁ u := fun u hu =>
      ((List.forall_mem_cons.mpr hwf) u hu).mono fun v hv => (hext₁ v hv).1
    rw [List.forall_mem_cons] at hwf₁
    refine (ih hts.2 s₁ ρ₁ D₁ h₁ hwf₁.2 hcl.2).bind ?_
    rintro ts2 s₂ ⟨ρ₂, D₂, h₂, hext₂, hsts⟩
    exact .pure ⟨ρ₂, D₂, h₂, hext₁.trans hext₂, .cons (hst.extend hext₂ hwf₁.1) hsts⟩

theorem calcDeBruijn2Sym_plain {n : Node} (hn : Plain n) (br : List Tree) :
    calcDeBruijn2Sym (.node n br) =
      (do let br' ← branchesDeBruijn2Sym br; return .node n br') := by
  rw [calcDeBruijn2Sym.eq_def]
  split
  · rename_i heq
    cases heq
    exact absurd rfl hn.1
  · rename_i heq
    cases heq
    exact absurd rfl hn.2.2
  · rename_i heq
    cases heq
    exact absurd rfl hn.2.1
  · rename_i heq
    cases heq
    rfl

/-- A call whose result is not memoised yet computes it and records it. -/
theorem Outcome.deBruijn2Sym {t : Tree} (hcl : t.isClosed) {s : RecState}
    {Q : Tree → RecState → Prop} (hmemo : ∀ t2, s.sym t = some t2 → Q t2 s)
    (hcalc : Outcome s (calcDeBruijn2Sym t) fun t2 s' => Q t2 (s'.setSym t t2)) :
    Outcome s (deBruijn2Sym t) Q := by
  rw [Faust.deBruijn2Sym, if_pos hcl]
  refine Outcome.get.bind ?_
  rintro _ _ ⟨rfl, rfl⟩
  split
  · rename_i t2 ht
    exact .pure (hmemo t2 ht)
  · refine hcalc.bind fun t2 s' hQ => ?_
    exact (Outcome.setProperty (fun _ s'' => Q t2 s'') rfl hQ).bind
      fun _ _ hQ' => .pure hQ'

/-- The children of a closed plain node are closed. -/
theorem isClosed_of_mem {n : Node} (hn : Plain n) {br : List Tree}
    (h : (Tree.node n br).isClosed) {t : Tree} (ht : t ∈ br) : t.isClosed := by
  rw [isClosed, aperture_node hn, maxAperture_le_iff le_rfl] at h
  exact h t ht

/-- `deBruijn2Sym` on a closed tree fails no assertion, by induction on the size: the body
of a definition shrinks, or stays as large, by the substitution. -/
theorem deBruijn2Sym_converted (t : Tree) : Converted t := by
  induction hk : t.size using Nat.strong_induction_on generalizing t with
  | _ k ih =>
    subst hk
    intro s ρ D P h hwf hcl
    refine .deBruijn2Sym hcl (fun t2 ht2 => ?_) ?_
    · obtain ⟨-, hst⟩ := h.memo t t2 ht2
      exact ⟨ht2, ρ, D, h, .refl ρ D, hst⟩
    cases hwf with
    | debruijnRef l hl =>
      simp only [isClosed, aperture_debruijnRef] at hcl
      omega
    | symRef v hv =>
      have hcalc : calcDeBruijn2Sym (symRef v) = pure (symRef v) := by
        rw [symRef, calcDeBruijn2Sym]
      have hst : StandsFor ρ D (symRef v) (symRef v) := ⟨.symRef v hv, rfl⟩
      rw [hcalc]
      exact .pure ⟨s.setSym_self .., ρ, D,
        h.record (.symRef v hv) hst (fun b e => by cases e), .refl ρ D, hst⟩
    | plain n br hn hbr =>
      have hcl' : ∀ t ∈ br, t.isClosed := fun t ht => isClosed_of_mem hn hcl ht
      rw [calcDeBruijn2Sym_plain hn]
      refine (branchesDeBruijn2Sym_outcome (fun t ht => ih _ (size_lt_of_mem ht) t rfl)
        s ρ D P h hbr hcl').bind ?_
      rintro br2 s' ⟨ρ', D', h', hext, hsts⟩
      have hwf' : WellFormed D' (.node n br) :=
        .plain n br hn fun t ht => (hbr t ht).mono fun v hv => (hext v hv).1
      exact .pure ⟨s'.setSym_self .., ρ', D',
        h'.record hwf' (.plain hn hsts) (fun b e => by cases e; exact hn.1 rfl), hext,
        .plain hn hsts⟩
    | debruijn b hb =>
      have hcalc : calcDeBruijn2Sym (debruijn b) = (do
          let v ← uniqueSym "W"
          let d ← deBruijn2Sym (substitute b 1 (symRef v))
          modify (·.setRecDef (symRef v) d)
          return symRef v) := by
        rw [debruijn, calcDeBruijn2Sym]
      rw [hcalc]
      refine Outcome.unique.bind ?_
      rintro _ _ ⟨nm, T, rfl, hnew, hnames, rfl⟩
      set p := debruijn (erase ρ b) with hp
      have hdb : ∀ u, D u → IsDeBruijn (ρ u) := fun u hu => by
        obtain ⟨-, -, h', -⟩ := h.origin u hu
        exact h'
      have hclosed : ∀ u, D u → (ρ u).isClosed := fun u hu => by
        obtain ⟨-, -, -, h'⟩ := h.origin u hu
        exact h'
      have hfresh : ¬ D (.user nm) := fun hD => by
        obtain ⟨nm', heq, hmem⟩ := h.named _ hD
        cases heq
        exact hnew hmem
      have hpcl : p.isClosed :=
        (aperture_erase_le hclosed (.debruijn b hb)).trans hcl
      have h₁ := h.add_variable hnames hnew (erase ρ b)
        (isDeBruijn_erase hdb (.debruijn b hb)) hpcl
      -- the body with the new variable is closed and no larger than the body
      have hsize : (substitute b 1 (symRef (.user nm))).size < (debruijn b).size := by
        have := size_substitute_le (size_symRef (.user nm)).le b 1
        simp only [debruijn, size, size.sizes]
        omega
      have hwf₁ : WellFormed (fun u => D u ∨ u = .user nm) _ :=
        wellFormed_substitute (fun _ => .inl) (.inr rfl) hb one_pos
      have hcl₁ := aperture_substitute_le (.user nm) hb one_pos (by
        simp only [isClosed, aperture_debruijn] at hcl
        omega)
      refine (ih _ hsize _ rfl _ _ _ _ h₁ hwf₁ hcl₁).bind ?_
      rintro d s' ⟨-, ρ', D', h', hext', hd, herase⟩
      have hext : Extends ρ D ρ' D' := by
        intro u hu
        have hne : u ≠ .user nm := fun e => hfresh (e ▸ hu)
        obtain ⟨hDu, hρu⟩ := hext' u (.inl hu)
        exact ⟨hDu, by rw [hρu, Function.update_of_ne hne]⟩
      have hρv : ρ' (.user nm) = p := by
        rw [(hext' _ (.inr rfl)).2, Function.update_self]
      have hbody : erase ρ' b = erase ρ b := hext.erase_eq hb
      have hinst : erase ρ' d = inst (ρ' (.user nm)) (erase ρ' b) 1 := by
        rw [herase, hext'.erase_eq hwf₁, erase_substitute hdb hclosed hfresh hb one_pos,
          hρv, hbody]
      have hfin := h'.finish_variable (fun hP => hfresh (h.pending _ hP))
        (.debruijn b (hb.mono fun v hv => (hext v hv).1)) (by rw [hρv, hbody]) hd hinst
      refine (Outcome.setProperty (fun _ s'' => s'' = s'.setRecDef _ d) rfl rfl).bind ?_
      rintro _ _ rfl
      exact .pure ⟨RecState.setSym_self .., ρ', D', hfin, hext,
        .symRef _ (hext' _ (.inr rfl)).1, by rw [erase_symRef, hρv, erase_debruijn, hbody]⟩

/-! ## Unfoldings -/

/-- When no conversion is pending, a symbolic tree unfolds as the tree it stands for. -/
theorem unfoldSym_eq {s : RecState} {ρ : Sym → Tree} {D : Sym → Prop}
    (h : RecInv s ρ D fun _ => False) (k : ℕ) {t : Tree} (ht : Symbolic D t) :
    unfoldSym s.recDef k t = unfoldDeBruijn k (erase ρ t) := by
  induction k generalizing t with
  | zero => simp only [unfoldSym, unfoldDeBruijn]
  | succ k ih =>
    cases ht with
    | symRef v hv =>
      obtain ⟨d, hd⟩ := (h.complete v hv).resolve_left id
      obtain ⟨b, hb, -⟩ := h.origin v hv
      obtain ⟨hsym, hinst⟩ := h.recDef v d hd
      have hstep : unfoldDeBruijn (k + 1) (debruijn b) =
          unfoldDeBruijn k (inst (debruijn b) b 1) := rfl
      rw [unfoldSym_some hd, ih hsym, hinst b hb, erase_symRef, hb, hstep]
    | plain n br hn hbr =>
      have hnone : s.recDef (.node n br) = none := by
        by_contra hsome
        obtain ⟨d, hd⟩ := Option.ne_none_iff_exists'.mp hsome
        obtain ⟨v, hv, -⟩ := h.defined _ d hd
        cases hv
        exact hn.2.2 rfl
      rw [erase_plain _ hn, unfoldDeBruijn_plain hn, unfoldSym, hnone, List.map_map]
      exact congrArg _ (List.map_congr_left fun t ht => ih (hbr t ht))

/-! ## Correctness over any sequence of conversions -/

/-- The states of the properties a compilation can reach: closed de Bruijn trees are
converted one after the other, and other names enter the symbol table in between. -/
inductive Reachable : RecState → Prop
  | start (T : SymbolTable) : Reachable ⟨T, fun _ => none, fun _ => none⟩
  | intern {s : RecState} (T : SymbolTable) (h : s.symbols.names ⊆ T.names)
      (hs : Reachable s) : Reachable { s with symbols := T }
  | call {s s' : RecState} {t t2 : Tree} (ht : IsDeBruijn t) (hcl : t.isClosed)
      (hrun : deBruijn2Sym t s = .ok (t2, s')) (hs : Reachable s) : Reachable s'

/-- The invariant holds at the start, with no variable. -/
theorem RecInv.start (T : SymbolTable) :
    RecInv ⟨T, fun _ => none, fun _ => none⟩ (fun _ => Tree.nil) (fun _ => False) (fun _ => False) := by
  constructor <;> intros <;> simp_all

/-- More names in the table do not disturb the invariant. -/
theorem RecInv.intern {s : RecState} {ρ : Sym → Tree} {D P : Sym → Prop}
    (h : RecInv s ρ D P) {T : SymbolTable} (hT : s.symbols.names ⊆ T.names) :
    RecInv { s with symbols := T } ρ D P := by
  refine { h with named := fun v hv => ?_ }
  obtain ⟨nm, heq, hmem⟩ := h.named v hv
  exact ⟨nm, heq, hT hmem⟩

/-- No conversion is pending between two calls. -/
theorem Reachable.recInv {s : RecState} (hs : Reachable s) :
    ∃ ρ D, RecInv s ρ D fun _ => False := by
  induction hs with
  | start T => exact ⟨_, _, .start T⟩
  | intern T hT _ ih =>
    obtain ⟨ρ, D, h⟩ := ih
    exact ⟨ρ, D, h.intern hT⟩
  | call ht hcl hrun _ ih =>
    obtain ⟨ρ, D, h⟩ := ih
    have hout := deBruijn2Sym_converted _ _ ρ D _ h (ht.mono fun _ => False.elim) hcl
    rw [Outcome, hrun] at hout
    obtain ⟨⟨-, ρ', D', h', -⟩, -⟩ := hout
    exact ⟨ρ', D', h'⟩

/-- A definition is recorded for the variable. -/
def RecState.Defines (s : RecState) (v : Sym) : Prop := ∃ d, s.recDef (symRef v) = some d

/-- `t2` is a correct symbolic version of `t`, with the definitions recorded in `s`. -/
structure SymbolicVersion (t t2 : Tree) (s : RecState) : Prop where
  /-- Neither the result nor a definition has a `DEBRUIJN` or a `DEBRUIJNREF` node, and
  the variables they refer to are defined. -/
  symbolic : Symbolic s.Defines t2
  definitions : ∀ v d, s.recDef (symRef v) = some d → Symbolic s.Defines d
  /-- A recursive body that was converted has a variable, and no other body has it. -/
  bodies : ∀ b u, s.sym (debruijn b) = some u → ∃ v, u = symRef v ∧ s.Defines v
  distinct : ∀ b b' v, s.sym (debruijn b) = some (symRef v) →
    s.sym (debruijn b') = some (symRef v) → b = b'
  /-- The infinite unfoldings agree to any depth. -/
  unfolding : ∀ k, unfoldSym s.recDef k t2 = unfoldDeBruijn k t

/-- The invariant between two calls says that the results are correct. -/
theorem RecInv.symbolicVersion {s : RecState} {ρ : Sym → Tree} {D : Sym → Prop}
    (h : RecInv s ρ D fun _ => False) {t t2 : Tree} (ht : IsDeBruijn t)
    (hst : StandsFor ρ D t t2) : SymbolicVersion t t2 s := by
  have hD : ∀ v, D v → s.Defines v := fun v hv => (h.complete v hv).resolve_left id
  refine ⟨hst.1.mono hD, fun v d hd => (h.recDef v d hd).1.mono hD, fun b u hu => ?_,
    h.distinct, fun k => ?_⟩
  · obtain ⟨-, hsym, herase⟩ := h.memo _ u hu
    cases hsym with
    | symRef v hv => exact ⟨v, rfl, hD v hv⟩
    | plain n br hn _ =>
      rw [erase_plain _ hn, erase_debruijn] at herase
      exact absurd (Tree.node.inj herase).1 hn.1
  · rw [unfoldSym_eq h k hst.1, hst.2, erase_isDeBruijn ρ ht]

/-- From any reachable state, the conversion of a closed de Bruijn tree returns a correct
symbolic version of it. The only failure is that of `unique`, when ten thousand names in a
row are taken: the closedness assertion holds in every recursive call. -/
theorem deBruijn2Sym_correct {s : RecState} (hs : Reachable s) {t : Tree}
    (ht : IsDeBruijn t) (hcl : t.isClosed) :
    match deBruijn2Sym t s with
    | .ok (t2, s') => SymbolicVersion t t2 s'
    | .error e => e = .uniqueOverflow ∧ ¬ s.symbols.Supply "W" := by
  obtain ⟨ρ, D, h⟩ := hs.recInv
  have hout := deBruijn2Sym_converted t s ρ D _ h (ht.mono fun _ => False.elim) hcl
  unfold Outcome at hout
  match deBruijn2Sym t s, hout with
  | .error e, hout => exact hout
  | .ok (t2, s'), hout =>
    obtain ⟨⟨-, ρ', D', h', -, hst⟩, -⟩ := hout
    exact h'.symbolicVersion ht hst

/-- A definition whose body holds a reference to it and a second definition that refers to
both. -/
def nestedRec : Tree :=
  debruijn (.node (.sym .cons) [debruijnRef 1,
    debruijn (.node (.sym .cons) [debruijnRef 2, debruijnRef 1])])

theorem nestedRec_isDeBruijn : IsDeBruijn nestedRec := by
  refine .debruijn _ (.plain _ _ (by decide) ?_)
  simp only [List.forall_mem_cons]
  refine ⟨.debruijnRef 1 one_pos, .debruijn _ (.plain _ _ (by decide) ?_), by simp⟩
  simp only [List.forall_mem_cons]
  exact ⟨.debruijnRef 2 (by decide), .debruijnRef 1 one_pos, by simp⟩

theorem deBruijn2Sym_correct_nestedRec :
    match deBruijn2Sym nestedRec ⟨⟨["W0"], fun _ => 0⟩, fun _ => none, fun _ => none⟩ with
    | .ok (t2, s') => SymbolicVersion nestedRec t2 s'
    | .error e => e = .uniqueOverflow ∧ ¬ (SymbolTable.mk ["W0"] fun _ => 0).Supply "W" :=
  deBruijn2Sym_correct (.start ⟨["W0"], fun _ => 0⟩) nestedRec_isDeBruijn (by decide)

end Faust
