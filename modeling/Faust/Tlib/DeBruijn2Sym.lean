import Faust.Tlib.Symbol
import Faust.Tlib.RecursiveTree

/-!
# From de Bruijn to symbolic recursion (`deBruijn2Sym`)

`deBruijn2Sym` replaces every `DEBRUIJN(body)` by a `SYMREC(var)` with a fresh variable and
records the converted body of `var` under the property `RECDEF`. Its results are memoised
by the property `DEBRUIJN2SYM`. Both properties, and the symbol table `unique` draws from,
are the state threaded through the calls.

The infinite unfolding of a tree is given by its approximations: `unfoldDeBruijn k` and
`unfoldSym k` read `k` levels of it, replacing a recursive definition by its body once a
level.
-/

namespace Faust

open Faust.Tree

/-- What a call of `deBruijn2Sym` reads and writes: the symbol table, the property `RECDEF`
of the symbolic references and the property `DEBRUIJN2SYM` of the trees. -/
structure RecState where
  symbols : SymbolTable
  recDef : Tree → Option Tree
  sym : Tree → Option Tree

namespace RecState

/-- `t->setProperty(DEBRUIJN2SYM, t2)`. -/
def setSym (s : RecState) (t t2 : Tree) : RecState :=
  { s with sym := Function.update s.sym t (some t2) }

/-- `t->setProperty(RECDEF, body)`. -/
def setRecDef (s : RecState) (t body : Tree) : RecState :=
  { s with recDef := Function.update s.recDef t (some body) }

@[simp] theorem setSym_symbols (s : RecState) (t t2 : Tree) :
    (s.setSym t t2).symbols = s.symbols := rfl

@[simp] theorem setSym_recDef (s : RecState) (t t2 : Tree) :
    (s.setSym t t2).recDef = s.recDef := rfl

@[simp] theorem setSym_self (s : RecState) (t t2 : Tree) :
    (s.setSym t t2).sym t = some t2 := Function.update_self ..

theorem setSym_of_ne (s : RecState) {t u : Tree} (h : u ≠ t) (t2 : Tree) :
    (s.setSym t t2).sym u = s.sym u := Function.update_of_ne h ..

@[simp] theorem setRecDef_symbols (s : RecState) (t body : Tree) :
    (s.setRecDef t body).symbols = s.symbols := rfl

@[simp] theorem setRecDef_sym (s : RecState) (t body : Tree) :
    (s.setRecDef t body).sym = s.sym := rfl

@[simp] theorem setRecDef_self (s : RecState) (t body : Tree) :
    (s.setRecDef t body).recDef t = some body := Function.update_self ..

theorem setRecDef_of_ne (s : RecState) {t u : Tree} (h : u ≠ t) (body : Tree) :
    (s.setRecDef t body).recDef u = s.recDef u := Function.update_of_ne h ..

end RecState

/-- How a call can fail: `assert(isClosed(t))`, the exception "one Bruijn reference found",
the `assert(false)` of `Symbol::prefix`. -/
inductive RecError
  | notClosed
  | openReference
  | uniqueOverflow
deriving DecidableEq, Repr

namespace Tree

mutual
theorem size_substitute_le {id : Tree} (hid : id.size ≤ 2) :
    ∀ (t : Tree) (k : ℤ), (substitute t k id).size ≤ t.size
  | .node n br, k => by
    unfold substitute
    split
    · exact le_rfl
    · split
      · split
        · simp only [size, size.sizes]
          omega
        · exact le_rfl
      · rename_i body _
        have := size_substitute_le hid body (k + 1)
        simp only [debruijn, size, size.sizes]
        omega
      · have := sizes_substitutes_le hid br k
        simp only [size]
        omega

theorem sizes_substitutes_le {id : Tree} (hid : id.size ≤ 2) :
    ∀ (ts : List Tree) (k : ℤ), size.sizes (substitutes ts k id) ≤ size.sizes ts
  | [], _ => le_rfl
  | t :: ts, k => by
    have h1 := size_substitute_le hid t k
    have h2 := sizes_substitutes_le hid ts k
    simp only [substitutes, size.sizes]
    omega
end

theorem size_symRef (v : Sym) : (symRef v).size = 2 := rfl

end Tree

/-! ## The conversion -/

/-- A computation over the properties and the symbol table. -/
abbrev RecM := StateT RecState (Except RecError)

/-- `unique(str)`. -/
def uniqueSym (str : String) : RecM Sym := fun s =>
  match SymbolTable.unique str s.symbols with
  | none => .error .uniqueOverflow
  | some (v, T) => .ok (v, { s with symbols := T })

mutual
/-- `deBruijn2Sym`. -/
def deBruijn2Sym (t : Tree) : RecM Tree := do
  if t.isClosed then
    match (← get).sym t with
    | some t2 => return t2
    | none =>
      let t2 ← calcDeBruijn2Sym t
      modify (·.setSym t t2)
      return t2
  else throw .notClosed
termination_by (t.size, 1)

/-- `calcDeBruijn2Sym`. -/
def calcDeBruijn2Sym (t : Tree) : RecM Tree :=
  match t with
  | .node (.sym .debruijn) [body] => do
    let v ← uniqueSym "W"
    let b ← deBruijn2Sym (substitute body 1 (symRef v))
    modify (·.setRecDef (symRef v) b)
    return symRef v
  | .node (.sym .symRec) [_] => return t
  | .node (.sym .debruijnRef) [.node (.int _) _] => throw .openReference
  | .node n br => do
    let br' ← branchesDeBruijn2Sym br
    return .node n br'
termination_by (t.size, 0)
decreasing_by
  · have := size_substitute_le (size_symRef v).le body 1
    simp only [size, size.sizes, Prod.lex_def]
    omega
  · simp only [size, Prod.lex_def]
    omega

/-- The loop of `calcDeBruijn2Sym` over the branches. -/
def branchesDeBruijn2Sym (ts : List Tree) : RecM (List Tree) :=
  match ts with
  | [] => return []
  | t :: ts => do
    let t' ← deBruijn2Sym t
    let ts' ← branchesDeBruijn2Sym ts
    return t' :: ts'
termination_by (size.sizes ts, 2)
decreasing_by
  · simp only [size.sizes, Prod.lex_def]
    omega
  · have := t.size_pos
    simp only [size.sizes, Prod.lex_def]
    omega
end

/-! ## Infinite unfoldings -/

/-- The approximations of an infinite tree: what is seen of it down to some depth. -/
inductive Unfolding
  | cut
  | node (n : Node) (br : List Unfolding)

mutual
/-- `inst u t k`: the tree `t` in which the references that point `k` binders out are
replaced by the closed tree `u`. -/
def inst (u : Tree) : Tree → ℤ → Tree
  | .node n br, k =>
    match n, br with
    | .sym .debruijnRef, [.node (.int l) _] => if l = k then u else .node n br
    | .sym .debruijn, [b] => debruijn (inst u b (k + 1))
    | n, br => .node n (insts u br k)

/-- `inst` on every branch. -/
def insts (u : Tree) : List Tree → ℤ → List Tree
  | [], _ => []
  | t :: ts, k => inst u t k :: insts u ts k
end

/-- The unfolding of a de Bruijn tree: a definition is its body in which the references to
it stand for the definition itself. -/
def unfoldDeBruijn : ℕ → Tree → Unfolding
  | 0, _ => .cut
  | k + 1, .node (.sym .debruijn) [b] => unfoldDeBruijn k (inst (debruijn b) b 1)
  | k + 1, .node n br => .node n (br.map (unfoldDeBruijn k))

/-- The unfolding of a symbolic tree: a reference is the definition recorded for it. -/
def unfoldSym (recDef : Tree → Option Tree) : ℕ → Tree → Unfolding
  | 0, _ => .cut
  | k + 1, .node n br =>
    match recDef (.node n br) with
    | some d => unfoldSym recDef k d
    | none => .node n (br.map (unfoldSym recDef k))

theorem unfoldDeBruijn_plain {n : Node} (hn : Plain n) (br : List Tree) (k : ℕ) :
    unfoldDeBruijn (k + 1) (.node n br) = .node n (br.map (unfoldDeBruijn k)) := by
  rw [unfoldDeBruijn]
  intro b h
  exact absurd h hn.1

theorem unfoldSym_some {recDef : Tree → Option Tree} {t d : Tree} (h : recDef t = some d)
    (k : ℕ) : unfoldSym recDef (k + 1) t = unfoldSym recDef k d := by
  cases t
  rw [unfoldSym, h]

/-- Trees without `DEBRUIJN` and `DEBRUIJNREF` nodes, whose symbolic references satisfy
`V`. -/
inductive Symbolic (V : Sym → Prop) : Tree → Prop
  | symRef (v : Sym) (hv : V v) : Symbolic V (symRef v)
  | plain (n : Node) (br : List Tree) (hn : Plain n) (hbr : ∀ t ∈ br, Symbolic V t) :
      Symbolic V (.node n br)

theorem Symbolic.mono {V W : Sym → Prop} (h : ∀ v, V v → W v) {t : Tree}
    (ht : Symbolic V t) : Symbolic W t := by
  induction ht with
  | symRef v hv => exact .symRef v (h v hv)
  | plain n br hn _ ih => exact .plain n br hn ih

theorem insts_eq_map (u : Tree) (ts : List Tree) (k : ℤ) :
    insts u ts k = ts.map (inst u · k) := by
  induction ts with
  | nil => rfl
  | cons t ts ih => rw [insts, ih, List.map_cons]

theorem inst_debruijnRef (u : Tree) (l k : ℤ) :
    inst u (debruijnRef l) k = if l = k then u else debruijnRef l := rfl

theorem inst_debruijn (u b : Tree) (k : ℤ) :
    inst u (debruijn b) k = debruijn (inst u b (k + 1)) := rfl

theorem inst_symRef (u : Tree) (v : Sym) (k : ℤ) : inst u (symRef v) k = symRef v := by
  have hleaf : inst u (leaf (.sym v)) k = leaf (.sym v) := by
    unfold leaf inst
    split <;> simp_all [insts]
  unfold symRef inst
  simp only [insts, hleaf]

theorem inst_plain (u : Tree) {n : Node} (hn : Plain n) (br : List Tree) (k : ℤ) :
    inst u (.node n br) k = .node n (br.map (inst u · k)) := by
  conv_lhs => unfold inst
  split
  · exact absurd rfl hn.2.1
  · exact absurd rfl hn.1
  · rw [insts_eq_map]

/-- Nothing is replaced in a tree whose references all point less than `k` binders out. -/
theorem inst_of_lt {V : Sym → Prop} (u : Tree) {t : Tree} (ht : WellFormed V t) :
    ∀ {k : ℤ}, 0 < k → t.aperture < k → inst u t k = t := by
  induction ht with
  | debruijnRef l _ =>
    intro k _ h
    rw [inst_debruijnRef, if_neg (by simp at h; omega)]
  | debruijn b _ ih =>
    intro k hk h
    rw [inst_debruijn, ih (by omega) (by simp at h; omega)]
  | symRef v _ => intro k _ _; exact inst_symRef u v k
  | plain n br hn _ ih =>
    intro k hk h
    rw [aperture_node hn] at h
    have hle : ∀ t ∈ br, t.aperture ≤ k - 1 := (maxAperture_le_iff (by omega)).mp (by omega)
    have hid : br.map (inst u · k) = br.map (fun t => t) :=
      List.map_congr_left fun t ht => ih t ht hk (by have := hle t ht; omega)
    rw [inst_plain u hn, hid, List.map_id']

/-! ## Reading the variables back

While a conversion runs, the trees mix both notations: a variable stands for a definition
whose conversion is pending or done. Given the de Bruijn definition `ρ v` that each
variable stands for, `erase ρ` reads a mixed tree back in de Bruijn notation.
-/

mutual
/-- The de Bruijn tree a mixed tree stands for. -/
def erase (ρ : Sym → Tree) : Tree → Tree
  | .node n br =>
    match n, br with
    | .sym .symRec, [.node (.sym v) _] => ρ v
    | n, br => .node n (erases ρ br)

/-- `erase` on every branch. -/
def erases (ρ : Sym → Tree) : List Tree → List Tree
  | [] => []
  | t :: ts => erase ρ t :: erases ρ ts
end

theorem erases_eq_map (ρ : Sym → Tree) (ts : List Tree) :
    erases ρ ts = ts.map (erase ρ) := by
  induction ts with
  | nil => rfl
  | cons t ts ih => rw [erases, ih, List.map_cons]

theorem erase_symRef (ρ : Sym → Tree) (v : Sym) : erase ρ (symRef v) = ρ v := rfl

theorem erase_debruijn (ρ : Sym → Tree) (b : Tree) :
    erase ρ (debruijn b) = debruijn (erase ρ b) := rfl

theorem erase_debruijnRef (ρ : Sym → Tree) (l : ℤ) :
    erase ρ (debruijnRef l) = debruijnRef l := rfl

theorem erase_plain (ρ : Sym → Tree) {n : Node} (hn : Plain n) (br : List Tree) :
    erase ρ (.node n br) = .node n (br.map (erase ρ)) := by
  conv_lhs => unfold erase
  split
  · exact absurd rfl hn.2.2
  · rw [erases_eq_map]

theorem erase_congr {D : Sym → Prop} {ρ ρ' : Sym → Tree} (h : ∀ v, D v → ρ' v = ρ v)
    {t : Tree} (ht : WellFormed D t) : erase ρ' t = erase ρ t := by
  induction ht with
  | debruijnRef l _ => rfl
  | debruijn b _ ih => rw [erase_debruijn, erase_debruijn, ih]
  | symRef v hv => exact h v hv
  | plain n br hn _ ih =>
    rw [erase_plain _ hn, erase_plain _ hn, List.map_congr_left ih]

/-- A pure de Bruijn tree stands for itself. -/
theorem erase_isDeBruijn (ρ : Sym → Tree) {t : Tree} (ht : IsDeBruijn t) :
    erase ρ t = t := by
  induction ht with
  | debruijnRef l _ => rfl
  | debruijn b _ ih => rw [erase_debruijn, ih]
  | symRef v hv => exact hv.elim
  | plain n br hn _ ih =>
    have hid : br.map (erase ρ) = br.map (fun t => t) := List.map_congr_left ih
    rw [erase_plain _ hn, hid, List.map_id']

theorem isDeBruijn_erase {D : Sym → Prop} {ρ : Sym → Tree}
    (hρ : ∀ v, D v → IsDeBruijn (ρ v)) {t : Tree} (ht : WellFormed D t) :
    IsDeBruijn (erase ρ t) := by
  induction ht with
  | debruijnRef l hl => exact .debruijnRef l hl
  | debruijn b _ ih => exact .debruijn _ ih
  | symRef v hv => exact hρ v hv
  | plain n br hn _ ih =>
    rw [erase_plain _ hn]
    refine .plain n _ hn fun t ht => ?_
    obtain ⟨u, hu, rfl⟩ := List.mem_map.mp ht
    exact ih u hu

/-- Reading closed definitions back does not open a tree. -/
theorem aperture_erase_le {D : Sym → Prop} {ρ : Sym → Tree}
    (hρ : ∀ v, D v → (ρ v).isClosed) {t : Tree} (ht : WellFormed D t) :
    (erase ρ t).aperture ≤ t.aperture := by
  induction ht with
  | debruijnRef l _ => exact le_rfl
  | debruijn b _ ih =>
    rw [erase_debruijn, aperture_debruijn, aperture_debruijn]
    omega
  | symRef v hv =>
    rw [erase_symRef, aperture_symRef]
    exact hρ v hv
  | plain n br hn _ ih =>
    rw [erase_plain _ hn, aperture_node hn, aperture_node hn,
      maxAperture_le_iff (maxAperture_nonneg br)]
    intro t ht
    obtain ⟨u, hu, rfl⟩ := List.mem_map.mp ht
    exact (ih u hu).trans ((maxAperture_le_iff (maxAperture_nonneg br)).mp le_rfl u hu)

/-! ## The substitution of a variable for a definition -/

theorem wellFormed_substitute {D D' : Sym → Prop} {v : Sym} (hD : ∀ u, D u → D' u)
    (hv : D' v) {t : Tree} (ht : WellFormed D t) :
    ∀ {k : ℤ}, 0 < k → WellFormed D' (substitute t k (symRef v)) := by
  induction ht with
  | debruijnRef l hl =>
    intro k _
    rw [substitute_debruijnRef]
    split
    · exact .symRef v hv
    · exact .debruijnRef l hl
  | debruijn b _ ih =>
    intro k hk
    rw [substitute_debruijn]
    exact .debruijn _ (ih (by omega))
  | symRef u hu =>
    intro k hk
    rw [substitute_symRef u hk]
    exact .symRef u (hD u hu)
  | plain n br hn _ ih =>
    intro k hk
    rw [substitute_plain hn br hk]
    refine .plain n _ hn fun t ht => ?_
    obtain ⟨u, hu, rfl⟩ := List.mem_map.mp ht
    exact ih u hu hk

/-- Substituting at the level of the deepest free reference closes it. -/
theorem aperture_substitute_le {D : Sym → Prop} (v : Sym) {t : Tree}
    (ht : WellFormed D t) : ∀ {k : ℤ}, 0 < k → t.aperture ≤ k →
      (substitute t k (symRef v)).aperture ≤ k - 1 := by
  induction ht with
  | debruijnRef l _ =>
    intro k hk h
    rw [substitute_debruijnRef]
    simp only [aperture_debruijnRef] at h
    split
    · rw [aperture_symRef]
      omega
    · rw [aperture_debruijnRef]
      omega
  | debruijn b _ ih =>
    intro k hk h
    rw [aperture_debruijn] at h
    have := @ih (k + 1) (by omega) (by omega)
    rw [substitute_debruijn, aperture_debruijn]
    omega
  | symRef u _ =>
    intro k hk _
    rw [substitute_symRef u hk, aperture_symRef]
    omega
  | plain n br hn _ ih =>
    intro k hk h
    rw [aperture_node hn, maxAperture_le_iff (by omega)] at h
    rw [substitute_plain hn br hk, aperture_node hn, maxAperture_le_iff (by omega)]
    intro t ht
    obtain ⟨u, hu, rfl⟩ := List.mem_map.mp ht
    exact ih u hu hk (h u hu)

/-- Read back, the substitution of a fresh variable for a reference is the instantiation of
the reference by the definition the variable stands for. -/
theorem erase_substitute {D : Sym → Prop} {ρ : Sym → Tree} {v : Sym} {p : Tree}
    (hdb : ∀ u, D u → IsDeBruijn (ρ u)) (hcl : ∀ u, D u → (ρ u).isClosed) (hv : ¬ D v)
    {t : Tree} (ht : WellFormed D t) : ∀ {k : ℤ}, 0 < k →
      erase (Function.update ρ v p) (substitute t k (symRef v)) = inst p (erase ρ t) k := by
  induction ht with
  | debruijnRef l _ =>
    intro k _
    rw [substitute_debruijnRef, erase_debruijnRef, inst_debruijnRef]
    split
    · rw [erase_symRef, Function.update_self]
    · rfl
  | debruijn b _ ih =>
    intro k hk
    rw [substitute_debruijn, erase_debruijn, erase_debruijn, inst_debruijn, ih (by omega)]
  | symRef u hu =>
    intro k hk
    have hne : u ≠ v := fun h => hv (h ▸ hu)
    have hclosed : (ρ u).aperture < k := (hcl u hu).trans_lt hk
    rw [substitute_symRef u hk, erase_symRef, erase_symRef, Function.update_of_ne hne,
      inst_of_lt p (hdb u hu) hk hclosed]
  | plain n br hn _ ih =>
    intro k hk
    rw [substitute_plain hn br hk, erase_plain _ hn, erase_plain _ hn, inst_plain _ hn,
      List.map_map, List.map_map]
    exact congrArg _ (List.map_congr_left fun t ht => ih t ht hk)

end Faust
