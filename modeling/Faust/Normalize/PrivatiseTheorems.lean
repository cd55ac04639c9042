import Mathlib.Algebra.BigOperators.Group.Finset.Basic
import Mathlib.Algebra.Order.BigOperators.Group.Finset
import Mathlib.Data.Finset.Card
import Mathlib.Data.Set.Finite.Basic
import Faust.Lib.Outcome
import Faust.Normalize.Privatise

/-!
# What privatisation separates

A label is made once and is put in one write-table, so no two write-tables outside the contents of
the tables write in one table; the contents of the tables are compiled as they are. Everything but
the labels is left.
-/

namespace Faust

open Faust.Tree Outcome

namespace Privatise

open SymbolTable

section
variable (address : Tree → String)

/-- Names are left for keys and labels: no ten thousand of them in a row are in use. -/
structure Supplied (T : SymbolTable) : Prop where
  key : ∀ t, T.Supply (keyName address t)
  label : ∀ t, T.Supply (labelName address t)

variable {address}

theorem keyName_eq (t : Tree) :
    keyName address t = ("PRIVATISE " ++ address t ++ " :") ++ " " := by
  simp [keyName, String.append_assoc]

theorem labelName_eq (t : Tree) :
    labelName address t = ("OWNER IS " ++ address t ++ " :") ++ " " := by
  simp [labelName, String.append_assoc]

theorem Supplied.unique {T T' : SymbolTable} (h : Supplied address T) {p : String} {s : Sym}
    (hp : T.Supply (p ++ " ")) (hu : SymbolTable.unique (p ++ " ") T = some (s, T')) :
    Supplied address T' where
  key := by
    intro t
    rw [keyName_eq]
    exact hp.unique (keyName_eq t ▸ h.key t) hu
  label := by
    intro t
    rw [labelName_eq]
    exact hp.unique (labelName_eq t ▸ h.label t) hu

/-- `unique` makes a tree of a new name. -/
theorem ends_uniqueTree {s : Properties} (h : Supplied address s.symbols) {p : String}
    (hp : s.symbols.Supply (p ++ " ")) :
    Ends (uniqueTree (p ++ " ")) s (fun _ => False) fun l s' => ∃ x T,
      l = leaf (.sym (.user x)) ∧ x ∉ s.symbols.names ∧ T.names = x :: s.symbols.names ∧
        Supplied address T ∧ s' = { s with symbols := T } := by
  obtain ⟨i, T, hT, hnew, hnames, _⟩ := SymbolTable.unique_of_supply hp
  unfold uniqueTree
  apply Ends.get_eq.bind
  intro _ _ hget
  rw [hget.1, hget.2, hT]
  exact ⟨_, T, rfl, hnew, hnames, h.unique hp hT, rfl⟩

end

/-! ## Signals before privatisation -/

/-- The nodes that `computePrivatisation` rebuilds. -/
def IsPlain (n : Node) : Prop :=
  n ≠ .sym .symRec ∧ n ≠ .sym .sigWRTbl ∧ n ≠ .sym .sigTable ∧ n ≠ .sym .sigGen

instance (n : Node) : Decidable (IsPlain n) := by unfold IsPlain; infer_instance

/-- The signals that `sigReadOnlyTable`, `sigWriteReadTable` and the other constructors build: a
generator is the content of a table, a table has no label yet and a write-table is on a table. The
recursive symbols are defined. -/
inductive Signal (recDef : Tree → Option Tree) : Tree → Prop
  | leaf (n : Node) : Signal recDef (leaf n)
  | symbol (var : Tree) (h : (recDef (.node (.sym .symRec) [var])).isSome) :
      Signal recDef (.node (.sym .symRec) [var])
  | table (size content : Tree) : Signal recDef (sigTable nil size content)
  | write (size content idx wrt : Tree) (hidx : Signal recDef idx) (hwrt : Signal recDef wrt) :
      Signal recDef (sigWRTbl nil (sigTable nil size content) idx wrt)
  | node (n : Node) (br : List Tree) (hn : IsPlain n) (hbr : ∀ t ∈ br, Signal recDef t) :
      Signal recDef (.node n br)

/-- The symbols of a tree are names of the table. -/
inductive Named (names : List String) : Tree → Prop
  | node (n : Node) (br : List Tree) (hn : ∀ x, n = .sym (.user x) → x ∈ names)
      (hbr : ∀ t ∈ br, Named names t) : Named names (.node n br)

theorem Named.label {names : List String} {x : String} {br : List Tree}
    (h : Named names (.node (.sym (.user x)) br)) : x ∈ names := by
  cases h with
  | node _ _ hn _ => exact hn x rfl

theorem Named.branch {names : List String} {n : Node} {br : List Tree}
    (h : Named names (.node n br)) : ∀ t ∈ br, Named names t := by
  cases h with
  | node _ _ _ hbr => exact hbr

/-! ## Erasing the labels -/

/-- A symbol that is not in the table yet. -/
def isAdded (T : SymbolTable) : Node → Bool
  | .sym (.user x) => T.isnew x
  | _ => false

mutual
/-- The tree in which the symbols that are not in the table are replaced by `nil`. -/
def eraseLabels (T : SymbolTable) : Tree → Tree
  | .node n br => if isAdded T n then nil else .node n (eraseLabelsOf T br)

def eraseLabelsOf (T : SymbolTable) : List Tree → List Tree
  | [] => []
  | t :: ts => eraseLabels T t :: eraseLabelsOf T ts
end

theorem eraseLabelsOf_eq (T : SymbolTable) (ts : List Tree) :
    eraseLabelsOf T ts = ts.map (eraseLabels T) := by
  induction ts with
  | nil => rfl
  | cons t ts ih => rw [eraseLabelsOf, ih, List.map_cons]

theorem eraseLabels_node {T : SymbolTable} {n : Node} {br : List Tree} (h : isAdded T n = false) :
    eraseLabels T (.node n br) = .node n (br.map (eraseLabels T)) := by
  rw [eraseLabels, h, eraseLabelsOf_eq]
  simp

theorem Named.isAdded {T : SymbolTable} {n : Node} {br : List Tree}
    (h : Named T.names (.node n br)) : isAdded T n = false := by
  unfold Privatise.isAdded
  split
  · next x => simpa [SymbolTable.isnew] using h.label
  · rfl

/-- What has no other symbols than those of the table is left. -/
theorem Named.eraseLabels {T : SymbolTable} {t : Tree} (h : Named T.names t) :
    eraseLabels T t = t := by
  induction h with
  | node n br hn hbr ih =>
    rw [eraseLabels_node (Named.node n br hn hbr).isAdded]
    congr 1
    exact (List.map_congr_left ih).trans (List.map_id br)

/-! ## What is visited and what is not -/

section
variable (recDef : Tree → Option Tree) (r : Tree)

/-- The nodes that a tree leads to without entering the sizes and the contents of tables. -/
inductive Outer : Tree → Prop
  | root : Outer r
  | branch {n : Node} {br : List Tree} {t : Tree} (h : Outer (.node n br))
      (hn : n ≠ .sym .symRec) (htable : n ≠ .sym .sigTable) (ht : t ∈ br) : Outer t
  | definition {var d : Tree} (h : Outer (.node (.sym .symRec) [var]))
      (hd : recDef (.node (.sym .symRec) [var]) = some d) : Outer d

/-- The nodes that the sizes and the contents of these tables lead to, except through the
definition of a recursive symbol that is met outside them: this one is privatised. -/
inductive Inner : Tree → Prop
  | size {id size content : Tree} (h : Outer recDef r (sigTable id size content)) : Inner size
  | content {id size content : Tree} (h : Outer recDef r (sigTable id size content)) :
      Inner content
  | branch {n : Node} {br : List Tree} {t : Tree} (h : Inner (.node n br))
      (hn : n ≠ .sym .symRec) (ht : t ∈ br) : Inner t
  | definition {var d : Tree} (h : Inner (.node (.sym .symRec) [var]))
      (ho : ¬ Outer recDef r (.node (.sym .symRec) [var]))
      (hd : recDef (.node (.sym .symRec) [var]) = some d) : Inner d

end

/-! ## What a visit makes -/

/-- What has been made: the write-tables with their labels, and the recursive symbols met. -/
abbrev Made := Set Tree × Set Tree

theorem Made.le_put (g : Made) (v : Tree) : g ≤ (insert v g.1, g.2) :=
  ⟨Set.subset_insert _ _, le_rfl⟩

theorem Made.le_enter (g : Made) (w : Tree) : g ≤ (g.1, insert w g.2) :=
  ⟨le_rfl, Set.subset_insert _ _⟩

/-- A tree that a signal is privatised to. A write-table that is met again while it is visited, in
the definition of a recursive symbol, is privatised twice. -/
inductive Image (g : Made) : Tree → Tree → Prop
  | leaf (n : Node) : Image g (leaf n) (leaf n)
  | symbol (var : Tree) (h : .node (.sym .symRec) [var] ∈ g.2) :
      Image g (.node (.sym .symRec) [var]) (.node (.sym .symRec) [var])
  | table (size content : Tree) : Image g (sigTable nil size content) (sigTable nil size content)
  | write (label size content idx wrt idx' wrt' : Tree)
      (h : sigWRTbl nil (sigTable label size content) idx' wrt' ∈ g.1)
      (hidx : Image g idx idx') (hwrt : Image g wrt wrt') :
      Image g (sigWRTbl nil (sigTable nil size content) idx wrt)
        (sigWRTbl nil (sigTable label size content) idx' wrt')
  | node (n : Node) (br br' : List Tree) (hn : IsPlain n) (hlen : br.length = br'.length)
      (hbr : ∀ p ∈ br.zip br', Image g p.1 p.2) : Image g (.node n br) (.node n br')

/-- A symbol is privatised to itself. -/
theorem Image.eq_symbol {g : Made} {var v : Tree} (h : Image g (.node (.sym .symRec) [var]) v) :
    v = .node (.sym .symRec) [var] ∧ .node (.sym .symRec) [var] ∈ g.2 := by
  cases h with
  | symbol _ h => exact ⟨rfl, h⟩
  | node _ _ _ hn => exact absurd rfl hn.1

/-- A table that is met is privatised to itself. -/
theorem Image.eq_table {g : Made} {id size content v : Tree}
    (h : Image g (sigTable id size content) v) : v = sigTable id size content ∧ id = nil := by
  cases h with
  | table => exact ⟨rfl, rfl⟩
  | node _ _ _ hn => exact absurd rfl hn.2.2.1

theorem Image.of_table {g : Made} {id size content t : Tree}
    (h : Image g t (sigTable id size content)) : t = sigTable id size content := by
  generalize heq : sigTable id size content = v at h
  cases h with
  | table => rfl
  | node _ _ _ hn =>
    cases heq
    exact absurd rfl hn.2.2.1
  | leaf => exact heq.symm ▸ rfl
  | symbol => exact heq.symm ▸ rfl
  | write => cases heq

theorem Image.eq_nil {g : Made} {t : Tree} (h : Image g t nil) : t = nil := by
  cases h with
  | leaf => rfl
  | node n br _ _ hlen => rw [List.length_eq_zero_iff.1 hlen]; rfl

theorem Image.mono {g g' : Made} (hg : g ≤ g') {t v : Tree} (h : Image g t v) : Image g' t v := by
  induction h with
  | leaf n => exact .leaf n
  | symbol var h => exact .symbol var (hg.2 h)
  | table size content => exact .table size content
  | write label size content idx wrt idx' wrt' h _ _ ih₁ ih₂ =>
    exact .write label size content idx wrt idx' wrt' (hg.1 h) ih₁ ih₂
  | node n br br' hn hlen _ ih => exact .node n br br' hn hlen ih

section
variable (address : Tree → String) (k : Tree) (s₀ : Properties) (r : Tree)

/-- Between two steps of a privatisation that started from `s₀`. In `A` are the symbols whose
definitions are being visited, and the labels that are not in a write-table yet. -/
structure Inv (A : Set Tree) (g : Made) (s : Properties) : Prop where
  supplied : Supplied address s.symbols
  names : ∀ x ∈ s₀.symbols.names, x ∈ s.symbols.names
  image : ∀ t p, s.property t k = some p → Image g t (if p = nil then t else p)
  /-- the labels are new -/
  label : ∀ v ∈ g.1, ∃ x size content idx wrt,
    v = sigWRTbl nil (sigTable (leaf (.sym (.user x))) size content) idx wrt ∧
      x ∈ s.symbols.names ∧ x ∉ s₀.symbols.names
  /-- a label is put in one write-table -/
  separate : ∀ {t id₁ i₁ w₁ id₂ i₂ w₂}, sigWRTbl id₁ t i₁ w₁ ∈ g.1 → sigWRTbl id₂ t i₂ w₂ ∈ g.1 →
    sigWRTbl id₁ t i₁ w₁ = sigWRTbl id₂ t i₂ w₂
  pending : ∀ x, leaf (.sym (.user x)) ∈ A → x ∈ s.symbols.names ∧
    ∀ id size content idx wrt,
      sigWRTbl id (sigTable (leaf (.sym (.user x))) size content) idx wrt ∉ g.1
  met : ∀ w ∈ g.2, (∃ var, w = .node (.sym .symRec) [var]) ∧ Outer s₀.recDef r w ∧
    s.property w k = some nil
  definition : ∀ w ∈ g.2, w ∉ A → ∃ d d', s₀.recDef w = some d ∧ s.recDef w = some d' ∧
    Image g d d'
  unmet : ∀ w, w ∉ g.2 → s.recDef w = s₀.recDef w

variable {address k s₀ r} {A : Set Tree} {g : Made} {s : Properties}

/-- A property that agrees with what has been made. -/
theorem Inv.setProperty (h : Inv address k s₀ r A g s) {t v : Tree}
    (himage : Image g t (if v = nil then t else v)) (hmet : t ∈ g.2 → v = nil) :
    Inv address k s₀ r A g (s.setProperty t k v) where
  supplied := h.supplied
  names := h.names
  image := by
    intro u p hp
    by_cases hu : u = t
    · subst hu
      simp only [Properties.setProperty, Function.update_self, Option.some.injEq] at hp
      exact hp ▸ himage
    · simp only [Properties.setProperty, Function.update_of_ne hu] at hp
      exact h.image u p hp
  label := h.label
  separate := h.separate
  pending := h.pending
  met := by
    intro w hw
    obtain ⟨hvar, ho, hp⟩ := h.met w hw
    refine ⟨hvar, ho, ?_⟩
    by_cases hwt : w = t
    · subst hwt
      simp [Properties.setProperty, hmet hw]
    · simpa only [Properties.setProperty, Function.update_of_ne hwt] using hp
  definition := h.definition
  unmet := h.unmet

/-- A new name is kept for a label. -/
theorem Inv.intern (h : Inv address k s₀ r A g s) {T : SymbolTable} {x : String}
    (hT : Supplied address T) (hnew : x ∉ s.symbols.names)
    (hnames : T.names = x :: s.symbols.names) :
    Inv address k s₀ r (insert (leaf (.sym (.user x))) A) g { s with symbols := T } := by
  have hsub : ∀ y ∈ s.symbols.names, y ∈ T.names := by
    intro y hy
    rw [hnames]
    exact List.mem_cons_of_mem _ hy
  exact {
    supplied := hT
    names := fun y hy => hsub y (h.names y hy)
    image := h.image
    label := by
      intro v hv
      obtain ⟨y, size, content, idx, wrt, heq, hy, hy₀⟩ := h.label v hv
      exact ⟨y, size, content, idx, wrt, heq, hsub y hy, hy₀⟩
    separate := h.separate
    pending := by
      intro y hy
      rcases Set.mem_insert_iff.1 hy with heq | hy
      · simp only [leaf, Tree.node.injEq, Node.sym.injEq, Sym.user.injEq, and_true] at heq
        subst heq
        refine ⟨show y ∈ T.names by rw [hnames]; exact List.mem_cons_self, ?_⟩
        intro id size content idx wrt hmem
        -- the labels in use are names of the table
        obtain ⟨z, _, _, _, _, hz, hmemz, _⟩ := h.label _ hmem
        simp only [sigWRTbl, sigTable, leaf, Tree.node.injEq, List.cons.injEq, Node.sym.injEq,
          Sym.user.injEq] at hz
        exact hnew (hz.2.2.1.2.1.1 ▸ hmemz)
      · exact ⟨hsub y (h.pending y hy).1, (h.pending y hy).2⟩
    met := h.met
    definition := fun w hw hA => h.definition w hw fun hmem => hA (Set.mem_insert_of_mem _ hmem)
    unmet := h.unmet }

/-- The label is put in a write-table. -/
theorem Inv.put {x : String} (h : Inv address k s₀ r (insert (leaf (.sym (.user x))) A) g s)
    (hx₀ : x ∉ s₀.symbols.names) (hxA : leaf (.sym (.user x)) ∉ A) (size content idx wrt : Tree) :
    Inv address k s₀ r A
      (insert (sigWRTbl nil (sigTable (leaf (.sym (.user x))) size content) idx wrt) g.1, g.2)
      s := by
  obtain ⟨hx, hput⟩ := h.pending x (Set.mem_insert _ _)
  have hg := g.le_put (sigWRTbl nil (sigTable (leaf (.sym (.user x))) size content) idx wrt)
  exact {
    supplied := h.supplied
    names := h.names
    image := fun t p hp => (h.image t p hp).mono hg
    label := by
      intro v hv
      rcases Set.mem_insert_iff.1 hv with rfl | hv
      · exact ⟨x, size, content, idx, wrt, rfl, hx, hx₀⟩
      · exact h.label v hv
    separate := by
      intro t id₁ i₁ w₁ id₂ i₂ w₂ h₁ h₂
      rcases Set.mem_insert_iff.1 h₁ with heq₁ | h₁
      · rcases Set.mem_insert_iff.1 h₂ with heq₂ | h₂
        · rw [heq₁, heq₂]
        · simp only [sigWRTbl, Tree.node.injEq, List.cons.injEq, true_and, and_true] at heq₁
          exact absurd (heq₁.2.1 ▸ h₂) (hput _ _ _ _ _)
      · rcases Set.mem_insert_iff.1 h₂ with heq₂ | h₂
        · simp only [sigWRTbl, Tree.node.injEq, List.cons.injEq, true_and, and_true] at heq₂
          exact absurd (heq₂.2.1 ▸ h₁) (hput _ _ _ _ _)
        · exact h.separate h₁ h₂
    pending := by
      intro y hy
      obtain ⟨hmem, hnot⟩ := h.pending y (Set.mem_insert_of_mem _ hy)
      refine ⟨hmem, ?_⟩
      intro id size' content' idx' wrt' hin
      rcases Set.mem_insert_iff.1 hin with heq | hin
      · simp only [sigWRTbl, sigTable, leaf, Tree.node.injEq, List.cons.injEq, Node.sym.injEq,
          Sym.user.injEq] at heq
        exact hxA (heq.2.2.1.2.1.1 ▸ hy)
      · exact hnot id size' content' idx' wrt' hin
    met := h.met
    definition := by
      intro w hw hA
      obtain ⟨⟨var, hvar⟩, _⟩ := h.met w hw
      obtain ⟨d, d', hd, hd', himage⟩ := h.definition w hw fun hmem => by
        rcases Set.mem_insert_iff.1 hmem with heq | hmem
        · rw [hvar] at heq
          cases heq
        · exact hA hmem
      exact ⟨d, d', hd, hd', himage.mono hg⟩
    unmet := h.unmet }

/-- A symbol is met before its definition is visited. -/
theorem Inv.enter (h : Inv address k s₀ r A g s) {var : Tree}
    (ho : Outer s₀.recDef r (.node (.sym .symRec) [var])) :
    Inv address k s₀ r (insert (.node (.sym .symRec) [var]) A)
      (g.1, insert (.node (.sym .symRec) [var]) g.2)
      (s.setProperty (.node (.sym .symRec) [var]) k nil) := by
  have hg := g.le_enter (.node (.sym .symRec) [var])
  exact {
    supplied := h.supplied
    names := h.names
    image := by
      intro u p hp
      by_cases hu : u = .node (.sym .symRec) [var]
      · subst hu
        simp only [Properties.setProperty, Function.update_self, Option.some.injEq] at hp
        rw [if_pos hp.symm]
        exact .symbol var (Set.mem_insert _ _)
      · simp only [Properties.setProperty, Function.update_of_ne hu] at hp
        exact (h.image u p hp).mono hg
    label := h.label
    separate := h.separate
    pending := fun x hx => h.pending x ((Set.mem_insert_iff.1 hx).resolve_left nofun)
    met := by
      intro w hw
      by_cases hwt : w = .node (.sym .symRec) [var]
      · subst hwt
        exact ⟨⟨var, rfl⟩, ho, by simp [Properties.setProperty]⟩
      · obtain ⟨hvar, ho', hp⟩ := h.met w ((Set.mem_insert_iff.1 hw).resolve_left hwt)
        refine ⟨hvar, ho', ?_⟩
        simpa only [Properties.setProperty, Function.update_of_ne hwt] using hp
    definition := by
      intro w hw hA
      obtain ⟨d, d', hd, hd', himage⟩ := h.definition w
        ((Set.mem_insert_iff.1 hw).resolve_left fun heq => hA (Set.mem_insert_iff.2 (Or.inl heq)))
        fun hmem => hA (Set.mem_insert_of_mem _ hmem)
      exact ⟨d, d', hd, hd', himage.mono hg⟩
    unmet := fun w hw => h.unmet w fun hmem => hw (Set.mem_insert_of_mem _ hmem) }

/-- The definition of a symbol is replaced after its visit. -/
theorem Inv.leave {var d d' : Tree}
    (h : Inv address k s₀ r (insert (.node (.sym .symRec) [var]) A) g s)
    (hmet : .node (.sym .symRec) [var] ∈ g.2) (hd : s₀.recDef (.node (.sym .symRec) [var]) = some d)
    (himage : Image g d d') :
    Inv address k s₀ r A g (s.setRecDef (.node (.sym .symRec) [var]) d') where
  supplied := h.supplied
  names := h.names
  image := h.image
  label := h.label
  separate := h.separate
  pending := fun x hx => h.pending x (Set.mem_insert_of_mem _ hx)
  met := h.met
  definition := by
    intro w hw hA
    by_cases hwt : w = .node (.sym .symRec) [var]
    · subst hwt
      exact ⟨d, d', hd, by simp [Properties.setRecDef], himage⟩
    · obtain ⟨e, e', he, he', himage'⟩ := h.definition w hw fun hmem =>
        hA ((Set.mem_insert_iff.1 hmem).resolve_left hwt)
      refine ⟨e, e', he, ?_, himage'⟩
      simpa only [Properties.setRecDef, Function.update_of_ne hwt] using he'
  unmet := by
    intro w hw
    have hwt : w ≠ .node (.sym .symRec) [var] := fun heq => hw (heq ▸ hmet)
    simpa only [Properties.setRecDef, Function.update_of_ne hwt] using h.unmet w hw

end

/-! ### The depth of a visit -/

section
variable (recDef : Tree → Option Tree) (D : Finset Tree)

/-- The size of the definition of a symbol. -/
def defSize (w : Tree) : ℕ := ((recDef w).map Tree.size).getD 0

open Classical in
/-- What the definitions of the symbols that are not met yet may add to the depth of a visit. -/
noncomputable def depthLeft (g : Made) : ℕ :=
  ∑ w ∈ D.filter (· ∉ g.2), (1 + defSize recDef w)

variable {recDef D}

theorem depthLeft_mono {g g' : Made} (hg : g ≤ g') :
    depthLeft recDef D g' ≤ depthLeft recDef D g := by
  unfold depthLeft
  apply Finset.sum_le_sum_of_subset
  intro w hw
  simp only [Finset.mem_filter] at hw ⊢
  exact ⟨hw.1, fun hmem => hw.2 (hg.2 hmem)⟩

open Classical in
theorem depthLeft_enter {w d : Tree} (hd : recDef w = some d) (hw : w ∈ D) {g g' : Made}
    (hg : g ≤ g') (hnew : w ∉ g.2) (hw' : w ∈ g'.2) :
    depthLeft recDef D g' + (1 + d.size) ≤ depthLeft recDef D g := by
  have hsize : 1 + d.size = 1 + defSize recDef w := by simp [defSize, hd]
  have hnot : w ∉ D.filter (· ∉ g'.2) := by simp [hw']
  have hsub : insert w (D.filter (· ∉ g'.2)) ⊆ D.filter (· ∉ g.2) := by
    intro u hu
    rcases Finset.mem_insert.1 hu with rfl | hu
    · exact Finset.mem_filter.2 ⟨hw, hnew⟩
    · obtain ⟨hD, hmem⟩ := Finset.mem_filter.1 hu
      exact Finset.mem_filter.2 ⟨hD, fun h => hmem (hg.2 h)⟩
  calc depthLeft recDef D g' + (1 + d.size)
      = ∑ u ∈ insert w (D.filter (· ∉ g'.2)), (1 + defSize recDef u) := by
        rw [Finset.sum_insert hnot, hsize, Nat.add_comm]
        rfl
    _ ≤ depthLeft recDef D g := Finset.sum_le_sum_of_subset hsub

end

/-! ### The visits -/

section
variable (address : Tree → String) (k : Tree) (s₀ : Properties) (r : Tree)

/-- A computation that privatises `t`. -/
def Privatises (A : Set Tree) (g : Made) (s : Properties) (t : Tree) (x : M Tree) : Prop :=
  Ends x s (fun _ => False) fun v s' =>
    ∃ g', g ≤ g' ∧ Inv address k s₀ r A g' s' ∧ Image g' t v

/-- The branches of `br` are privatised by `f` in every state that `D` and the bound `B` allow. -/
def Branches (D : Finset Tree) (B : ℕ) (f : Tree → M Tree) (br : List Tree) : Prop :=
  ∀ t ∈ br, ∀ A g s, Inv address k s₀ r A g s → depthLeft s₀.recDef D g ≤ B →
    Privatises address k s₀ r A g s t (f t)

variable {address k s₀ r} {A : Set Tree} {g : Made} {s : Properties} {D : Finset Tree} {B : ℕ}
  {f : Tree → M Tree}

theorem Branches.mapM {br : List Tree} (hf : Branches address k s₀ r D B f br)
    (h : Inv address k s₀ r A g s) (hB : depthLeft s₀.recDef D g ≤ B) :
    Ends (br.mapM f) s (fun _ => False) fun vs s' =>
      ∃ g', g ≤ g' ∧ Inv address k s₀ r A g' s' ∧ List.Forall₂ (Image g') br vs := by
  have hmap := Ends.mapM_ghost (E := fun _ => False) (R := fun g t v => Image g t v)
    (I := fun g s => Inv address k s₀ r A g s ∧ depthLeft s₀.recDef D g ≤ B)
    (fun hg himage => himage.mono hg) (l := br) (f := f) (g := g) (s := s) ?_ ⟨h, hB⟩
  · apply hmap.mono
    intro vs s' hvs
    obtain ⟨g', hg, ⟨hinv, _⟩, hall⟩ := hvs
    exact ⟨g', hg, hinv, hall⟩
  · intro t ht g s hI
    apply (hf t ht A g s hI.1 hI.2).mono
    intro v s' hv
    obtain ⟨g', hg, hinv, himage⟩ := hv
    exact ⟨g', hg, ⟨hinv, (depthLeft_mono hg).trans hI.2⟩, himage⟩

theorem computePrivatisation_node {n : Node} {br : List Tree} (hn : IsPlain n) :
    computePrivatisation address f k (.node n br) =
      (do return .node n (← br.mapM f)) := by
  unfold computePrivatisation
  split
  · next heq => exact absurd (Tree.node.inj heq).1 hn.2.1
  · next heq => exact absurd (Tree.node.inj heq).1 hn.2.2.1
  · next heq => exact absurd (Tree.node.inj heq).1 hn.2.2.2
  · next heq => exact absurd (Tree.node.inj heq).1 hn.1
  · next heq =>
    cases heq
    rfl

/-- The nodes that are rebuilt. -/
theorem privatises_node {n : Node} {br : List Tree} (hn : IsPlain n)
    (hf : Branches address k s₀ r D B f br) (h : Inv address k s₀ r A g s)
    (hB : depthLeft s₀.recDef D g ≤ B) :
    Privatises address k s₀ r A g s (.node n br)
      (computePrivatisation address f k (.node n br)) := by
  rw [computePrivatisation_node hn]
  apply (hf.mapM h hB).bind
  intro vs s' hvs
  obtain ⟨g', hg, hinv, hall⟩ := hvs
  obtain ⟨hlen, hzip⟩ := List.forall₂_iff_zip.1 hall
  exact .pure ⟨g', hg, hinv, .node n br vs hn hlen fun p hp => hzip hp⟩

/-- A write-table gets a label of its own. -/
theorem privatises_write {size content idx wrt : Tree}
    (hf : Branches address k s₀ r D B f [sigTable nil size content, idx, wrt])
    (h : Inv address k s₀ r A g s) (hB : depthLeft s₀.recDef D g ≤ B) :
    Privatises address k s₀ r A g s (sigWRTbl nil (sigTable nil size content) idx wrt)
      (computePrivatisation address f k (sigWRTbl nil (sigTable nil size content) idx wrt)) := by
  show Ends (makePrivatisationLabel address _ >>= fun label => _) s _ _
  unfold makePrivatisationLabel
  rw [labelName_eq]
  apply (ends_uniqueTree h.supplied (labelName_eq _ ▸ h.supplied.label _)).bind
  intro label s₁ hlabel
  obtain ⟨x, T, rfl, hnew, hnames, hT, rfl⟩ := hlabel
  have h₁ := h.intern hT hnew hnames
  have hx₀ : x ∉ s₀.symbols.names := fun hx => hnew (h.names x hx)
  have hxA : leaf (.sym (.user x)) ∉ A := fun hx => hnew (h.pending x hx).1
  apply (hf _ (by simp) _ _ _ h₁ hB).bind
  intro tbl s₂ htbl
  obtain ⟨g₂, hg₂, h₂, himage⟩ := htbl
  -- the table is not changed by its own visit
  obtain ⟨rfl, _⟩ := himage.eq_table
  show Ends (f idx >>= fun idx' => f wrt >>= fun wrt' => pure
    (sigWRTbl nil (sigTable (leaf (.sym (.user x))) size content) idx' wrt')) s₂ _ _
  apply (hf idx (by simp) _ _ _ h₂ ((depthLeft_mono hg₂).trans hB)).bind
  intro idx' s₃ hidx
  obtain ⟨g₃, hg₃, h₃, hidx'⟩ := hidx
  apply (hf wrt (by simp) _ _ _ h₃ ((depthLeft_mono (hg₂.trans hg₃)).trans hB)).bind
  intro wrt' s₄ hwrt
  obtain ⟨g₄, hg₄, h₄, hwrt'⟩ := hwrt
  have hput := h₄.put hx₀ hxA size content idx' wrt'
  have hg₅ := g₄.le_put (sigWRTbl nil (sigTable (leaf (.sym (.user x))) size content) idx' wrt')
  refine .pure ⟨_, ((hg₂.trans hg₃).trans hg₄).trans hg₅, hput, ?_⟩
  exact .write _ size content idx wrt idx' wrt' (Set.mem_insert _ _)
    (hidx'.mono (hg₄.trans hg₅)) (hwrt'.mono hg₅)

/-- The definition of a symbol is visited the first time the symbol is met. -/
theorem privatises_symbol {var d : Tree} (hd : s₀.recDef (.node (.sym .symRec) [var]) = some d)
    (ho : Outer s₀.recDef r (.node (.sym .symRec) [var]))
    (hnew : .node (.sym .symRec) [var] ∉ g.2)
    (hB : depthLeft s₀.recDef D (g.1, insert (.node (.sym .symRec) [var]) g.2) ≤ B)
    (hf : Branches address k s₀ r D B f [d]) (h : Inv address k s₀ r A g s) :
    Privatises address k s₀ r A g s (.node (.sym .symRec) [var])
      (computePrivatisation address f k (.node (.sym .symRec) [var])) := by
  have hrec : s.recDef (.node (.sym .symRec) [var]) = some d := by rw [h.unmet _ hnew, hd]
  show Ends (get >>= fun s => require (s.recDef (.node (.sym .symRec) [var])) >>= fun body => _) s
    _ _
  apply Ends.get_eq.bind
  intro _ _ hget
  rw [hget.1, hget.2, hrec]
  show Ends (modify (·.setProperty (.node (.sym .symRec) [var]) k nil) >>= fun _ => f d >>=
    fun body => modify (·.setRecDef (.node (.sym .symRec) [var]) body) >>= fun _ =>
      pure (Tree.node (.sym .symRec) [var])) s _ _
  apply Ends.modify_bind
  apply (hf d (by simp) _ _ _ (h.enter ho) hB).bind
  intro d' s₂ hd'
  obtain ⟨g₂, hg₂, h₂, himage⟩ := hd'
  have hmet : .node (.sym .symRec) [var] ∈ g₂.2 := hg₂.2 (Set.mem_insert _ _)
  have hg : g ≤ g₂ := (g.le_enter _).trans hg₂
  apply Ends.modify_bind
  exact .pure ⟨g₂, hg, h₂.leave hmet hd himage, .symbol var hmet⟩

end

section
variable {address : Tree → String} {k : Tree} {s₀ : Properties} {r : Tree} {D : Finset Tree}

/-- A signal met outside the tables is privatised, when the depth is enough for it and for the
definitions that are left. -/
theorem privatises (hsig : ∀ t, Outer s₀.recDef r t → Signal s₀.recDef t)
    (hD : ∀ w d, s₀.recDef w = some d → w ∈ D) {fuel : ℕ} {t : Tree} {A : Set Tree} {g : Made}
    {s : Properties} (ho : Outer s₀.recDef r t)
    (hfuel : t.size + depthLeft s₀.recDef D g ≤ fuel) (h : Inv address k s₀ r A g s) :
    Privatises address k s₀ r A g s t (privatisation address k fuel t) := by
  induction fuel generalizing t A g s with
  | zero =>
    have := t.size_pos
    omega
  | succ fuel ih =>
    have hbranches : ∀ br B, (∀ u ∈ br, Outer s₀.recDef r u ∧ u.size + B ≤ fuel) →
        Branches address k s₀ r D B (privatisation address k fuel) br := by
      intro br B hbr u hu A' g' s' h' hB
      have := hbr u hu
      exact ih this.1 (by omega) h'
    have hsize : ∀ n br, t = .node n br → ∀ u ∈ br, u.size + depthLeft s₀.recDef D g ≤ fuel := by
      intro n br heq u hu
      have := size_lt_of_mem (n := n) hu
      rw [← heq] at this
      omega
    unfold privatisation
    split
    · next hleaf =>
      obtain ⟨n, br⟩ := t
      obtain rfl : br = [] := hleaf
      exact Ends.pure ⟨g, le_rfl, h, .leaf n⟩
    · next hbr =>
      apply Ends.get_eq.bind
      intro _ _ hget
      rw [hget.1, hget.2]
      cases hp : s.property t k with
      | some p => exact Ends.pure ⟨g, le_rfl, h, h.image t p hp⟩
      | none =>
        have hcompute : Privatises address k s₀ r A g s t
            (computePrivatisation address (privatisation address k fuel) k t) := by
          have hsigt := hsig t ho
          cases hsigt with
          | leaf n => exact absurd rfl hbr
          | symbol var hdef =>
            obtain ⟨d, hd⟩ := Option.isSome_iff_exists.1 hdef
            have hnew : .node (.sym .symRec) [var] ∉ g.2 := by
              intro hmem
              rw [(h.met _ hmem).2.2] at hp
              cases hp
            have hleft := depthLeft_enter hd (hD _ _ hd) (g.le_enter _) hnew (Set.mem_insert _ _)
            apply privatises_symbol hd ho hnew le_rfl (hbranches [d] _ ?_) h
            intro u hu
            obtain rfl := List.mem_singleton.1 hu
            refine ⟨.definition ho hd, ?_⟩
            omega
          | table size content => exact Ends.pure ⟨g, le_rfl, h, .table size content⟩
          | write size content idx wrt hidx hwrt =>
            apply privatises_write (hbranches _ _ ?_) h le_rfl
            intro u hu
            refine ⟨.branch ho nofun nofun (List.mem_cons_of_mem _ hu), ?_⟩
            exact hsize _ _ rfl u (List.mem_cons_of_mem _ hu)
          | node n br hn hbr' =>
            apply privatises_node hn (hbranches _ _ ?_) h le_rfl
            intro u hu
            exact ⟨.branch ho hn.1 hn.2.2.1 hu, hsize n br rfl u hu⟩
        apply hcompute.bind
        intro v s' hv
        obtain ⟨g', hg, hinv, himage⟩ := hv
        have hset : Inv address k s₀ r A g' (s'.setProperty t k (if v = t then nil else v)) := by
          apply hinv.setProperty
          · by_cases hvt : v = t
            · rw [if_pos hvt, if_pos rfl]
              exact hvt ▸ himage
            · have hnil : v ≠ nil := fun heq => hvt (heq.trans (heq ▸ himage).eq_nil.symm)
              rw [if_neg hvt, if_neg hnil]
              exact himage
          · intro hmem
            obtain ⟨var, rfl⟩ := (hinv.met t hmem).1
            rw [if_pos himage.eq_symbol.1]
        apply Ends.modify_bind
        exact .pure ⟨g', hg, hset, himage⟩

end

/-! ## The graph of the result -/

/-- The properties and the symbols that a privatisation can start from. -/
structure Ready (address : Tree → String) (s : Properties) : Prop where
  supplied : Supplied address s.symbols
  key : ∀ t k, s.property t k ≠ none → Named s.symbols.names k
  definition : ∀ w d, s.recDef w = some d → Signal s.recDef d ∧ Named s.symbols.names d
  finite : {w | s.recDef w ≠ none}.Finite

section
variable {recDef : Tree → Option Tree} {t : Tree}

theorem Signal.branch {n : Node} {br : List Tree} (h : Signal recDef (.node n br))
    (hn : n ≠ .sym .symRec) (htable : n ≠ .sym .sigTable) : ∀ u ∈ br, Signal recDef u := by
  intro u hu
  cases h with
  | leaf => cases hu
  | symbol => exact absurd rfl hn
  | table => exact absurd rfl htable
  | write size content idx wrt hidx hwrt =>
    simp only [List.mem_cons, List.not_mem_nil, or_false] at hu
    rcases hu with rfl | rfl | rfl | rfl
    · exact .leaf _
    · exact .table size content
    · exact hidx
    · exact hwrt
  | node _ _ _ hbr => exact hbr u hu

theorem Outer.signal (ht : Signal recDef t)
    (hdef : ∀ w d, recDef w = some d → Signal recDef d) {u : Tree} (h : Outer recDef t u) :
    Signal recDef u := by
  induction h with
  | root => exact ht
  | branch _ hn htable hu ih => exact ih.branch hn htable _ hu
  | definition _ hd _ => exact hdef _ _ hd

variable {names : List String}

theorem Outer.named (ht : Named names t) (hdef : ∀ w d, recDef w = some d → Named names d)
    {u : Tree} (h : Outer recDef t u) : Named names u := by
  induction h with
  | root => exact ht
  | branch _ _ _ hu ih => exact ih.branch _ hu
  | definition _ hd _ => exact hdef _ _ hd

theorem Inner.named (ht : Named names t) (hdef : ∀ w d, recDef w = some d → Named names d)
    {u : Tree} (h : Inner recDef t u) : Named names u := by
  induction h with
  | size h => exact (h.named ht hdef).branch _ (by simp)
  | content h => exact (h.named ht hdef).branch _ (by simp)
  | branch _ _ hu ih => exact ih.branch _ hu
  | definition _ _ hd _ => exact hdef _ _ hd

/-- Everything in the graph of a signal is met outside the tables, is inside them, or is the `nil`
of a table without label. -/
theorem outer_or_inner (hsig : ∀ u, Outer recDef t u → Signal recDef u) {u : Tree}
    (h : InGraph recDef t u) : Outer recDef t u ∨ Inner recDef t u ∨ u = nil := by
  induction h with
  | root => exact Or.inl .root
  | @branch n br u _ hn hu ih =>
    rcases ih with ho | hi | hnil
    · by_cases htable : n = .sym .sigTable
      · subst htable
        cases hsig _ ho with
        | leaf => cases hu
        | table size content =>
          simp only [List.mem_cons, List.not_mem_nil, or_false] at hu
          rcases hu with rfl | rfl | rfl
          · exact Or.inr (Or.inr rfl)
          · exact Or.inr (Or.inl (.size ho))
          · exact Or.inr (Or.inl (.content ho))
        | node _ _ hplain => exact absurd rfl hplain.2.2.1
      · exact Or.inl (.branch ho hn htable hu)
    · exact Or.inr (Or.inl (.branch hi hn hu))
    · cases hnil
      cases hu
  | @definition var d _ hd ih =>
    rcases ih with ho | hi | hnil
    · exact Or.inl (.definition ho hd)
    · by_cases ho : Outer recDef t (.node (.sym .symRec) [var])
      · exact Or.inl (.definition ho hd)
      · exact Or.inr (Or.inl (.definition hi ho hd))
    · cases hnil

theorem Outer.inGraph {u : Tree} (h : Outer recDef t u) : InGraph recDef t u := by
  induction h with
  | root => exact .root
  | branch _ hn _ hu ih => exact .branch ih hn hu
  | definition _ hd ih => exact .definition ih hd

theorem Inner.inGraph {u : Tree} (h : Inner recDef t u) : InGraph recDef t u := by
  induction h with
  | size h => exact .branch h.inGraph nofun (by simp)
  | content h => exact .branch h.inGraph nofun (by simp)
  | branch _ hn hu ih => exact .branch ih hn hu
  | definition _ _ hd ih => exact .definition ih hd

end

/-! ### Positions of branches -/

theorem exists_mem_zip {br br' : List Tree} (hlen : br.length = br'.length) {u : Tree}
    (hu : u ∈ br) : ∃ u' ∈ br', (u, u') ∈ br.zip br' := by
  obtain ⟨i, hi, rfl⟩ := List.getElem_of_mem hu
  refine ⟨br'[i], List.getElem_mem _, ?_⟩
  exact List.mem_iff_getElem.2 ⟨i, by simp [hi, hlen ▸ hi], by simp⟩

theorem exists_mem_zip' {br br' : List Tree} (hlen : br.length = br'.length) {u' : Tree}
    (hu : u' ∈ br') : ∃ u ∈ br, (u, u') ∈ br.zip br' := by
  obtain ⟨i, hi, rfl⟩ := List.getElem_of_mem hu
  refine ⟨br[i], List.getElem_mem _, ?_⟩
  exact List.mem_iff_getElem.2 ⟨i, by simp [hi, hlen ▸ hi], by simp⟩

section
variable {address : Tree → String} {k : Tree} {s₀ s : Properties} {t r : Tree} {g : Made}

/-- A signal met outside the tables has an image in the result. A table that is only written has
labelled ones instead. -/
theorem Inv.exists_image (h : Inv address k s₀ t ∅ g s) (himage : Image g t r) {u : Tree}
    (ho : Outer s₀.recDef t u) :
    (∃ v, Image g u v ∧ InGraph s.recDef r v) ∨
      ∃ label size content, u = sigTable nil size content ∧
        InGraph s.recDef r (sigTable label size content) := by
  induction ho with
  | root => exact Or.inl ⟨r, himage, .root⟩
  | @branch n br u _ hn htable hu ih =>
    rcases ih with ⟨v, hv, hin⟩ | ⟨label, size, content, heq, _⟩
    · cases hv with
      | leaf => cases hu
      | symbol => exact absurd rfl hn
      | table => exact absurd rfl htable
      | write label size content idx wrt idx' wrt' _ hidx hwrt =>
        simp only [List.mem_cons, List.not_mem_nil, or_false] at hu
        rcases hu with rfl | rfl | rfl | rfl
        · exact Or.inl ⟨nil, .leaf _, .branch hin nofun (by simp)⟩
        · exact Or.inr ⟨label, size, content, rfl, .branch hin nofun (by simp)⟩
        · exact Or.inl ⟨idx', hidx, .branch hin nofun (by simp)⟩
        · exact Or.inl ⟨wrt', hwrt, .branch hin nofun (by simp)⟩
      | node _ _ br' _ hlen hbr =>
        obtain ⟨u', hu', hzip⟩ := exists_mem_zip hlen hu
        exact Or.inl ⟨u', hbr _ hzip, .branch hin hn hu'⟩
    · exact absurd (Tree.node.inj heq).1 htable
  | @definition var d _ hd ih =>
    rcases ih with ⟨v, hv, hin⟩ | ⟨label, size, content, heq, _⟩
    · obtain ⟨rfl, hmet⟩ := hv.eq_symbol
      obtain ⟨e, d', he, hd', himage'⟩ := h.definition _ hmet (Set.notMem_empty _)
      rw [hd] at he
      cases he
      exact Or.inl ⟨d', himage', .definition hin hd'⟩
    · cases heq

/-- What is inside the tables is left in the result. -/
theorem Inv.inner_inGraph (h : Inv address k s₀ t ∅ g s) (himage : Image g t r) {u : Tree}
    (hu : Inner s₀.recDef t u) : InGraph s.recDef r u := by
  have htable : ∀ {id size content}, Outer s₀.recDef t (sigTable id size content) →
      ∃ label, InGraph s.recDef r (sigTable label size content) := by
    intro id size content ho
    rcases h.exists_image himage ho with ⟨v, hv, hin⟩ | ⟨label, size', content', heq, hin⟩
    · exact ⟨id, hv.eq_table.1 ▸ hin⟩
    · cases heq
      exact ⟨label, hin⟩
  induction hu with
  | size ho =>
    obtain ⟨_, hin⟩ := htable ho
    exact .branch hin nofun (by simp)
  | content ho =>
    obtain ⟨_, hin⟩ := htable ho
    exact .branch hin nofun (by simp)
  | branch _ hn hu ih => exact .branch ih hn hu
  | definition _ ho hd ih =>
    -- a symbol that is not met outside the tables keeps its definition
    exact .definition ih ((h.unmet _ fun hmem => ho (h.met _ hmem).2.1).trans hd)

/-- A node of the result. -/
inductive Part (recDef : Tree → Option Tree) (t : Tree) (g : Made) : Tree → Prop
  | image {u v : Tree} (ho : Outer recDef t u) (h : Image g u v) : Part recDef t g v
  | inner {u : Tree} (h : Inner recDef t u) : Part recDef t g u
  | table {n : Node} {size content : Tree} (ho : Outer recDef t (sigTable nil size content)) :
      Part recDef t g (sigTable (leaf n) size content)
  | leaf (n : Node) : Part recDef t g (leaf n)

theorem Inv.part_branch (h : Inv address k s₀ t ∅ g s) {n : Node} {br : List Tree}
    (hn : n ≠ .sym .symRec) (hpart : Part s₀.recDef t g (.node n br)) :
    ∀ u ∈ br, Part s₀.recDef t g u := by
  intro u hu
  generalize heq : Tree.node n br = v at hpart
  cases hpart with
  | image ho himage =>
    cases himage with
    | leaf =>
      cases heq
      cases hu
    | symbol =>
      cases heq
      exact absurd rfl hn
    | table size content =>
      cases heq
      simp only [List.mem_cons, List.not_mem_nil, or_false] at hu
      rcases hu with rfl | rfl | rfl
      · exact .leaf _
      · exact .inner (.size ho)
      · exact .inner (.content ho)
    | write label size content idx wrt idx' wrt' hmade hidx hwrt =>
      cases heq
      obtain ⟨x, _, _, _, _, hlabel, _⟩ := h.label _ hmade
      cases hlabel
      simp only [List.mem_cons, List.not_mem_nil, or_false] at hu
      rcases hu with rfl | rfl | rfl | rfl
      · exact .leaf _
      · exact .table (.branch ho nofun nofun (by simp))
      · exact .image (.branch ho nofun nofun (by simp)) hidx
      · exact .image (.branch ho nofun nofun (by simp)) hwrt
    | node _ br₀ _ hplain hlen hbr =>
      cases heq
      obtain ⟨u₀, hu₀, hzip⟩ := exists_mem_zip' hlen hu
      exact .image (.branch ho hplain.1 hplain.2.2.1 hu₀) (hbr _ hzip)
  | inner hi =>
    cases heq
    exact .inner (.branch hi hn hu)
  | table ho =>
    cases heq
    simp only [List.mem_cons, List.not_mem_nil, or_false] at hu
    rcases hu with rfl | rfl | rfl
    · exact .leaf _
    · exact .inner (.size ho)
    · exact .inner (.content ho)
  | leaf =>
    cases heq
    cases hu

theorem Inv.part_definition (h : Inv address k s₀ t ∅ g s) (himage : Image g t r) {var d : Tree}
    (hpart : Part s₀.recDef t g (.node (.sym .symRec) [var]))
    (hd : s.recDef (.node (.sym .symRec) [var]) = some d) : Part s₀.recDef t g d := by
  have houter : Outer s₀.recDef t (.node (.sym .symRec) [var]) → Part s₀.recDef t g d := by
    intro ho
    rcases h.exists_image himage ho with ⟨v, hv, _⟩ | ⟨_, _, _, heq, _⟩
    · obtain ⟨e, d', he, hd', himage'⟩ := h.definition _ hv.eq_symbol.2 (Set.notMem_empty _)
      rw [hd] at hd'
      cases hd'
      exact .image (.definition ho he) himage'
    · cases heq
  generalize heq : Tree.node (.sym .symRec) [var] = v at hpart
  cases hpart with
  | image ho hv =>
    cases hv with
    | symbol => exact houter (heq ▸ ho)
    | node _ _ _ hplain =>
      cases heq
      exact absurd rfl hplain.1
    | leaf => cases heq
    | table => cases heq
    | write => cases heq
  | inner hi =>
    cases heq
    by_cases ho : Outer s₀.recDef t (.node (.sym .symRec) [var])
    · exact houter ho
    · rw [h.unmet _ fun hmem => ho (h.met _ hmem).2.1] at hd
      exact .inner (.definition hi ho hd)
  | table => cases heq
  | leaf => cases heq

theorem Inv.part (h : Inv address k s₀ t ∅ g s) (himage : Image g t r) {v : Tree}
    (hv : InGraph s.recDef r v) : Part s₀.recDef t g v := by
  induction hv with
  | root => exact .image .root himage
  | branch _ hn hu ih => exact h.part_branch hn ih _ hu
  | definition _ hd ih => exact h.part_definition himage ih hd

end

/-! ## What privatisation is for -/

/-- No two distinct write-tables among these nodes write in one table. -/
def SeparateIn (P : Tree → Prop) : Prop :=
  ∀ tbl id₁ i₁ w₁ id₂ i₂ w₂, P (sigWRTbl id₁ tbl i₁ w₁) → P (sigWRTbl id₂ tbl i₂ w₂) →
    sigWRTbl id₁ tbl i₁ w₁ = sigWRTbl id₂ tbl i₂ w₂

/-- The tables that are read without being written there. -/
def readTables (recDef : Tree → Option Tree) (r : Tree) : Set Tree :=
  {tbl | (∃ id size content, tbl = sigTable id size content) ∧
    ∃ idx, InGraph recDef r (sigRDTbl tbl idx)}

/-- The signals `r`, with the properties `s'`, are the signals `t`, with the properties `s`, in
which the tables are separated. -/
structure Privatised (s : Properties) (t : Tree) (s' : Properties) (r : Tree) : Prop where
  separate : SeparateIn (InGraph s'.recDef r)
  reads : readTables s'.recDef r = readTables s.recDef t
  erased : eraseLabels s.symbols r = t
  definitions : ∀ w, (s'.recDef w).map (eraseLabels s.symbols) = s.recDef w

section
variable {address : Tree → String} {k : Tree} {s₀ s : Properties} {t r : Tree} {g : Made}

/-- The write-tables of the result are those that were made and those that were inside the
tables. -/
theorem Part.write {recDef : Tree → Option Tree} {id tbl i w : Tree}
    (h : Part recDef t g (sigWRTbl id tbl i w)) :
    sigWRTbl id tbl i w ∈ g.1 ∨ Inner recDef t (sigWRTbl id tbl i w) := by
  generalize heq : sigWRTbl id tbl i w = v at h
  cases h with
  | image ho himage =>
    cases himage with
    | write _ _ _ _ _ _ _ hmade => exact Or.inl hmade
    | node _ _ _ hplain =>
      cases heq
      exact absurd rfl hplain.2.1
    | leaf => cases heq
    | symbol => cases heq
    | table => cases heq
  | inner hi => exact Or.inr hi
  | table => cases heq
  | leaf => cases heq

/-- The result is separated as soon as the insides of the tables are. -/
theorem Inv.separateIn_iff (h : Inv address k s₀ t ∅ g s) (himage : Image g t r)
    (hnamed : ∀ u, Inner s₀.recDef t u → Named s₀.symbols.names u) :
    SeparateIn (InGraph s.recDef r) ↔ SeparateIn (Inner s₀.recDef t) := by
  -- the label of a write-table that was made is no name of the signals
  have hmade : ∀ {tbl id₁ i₁ w₁ id₂ i₂ w₂}, sigWRTbl id₁ tbl i₁ w₁ ∈ g.1 →
      ¬ Inner s₀.recDef t (sigWRTbl id₂ tbl i₂ w₂) := by
    intro tbl id₁ i₁ w₁ id₂ i₂ w₂ h₁ h₂
    obtain ⟨x, size, content, idx, wrt, heq, _, hx⟩ := h.label _ h₁
    cases heq
    have htbl := (hnamed _ h₂).branch (sigTable (leaf (.sym (.user x))) size content) (by simp)
    exact hx (htbl.branch (leaf (.sym (.user x))) (by simp)).label
  constructor
  · intro hsep tbl id₁ i₁ w₁ id₂ i₂ w₂ h₁ h₂
    exact hsep tbl id₁ i₁ w₁ id₂ i₂ w₂ (h.inner_inGraph himage h₁) (h.inner_inGraph himage h₂)
  · intro hsep tbl id₁ i₁ w₁ id₂ i₂ w₂ h₁ h₂
    rcases (h.part himage h₁).write with h₁ | h₁
    · rcases (h.part himage h₂).write with h₂ | h₂
      · exact h.separate h₁ h₂
      · exact absurd h₂ (hmade h₁)
    · rcases (h.part himage h₂).write with h₂ | h₂
      · exact absurd h₁ (hmade h₂)
      · exact hsep tbl id₁ i₁ w₁ id₂ i₂ w₂ h₁ h₂

/-- The tables that are read are the same. -/
theorem Inv.readTables_eq (h : Inv address k s₀ t ∅ g s) (himage : Image g t r)
    (hsig : ∀ u, Outer s₀.recDef t u → Signal s₀.recDef u) :
    readTables s.recDef r = readTables s₀.recDef t := by
  ext tbl
  constructor
  · intro htbl
    obtain ⟨⟨id, size, content, rfl⟩, idx, hin⟩ := htbl
    have hpart := h.part himage hin
    refine ⟨⟨id, size, content, rfl⟩, ?_⟩
    generalize heq : sigRDTbl (sigTable id size content) idx = v at hpart
    cases hpart with
    | image ho hv =>
      cases hv with
      | node n br br' _ hlen hbr =>
        cases heq
        obtain ⟨tbl, idx₀, rfl⟩ := List.length_eq_two.1 hlen
        have htbl : tbl = sigTable id size content :=
          (hbr (tbl, sigTable id size content) (by simp)).of_table
        exact ⟨idx₀, htbl ▸ ho.inGraph⟩
      | leaf => cases heq
      | symbol => cases heq
      | table => cases heq
      | write => cases heq
    | inner hi => exact ⟨idx, heq ▸ hi.inGraph⟩
    | table => cases heq
    | leaf => cases heq
  · intro htbl
    obtain ⟨⟨id, size, content, rfl⟩, idx, hin⟩ := htbl
    refine ⟨⟨id, size, content, rfl⟩, ?_⟩
    rcases outer_or_inner hsig hin with ho | hi | hnil
    · rcases h.exists_image himage ho with ⟨v, hv, hinv⟩ | ⟨_, _, _, heq, _⟩
      · cases hv with
        | node _ _ br' _ hlen hbr =>
          obtain ⟨tbl, idx', rfl⟩ := List.length_eq_two.1 hlen.symm
          have htbl := (hbr (sigTable id size content, tbl) (by simp)).eq_table.1
          exact ⟨idx', htbl ▸ hinv⟩
      · cases heq
    · exact ⟨idx, h.inner_inGraph himage hi⟩
    · cases hnil

/-- Without its labels an image is the signal. -/
theorem Inv.eraseLabels_image {A : Set Tree} (h : Inv address k s₀ t A g s) {u v : Tree}
    (himage : Image g u v) (hu : Named s₀.symbols.names u) : eraseLabels s₀.symbols v = u := by
  induction himage with
  | leaf | symbol | table => exact hu.eraseLabels
  | write label size content idx wrt idx' wrt' hmade _ _ ih₁ ih₂ =>
    obtain ⟨x, _, _, _, _, heq, _, hx⟩ := h.label _ hmade
    cases heq
    have hlabel : eraseLabels s₀.symbols (leaf (.sym (.user x))) = nil := by
      simp [leaf, eraseLabels, isAdded, SymbolTable.isnew, hx]
    have hbranch := hu.branch
    have hsize : eraseLabels s₀.symbols size = size :=
      ((hbranch (sigTable nil size content) (by simp)).branch size (by simp)).eraseLabels
    have hcontent : eraseLabels s₀.symbols content = content :=
      ((hbranch (sigTable nil size content) (by simp)).branch content (by simp)).eraseLabels
    have hnil : eraseLabels s₀.symbols nil = nil := rfl
    have htable : eraseLabels s₀.symbols (sigTable (leaf (.sym (.user x))) size content) =
        sigTable nil size content := by
      rw [sigTable, eraseLabels_node rfl, sigTable]
      simp only [List.map_cons, List.map_nil, hlabel, hsize, hcontent]
    rw [sigWRTbl, eraseLabels_node rfl, sigWRTbl]
    simp only [List.map_cons, List.map_nil, hnil, htable, ih₁ (hbranch idx (by simp)),
      ih₂ (hbranch wrt (by simp))]
  | node n br br' hplain hlen hbr ih =>
    have hadded : isAdded s₀.symbols n = false := hu.isAdded
    rw [eraseLabels_node hadded]
    congr 1
    apply List.ext_getElem (by simp [hlen])
    intro i h₁ h₂
    rw [List.getElem_map]
    have hi : i < br'.length := hlen ▸ h₂
    have hzip : (br[i], br'[i]) ∈ br.zip br' :=
      List.mem_iff_getElem.2 ⟨i, by simp [h₂, hi], by simp⟩
    exact ih _ hzip (hu.branch _ (List.getElem_mem h₂))

theorem Inv.privatised_iff (h : Inv address k s₀ t ∅ g s) (himage : Image g t r)
    (hs : Ready address s₀) (ht : Signal s₀.recDef t) (hn : Named s₀.symbols.names t) :
    Privatised s₀ t s r ↔ SeparateIn (Inner s₀.recDef t) := by
  have hdef : ∀ w d, s₀.recDef w = some d → Named s₀.symbols.names d :=
    fun w d hd => (hs.definition w d hd).2
  have hsep := h.separateIn_iff himage fun u hu => hu.named hn hdef
  constructor
  · intro hpriv
    exact hsep.1 hpriv.separate
  · intro hinner
    exact {
      separate := hsep.2 hinner
      reads := h.readTables_eq himage fun u hu =>
        hu.signal ht fun w d hd => (hs.definition w d hd).1
      erased := h.eraseLabels_image himage hn
      definitions := by
        intro w
        by_cases hw : w ∈ g.2
        · obtain ⟨d, d', hd, hd', himage'⟩ := h.definition w hw (Set.notMem_empty _)
          rw [hd, hd', Option.map_some, h.eraseLabels_image himage' (hdef w d hd)]
        · rw [h.unmet w hw]
          cases hd : s₀.recDef w with
          | none => rfl
          | some d => rw [Option.map_some, (hdef w d hd).eraseLabels] }

/-- Privatisation succeeds, and makes an image of the signals. -/
theorem ends_privatise (hs : Ready address s) (ht : Signal s.recDef t) :
    ∃ depth, ∀ fuel ≥ depth, Ends (privatise address fuel t) s (fun _ => False) fun r s' =>
      ∃ k g, Inv address k s t ∅ g s' ∧ Image g t r := by
  refine ⟨t.size + depthLeft s.recDef hs.finite.toFinset (∅, ∅), ?_⟩
  intro fuel hfuel
  unfold privatise makePrivatisationKey
  rw [keyName_eq]
  apply (ends_uniqueTree hs.supplied (keyName_eq t ▸ hs.supplied.key t)).bind
  intro k s₁ hk
  obtain ⟨x, T, rfl, hnew, hnames, hT, rfl⟩ := hk
  have hstart : Inv address (leaf (.sym (.user x))) s t ∅ (∅, ∅) { s with symbols := T } := {
    supplied := hT
    names := by
      intro y hy
      show y ∈ T.names
      rw [hnames]
      exact List.mem_cons_of_mem _ hy
    image := by
      intro u p hp
      -- the key is new
      have hkey := hs.key u (leaf (.sym (.user x))) fun hnone => by
        rw [show s.property u _ = some p from hp] at hnone
        cases hnone
      exact absurd hkey.label hnew
    label := nofun
    separate := nofun
    pending := nofun
    met := nofun
    definition := nofun
    unmet := fun _ _ => rfl }
  have hD : ∀ w d, s.recDef w = some d → w ∈ hs.finite.toFinset := by
    intro w d hd
    rw [Set.Finite.mem_toFinset]
    simp [hd]
  have hsig : ∀ u, Outer s.recDef t u → Signal s.recDef u := fun u hu =>
    hu.signal ht fun w d hd => (hs.definition w d hd).1
  apply (privatises hsig hD .root hfuel hstart).mono
  intro r s' hr
  obtain ⟨g, _, hinv, himage⟩ := hr
  exact ⟨_, g, hinv, himage⟩

end

/-- Privatisation succeeds, and separates the tables exactly when no two distinct write-tables
inside the tables, whose sizes and contents it does not visit, write in one table. -/
theorem privatise_iff {address : Tree → String} {s : Properties} {t : Tree}
    (hs : Ready address s) (ht : Signal s.recDef t) (hn : Named s.symbols.names t) :
    ∃ depth, ∀ fuel ≥ depth, ∃ r s', privatise address fuel t s = .ok (r, s') ∧
      (Privatised s t s' r ↔ SeparateIn (Inner s.recDef t)) := by
  obtain ⟨depth, hdepth⟩ := ends_privatise hs ht
  refine ⟨depth, ?_⟩
  intro fuel hfuel
  rcases (hdepth fuel hfuel).cases with ⟨r, s', hrun, k, g, hinv, himage⟩ | ⟨_, _, hfalse⟩
  · exact ⟨r, s', hrun, hinv.privatised_iff himage hs ht hn⟩
  · exact hfalse.elim

/-! ## Two write-tables, one of them in a loop -/

/-- The symbol of a loop. -/
def echoSymbol : Tree := .node (.sym .symRec) [leaf (.sym (.user "W0"))]

/-- What is read in a table of four zeros in which a signal is written. -/
def throughTable (sig : Tree) : Tree :=
  sigWriteReadTable (sigInt 4) (sigInt 0) (sigInt 0) sig (sigInt 0)

/-- A loop through a table, and another write-table on the same table. -/
def echo : Tree := ofList [sigProj 0 echoSymbol, throughTable (sigInt 1)]

/-- The definition of the loop. -/
def echoDefinition : Tree := ofList [throughTable (sigDelay1 (sigProj 0 echoSymbol))]

def echoProperties : Properties where
  recDef := fun w => if w = echoSymbol then some echoDefinition else none
  property := fun _ _ => none
  symbols := { names := ["W0"], prefixCounters := fun _ => 0 }

theorem named_leaf {names : List String} {n : Node} (h : ∀ x, n ≠ .sym (.user x)) :
    Named names (leaf n) := .node n [] (fun x heq => absurd heq (h x)) (by simp)

theorem named_throughTable {names : List String} {sig : Tree} (h : Named names sig) :
    Named names (throughTable sig) := by
  have hint : ∀ i : ℤ, Named names (sigInt i) := fun i => named_leaf (by simp)
  have hnil : Named names nil := named_leaf (by simp)
  have hgen : Named names (sigGen (sigInt 0)) := .node _ _ (by simp) (by simpa using hint 0)
  have htable : Named names (sigTable nil (sigInt 4) (sigGen (sigInt 0))) :=
    .node _ _ (by simp) (by simpa using ⟨hnil, hint 4, hgen⟩)
  have hwrite : Named names
      (sigWRTbl nil (sigTable nil (sigInt 4) (sigGen (sigInt 0))) (sigInt 0) sig) :=
    .node _ _ (by simp) (by simpa using ⟨hnil, htable, hint 0, h⟩)
  exact .node _ _ (by simp) (by simpa using ⟨hwrite, hint 0⟩)

theorem signal_throughTable {recDef : Tree → Option Tree} {sig : Tree} (h : Signal recDef sig) :
    Signal recDef (throughTable sig) := by
  have hwrite : Signal recDef
      (sigWRTbl nil (sigTable nil (sigInt 4) (sigGen (sigInt 0))) (sigInt 0) sig) :=
    .write _ _ _ _ (.leaf _) h
  exact .node _ _ (by decide) (by simpa using ⟨hwrite, .leaf _⟩)

theorem named_echoProj : Named echoProperties.symbols.names (sigProj 0 echoSymbol) := by
  have hvar : Named echoProperties.symbols.names (leaf (.sym (.user "W0"))) :=
    .node _ _ (by simp [echoProperties]) (by simp)
  have hsymbol : Named echoProperties.symbols.names echoSymbol :=
    .node _ _ (by simp) (by simpa using hvar)
  have hint : Named echoProperties.symbols.names (leaf (.int 0)) := named_leaf (by simp)
  exact .node _ _ (by simp) (by simpa using ⟨hint, hsymbol⟩)

theorem signal_echoProj : Signal echoProperties.recDef (sigProj 0 echoSymbol) := by
  have hsymbol : Signal echoProperties.recDef echoSymbol :=
    .symbol _ (by simp [echoProperties, echoSymbol])
  exact .node _ _ (by decide) (by simpa using ⟨.leaf _, hsymbol⟩)

theorem ready_echoProperties : Ready (fun _ => "0x1") echoProperties where
  supplied := by
    have hname : ∀ p : String, p.toList.head? ≠ some 'W' → p ≠ "" →
        echoProperties.symbols.Supply p := by
      intro p hp hne c _
      refine ⟨0, by omega, ?_⟩
      simp only [echoProperties, List.mem_singleton]
      intro heq
      have hlist := congrArg (fun q => q.toList.head?) heq
      simp only [SymbolTable.indexedName, String.toList_append] at hlist
      rw [List.head?_append_of_ne_nil _ (by simpa using hne)] at hlist
      exact hp hlist
    constructor
    · intro t
      show echoProperties.symbols.Supply ("PRIVATISE " ++ "0x1" ++ " : ")
      exact hname _ (by decide) (by decide)
    · intro t
      show echoProperties.symbols.Supply ("OWNER IS " ++ "0x1" ++ " : ")
      exact hname _ (by decide) (by decide)
  key := fun _ _ h => absurd rfl h
  definition := by
    intro w d hd
    simp only [echoProperties, Option.ite_none_right_eq_some, Option.some.injEq] at hd
    obtain ⟨_, rfl⟩ := hd
    have hdelay : Named echoProperties.symbols.names (sigDelay1 (sigProj 0 echoSymbol)) :=
      .node _ _ (by simp) (by simpa using named_echoProj)
    have hdelay' : Signal echoProperties.recDef (sigDelay1 (sigProj 0 echoSymbol)) :=
      .node _ _ (by decide) (by simpa using signal_echoProj)
    exact ⟨.node _ _ (by decide) (by simpa [ofList] using ⟨signal_throughTable hdelay', .leaf _⟩),
      .node _ _ (by simp) (by simpa [ofList] using
        ⟨named_throughTable hdelay, named_leaf (by simp)⟩)⟩
  finite := by
    refine (Set.finite_singleton echoSymbol).subset ?_
    intro w hw
    by_contra hne
    exact hw (if_neg hne)

theorem privatise_iff_echo :
    ∃ depth, ∀ fuel ≥ depth, ∃ r s',
      privatise (fun _ => "0x1") fuel echo echoProperties = .ok (r, s') ∧
        (Privatised echoProperties echo s' r ↔ SeparateIn (Inner echoProperties.recDef echo)) := by
  have hone : Signal echoProperties.recDef (throughTable (sigInt 1)) :=
    signal_throughTable (.leaf _)
  have hone' : Named echoProperties.symbols.names (throughTable (sigInt 1)) :=
    named_throughTable (named_leaf (by simp))
  have htail : Signal echoProperties.recDef (ofList [throughTable (sigInt 1)]) :=
    .node _ _ (by decide) (by simpa [ofList] using ⟨hone, .leaf _⟩)
  have htail' : Named echoProperties.symbols.names (ofList [throughTable (sigInt 1)]) :=
    .node _ _ (by simp) (by simpa [ofList] using ⟨hone', named_leaf (by simp)⟩)
  exact privatise_iff ready_echoProperties
    (.node _ _ (by decide) (by simpa [ofList] using ⟨signal_echoProj, htail⟩))
    (.node _ _ (by simp) (by simpa [ofList] using ⟨named_echoProj, htail'⟩))

/-! ## Two write-tables in a generator -/

/-- The sum of what is read in two write-tables. -/
def sumWritten : Tree := sigAdd (throughTable (sigInt 1)) (throughTable (sigInt 2))

/-- A table filled with the sum of what is read in two write-tables. -/
def twoWritten : Tree :=
  ofList [sigReadOnlyTable (sigInt 8) sumWritten (sigInt 0)]

/-- No properties and no symbols. -/
def noProperties : Properties where
  recDef := fun _ => none
  property := fun _ _ => none
  symbols := { names := [], prefixCounters := fun _ => 0 }

theorem ready_noProperties (address : Tree → String) : Ready address noProperties where
  supplied :=
    ⟨fun _ _ _ => ⟨0, by omega, List.not_mem_nil⟩, fun _ _ _ => ⟨0, by omega, List.not_mem_nil⟩⟩
  key := fun _ _ h => absurd rfl h
  definition := nofun
  finite := by simp [noProperties]

theorem named_twoWritten : Named noProperties.symbols.names twoWritten := by
  have hint : ∀ i : ℤ, Named noProperties.symbols.names (sigInt i) := fun i => named_leaf (by simp)
  have hnil : Named noProperties.symbols.names nil := named_leaf (by simp)
  have hadd : Named noProperties.symbols.names sumWritten :=
    .node _ _ (by simp)
      (by simpa using ⟨hint 0, named_throughTable (hint 1), named_throughTable (hint 2)⟩)
  have hgen : Named noProperties.symbols.names (sigGen sumWritten) :=
    .node _ _ (by simp) (by simpa using hadd)
  have htable : Named noProperties.symbols.names
      (sigTable nil (sigInt 8) (sigGen sumWritten)) :=
    .node _ _ (by simp) (by simpa using ⟨hnil, hint 8, hgen⟩)
  have hread : Named noProperties.symbols.names
      (sigReadOnlyTable (sigInt 8) sumWritten (sigInt 0)) :=
    .node _ _ (by simp) (by simpa using ⟨htable, hint 0⟩)
  exact .node _ _ (by simp) (by simpa [ofList] using ⟨hread, hnil⟩)

theorem signal_twoWritten : Signal noProperties.recDef twoWritten := by
  have hread : Signal noProperties.recDef
      (sigReadOnlyTable (sigInt 8) sumWritten (sigInt 0)) :=
    .node _ _ (by decide) (by simpa using ⟨.table _ _, .leaf _⟩)
  exact .node _ _ (by decide) (by simpa [ofList] using ⟨hread, .leaf _⟩)

/-- Both write-tables are in the content of the table that is read. -/
theorem inner_twoWritten (recDef : Tree → Option Tree) (v : ℤ) (hv : v = 1 ∨ v = 2) :
    Inner recDef twoWritten
      (sigWRTbl nil (sigTable nil (sigInt 4) (sigGen (sigInt 0))) (sigInt 0) (sigInt v)) := by
  have hread : Outer recDef twoWritten
      (sigReadOnlyTable (sigInt 8) sumWritten (sigInt 0)) :=
    .branch .root nofun nofun (by simp [ofList])
  have htable : Outer recDef twoWritten
      (sigTable nil (sigInt 8) (sigGen sumWritten)) :=
    .branch hread nofun nofun (by simp)
  have hadd : Inner recDef twoWritten sumWritten :=
    .branch (.content htable) nofun (by simp)
  have hwritten : Inner recDef twoWritten (throughTable (sigInt v)) := by
    apply Inner.branch hadd nofun
    rcases hv with rfl | rfl <;> simp
  exact .branch hwritten nofun (by simp)

/-- The two write-tables still write in one table. -/
theorem not_privatised_twoWritten :
    Ready (fun _ => "0x1") noProperties ∧ Signal noProperties.recDef twoWritten ∧
      Named noProperties.symbols.names twoWritten ∧
      ∃ depth, ∀ fuel ≥ depth, ∃ r s',
        privatise (fun _ => "0x1") fuel twoWritten noProperties = .ok (r, s') ∧
          ¬ Privatised noProperties twoWritten s' r := by
  have hready := ready_noProperties fun _ => "0x1"
  refine ⟨hready, signal_twoWritten, named_twoWritten, ?_⟩
  obtain ⟨depth, hdepth⟩ := ends_privatise hready signal_twoWritten
  refine ⟨depth, ?_⟩
  intro fuel hfuel
  rcases (hdepth fuel hfuel).cases with ⟨r, s', hrun, k, g, hinv, himage⟩ | ⟨_, _, hfalse⟩
  · refine ⟨r, s', hrun, ?_⟩
    rw [hinv.privatised_iff himage hready signal_twoWritten named_twoWritten]
    intro hsep
    have heq := hsep _ _ _ _ _ _ _ (inner_twoWritten _ 1 (Or.inl rfl))
      (inner_twoWritten _ 2 (Or.inr rfl))
    cases heq
  · exact hfalse.elim

end Privatise

end Faust
