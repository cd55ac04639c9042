import Faust.Lib.InternTable
import Faust.Tlib.Tree

/-!
# Hash-consing (`tree.cpp`, `node.hh`)

The trees as they lie in memory: a node is a tag and a word, a tree a cell with pointers to its
branches, its key and the next tree of its slot in `gHashTable`. `make` gives back the tree that a
slot already has, or links a new one; so two pointers are equal exactly when the trees they point
to have equal nodes and equal branches.
-/

namespace Faust.CTree

/-- The tags of a node. -/
inductive NodeType
  | kIntNode | kDoubleNode | kSymNode | kPointerNode
deriving DecidableEq, Repr

/-- The number of a tag. -/
def NodeType.toInt : NodeType → BitVec 32
  | kIntNode => 0
  | kDoubleNode => 1
  | kSymNode => 2
  | kPointerNode => 3

/-- `class Node`: the tag and the 64 bits of the union. -/
structure Node where
  fType : NodeType
  fData : BitVec 64
deriving DecidableEq, Repr

namespace Node

/-- `Node(int x)`: the union is cleared before its low half is written. -/
def ofInt (x : BitVec 32) : Node := ⟨.kIntNode, x.setWidth 64⟩

/-- `Node(double x)`, of the bits of `x`. -/
def ofDouble (x : BitVec 64) : Node := ⟨.kDoubleNode, x⟩

/-- `Node(Sym x)`, of the address of the symbol. -/
def ofSym (x : BitVec 64) : Node := ⟨.kSymNode, x⟩

/-- `Node(void* x)`. -/
def ofPointer (x : BitVec 64) : Node := ⟨.kPointerNode, x⟩

/-- `getInt()`: the low half of the union, whatever the tag. -/
def getInt (n : Node) : BitVec 32 := n.fData.setWidth 32

/-- `operator ==`. -/
def eq (n m : Node) : Bool := n.fType = m.fType && n.fData = m.fData

@[simp] theorem eq_iff {n m : Node} : n.eq m = true ↔ n = m := by
  cases n
  cases m
  simp [eq]

end Node

/-- A pointer to a tree: its position among the trees allocated. -/
abbrev Ptr := ℕ

/-- `class CTree`: the fields `make` reads and writes. -/
structure Cell where
  fNode : Node
  fHashKey : BitVec 32
  fBranch : List Ptr
  fNext : Option Ptr

/-- `kHashTableSize`. -/
def kHashTableSize : ℕ := 2000000

/-- The trees allocated and `gHashTable`. -/
structure Memory where
  trees : List Cell
  gHashTable : ℕ → Option Ptr

/-- `CTree::init()`. -/
def Memory.init : Memory := ⟨[], fun _ => none⟩

variable (s : Memory)

/-- `hk % kHashTableSize`. -/
def slot (hk : BitVec 32) : ℕ := hk.toNat % kHashTableSize

/-- `equiv(n, br)`. -/
def Cell.equiv (n : Node) (br : List Ptr) (c : Cell) : Bool := c.fNode.eq n && c.fBranch = br

/-- The loop of `calcTreeHash`. -/
def hashBranches : BitVec 32 → List Ptr → Option (BitVec 32)
  | hk, [] => some hk
  | hk, b :: br =>
    match s.trees[b]? with
    | none => none
    | some c => hashBranches ((hk <<< 1) ^^^ (hk >>> 20) ^^^ c.fHashKey) br

/-- `calcTreeHash(n, br)`, `none` where a branch is no tree. -/
def calcTreeHash (n : Node) (br : List Ptr) : Option (BitVec 32) :=
  hashBranches s (n.fType.toInt ^^^ n.getInt) br

/-- The constructor `CTree(hk, n, br)`: the new tree is linked at the head of its slot. -/
def construct (hk : BitVec 32) (n : Node) (br : List Ptr) : Ptr × Memory :=
  (s.trees.length,
    { trees := s.trees ++ [⟨n, hk, br, s.gHashTable (slot hk)⟩]
      gHashTable := fun j => if j = slot hk then some s.trees.length else s.gHashTable j })

/-- `make(n, br)`, `none` where it reads memory that is no tree or does not end. -/
def make (n : Node) (br : List Ptr) : Option (Ptr × Memory) :=
  match calcTreeHash s n br with
  | none => none
  | some hk =>
    match search (s.trees[·]?) Cell.fNext (Cell.equiv n br) s.trees.length
        (s.gHashTable (slot hk)) with
    | none => none
    | some (some t) => some (t, s)
    | some none => some (construct s hk n br)

/-- `make(n, ar, tbl)`: the branches are copied from an array. -/
def makeFrom (n : Node) (ar : ℕ) (tbl : ℕ → Ptr) : Option (Ptr × Memory) :=
  make s n ((List.range ar).map tbl)

/-! ## The invariant of the table -/

/-- The trees of a slot, in the order of the chain. -/
def Chain (j : ℕ) (ts : List Ptr) : Prop :=
  IsChain (s.trees[·]?) Cell.fNext (s.gHashTable j) ts

/-- What `make` keeps of the trees and of the table. -/
structure Inv : Prop where
  older : ∀ (t : Ptr) (c : Cell), s.trees[t]? = some c → ∀ b ∈ c.fBranch, b < t
  key : ∀ (t : Ptr) (c : Cell), s.trees[t]? = some c →
    calcTreeHash s c.fNode c.fBranch = some c.fHashKey
  chain : ∀ j, ∃ ts, Chain s j ts ∧
    ∀ t, t ∈ ts ↔ ∃ c, s.trees[t]? = some c ∧ slot c.fHashKey = j
  distinct : ∀ (t u : Ptr) (c d : Cell), s.trees[t]? = some c → s.trees[u]? = some d →
    c.fNode = d.fNode → c.fBranch = d.fBranch → t = u

variable {s} {n : Node} {br : List Ptr} {hk : BitVec 32}

theorem Cell.equiv_iff {c : Cell} : c.equiv n br = true ↔ c.fNode = n ∧ c.fBranch = br := by
  simp [Cell.equiv]

theorem Inv.init : Inv Memory.init where
  older t c h := by simp [Memory.init] at h
  key t c h := by simp [Memory.init] at h
  chain j := ⟨[], .null, by simp [Memory.init]⟩
  distinct t u c d h := by simp [Memory.init] at h

/-- Trees have a key. -/
theorem hashBranches_isSome (hbr : ∀ b ∈ br, b < s.trees.length) :
    ∃ k, hashBranches s hk br = some k := by
  induction br generalizing hk with
  | nil => exact ⟨hk, rfl⟩
  | cons b br ih =>
    have hb : b < s.trees.length := hbr b List.mem_cons_self
    simp only [hashBranches, List.getElem?_eq_getElem hb]
    exact ih fun b' hb' => hbr b' (List.mem_cons_of_mem _ hb')

/-- The key of a tree is kept when trees are added. -/
theorem hashBranches_congr {s' : Memory} {k : BitVec 32}
    (hs : ∀ (t : Ptr) (c : Cell), s.trees[t]? = some c → s'.trees[t]? = some c)
    (h : hashBranches s hk br = some k) : hashBranches s' hk br = some k := by
  induction br generalizing hk with
  | nil => exact h
  | cons b br ih =>
    unfold hashBranches at h ⊢
    split at h
    · simp at h
    · next c hc =>
      rw [hs b c hc]
      exact ih h

/-- The trees that were there stay as they are. -/
theorem construct_trees {t : Ptr} {c : Cell} (h : s.trees[t]? = some c) :
    (construct s hk n br).2.trees[t]? = some c := InternTable.getElem?_push h

/-- The new tree is at the address returned. -/
theorem construct_new : (construct s hk n br).2.trees[(construct s hk n br).1]? =
    some ⟨n, hk, br, s.gHashTable (slot hk)⟩ := InternTable.getElem?_push_length

/-- A tree after the construction is one of before or the new one. -/
theorem of_construct_trees {t : Ptr} {c : Cell}
    (h : (construct s hk n br).2.trees[t]? = some c) :
    s.trees[t]? = some c ∨
      t = s.trees.length ∧ c = ⟨n, hk, br, s.gHashTable (slot hk)⟩ :=
  InternTable.of_getElem?_push h

/-- The slots are the chains of a table. -/
theorem Inv.linked (hs : Inv s) :
    InternTable.Linked Cell.fNext (fun c => slot c.fHashKey) s.trees s.gHashTable := hs.chain

/-- A construction keeps the invariant when no tree has the node and the branches. -/
theorem Inv.construct (hs : Inv s) (hbr : ∀ b ∈ br, b < s.trees.length)
    (hkey : calcTreeHash s n br = some hk)
    (hnew : ∀ (t : Ptr) (c : Cell), s.trees[t]? = some c → ¬(c.fNode = n ∧ c.fBranch = br)) :
    Inv (construct s hk n br).2 where
  older t c h := by
    rcases of_construct_trees h with h | ⟨rfl, rfl⟩
    · exact hs.older t c h
    · exact hbr
  key t c h := by
    rcases of_construct_trees h with h | ⟨rfl, rfl⟩
    · exact hashBranches_congr (fun _ _ => construct_trees) (hs.key t c h)
    · exact hashBranches_congr (fun _ _ => construct_trees) hkey
  chain := hs.linked.push rfl
  distinct t u c d ht hu hnode hbranch := by
    rcases of_construct_trees ht with ht | ⟨rfl, rfl⟩
    · rcases of_construct_trees hu with hu | ⟨rfl, rfl⟩
      · exact hs.distinct t u c d ht hu hnode hbranch
      · exact absurd ⟨hnode, hbranch⟩ (hnew t c ht)
    · rcases of_construct_trees hu with hu | ⟨rfl, -⟩
      · exact absurd ⟨hnode.symm, hbranch.symm⟩ (hnew u d hu)
      · rfl

/-! ## One call -/

/-- The slot of a key has the trees of that key. -/
theorem Inv.search_spec (hs : Inv s) (hkey : calcTreeHash s n br = some hk) :
    ∃ r, search (s.trees[·]?) Cell.fNext (Cell.equiv n br) s.trees.length
        (s.gHashTable (slot hk)) = some r ∧
      ∀ t, r = some t ↔ ∃ c, s.trees[t]? = some c ∧ c.fNode = n ∧ c.fBranch = br := by
  have hslot : ∀ (t : Ptr) (c : Cell), s.trees[t]? = some c → c.equiv n br = true →
      slot c.fHashKey = slot hk := by
    -- a tree with the node and the branches has the key that was computed
    intro t c hc hp
    obtain ⟨hnode, hbranch⟩ := Cell.equiv_iff.mp hp
    have hcalc := hs.key t c hc
    rw [hnode, hbranch, hkey] at hcalc
    rw [Option.some.inj hcalc]
  have hone : ∀ (t u : Ptr) (c d : Cell), s.trees[t]? = some c → s.trees[u]? = some d →
      c.equiv n br = true → d.equiv n br = true → t = u := by
    intro t u c d hc hd hp hq
    obtain ⟨hcn, hcb⟩ := Cell.equiv_iff.mp hp
    obtain ⟨hdn, hdb⟩ := Cell.equiv_iff.mp hq
    exact hs.distinct t u c d hc hd (hcn.trans hdn.symm) (hcb.trans hdb.symm)
  obtain ⟨r, hr, hspec⟩ := hs.linked.search_spec hslot hone
  refine ⟨r, hr, fun t => ?_⟩
  simp only [hspec, Cell.equiv_iff]

/-- What a call of `make` does. -/
structure MakeSpec (s : Memory) (n : Node) (br : List Ptr) (t : Ptr) (s' : Memory) : Prop where
  inv : Inv s'
  keeps : ∀ (u : Ptr) (c : Cell), s.trees[u]? = some c → s'.trees[u]? = some c
  made : ∃ c, s'.trees[t]? = some c ∧ c.fNode = n ∧ c.fBranch = br

/-- `make` returns, on branches that are trees. -/
theorem Inv.make_spec (hs : Inv s) (hbr : ∀ b ∈ br, b < s.trees.length) :
    ∃ t s', make s n br = some (t, s') ∧ MakeSpec s n br t s' := by
  obtain ⟨hk, hkey⟩ : ∃ k, hashBranches s (n.fType.toInt ^^^ n.getInt) br = some k :=
    hashBranches_isSome hbr
  obtain ⟨r, hr, hspec⟩ := hs.search_spec hkey
  have hcalc : calcTreeHash s n br = some hk := hkey
  cases r with
  | some t =>
    refine ⟨t, s, by simp only [make, hcalc, hr], hs, fun _ _ h => h, ?_⟩
    exact (hspec t).mp rfl
  | none =>
    refine ⟨_, _, by simp only [make, hcalc, hr]; rfl, ?_, fun _ _ => construct_trees, ?_⟩
    · refine hs.construct hbr hcalc fun t c hc heq => ?_
      exact absurd ((hspec t).mpr ⟨c, hc, heq⟩) (by simp)
    · exact ⟨_, construct_new, rfl, rfl⟩

/-- `make` finds a tree that is there, and changes nothing. -/
theorem Inv.make_again (hs : Inv s) {t : Ptr} {c : Cell} (hc : s.trees[t]? = some c) :
    make s c.fNode c.fBranch = some (t, s) := by
  have hkey := hs.key t c hc
  obtain ⟨r, hr, hspec⟩ := hs.search_spec hkey
  have hrt : r = some t := (hspec t).mpr ⟨c, hc, rfl, rfl⟩
  subst hrt
  simp only [make, hkey, hr]

/-! ## Sequences of calls -/

/-- A call of `make` that has returned. -/
structure Made where
  node : Node
  branches : List Ptr
  tree : Ptr

/-- The calls made since `init`: the branches of a call are trees that earlier calls returned. -/
inductive Calls : Memory → List Made → Prop
  | init : Calls Memory.init []
  | make {s s' : Memory} {log : List Made} {n : Node} {br : List Ptr} {t : Ptr}
      (h : Calls s log) (hbr : ∀ b ∈ br, ∃ e ∈ log, e.tree = b)
      (hmake : CTree.make s n br = some (t, s')) : Calls s' (log ++ [⟨n, br, t⟩])
  | makeFrom {s s' : Memory} {log : List Made} {n : Node} {ar : ℕ} {tbl : ℕ → Ptr} {t : Ptr}
      (h : Calls s log) (hbr : ∀ i < ar, ∃ e ∈ log, e.tree = tbl i)
      (hmake : CTree.makeFrom s n ar tbl = some (t, s')) :
      Calls s' (log ++ [⟨n, (List.range ar).map tbl, t⟩])

variable {log : List Made}

/-- The table keeps the invariant, and every tree returned is there with what it was made of. -/
structure Logged (s : Memory) (log : List Made) : Prop where
  inv : Inv s
  made : ∀ e ∈ log, ∃ c, s.trees[e.tree]? = some c ∧ c.fNode = e.node ∧ c.fBranch = e.branches

/-- The trees returned are allocated. -/
theorem Logged.lt (h : Logged s log) (hbr : ∀ b ∈ br, ∃ e ∈ log, e.tree = b) :
    ∀ b ∈ br, b < s.trees.length := by
  intro b hb
  obtain ⟨e, he, rfl⟩ := hbr b hb
  obtain ⟨c, hc, -⟩ := h.made e he
  exact (List.getElem?_eq_some_iff.mp hc).1

/-- One more call. -/
theorem Logged.make (h : Logged s log) (hbr : ∀ b ∈ br, ∃ e ∈ log, e.tree = b) {t : Ptr}
    {s' : Memory} (hmake : make s n br = some (t, s')) : Logged s' (log ++ [⟨n, br, t⟩]) := by
  obtain ⟨u, s'', hu, hspec⟩ := h.inv.make_spec (n := n) (h.lt hbr)
  obtain ⟨rfl, rfl⟩ : u = t ∧ s'' = s' := by
    have heq := Option.some.inj (hu.symm.trans hmake)
    exact ⟨congrArg Prod.fst heq, congrArg Prod.snd heq⟩
  refine ⟨hspec.inv, fun e he => ?_⟩
  rcases List.mem_append.mp he with he | he
  · obtain ⟨c, hc, hcontent⟩ := h.made e he
    exact ⟨c, hspec.keeps e.tree c hc, hcontent⟩
  · obtain rfl := List.mem_singleton.mp he
    exact hspec.made

/-- The branches read from an array are those of a list. -/
theorem mem_of_array {ar : ℕ} {tbl : ℕ → Ptr} (hbr : ∀ i < ar, ∃ e ∈ log, e.tree = tbl i) :
    ∀ b ∈ (List.range ar).map tbl, ∃ e ∈ log, e.tree = b := by
  intro b hb
  obtain ⟨i, hi, rfl⟩ := List.mem_map.mp hb
  exact hbr i (List.mem_range.mp hi)

theorem Calls.logged (h : Calls s log) : Logged s log := by
  induction h with
  | init => exact ⟨Inv.init, by simp⟩
  | make _ hbr hmake ih => exact ih.make hbr hmake
  | makeFrom _ hbr hmake ih => exact ih.make (mem_of_array hbr) hmake

/-- The tree is in the chain of the slot of its key. -/
def InTable (s : Memory) (t : Ptr) : Prop :=
  ∃ c ts, s.trees[t]? = some c ∧ Chain s (slot c.fHashKey) ts ∧ t ∈ ts

theorem Inv.inTable (hs : Inv s) {t : Ptr} {c : Cell} (hc : s.trees[t]? = some c) :
    InTable s t := by
  obtain ⟨ts, hts, hmem⟩ := hs.chain (slot c.fHashKey)
  exact ⟨c, ts, hc, hts, (hmem t).mpr ⟨c, hc, rfl⟩⟩

/-- After any calls, the next one returns; two calls have returned the same tree exactly when their
nodes and their branches are equal; each tree returned has the node and the branches of its call,
is in the table and is what the same call gives again. -/
theorem make_hash_consing (h : Calls s log) :
    (∀ n br, (∀ b ∈ br, ∃ e ∈ log, e.tree = b) → ∃ t s', make s n br = some (t, s')) ∧
    (∀ d ∈ log, ∀ e ∈ log,
      d.tree = e.tree ↔ d.node.eq e.node = true ∧ d.branches = e.branches) ∧
    ∀ e ∈ log,
      (∃ c, s.trees[e.tree]? = some c ∧ c.fNode = e.node ∧ c.fBranch = e.branches) ∧
      InTable s e.tree ∧ make s e.node e.branches = some (e.tree, s) := by
  have hlog := h.logged
  refine ⟨fun n br hbr => ?_, fun d hd e he => ?_, fun e he => ?_⟩
  · obtain ⟨t, s', hmake, -⟩ := hlog.inv.make_spec (n := n) (hlog.lt hbr)
    exact ⟨t, s', hmake⟩
  · obtain ⟨c, hc, hcn, hcb⟩ := hlog.made d hd
    obtain ⟨c', hc', hcn', hcb'⟩ := hlog.made e he
    rw [Node.eq_iff]
    refine ⟨fun heq => ?_, fun ⟨hnode, hbranch⟩ => ?_⟩
    · rw [heq, hc'] at hc
      cases Option.some.inj hc
      exact ⟨hcn.symm.trans hcn', hcb.symm.trans hcb'⟩
    · exact hlog.inv.distinct _ _ c c' hc hc' (by rw [hcn, hcn', hnode])
        (by rw [hcb, hcb', hbranch])
  · obtain ⟨c, hc, hcn, hcb⟩ := hlog.made e he
    refine ⟨⟨c, hc, hcn, hcb⟩, hlog.inv.inTable hc, ?_⟩
    rw [← hcn, ← hcb]
    exact hlog.inv.make_again hc

/-- `1` and `cons(1, 1)` made twice. -/
theorem make_hash_consing_cons :
    ∃ s t u, Calls s [⟨.ofInt 1, [], t⟩, ⟨.ofSym 8, [t, t], u⟩, ⟨.ofInt 1, [], t⟩] ∧
      t ≠ u ∧ make s (.ofInt 1) [] = some (t, s) := by
  have h₁ : Calls _ ([] ++ [⟨.ofInt 1, [], 0⟩]) := .make .init (by simp) rfl
  have h₂ : Calls _ ([⟨.ofInt 1, [], 0⟩] ++ [⟨.ofSym 8, [0, 0], 1⟩]) := .make h₁ (by simp) rfl
  have h₃ : Calls _ ([⟨.ofInt 1, [], 0⟩, ⟨.ofSym 8, [0, 0], 1⟩] ++ [⟨.ofInt 1, [], 0⟩]) :=
    .make h₂ (by simp) rfl
  obtain ⟨-, heq, hall⟩ := make_hash_consing h₃
  refine ⟨_, 0, 1, h₃, ?_, (hall ⟨.ofInt 1, [], 0⟩ (by simp)).2.2⟩
  intro h
  have hnode := ((heq ⟨.ofInt 1, [], 0⟩ (by simp) ⟨.ofSym 8, [0, 0], 1⟩ (by simp)).mp h).1
  exact absurd hnode (by decide)

end Faust.CTree
