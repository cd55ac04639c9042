import Faust.Lib.OrderedSet
import Faust.Tlib.Numbering

/-!
# Sets of trees (`list.cpp`)

A set is a list of trees in the order of their addresses. Trees are hash-consed, so two trees are
equal when their addresses are.
-/

namespace Faust.TreeSet

open Tree

/-! ## Lists -/

/-- `isNil`. -/
def isNil (l : Tree) : Bool := l.label = .sym .nil && l.branches.length = 0

/-- `hd`, that is `branch(0)`: there is none when the tree has no branch. -/
def hd (l : Tree) : Option Tree := l.branches[0]?

/-- `tl`, that is `branch(1)`. -/
def tl (l : Tree) : Option Tree := l.branches[1]?

/-- The elements of a list. -/
def items : Tree → List Tree
  | .node (.sym .cons) [hd, tl] => hd :: items tl
  | _ => []

@[simp] theorem isNil_nil : isNil nil = true := rfl

@[simp] theorem isNil_cons (a l : Tree) : isNil (cons a l) = false := rfl

@[simp] theorem hd_cons (a l : Tree) : hd (cons a l) = some a := rfl

@[simp] theorem tl_cons (a l : Tree) : tl (cons a l) = some l := rfl

@[simp] theorem items_ofList (ts : List Tree) : items (ofList ts) = ts := by
  induction ts with
  | nil => rfl
  | cons t ts ih => exact congrArg (t :: ·) ih

/-- The tail of a list is smaller. -/
theorem size_tl {l t : Tree} (h : tl l = some t) : t.size < l.size := by
  cases l with
  | node n br => exact size_lt_of_mem (List.mem_of_getElem? h)

section
variable (address : Tree → ℕ)

/-! ## Operations -/

/-- `isElement`. -/
def isElement (e : Tree) : Tree → Bool
  | .node (.sym .cons) [hd, tl] =>
    if hd = e then true
    else if address hd > address e then false
    else isElement e tl
  | _ => false

/-- `addElement`. -/
def addElement (e : Tree) : Tree → Tree
  | .node (.sym .cons) [hd, tl] =>
    if address e < address hd then cons e (cons hd tl)
    else if e = hd then cons hd tl
    else cons hd (addElement e tl)
  | _ => cons e nil

/-- `remElement`. -/
def remElement (e : Tree) : Tree → Tree
  | .node (.sym .cons) [hd, tl] =>
    if address e < address hd then cons hd tl
    else if e = hd then tl
    else cons hd (remElement e tl)
  | _ => nil

/-- `singleton`. -/
def singleton (e : Tree) : Tree := cons e nil

/-- The loop of `list2set`. -/
def list2setLoop (s : Tree) : Tree → Tree
  | .node (.sym .cons) [hd, tl] => list2setLoop (addElement address hd s) tl
  | _ => s

/-- `list2set`. -/
def list2set (l : Tree) : Tree := list2setLoop address nil l

/-- `setUnion`, `none` where it reads a branch of a tree that does not have it. -/
def setUnion (A B : Tree) : Option Tree :=
  if isNil A then some B
  else if isNil B then some A
  else
    match hd A, hd B with
    | some a, some b =>
      if a = b then
        match _hA : tl A, _hB : tl B with
        | some A', some B' => (setUnion A' B').map (cons a)
        | _, _ => none
      else if address a < address b then
        match _hA : tl A with
        | some A' => (setUnion A' B).map (cons a)
        | none => none
      else
        match _hB : tl B with
        | some B' => (setUnion A B').map (cons b)
        | none => none
    | _, _ => none
termination_by A.size + B.size
decreasing_by
  · have := size_tl _hA
    have := size_tl _hB
    omega
  · have := size_tl _hA
    omega
  · have := size_tl _hB
    omega

/-- `setIntersection`. -/
def setIntersection (A B : Tree) : Option Tree :=
  if isNil A then some A
  else if isNil B then some B
  else
    match hd A, hd B with
    | some a, some b =>
      if a = b then
        match _hA : tl A, _hB : tl B with
        | some A', some B' => (setIntersection A' B').map (cons a)
        | _, _ => none
      else if address a < address b then
        match _hA : tl A with
        | some A' => setIntersection A' B
        | none => none
      else
        match _hB : tl B with
        | some B' => setIntersection A B'
        | none => none
    | _, _ => none
termination_by A.size + B.size
decreasing_by
  · have := size_tl _hA
    have := size_tl _hB
    omega
  · have := size_tl _hA
    omega
  · have := size_tl _hB
    omega

/-- `setDifference`. -/
def setDifference (A B : Tree) : Option Tree :=
  if isNil A then some A
  else if isNil B then some A
  else
    match hd A, hd B with
    | some a, some b =>
      if a = b then
        match _hA : tl A, _hB : tl B with
        | some A', some B' => setDifference A' B'
        | _, _ => none
      else if address a < address b then
        match _hA : tl A with
        | some A' => (setDifference A' B).map (cons a)
        | none => none
      else
        match _hB : tl B with
        | some B' => setDifference A B'
        | none => none
    | _, _ => none
termination_by A.size + B.size
decreasing_by
  · have := size_tl _hA
    have := size_tl _hB
    omega
  · have := size_tl _hA
    omega
  · have := size_tl _hB
    omega

/-! ## On lists of trees -/

/-- `a` has the lower address. -/
def Before (a b : Tree) : Prop := address a < address b

instance : DecidableRel (Before address) := fun a b =>
  inferInstanceAs (Decidable (address a < address b))

section
variable {address} {e : Tree} (A B : List Tree)

theorem isElement_ofList :
    isElement address e (ofList A) = OrderedList.contains (Before address) e A := by
  induction A with
  | nil => rfl
  | cons a A ih =>
    show (if a = e then true else if address a > address e then false
      else isElement address e (ofList A)) = _
    rw [ih]
    rfl

theorem addElement_ofList :
    addElement address e (ofList A) = ofList (OrderedList.insert (Before address) e A) := by
  induction A with
  | nil => rfl
  | cons a A ih =>
    show (if address e < address a then cons e (cons a (ofList A)) else if e = a then _
      else cons a (addElement address e (ofList A))) =
        ofList (if address e < address a then _ else _)
    rw [ih]
    split_ifs
    · rfl
    · rfl
    · rfl

theorem remElement_ofList :
    remElement address e (ofList A) = ofList (OrderedList.erase (Before address) e A) := by
  induction A with
  | nil => rfl
  | cons a A ih =>
    show (if address e < address a then cons a (ofList A) else if e = a then ofList A
      else cons a (remElement address e (ofList A))) =
        ofList (if address e < address a then _ else _)
    rw [ih]
    split_ifs
    · rfl
    · rfl
    · rfl

theorem list2setLoop_eq (l : Tree) :
    list2setLoop address (ofList A) l =
      ofList ((items l).foldl (fun s e => OrderedList.insert (Before address) e s) A) := by
  induction l using items.induct generalizing A with
  | case1 a l ih =>
    show list2setLoop address (addElement address a (ofList A)) l = _
    rw [addElement_ofList, ih]
    rfl
  | case2 l hl =>
    unfold list2setLoop items
    split
    · exact absurd rfl (hl _ _)
    · rfl

theorem list2set_eq (l : Tree) :
    list2set address l = ofList (OrderedList.ofItems (Before address) (items l)) :=
  list2setLoop_eq [] l

/-! The operations on two lists that are not empty. -/

theorem setUnion_cons (a b A B : Tree) : setUnion address (cons a A) (cons b B) =
    if a = b then (setUnion address A B).map (cons a)
    else if Before address a b then (setUnion address A (cons b B)).map (cons a)
    else (setUnion address (cons a A) B).map (cons b) := by
  rw [setUnion]
  rfl

theorem setIntersection_cons (a b A B : Tree) : setIntersection address (cons a A) (cons b B) =
    if a = b then (setIntersection address A B).map (cons a)
    else if Before address a b then setIntersection address A (cons b B)
    else setIntersection address (cons a A) B := by
  rw [setIntersection]
  rfl

theorem setDifference_cons (a b A B : Tree) : setDifference address (cons a A) (cons b B) =
    if a = b then setDifference address A B
    else if Before address a b then (setDifference address A (cons b B)).map (cons a)
    else setDifference address (cons a A) B := by
  rw [setDifference]
  rfl

theorem setUnion_ofList : setUnion address (ofList A) (ofList B) =
    some (ofList (OrderedList.union (Before address) A B)) := by
  fun_induction OrderedList.union (Before address) A B with
  | case1 B =>
    rw [setUnion]
    rfl
  | case2 A hA =>
    cases A with
    | nil => exact absurd rfl hA
    | cons a A =>
      rw [setUnion]
      rfl
  | case3 A b B ih =>
    show setUnion address (cons b (ofList A)) (cons b (ofList B)) = _
    rw [setUnion_cons, if_pos rfl, ih]
    rfl
  | case4 a A b B hne hlt ih =>
    show setUnion address (cons a (ofList A)) (cons b (ofList B)) = _
    rw [setUnion_cons, if_neg hne, if_pos hlt]
    show (setUnion address (ofList A) (ofList (b :: B))).map (cons a) = _
    rw [ih]
    rfl
  | case5 a A b B hne hlt ih =>
    show setUnion address (cons a (ofList A)) (cons b (ofList B)) = _
    rw [setUnion_cons, if_neg hne, if_neg hlt]
    show (setUnion address (ofList (a :: A)) (ofList B)).map (cons b) = _
    rw [ih]
    rfl

theorem setIntersection_ofList : setIntersection address (ofList A) (ofList B) =
    some (ofList (OrderedList.inter (Before address) A B)) := by
  fun_induction OrderedList.inter (Before address) A B with
  | case1 B =>
    rw [setIntersection]
    rfl
  | case2 A hA =>
    cases A with
    | nil => exact absurd rfl hA
    | cons a A =>
      rw [setIntersection]
      rfl
  | case3 A b B ih =>
    show setIntersection address (cons b (ofList A)) (cons b (ofList B)) = _
    rw [setIntersection_cons, if_pos rfl, ih]
    rfl
  | case4 a A b B hne hlt ih =>
    show setIntersection address (cons a (ofList A)) (cons b (ofList B)) = _
    rw [setIntersection_cons, if_neg hne, if_pos hlt]
    exact ih
  | case5 a A b B hne hlt ih =>
    show setIntersection address (cons a (ofList A)) (cons b (ofList B)) = _
    rw [setIntersection_cons, if_neg hne, if_neg hlt]
    exact ih

theorem setDifference_ofList : setDifference address (ofList A) (ofList B) =
    some (ofList (OrderedList.diff (Before address) A B)) := by
  fun_induction OrderedList.diff (Before address) A B with
  | case1 B =>
    rw [setDifference]
    rfl
  | case2 A hA =>
    cases A with
    | nil => exact absurd rfl hA
    | cons a A =>
      rw [setDifference]
      rfl
  | case3 A b B ih =>
    show setDifference address (cons b (ofList A)) (cons b (ofList B)) = _
    rw [setDifference_cons, if_pos rfl]
    exact ih
  | case4 a A b B hne hlt ih =>
    show setDifference address (cons a (ofList A)) (cons b (ofList B)) = _
    rw [setDifference_cons, if_neg hne, if_pos hlt]
    show (setDifference address (ofList A) (ofList (b :: B))).map (cons a) = _
    rw [ih]
    rfl
  | case5 a A b B hne hlt ih =>
    show setDifference address (cons a (ofList A)) (cons b (ofList B)) = _
    rw [setDifference_cons, if_neg hne, if_neg hlt]
    exact ih

end

/-! ## On sets -/

/-- `l` is the ordered list of the set `X`. -/
def IsSet (l : Tree) (X : Finset Tree) : Prop :=
  ∃ A : OrderedSet (Before address), l = ofList A.elems ∧ A.toFinset = X

variable {address}

/-- The order of the addresses is a total order of the trees. -/
theorem before_isStrictTotalOrder (haddr : Function.Injective address) :
    IsStrictTotalOrder Tree (Before address) where
  irrefl a := lt_irrefl (address a)
  trans _ _ _ := lt_trans
  trichotomous _ _ hab hba := haddr (Nat.le_antisymm (not_lt.1 hba) (not_lt.1 hab))

theorem isSet_singleton (e : Tree) : IsSet address (singleton e) {e} :=
  ⟨⟨[e], List.pairwise_singleton _ e⟩, rfl, rfl⟩

/-- `list2set` changes nothing in a set. -/
theorem list2set_of_isSet (haddr : Function.Injective address) {l : Tree} {X : Finset Tree}
    (h : IsSet address l X) : list2set address l = l := by
  have := before_isStrictTotalOrder haddr
  obtain ⟨A, rfl, -⟩ := h
  have heq : OrderedSet.ofItems (Before address) A.elems = A :=
    OrderedSet.toFinset_injective (OrderedSet.toFinset_ofItems A.elems)
  rw [list2set_eq, items_ofList]
  exact congrArg (fun B : OrderedSet (Before address) => ofList B.elems) heq

/-- The operations give the ordered lists of the sets that they are named after, and the elements
of any list make a set. -/
theorem sets_correct (haddr : Function.Injective address) :
    (∀ A B X Y, IsSet address A X → IsSet address B Y → ∀ e,
      (isElement address e A = true ↔ e ∈ X) ∧
      IsSet address (addElement address e A) (insert e X) ∧
      IsSet address (remElement address e A) (X.erase e) ∧
      IsSet address (list2set address A) X ∧
      (∃ U, setUnion address A B = some U ∧ IsSet address U (X ∪ Y)) ∧
      (∃ I, setIntersection address A B = some I ∧ IsSet address I (X ∩ Y)) ∧
      ∃ D, setDifference address A B = some D ∧ IsSet address D (X \ Y)) ∧
    ∀ l, IsSet address (list2set address l) (items l).toFinset := by
  have := before_isStrictTotalOrder haddr
  refine ⟨?_, fun l => ⟨.ofItems _ (items l), list2set_eq l, OrderedSet.toFinset_ofItems _⟩⟩
  intro S T X Y hS hT e
  have hconv := list2set_of_isSet haddr hS
  obtain ⟨A, rfl, rfl⟩ := hS
  obtain ⟨B, rfl, rfl⟩ := hT
  refine ⟨?_, ?_, ?_, ?_, ?_, ?_, ?_⟩
  · rw [isElement_ofList]
    exact OrderedSet.contains_iff
  · exact ⟨A.insert e, addElement_ofList _, OrderedSet.toFinset_insert⟩
  · exact ⟨A.erase e, remElement_ofList _, OrderedSet.toFinset_erase⟩
  · rw [hconv]
    exact ⟨A, rfl, rfl⟩
  · exact ⟨_, setUnion_ofList _ _, A.union B, rfl, OrderedSet.toFinset_union⟩
  · exact ⟨_, setIntersection_ofList _ _, A.inter B, rfl, OrderedSet.toFinset_inter⟩
  · exact ⟨_, setDifference_ofList _ _, A.diff B, rfl, OrderedSet.toFinset_diff⟩

/-- The elements of `(7, 5, 7)`, and those with `9`. -/
theorem sets_correct_pair : ∃ address : Tree → ℕ,
    IsSet address (list2set address (ofList [leaf (.int 7), leaf (.int 5), leaf (.int 7)]))
      {leaf (.int 7), leaf (.int 5)} ∧
    ∃ U, setUnion address (list2set address (ofList [leaf (.int 7), leaf (.int 5), leaf (.int 7)]))
        (singleton (leaf (.int 9))) = some U ∧
      IsSet address U {leaf (.int 7), leaf (.int 5), leaf (.int 9)} := by
  obtain ⟨address, haddr⟩ := exists_address
  obtain ⟨hops, hconv⟩ := sets_correct haddr
  have hseven := hconv (ofList [leaf (.int 7), leaf (.int 5), leaf (.int 7)])
  obtain ⟨-, -, -, -, ⟨U, hU, hset⟩, -⟩ :=
    hops _ _ _ _ hseven (isSet_singleton (leaf (.int 9))) nil
  refine ⟨address, ?_, U, hU, ?_⟩
  · have hX : (items (ofList [leaf (.int 7), leaf (.int 5), leaf (.int 7)])).toFinset =
        {leaf (.int 7), leaf (.int 5)} := by decide
    rwa [hX] at hseven
  · have hX : (items (ofList [leaf (.int 7), leaf (.int 5), leaf (.int 7)])).toFinset ∪
        {leaf (.int 9)} = {leaf (.int 7), leaf (.int 5), leaf (.int 9)} := by decide
    rwa [hX] at hset

end

end Faust.TreeSet
