import Faust.Gui.OscPatterns

/-!
# Dispatch of OSC messages (`FaustFactory.cpp`, `MessageDriven.cpp`, `OSCAddress.cpp`)

The nodes lie in memory, each with its name, the address of its group and its subnodes. The factory
keeps a stack of the groups that are open. A message is proposed to the root with the first
component of its address, and to the subnodes of what matches with the next one.
-/

namespace Faust.Osc

/-- A node: its position among the nodes allocated stands for its address in memory. -/
structure Node where
  fName : Text
  fOSCPrefix : Text
  fSubNodes : List ℕ

/-- `getOSCAddress()`. -/
def Node.getOSCAddress (n : Node) : Text := n.fOSCPrefix ++ '/' :: n.fName

/-- The nodes allocated and the fields of `FaustFactory`. The top of the stack comes first. -/
structure FaustFactory where
  nodes : List Node
  fNodes : List ℕ
  fRoot : Option ℕ

namespace FaustFactory

/-- A factory before any call. -/
def new : FaustFactory := ⟨[], [], none⟩

variable (f : FaustFactory)

/-- Whether `name()` of a node is the label. -/
def hasName (label : Text) (i : ℕ) : Bool :=
  match f.nodes[i]? with
  | some n => n.fName = label
  | none => false

/-- A new node, added to the subnodes of a node. -/
def addTo (top : ℕ) (node : Node) (label : Text) : List Node :=
  f.nodes.set top { node with fSubNodes := node.fSubNodes ++ [f.nodes.length] } ++
    [⟨label, node.getOSCAddress, []⟩]

/-- `opengroup(label)`. -/
def opengroup (label : Text) : Option FaustFactory :=
  match f.fNodes with
  | [] => some ⟨f.nodes ++ [⟨label, [], []⟩], [f.nodes.length], some f.nodes.length⟩
  | top :: stack =>
    match f.nodes[top]? with
    | none => none
    | some node =>
      match node.fSubNodes.find? (f.hasName label) with
      | some i => some { f with fNodes := i :: top :: stack }
      | none => some
        { f with nodes := f.addTo top node label, fNodes := f.nodes.length :: top :: stack }

/-- `addnode(label, ...)`. -/
def addnode (label : Text) : Option FaustFactory :=
  match f.fNodes with
  | [] => some f
  | top :: _ =>
    match f.nodes[top]? with
    | none => none
    | some node => some { f with nodes := f.addTo top node label }

/-- `closegroup()`. To pop an empty stack is not defined. -/
def closegroup : Option FaustFactory :=
  match f.fNodes with
  | [] => none
  | _ :: stack => some { f with fNodes := stack }

end FaustFactory

/-- The calls that build a tree. -/
inductive Call
  | opengroup (label : Text)
  | addnode (label : Text)
  | closegroup

/-- One call. -/
def Call.run (f : FaustFactory) : Call → Option FaustFactory
  | opengroup label => f.opengroup label
  | addnode label => f.addnode label
  | closegroup => f.closegroup

/-! ## Addresses -/

/-- `a.find_first_of('/', 1)`. -/
def findSep (a : Text) : Option ℕ := ((a.drop 1).findIdx? (· = '/')).map (· + 1)

/-- `addressFirst`. -/
def addressFirst (a : Text) : Text :=
  if a.head? = some '/' then
    let n := (findSep a).getD a.length
    (a.drop 1).take (n - 1)
  else []

/-- `addressTail`. -/
def addressTail (a : Text) : Text :=
  if a.head? = some '/' then
    match findSep a with
    | some n => a.drop n
    | none => []
  else []

theorem findSep_append {s : Text} (hs : '/' ∉ s) (t : Text) :
    findSep ('/' :: (s ++ '/' :: t)) = some (s.length + 1) := by
  have hidx : (s ++ '/' :: t).findIdx? (· = '/') = some s.length := by
    induction s with
    | nil => rw [List.nil_append, List.findIdx?_cons, if_pos (by decide)]; rfl
    | cons c s ih =>
      have hc : c ≠ '/' := fun h => hs (h ▸ List.mem_cons_self)
      rw [List.cons_append, List.findIdx?_cons, ih fun h => hs (List.mem_cons_of_mem _ h)]
      simp [hc]
  rw [findSep]
  show ((s ++ '/' :: t).findIdx? (· = '/')).map (· + 1) = _
  rw [hidx]
  rfl

theorem findSep_none {s : Text} (hs : '/' ∉ s) : findSep ('/' :: s) = none := by
  rw [findSep]
  show (s.findIdx? (· = '/')).map (· + 1) = none
  have hidx : s.findIdx? (· = '/') = none := by
    rw [List.findIdx?_eq_none_iff]
    intro c hc
    have hne : c ≠ '/' := fun h => hs (h ▸ hc)
    simpa using hne
  rw [hidx]
  rfl

theorem address_append {s : Text} (hs : '/' ∉ s) (t : Text) :
    addressFirst ('/' :: (s ++ '/' :: t)) = s ∧
      addressTail ('/' :: (s ++ '/' :: t)) = '/' :: t := by
  have hhead : ('/' :: (s ++ '/' :: t)).head? = some '/' := rfl
  rw [addressFirst, addressTail, findSep_append hs, if_pos hhead, if_pos hhead]
  constructor
  · show (s ++ '/' :: t).take (s.length + 1 - 1) = s
    rw [Nat.add_sub_cancel, List.take_left]
  · show (s ++ '/' :: t).drop s.length = '/' :: t
    rw [List.drop_left]

theorem address_last {s : Text} (hs : '/' ∉ s) :
    addressFirst ('/' :: s) = s ∧ addressTail ('/' :: s) = [] := by
  have hhead : ('/' :: s).head? = some '/' := rfl
  rw [addressFirst, addressTail, findSep_none hs, if_pos hhead, if_pos hhead]
  constructor
  · show s.take (s.length + 1 - 1) = s
    rw [Nat.add_sub_cancel, List.take_length]
  · rfl

/-- The tail of an address is shorter. -/
theorem addressTail_lt {a : Text} (ha : a ≠ []) : (addressTail a).length < a.length := by
  have hpos : 0 < a.length := List.length_pos_iff.mpr ha
  unfold addressTail
  split
  · split
    · next n hn =>
      obtain ⟨k, -, rfl⟩ := Option.map_eq_some_iff.mp hn
      rw [List.length_drop]
      omega
    · exact hpos
  · exact hpos

/-! ## Dispatch -/

/-- `propose`: the nodes that `accept` is called on. `matchExact` is the library of regular
expressions. -/
def propose (matchExact : Text → Text → Bool) (nodes : List Node) (i : ℕ) (regexp addrTail : Text) :
    List ℕ :=
  match nodes[i]? with
  | none => []
  | some n =>
    if matchExact regexp n.fName then
      if _ : addrTail = [] then [i]
      else n.fSubNodes.flatMap fun j =>
        propose matchExact nodes j (oscRe2Re (addressFirst addrTail)) (addressTail addrTail)
    else []
termination_by addrTail.length
decreasing_by exact addressTail_lt ‹_›

/-- `processMessage` of the root, for a message of this address. -/
def processMessage (matchExact : Text → Text → Bool) (f : FaustFactory) (addr : Text) : List ℕ :=
  match f.fRoot with
  | none => []
  | some root =>
    propose matchExact f.nodes root (oscRe2Re (addressFirst addr)) (addressTail addr)

end Faust.Osc
