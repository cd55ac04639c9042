import Mathlib.Data.List.Forall2
import Mathlib.Data.List.Nodup
import Faust.Gui.OscDispatch

/-!
# The nodes that an OSC message reaches

The labels of the nodes are told from the calls alone, by a machine that knows no nodes. What the
factory builds follows this machine, and the nodes that `propose` accepts are those whose labels
match the components of the address, one by one. The library of expressions comes in at one place,
in the match of a component with a label.
-/

namespace Faust.Osc

/-! ## The labels of the nodes -/

/-- The labels joined, each after a slash. -/
def slashJoin (ls : List Text) : Text := ls.flatMap ('/' :: ·)

/-- The labels that lead to each node, in the order of the nodes, and to each group that is open,
the last one opened first. -/
structure Paths where
  known : List (List Text)
  curs : List (List Text)

/-- What one call does. A group of the same labels is the same group. -/
def Paths.step (p : Paths) : Call → Paths
  | .opengroup l =>
    match p.curs with
    | [] => ⟨p.known ++ [[l]], [[l]]⟩
    | cur :: curs =>
      ⟨if cur ++ [l] ∈ p.known then p.known else p.known ++ [cur ++ [l]],
        (cur ++ [l]) :: cur :: curs⟩
  | .addnode l =>
    match p.curs with
    | [] => p
    | cur :: _ => { p with known := p.known ++ [cur ++ [l]] }
  | .closegroup => { p with curs := p.curs.tail }

/-- The labels after some calls. -/
def paths (calls : List Call) : Paths := calls.foldl Paths.step ⟨[], []⟩

/-- The groups that the calls open are closed. -/
inductive Balanced : List Call → Prop
  | nil : Balanced []
  | addnode {calls : List Call} (label : Text) (h : Balanced calls) :
      Balanced (.addnode label :: calls)
  | group {body calls : List Call} (label : Text) (hbody : Balanced body) (h : Balanced calls) :
      Balanced (.opengroup label :: (body ++ .closegroup :: calls))

/-- The labels of a call. -/
def Call.labels : Call → List Text
  | opengroup label => [label]
  | addnode label => [label]
  | closegroup => []

/-- The labels that are known are labels of the calls. -/
structure LabelsIn (P : Text → Prop) (p : Paths) : Prop where
  known : ∀ ls ∈ p.known, ls ≠ [] ∧ ∀ l ∈ ls, P l
  curs : ∀ ls ∈ p.curs, ∀ l ∈ ls, P l

theorem LabelsIn.step {P : Text → Prop} {p : Paths} (h : LabelsIn P p) {c : Call}
    (hc : ∀ l ∈ c.labels, P l) : LabelsIn P (p.step c) := by
  have extend : ∀ {cur : List Text} {l : Text}, (∀ x ∈ cur, P x) → P l →
      cur ++ [l] ≠ [] ∧ ∀ x ∈ cur ++ [l], P x := by
    intro cur l hcur hl
    refine ⟨by simp, fun x hx => ?_⟩
    rcases List.mem_append.mp hx with hx | hx
    · exact hcur x hx
    · rwa [List.mem_singleton.mp hx]
  have append : ∀ {ls : List Text}, (ls ≠ [] ∧ ∀ l ∈ ls, P l) →
      ∀ ks ∈ p.known ++ [ls], ks ≠ [] ∧ ∀ l ∈ ks, P l := by
    intro ls hls ks hks
    rcases List.mem_append.mp hks with hks | hks
    · exact h.known ks hks
    · rwa [List.mem_singleton.mp hks]
  obtain ⟨known, curs⟩ := p
  cases c with
  | closegroup => exact ⟨h.known, fun ls hls => h.curs ls (List.mem_of_mem_tail hls)⟩
  | addnode l =>
    cases curs with
    | nil => exact h
    | cons cur curs =>
      have hnew := extend (h.curs cur List.mem_cons_self) (hc l List.mem_cons_self)
      exact ⟨append hnew, h.curs⟩
  | opengroup l =>
    have hl := hc l List.mem_cons_self
    cases curs with
    | nil =>
      have hone : ([l] : List Text) ≠ [] ∧ ∀ x ∈ [l], P x :=
        ⟨by simp, fun x hx => (List.mem_singleton.mp hx) ▸ hl⟩
      exact ⟨append hone, fun ls hls => (List.mem_singleton.mp hls) ▸ hone.2⟩
    | cons cur curs =>
      have hnew := extend (h.curs cur List.mem_cons_self) hl
      refine ⟨?_, fun ls hls => ?_⟩
      · show ∀ ls ∈ (if cur ++ [l] ∈ known then known else known ++ [cur ++ [l]]), _
        split
        · exact h.known
        · exact append hnew
      · rcases List.mem_cons.mp hls with rfl | hls
        · exact hnew.2
        · exact h.curs ls hls

theorem LabelsIn.foldl {P : Text → Prop} {calls : List Call} {p : Paths} (h : LabelsIn P p)
    (hc : ∀ c ∈ calls, ∀ l ∈ c.labels, P l) : LabelsIn P (calls.foldl Paths.step p) := by
  induction calls generalizing p with
  | nil => exact h
  | cons c calls ih =>
    exact ih (h.step (hc c List.mem_cons_self)) fun d hd => hc d (List.mem_cons_of_mem _ hd)

/-- What holds of the labels of the calls holds of the labels of the nodes. -/
theorem labelsIn_paths {P : Text → Prop} {calls : List Call}
    (hc : ∀ c ∈ calls, ∀ l ∈ c.labels, P l) : LabelsIn P (paths calls) := by
  have hstart : LabelsIn P ⟨[], []⟩ := ⟨fun _ h => (by cases h), fun _ h => (by cases h)⟩
  exact hstart.foldl hc

/-! ## What the factory builds -/

/-- The nodes follow the labels. -/
structure Built (f : FaustFactory) (p : Paths) : Prop where
  length : f.nodes.length = p.known.length
  root : f.fRoot = some 0
  rootLabels : ∃ label, p.known[0]? = some [label]
  /-- A node holds its last label, and the address of the others. -/
  node : ∀ (i : ℕ) (n : Node) ls, f.nodes[i]? = some n → p.known[i]? = some ls →
    ∃ init, ls = init ++ [n.fName] ∧ n.fOSCPrefix = slashJoin init
  /-- A subnode comes after its group. -/
  child : ∀ (i : ℕ) (n : Node) ls j, f.nodes[i]? = some n → p.known[i]? = some ls →
    j ∈ n.fSubNodes → i < j ∧ ∃ l, p.known[j]? = some (ls ++ [l])
  sorted : ∀ (i : ℕ) (n : Node), f.nodes[i]? = some n → n.fSubNodes.Pairwise (· < ·)
  parent : ∀ j, 0 < j → j < f.nodes.length →
    ∃ (i : ℕ) (n : Node), f.nodes[i]? = some n ∧ j ∈ n.fSubNodes
  /-- Of the nodes with the same labels only the first one has subnodes. -/
  first : ∀ (i : ℕ) (n : Node) ls, f.nodes[i]? = some n → n.fSubNodes ≠ [] → p.known[i]? = some ls →
    ∀ k, p.known[k]? = some ls → i ≤ k
  stack : List.Forall₂ (fun i ls => p.known[i]? = some ls ∧ ∀ k, p.known[k]? = some ls → i ≤ k)
    f.fNodes p.curs

section
variable {f : FaustFactory} {p : Paths} {i j k top : ℕ} {n node : Node} {ls cur : List Text}
  {label : Text}

theorem Built.labels_of_node (h : Built f p) (hn : f.nodes[i]? = some n) :
    ∃ ls, p.known[i]? = some ls := by
  obtain ⟨hi, -⟩ := List.getElem?_eq_some_iff.mp hn
  rw [h.length] at hi
  exact ⟨_, List.getElem?_eq_getElem hi⟩

theorem Built.node_of_labels (h : Built f p) (hls : p.known[i]? = some ls) :
    ∃ n, f.nodes[i]? = some n := by
  obtain ⟨hi, -⟩ := List.getElem?_eq_some_iff.mp hls
  rw [← h.length] at hi
  exact ⟨_, List.getElem?_eq_getElem hi⟩

/-- A node has the name of its last label. -/
theorem Built.name (h : Built f p) (hn : f.nodes[i]? = some n)
    (hls : p.known[i]? = some (ls ++ [label])) : n.fName = label := by
  obtain ⟨init, heq, -⟩ := h.node i n _ hn hls
  exact ((List.append_inj' heq rfl).2 |> List.singleton_inj.mp).symm

/-- The address of a node is made of its labels. -/
theorem Built.getOSCAddress (h : Built f p) (hn : f.nodes[i]? = some n)
    (hls : p.known[i]? = some ls) : n.getOSCAddress = slashJoin ls := by
  obtain ⟨init, rfl, hprefix⟩ := h.node i n ls hn hls
  rw [Node.getOSCAddress, hprefix]
  simp [slashJoin]

/-- The lookup in the nodes after one is added. -/
theorem getElem?_addTo (hn : f.nodes[top]? = some node) :
    (f.addTo top node label)[i]? =
      if i = top then some { node with fSubNodes := node.fSubNodes ++ [f.nodes.length] }
      else if i = f.nodes.length then some ⟨label, node.getOSCAddress, []⟩
      else f.nodes[i]? := by
  obtain ⟨htop, -⟩ := List.getElem?_eq_some_iff.mp hn
  rw [FaustFactory.addTo]
  by_cases hi : i = top
  · subst hi
    rw [if_pos rfl, List.getElem?_append_left (by rwa [List.length_set]),
      List.getElem?_set_self htop]
  · rw [if_neg hi]
    by_cases hlen : i = f.nodes.length
    · subst hlen
      rw [if_pos rfl, List.getElem?_append_right (Nat.le_of_eq List.length_set), List.length_set,
        Nat.sub_self]
      rfl
    · rw [if_neg hlen]
      by_cases hlt : i < f.nodes.length
      · rw [List.getElem?_append_left (by rwa [List.length_set]),
          List.getElem?_set_ne (Ne.symm hi)]
      · rw [List.getElem?_eq_none (by rw [List.length_append, List.length_set]; simp; omega),
          List.getElem?_eq_none (by omega)]

/-- The nodes follow the labels when one is added to the group that is open. -/
theorem Built.addTo (h : Built f p) (htop : p.known[top]? = some cur)
    (hfirst : ∀ k, p.known[k]? = some cur → top ≤ k) (hn : f.nodes[top]? = some node) :
    Built { f with nodes := f.addTo top node label }
      { p with known := p.known ++ [cur ++ [label]] } := by
  have htoplt : top < p.known.length := (List.getElem?_eq_some_iff.mp htop).1
  have hlen := h.length
  have hold : ∀ {k : ℕ} {ls : List Text}, p.known[k]? = some ls →
      (p.known ++ [cur ++ [label]])[k]? = some ls := by
    intro k ls hk
    rwa [List.getElem?_append_left (List.getElem?_eq_some_iff.mp hk).1]
  have hlt : ∀ {k : ℕ} {ls : List Text}, (p.known ++ [cur ++ [label]])[k]? = some ls →
      k ≠ f.nodes.length → p.known[k]? = some ls := by
    intro k ls hk hne
    have hk' := (List.getElem?_eq_some_iff.mp hk).1
    rw [List.length_append, List.length_singleton] at hk'
    rwa [List.getElem?_append_left (by omega)] at hk
  have hlast : (p.known ++ [cur ++ [label]])[f.nodes.length]? = some (cur ++ [label]) := by
    rw [hlen, List.getElem?_append_right (Nat.le_refl _), Nat.sub_self]
    rfl
  -- of the nodes of the same labels, the first one is still the same
  have hmin : ∀ {i : ℕ} {ls : List Text}, p.known[i]? = some ls →
      (∀ k, p.known[k]? = some ls → i ≤ k) →
      ∀ k, (p.known ++ [cur ++ [label]])[k]? = some ls → i ≤ k := by
    intro i ls hi hall k hk
    by_cases hne : k = f.nodes.length
    · have hik := (List.getElem?_eq_some_iff.mp hi).1
      omega
    · exact hall k (hlt hk hne)
  obtain ⟨root, hroot⟩ := h.rootLabels
  refine ⟨?_, h.root, ⟨root, hold hroot⟩, ?_, ?_, ?_, ?_, ?_, ?_⟩
  · simp [FaustFactory.addTo, hlen]
  · intro i n ls hi hls
    rw [getElem?_addTo hn] at hi
    split at hi
    · next heq =>
      subst heq
      cases hi
      exact h.node i node ls hn (hlt hls (by omega))
    · split at hi
      · next heq =>
        subst heq
        cases hi
        rw [hlast] at hls
        cases hls
        exact ⟨cur, rfl, h.getOSCAddress hn htop⟩
      · next hne => exact h.node i n ls hi (hlt hls hne)
  · intro i n ls j hi hls hj
    rw [getElem?_addTo hn] at hi
    split at hi
    · next heq =>
      subst heq
      cases hi
      have hls := hlt hls (by omega)
      rcases List.mem_append.mp hj with hj | hj
      · obtain ⟨hij, l, hl⟩ := h.child i node ls j hn hls hj
        exact ⟨hij, l, hold hl⟩
      · rw [List.mem_singleton.mp hj]
        rw [htop] at hls
        cases hls
        exact ⟨by omega, label, hlast⟩
    · split at hi
      · cases hi
        cases hj
      · next hne =>
        obtain ⟨hij, l, hl⟩ := h.child i n ls j hi (hlt hls hne) hj
        exact ⟨hij, l, hold hl⟩
  · intro i n hi
    rw [getElem?_addTo hn] at hi
    split at hi
    · cases hi
      refine List.pairwise_append.mpr ⟨h.sorted top node hn, List.pairwise_singleton _ _, ?_⟩
      intro a ha b hb
      rw [List.mem_singleton.mp hb]
      obtain ⟨-, l, hl⟩ := h.child top node cur a hn htop ha
      have halt := (List.getElem?_eq_some_iff.mp hl).1
      omega
    · split at hi
      · cases hi
        exact List.Pairwise.nil
      · exact h.sorted i n hi
  · intro j hpos hj
    have hj : j < f.nodes.length + 1 := by simpa [FaustFactory.addTo] using hj
    by_cases hnew : j = f.nodes.length
    · refine ⟨top, { node with fSubNodes := node.fSubNodes ++ [f.nodes.length] }, ?_, ?_⟩
      · show (f.addTo top node label)[top]? = _
        rw [getElem?_addTo hn, if_pos rfl]
      · exact List.mem_append_right _ (List.mem_singleton.mpr hnew)
    · obtain ⟨i, n, hi, hmem⟩ := h.parent j hpos (by omega)
      by_cases hit : i = top
      · subst hit
        rw [hn] at hi
        cases hi
        refine ⟨i, { node with fSubNodes := node.fSubNodes ++ [f.nodes.length] }, ?_, ?_⟩
        · show (f.addTo i node label)[i]? = _
          rw [getElem?_addTo hn, if_pos rfl]
        · exact List.mem_append_left _ hmem
      · refine ⟨i, n, ?_, hmem⟩
        have hilt := (List.getElem?_eq_some_iff.mp hi).1
        show (f.addTo top node label)[i]? = _
        rw [getElem?_addTo hn, if_neg hit, if_neg (by omega), hi]
  · intro i n ls hi hsub hls
    rw [getElem?_addTo hn] at hi
    split at hi
    · next heq =>
      subst heq
      have hls := hlt hls (by omega)
      rw [htop] at hls
      cases hls
      exact hmin htop hfirst
    · split at hi
      · cases hi
        exact absurd rfl hsub
      · next hne =>
        have hls := hlt hls hne
        exact hmin hls (h.first i n ls hi hsub hls)
  · refine List.Forall₂.imp ?_ h.stack
    intro i ls hils
    exact ⟨hold hils.1, hmin hils.1 hils.2⟩

/-- What `name()` is of a node that follows its labels. -/
theorem Built.hasName (h : Built f p) (hls : p.known[i]? = some (ls ++ [label])) {l : Text} :
    f.hasName l i = true ↔ label = l := by
  obtain ⟨n, hn⟩ := h.node_of_labels hls
  have hname := h.name hn hls
  rw [FaustFactory.hasName, hn]
  simp [hname]

/-- A node that is not the root is a subnode of the first node of its group. -/
theorem Built.mem_subnodes (h : Built f p) (hcur : cur ≠ []) (htop : p.known[top]? = some cur)
    (hfirst : ∀ k, p.known[k]? = some cur → top ≤ k) (hn : f.nodes[top]? = some node)
    (hls : p.known[k]? = some (cur ++ [label])) : k ∈ node.fSubNodes := by
  have hk : k < f.nodes.length := h.length ▸ (List.getElem?_eq_some_iff.mp hls).1
  by_cases hpos : k = 0
  · -- the labels of the root are not longer
    exfalso
    subst hpos
    obtain ⟨root, hroot⟩ := h.rootLabels
    rw [hroot] at hls
    have hlen := congrArg List.length (Option.some.inj hls)
    rw [List.length_append, List.length_singleton, List.length_singleton] at hlen
    exact hcur (List.length_eq_zero_iff.mp (by omega))
  · obtain ⟨i, n, hi, hmem⟩ := h.parent k (by omega) hk
    obtain ⟨ils, hils⟩ := h.labels_of_node hi
    obtain ⟨-, l, hl⟩ := h.child i n ils k hi hils hmem
    rw [hls] at hl
    obtain ⟨rfl, -⟩ := List.append_inj' (Option.some.inj hl) rfl
    have hle := h.first i n cur hi (List.ne_nil_of_mem hmem) hils top htop
    have hge := hfirst i hils
    have heq : i = top := by omega
    rw [heq, hn] at hi
    cases hi
    exact hmem

theorem eq_of_getElem?_singleton {α : Type*} {a b : α} (h : [a][i]? = some b) : i = 0 ∧ a = b := by
  rw [List.getElem?_singleton] at h
  split at h
  · next hi => exact ⟨hi, Option.some.inj h⟩
  · cases h

/-- The first call makes the root. -/
theorem built_root (label : Text) :
    ∃ f, FaustFactory.new.opengroup label = some f ∧
      Built f (Paths.step ⟨[], []⟩ (.opengroup label)) := by
  refine ⟨⟨[⟨label, [], []⟩], [0], some 0⟩, rfl, rfl, rfl, ⟨label, rfl⟩, ?_, ?_, ?_, ?_, ?_, ?_⟩
  · intro i n ls hi hls
    obtain ⟨rfl, rfl⟩ := eq_of_getElem?_singleton hi
    obtain ⟨-, rfl⟩ := eq_of_getElem?_singleton hls
    exact ⟨[], rfl, rfl⟩
  · intro i n ls j hi hls hj
    obtain ⟨rfl, rfl⟩ := eq_of_getElem?_singleton hi
    cases hj
  · intro i n hi
    obtain ⟨rfl, rfl⟩ := eq_of_getElem?_singleton hi
    exact List.Pairwise.nil
  · intro j hpos hj
    have hj : j < 1 := hj
    omega
  · intro i n ls hi hsub
    obtain ⟨rfl, rfl⟩ := eq_of_getElem?_singleton hi
    exact absurd rfl hsub
  · exact .cons ⟨rfl, fun k _ => Nat.zero_le k⟩ .nil

variable {curs : List (List Text)}

/-- What lies on top of the stack. -/
theorem Built.stack_top (h : Built f p) (hcurs : p.curs = cur :: curs) :
    ∃ top stack node, f.fNodes = top :: stack ∧ p.known[top]? = some cur ∧
      (∀ k, p.known[k]? = some cur → top ≤ k) ∧ f.nodes[top]? = some node := by
  have hstack := h.stack
  rw [hcurs] at hstack
  obtain ⟨top, stack, ⟨htop, hfirst⟩, -, heq⟩ := List.forall₂_cons_right_iff.mp hstack
  obtain ⟨node, hn⟩ := h.node_of_labels htop
  exact ⟨top, stack, node, heq, htop, hfirst, hn⟩

theorem Built.addnode (h : Built f p) (hcurs : p.curs = cur :: curs) (label : Text) :
    ∃ f', f.addnode label = some f' ∧ Built f' (p.step (.addnode label)) := by
  obtain ⟨top, stack, node, hstack, htop, hfirst, hn⟩ := h.stack_top hcurs
  refine ⟨{ f with nodes := f.addTo top node label }, ?_, ?_⟩
  · simp only [FaustFactory.addnode, hstack, hn]
  · have hp : p.step (.addnode label) = { p with known := p.known ++ [cur ++ [label]] } := by
      simp only [Paths.step, hcurs]
    rw [hp]
    exact h.addTo htop hfirst hn

theorem Built.closegroup (h : Built f p) (hcurs : p.curs = cur :: curs) :
    ∃ f', f.closegroup = some f' ∧ Built f' (p.step .closegroup) := by
  obtain ⟨top, stack, node, hstack, -⟩ := h.stack_top hcurs
  refine ⟨{ f with fNodes := stack }, ?_, ?_⟩
  · simp only [FaustFactory.closegroup, hstack]
  · have hrest := h.stack
    rw [hcurs, hstack] at hrest
    refine { h with stack := ?_ }
    show List.Forall₂ _ stack p.curs.tail
    rw [hcurs]
    exact (List.forall₂_cons.mp hrest).2

/-- A group is opened: one of the same labels is found, and is the first one. -/
theorem Built.opengroup (h : Built f p) (hcurs : p.curs = cur :: curs) (label : Text) :
    ∃ f', f.opengroup label = some f' ∧ Built f' (p.step (.opengroup label)) := by
  obtain ⟨top, stack, node, hstack, htop, hfirst, hn⟩ := h.stack_top hcurs
  have hcur : cur ≠ [] := by
    obtain ⟨init, rfl, -⟩ := h.node top node cur hn htop
    simp
  have hsub : ∀ {k : ℕ}, p.known[k]? = some (cur ++ [label]) → k ∈ node.fSubNodes :=
    fun hk => h.mem_subnodes hcur htop hfirst hn hk
  have hrest := h.stack
  rw [hcurs] at hrest
  cases hfind : node.fSubNodes.find? (f.hasName label) with
  | some i =>
    obtain ⟨hname, as, bs, hsplit, hnone⟩ := List.find?_eq_some_iff_append.mp hfind
    have hi : i ∈ node.fSubNodes := List.mem_of_find?_eq_some hfind
    obtain ⟨-, l, hl⟩ := h.child top node cur i hn htop hi
    have hlabel : l = label := (h.hasName hl).mp hname
    subst hlabel
    have hmem : cur ++ [l] ∈ p.known := List.mem_of_getElem? hl
    refine ⟨{ f with fNodes := i :: top :: stack }, ?_, ?_⟩
    · simp only [FaustFactory.opengroup, hstack, hn, hfind]
    · have hp : p.step (.opengroup l) = { p with curs := (cur ++ [l]) :: cur :: curs } := by
        simp only [Paths.step, hcurs, if_pos hmem]
      rw [hp]
      refine { h with stack := .cons ⟨hl, fun k hk => ?_⟩ (hstack ▸ hrest) }
      -- the subnodes are in the order of their creation
      have hsorted := h.sorted top node hn
      have hkmem := hsub hk
      rw [hsplit] at hkmem hsorted
      rcases List.mem_append.mp hkmem with hka | hkb
      · have hnot := hnone k hka
        rw [(h.hasName hk).mpr rfl] at hnot
        cases hnot
      · rcases List.mem_cons.mp hkb with rfl | hkb
        · exact Nat.le_refl k
        · have hlt := (List.pairwise_cons.mp (List.pairwise_append.mp hsorted).2.1).1 k hkb
          omega
  | none =>
    have hnew : cur ++ [label] ∉ p.known := by
      intro hmem
      obtain ⟨k, hk⟩ := List.getElem?_of_mem hmem
      exact List.find?_eq_none.mp hfind k (hsub hk) ((h.hasName hk).mpr rfl)
    refine ⟨⟨f.addTo top node label, f.nodes.length :: top :: stack, f.fRoot⟩, ?_, ?_⟩
    · simp only [FaustFactory.opengroup, hstack, hn, hfind]
    · have hp : p.step (.opengroup label) =
          ⟨p.known ++ [cur ++ [label]], (cur ++ [label]) :: cur :: curs⟩ := by
        simp only [Paths.step, hcurs, if_neg hnew]
      rw [hp]
      have hadd : Built { f with nodes := f.addTo top node label }
          { p with known := p.known ++ [cur ++ [label]] } := h.addTo htop hfirst hn
      have hstack' := hadd.stack
      simp only [hstack, hcurs] at hstack'
      refine { hadd with stack := .cons ⟨?_, fun k hk => ?_⟩ hstack' }
      · show (p.known ++ [cur ++ [label]])[f.nodes.length]? = _
        rw [h.length, List.getElem?_append_right (Nat.le_refl _), Nat.sub_self]
        rfl
      · -- no older node has these labels
        have hk : (p.known ++ [cur ++ [label]])[k]? = some (cur ++ [label]) := hk
        by_contra hlt
        have hlen := h.length
        rw [List.getElem?_append_left (by omega)] at hk
        exact hnew (List.mem_of_getElem? hk)

/-- Balanced calls inside of a group succeed and leave it open. -/
theorem Built.balanced {calls : List Call} (hc : Balanced calls) (h : Built f p)
    (hcurs : p.curs = cur :: curs) :
    ∃ f', calls.foldlM Call.run f = some f' ∧ Built f' (calls.foldl Paths.step p) ∧
      (calls.foldl Paths.step p).curs = cur :: curs := by
  induction hc generalizing f p cur curs with
  | nil => exact ⟨f, rfl, h, hcurs⟩
  | addnode label _ ih =>
    obtain ⟨f', hadd, h'⟩ := h.addnode hcurs label
    have hcurs' : (p.step (.addnode label)).curs = cur :: curs := by
      simp only [Paths.step, hcurs]
    obtain ⟨f'', hrun, hend⟩ := ih h' hcurs'
    refine ⟨f'', ?_, hend⟩
    rw [List.foldlM_cons]
    show (f.addnode label >>= _) = _
    rw [hadd]
    exact hrun
  | @group body calls label _ _ ihbody ih =>
    obtain ⟨f', hopen, h'⟩ := h.opengroup hcurs label
    have hcurs' : (p.step (.opengroup label)).curs = (cur ++ [label]) :: cur :: curs := by
      simp only [Paths.step, hcurs]
    obtain ⟨f'', hbody, h'', hcurs''⟩ := ihbody h' hcurs'
    obtain ⟨f3, hclose, h3⟩ := h''.closegroup hcurs''
    have hcurs3 :
        (Paths.step (body.foldl Paths.step (p.step (.opengroup label))) .closegroup).curs =
          cur :: curs := by
      show (body.foldl Paths.step (p.step (.opengroup label))).curs.tail = _
      rw [hcurs'']
      rfl
    obtain ⟨f4, hrun, hend⟩ := ih h3 hcurs3
    refine ⟨f4, ?_, ?_⟩
    · rw [List.foldlM_cons]
      show (f.opengroup label >>= _) = _
      rw [hopen]
      show List.foldlM Call.run f' (body ++ Call.closegroup :: calls) = _
      rw [List.foldlM_append, hbody]
      show List.foldlM Call.run f'' (Call.closegroup :: calls) = _
      rw [List.foldlM_cons]
      show (f''.closegroup >>= _) = _
      rw [hclose]
      exact hrun
    · rw [List.foldl_cons, List.foldl_append]
      exact hend

/-- One top-level group succeeds. -/
theorem built_calls {body : List Call} (hbody : Balanced body) (root : Text) :
    ∃ f, (.opengroup root :: (body ++ [.closegroup])).foldlM Call.run .new = some f ∧
      Built f (paths (.opengroup root :: (body ++ [.closegroup]))) := by
  obtain ⟨f, hroot, h⟩ := built_root root
  have hopen : (Paths.step ⟨[], []⟩ (.opengroup root)).curs = [[root]] := rfl
  obtain ⟨f', hrun, h', hcurs⟩ := h.balanced hbody hopen
  obtain ⟨f'', hclose, h''⟩ := h'.closegroup hcurs
  refine ⟨f'', ?_, ?_⟩
  · rw [List.foldlM_cons]
    show (FaustFactory.new.opengroup root >>= _) = _
    rw [hroot]
    show List.foldlM Call.run f (body ++ [Call.closegroup]) = _
    rw [List.foldlM_append, hrun]
    show (f'.closegroup >>= _) = _
    rw [hclose]
    rfl
  · rw [paths, List.foldl_cons, List.foldl_append]
    exact h''

end

/-! ## What a message is proposed to -/

/-- From a node, along these labels with its own, lies a node. -/
inductive Under (nodes : List Node) : ℕ → List Text → ℕ → Prop
  | here {i : ℕ} {n : Node} (hn : nodes[i]? = some n) : Under nodes i [n.fName] i
  | sub {i j k : ℕ} {n : Node} {ls : List Text} (hn : nodes[i]? = some n) (hj : j ∈ n.fSubNodes)
      (h : Under nodes j ls k) : Under nodes i (n.fName :: ls) k

section
variable {f : FaustFactory} {p : Paths} {i j k : ℕ} {n m : Node} {ls init : List Text}

theorem Under.ne_nil {nodes : List Node} (h : Under nodes i ls k) : ls ≠ [] := by
  cases h <;> exact List.cons_ne_nil _ _

/-- Either the node is reached at once, or there are subnodes. -/
theorem Under.inv {nodes : List Node} (h : Under nodes i ls k) :
    ∃ n ls', nodes[i]? = some n ∧ ls = n.fName :: ls' ∧
      ((ls' = [] ∧ k = i) ∨ (ls' ≠ [] ∧ n.fSubNodes ≠ [])) := by
  cases h with
  | here hn => exact ⟨_, _, hn, rfl, Or.inl ⟨rfl, rfl⟩⟩
  | sub hn hj h => exact ⟨_, _, hn, rfl, Or.inr ⟨h.ne_nil, List.ne_nil_of_mem hj⟩⟩

theorem Under.snoc {nodes : List Node} (h : Under nodes i ls j) (hn : nodes[j]? = some n)
    (hk : k ∈ n.fSubNodes) (hm : nodes[k]? = some m) : Under nodes i (ls ++ [m.fName]) k := by
  induction h with
  | here hi =>
    rw [hn] at hi
    cases hi
    exact .sub hn hk (.here hm)
  | sub hi hj _ ih => exact .sub hi hj (ih hn)

/-- The labels on the way are those of the node that is reached. -/
theorem Built.labels_of_under (h : Built f p) (hu : Under f.nodes i ls k) {l : Text}
    (hi : p.known[i]? = some (init ++ [l])) : p.known[k]? = some (init ++ ls) := by
  induction hu generalizing init l with
  | here hn =>
    rw [h.name hn hi]
    exact hi
  | @sub i j k n ls hn hj _ ih =>
    obtain ⟨-, l', hl'⟩ := h.child i n _ j hn hi hj
    have hk := ih hl'
    rw [h.name hn hi]
    rw [List.append_assoc] at hk
    exact hk

/-- Every node is reached from the root, along its labels. -/
theorem Built.under_root (h : Built f p) (hk : p.known[k]? = some ls) : Under f.nodes 0 ls k := by
  induction k using Nat.strongRecOn generalizing ls with
  | ind k ih =>
    obtain ⟨n, hn⟩ := h.node_of_labels hk
    by_cases hpos : k = 0
    · subst hpos
      obtain ⟨root, hroot⟩ := h.rootLabels
      rw [hk] at hroot
      cases hroot
      have hk : p.known[0]? = some ([] ++ [root]) := hk
      rw [← h.name hn hk]
      exact .here hn
    · have hlt : k < f.nodes.length := (List.getElem?_eq_some_iff.mp hn).1
      obtain ⟨i, m, hm, hmem⟩ := h.parent k (by omega) hlt
      obtain ⟨ils, hils⟩ := h.labels_of_node hm
      obtain ⟨hik, l, hl⟩ := h.child i m ils k hm hils hmem
      rw [hk] at hl
      cases hl
      have hup := ih i hik hils
      rw [← h.name hn hk]
      exact hup.snoc hm hmem hn

/-- From two subnodes of a node, along as many labels, the same node is not reached. -/
theorem Built.under_unique (h : Built f p) (hn : f.nodes[i]? = some n) {j' : ℕ} {ls' : List Text}
    (hj : j ∈ n.fSubNodes) (hj' : j' ∈ n.fSubNodes) (hu : Under f.nodes j ls k)
    (hu' : Under f.nodes j' ls' k) (hlen : ls.length = ls'.length) : j = j' := by
  obtain ⟨ils, hils⟩ := h.labels_of_node hn
  obtain ⟨-, l, hl⟩ := h.child i n ils j hn hils hj
  obtain ⟨-, l', hl'⟩ := h.child i n ils j' hn hils hj'
  have heq : ls = ls' := by
    have hk := h.labels_of_under hu hl
    rw [h.labels_of_under hu' hl'] at hk
    exact (List.append_cancel_left (Option.some.inj hk)).symm
  subst heq
  obtain ⟨m, rest, hm, hls, hend⟩ := hu.inv
  obtain ⟨m', rest', hm', hls', hend'⟩ := hu'.inv
  obtain ⟨hname, rfl⟩ := List.cons.inj (hls.symm.trans hls')
  rcases hend with ⟨hnil, hkj⟩ | ⟨hcons, hsub⟩
  · rcases hend' with ⟨-, hkj'⟩ | ⟨hcons', -⟩
    · rw [← hkj, ← hkj']
    · exact absurd hnil hcons'
  · rcases hend' with ⟨hnil', -⟩ | ⟨-, hsub'⟩
    · exact absurd hnil' hcons
    · -- both have subnodes and the same labels
      have hsame : l = l' := by rw [← h.name hm hl, ← h.name hm' hl', hname]
      rw [← hsame] at hl'
      have hle := h.first j m _ hm hsub hl j' hl'
      have hge := h.first j' m' _ hm' hsub' hl' j hl
      omega

end

/-! ## The components of an address -/

/-- The components of an address; none if it does not start with a slash. -/
def components : Text → Option (List Text)
  | '/' :: a => some (a.splitOn '/')
  | _ => none

theorem slashJoin_cons (l : Text) (ls : List Text) :
    slashJoin (l :: ls) = '/' :: (l ++ slashJoin ls) := rfl

theorem slashJoin_eq_intercalate (l : Text) (ls : List Text) :
    slashJoin (l :: ls) = '/' :: ['/'].intercalate (l :: ls) := by
  induction ls generalizing l with
  | nil => simp [slashJoin]
  | cons l' ls ih =>
    rw [slashJoin_cons, ih, List.intercalate_cons_cons, List.append_assoc]
    rfl

/-- The components of labels that are joined. -/
theorem components_slashJoin {ls : List Text} (hne : ls ≠ []) (hls : ∀ l ∈ ls, '/' ∉ l) :
    components (slashJoin ls) = some ls := by
  cases ls with
  | nil => exact absurd rfl hne
  | cons l ls =>
    rw [slashJoin_eq_intercalate]
    show some ((['/'].intercalate (l :: ls)).splitOn '/') = _
    rw [List.splitOn_intercalate '/' hls hne]

/-- Every text is made of parts without a slash. -/
theorem exists_parts (a : Text) :
    ∃ ps : List Text, ps ≠ [] ∧ (∀ p ∈ ps, '/' ∉ p) ∧ '/' :: a = slashJoin ps := by
  induction a with
  | nil => exact ⟨[[]], by simp, by simp, rfl⟩
  | cons c a ih =>
    obtain ⟨ps, hne, hps, heq⟩ := ih
    by_cases hc : c = '/'
    · subst hc
      refine ⟨[] :: ps, List.cons_ne_nil _ _, fun p hp => ?_, ?_⟩
      · rcases List.mem_cons.mp hp with rfl | hp
        · exact List.not_mem_nil
        · exact hps p hp
      · rw [slashJoin_cons, ← heq]
        rfl
    · cases ps with
      | nil => exact absurd rfl hne
      | cons q ps =>
        refine ⟨(c :: q) :: ps, List.cons_ne_nil _ _, fun p hp => ?_, ?_⟩
        · rcases List.mem_cons.mp hp with rfl | hp
          · intro hmem
            rcases List.mem_cons.mp hmem with hmem | hmem
            · exact hc hmem.symm
            · exact hps q List.mem_cons_self hmem
          · exact hps p (List.mem_cons_of_mem _ hp)
        · rw [slashJoin_cons] at heq ⊢
          rw [(List.cons.inj heq).2]
          rfl

/-- An address is made of its components. -/
theorem components_eq_some {a : Text} {ps : List Text} (h : components a = some ps) :
    ps ≠ [] ∧ (∀ p ∈ ps, '/' ∉ p) ∧ a = slashJoin ps := by
  unfold components at h
  split at h
  · next a =>
    obtain ⟨qs, hne, hqs, heq⟩ := exists_parts a
    have hself := components_slashJoin hne hqs
    rw [← heq] at hself
    have hsame : qs = ps := Option.some.inj (hself.symm.trans h)
    subst hsame
    exact ⟨hne, hqs, heq⟩
  · cases h

/-- The first component of an address and the rest of it. -/
theorem address_slashJoin {p : Text} (hp : '/' ∉ p) (ps : List Text) :
    addressFirst (slashJoin (p :: ps)) = p ∧ addressTail (slashJoin (p :: ps)) = slashJoin ps := by
  cases ps with
  | nil =>
    have hlast := address_last hp
    simpa [slashJoin] using hlast
  | cons q ps =>
    rw [slashJoin_cons, slashJoin_cons]
    exact address_append hp (q ++ slashJoin ps)

theorem address_none {a : Text} (h : components a = none) :
    addressFirst a = [] ∧ addressTail a = [] := by
  have hhead : a.head? ≠ some '/' := by
    intro hhead
    cases a with
    | nil => cases hhead
    | cons c a =>
      cases hhead
      cases h
  rw [addressFirst, addressTail, if_neg hhead, if_neg hhead]
  exact ⟨rfl, rfl⟩

/-! ## The nodes that are accepted -/

section
variable (matchExact : Text → Text → Bool)

/-- The expression of a component matches a label. -/
def Accepts (p l : Text) : Prop := matchExact (oscRe2Re p) l = true

variable {matchExact} {f : FaustFactory} {p : Paths} {nodes : List Node} {i j k : ℕ} {r t : Text}

theorem propose_nil {n : Node} (hn : nodes[i]? = some n) :
    propose matchExact nodes i r [] = if matchExact r n.fName then [i] else [] := by
  rw [propose]
  simp only [hn, dif_pos]

theorem propose_of_ne_nil {n : Node} (hn : nodes[i]? = some n) (ht : t ≠ []) :
    propose matchExact nodes i r t =
      if matchExact r n.fName then
        n.fSubNodes.flatMap fun j =>
          propose matchExact nodes j (oscRe2Re (addressFirst t)) (addressTail t)
      else [] := by
  rw [propose]
  simp only [hn, dif_neg ht]

theorem propose_none (hn : nodes[i]? = none) : propose matchExact nodes i r t = [] := by
  rw [propose]
  simp only [hn]

/-- The nodes that lie under a node, along labels that match the components. -/
theorem mem_propose {ps : List Text} (hps : ∀ q ∈ ps, '/' ∉ q) :
    k ∈ propose matchExact nodes i (oscRe2Re r) (slashJoin ps) ↔
      ∃ ls, Under nodes i ls k ∧ List.Forall₂ (Accepts matchExact) (r :: ps) ls := by
  cases hn : nodes[i]? with
  | none =>
    rw [propose_none hn]
    constructor
    · intro h
      cases h
    · rintro ⟨ls, hu, -⟩
      obtain ⟨n, -, hn', -⟩ := hu.inv
      rw [hn] at hn'
      cases hn'
  | some n =>
    induction ps generalizing i r n with
    | nil =>
      rw [slashJoin, List.flatMap_nil, propose_nil hn]
      constructor
      · intro h
        split at h
        · next hm =>
          rw [List.mem_singleton.mp h]
          exact ⟨[n.fName], .here hn, .cons hm .nil⟩
        · cases h
      · rintro ⟨ls, hu, hall⟩
        obtain ⟨n', rest, hn', rfl, hend⟩ := hu.inv
        rw [hn] at hn'
        cases hn'
        obtain ⟨hm, hrest⟩ := List.forall₂_cons.mp hall
        have hm : matchExact (oscRe2Re r) n.fName = true := hm
        rw [if_pos hm]
        cases hrest
        rcases hend with ⟨-, rfl⟩ | ⟨hcons, -⟩
        · exact List.mem_singleton.mpr rfl
        · exact absurd rfl hcons
    | cons q ps ih =>
      have hne : slashJoin (q :: ps) ≠ [] := List.cons_ne_nil _ _
      obtain ⟨hfirst, htail⟩ := address_slashJoin (hps q List.mem_cons_self) ps
      have hps' : ∀ q ∈ ps, '/' ∉ q := fun q hq => hps q (List.mem_cons_of_mem _ hq)
      rw [propose_of_ne_nil hn hne, hfirst, htail]
      constructor
      · intro h
        split at h
        · next hm =>
          obtain ⟨j, hj, hk⟩ := List.mem_flatMap.mp h
          cases hnj : nodes[j]? with
          | none =>
            rw [propose_none hnj] at hk
            cases hk
          | some nj =>
            obtain ⟨ls, hu, hall⟩ := (ih hps' nj hnj).mp hk
            exact ⟨n.fName :: ls, .sub hn hj hu, .cons hm hall⟩
        · cases h
      · rintro ⟨ls, hu, hall⟩
        cases hu with
        | here hn' => cases (List.forall₂_cons.mp hall).2
        | @sub _ j _ n' ls hn' hj hu =>
          rw [hn] at hn'
          cases hn'
          obtain ⟨hm, hrest⟩ := List.forall₂_cons.mp hall
          have hm : matchExact (oscRe2Re r) n.fName = true := hm
          obtain ⟨nj, -, hnj, -⟩ := hu.inv
          rw [if_pos hm]
          exact List.mem_flatMap.mpr ⟨j, hj, (ih hps' nj hnj).mpr ⟨ls, hu, hrest⟩⟩

/-- A node is accepted once. -/
theorem Built.nodup_propose (h : Built f p) {ps : List Text} (hps : ∀ q ∈ ps, '/' ∉ q) :
    (propose matchExact f.nodes i (oscRe2Re r) (slashJoin ps)).Nodup := by
  induction ps generalizing i r with
  | nil =>
    cases hn : f.nodes[i]? with
    | none =>
      rw [propose_none hn]
      exact List.nodup_nil
    | some n =>
      rw [slashJoin, List.flatMap_nil, propose_nil hn]
      split
      · exact List.nodup_singleton i
      · exact List.nodup_nil
  | cons q ps ih =>
    cases hn : f.nodes[i]? with
    | none =>
      rw [propose_none hn]
      exact List.nodup_nil
    | some n =>
      have hne : slashJoin (q :: ps) ≠ [] := List.cons_ne_nil _ _
      obtain ⟨hfirst, htail⟩ := address_slashJoin (hps q List.mem_cons_self) ps
      have hps' : ∀ q ∈ ps, '/' ∉ q := fun q hq => hps q (List.mem_cons_of_mem _ hq)
      rw [propose_of_ne_nil hn hne, hfirst, htail]
      split
      · refine List.nodup_flatMap.mpr ⟨fun j _ => ih hps', ?_⟩
        -- the lists of two subnodes have nothing in common
        refine (h.sorted i n hn).imp_of_mem fun {a b} ha hb hlt => ?_
        intro k hka hkb
        obtain ⟨ls, hu, hall⟩ := (mem_propose hps').mp hka
        obtain ⟨ls', hu', hall'⟩ := (mem_propose hps').mp hkb
        have hlen : ls.length = ls'.length := hall.length_eq.symm.trans hall'.length_eq
        have heq := h.under_unique hn ha hb hu hu' hlen
        omega
      · exact List.nodup_nil

/-- The nodes that a message is accepted by, for any library. -/
theorem Built.mem_processMessage (h : Built f p) (addr : Text) :
    k ∈ processMessage matchExact f addr ↔
      ∃ ls, p.known[k]? = some ls ∧
        List.Forall₂ (Accepts matchExact) ((components addr).getD [[]]) ls := by
  have hroot : ∀ {r : Text} {ps : List Text}, (∀ q ∈ ps, '/' ∉ q) →
      (k ∈ propose matchExact f.nodes 0 (oscRe2Re r) (slashJoin ps) ↔
        ∃ ls, p.known[k]? = some ls ∧ List.Forall₂ (Accepts matchExact) (r :: ps) ls) := by
    intro r ps hps
    rw [mem_propose hps]
    refine exists_congr fun ls => and_congr_left fun _ => ?_
    obtain ⟨root, hlabels⟩ := h.rootLabels
    have hlabels : p.known[0]? = some ([] ++ [root]) := hlabels
    exact ⟨fun hu => h.labels_of_under hu hlabels, fun hk => h.under_root hk⟩
  rw [processMessage, h.root]
  cases hc : components addr with
  | none =>
    obtain ⟨hfirst, htail⟩ := address_none hc
    show k ∈ propose matchExact f.nodes 0 (oscRe2Re (addressFirst addr)) (addressTail addr) ↔ _
    rw [hfirst, htail]
    have hnone : ∀ q ∈ ([] : List Text), '/' ∉ q := by simp
    exact hroot hnone
  | some ps =>
    obtain ⟨hne, hps, rfl⟩ := components_eq_some hc
    cases ps with
    | nil => exact absurd rfl hne
    | cons q ps =>
      obtain ⟨hfirst, htail⟩ := address_slashJoin (hps q List.mem_cons_self) ps
      show k ∈ propose matchExact f.nodes 0 (oscRe2Re (addressFirst (slashJoin (q :: ps))))
        (addressTail (slashJoin (q :: ps))) ↔ _
      rw [hfirst, htail]
      exact hroot fun q hq => hps q (List.mem_cons_of_mem _ hq)

theorem Built.nodup_processMessage (h : Built f p) (addr : Text) :
    (processMessage matchExact f addr).Nodup := by
  rw [processMessage, h.root]
  show (propose matchExact f.nodes 0 (oscRe2Re (addressFirst addr)) (addressTail addr)).Nodup
  cases hc : components addr with
  | none =>
    obtain ⟨hfirst, htail⟩ := address_none hc
    rw [hfirst, htail]
    have hnone : ∀ q ∈ ([] : List Text), '/' ∉ q := by simp
    exact h.nodup_propose hnone
  | some ps =>
    obtain ⟨hne, hps, rfl⟩ := components_eq_some hc
    cases ps with
    | nil => exact absurd rfl hne
    | cons q ps =>
      obtain ⟨hfirst, htail⟩ := address_slashJoin (hps q List.mem_cons_self) ps
      rw [hfirst, htail]
      exact h.nodup_propose fun q hq => hps q (List.mem_cons_of_mem _ hq)

end

/-! ## The match of addresses -/

/-- A component for each label of an address, and each of them matches under the rules of OSC. -/
def OscMatches (addr a : Text) : Prop :=
  ∃ ps ls, components addr = some ps ∧ components a = some ls ∧ List.Forall₂ OscMatch ps ls

/-- A message is accepted by the nodes whose addresses match, once, and these addresses are made of
the labels of the calls. -/
structure DispatchExact (matchExact : Text → Text → Bool) (f : FaustFactory) (p : Paths)
    (addr : Text) : Prop where
  length : f.nodes.length = p.known.length
  address : ∀ (i : ℕ) (n : Node) ls, f.nodes[i]? = some n → p.known[i]? = some ls →
    n.getOSCAddress = slashJoin ls
  once : (processMessage matchExact f addr).Nodup
  accepted : ∀ i, i ∈ processMessage matchExact f addr ↔
    ∃ n, f.nodes[i]? = some n ∧ OscMatches addr n.getOSCAddress

/-- For every node: the expressions of the components match its labels if and only if the components
match under the rules of OSC. An address that does not start with a slash is read as one empty
component. -/
def Agree (matchExact : Text → Text → Bool) (p : Paths) (addr : Text) : Prop :=
  ∀ ls ∈ p.known, List.Forall₂ (Accepts matchExact) ((components addr).getD [[]]) ls ↔
    ∃ ps, components addr = some ps ∧ List.Forall₂ OscMatch ps ls

/-- An address of plain patterns. -/
def PlainAddress (addr : Text) : Prop :=
  ∀ ps, components addr = some ps → ∀ p ∈ ps,
    ∃ qs : List Piece, (∀ q ∈ qs, q.Plain) ∧ p = qs.flatMap Piece.oscText

/-- The calls of one top-level group. -/
def inGroup (root : Text) (body : List Call) : List Call :=
  .opengroup root :: (body ++ [.closegroup])

section
variable {matchExact : Text → Text → Bool} {f : FaustFactory} {p : Paths} {addr : Text}

theorem Built.dispatchExact_iff (h : Built f p) (hp : LabelsIn (fun l => l ≠ [] ∧ '/' ∉ l) p) :
    DispatchExact matchExact f p addr ↔ Agree matchExact p addr := by
  have hcomponents : ∀ {ls : List Text}, ls ∈ p.known → components (slashJoin ls) = some ls := by
    intro ls hls
    obtain ⟨hne, hall⟩ := hp.known ls hls
    exact components_slashJoin hne fun l hl => (hall l hl).2
  have hmatch : ∀ {ls : List Text}, ls ∈ p.known → (OscMatches addr (slashJoin ls) ↔
      ∃ ps, components addr = some ps ∧ List.Forall₂ OscMatch ps ls) := by
    intro ls hls
    rw [OscMatches, hcomponents hls]
    constructor
    · rintro ⟨ps, ls', hps, hls', hall⟩
      cases hls'
      exact ⟨ps, hps, hall⟩
    · rintro ⟨ps, hps, hall⟩
      exact ⟨ps, ls, hps, rfl, hall⟩
  constructor
  · intro hexact ls hls
    obtain ⟨i, hi⟩ := List.getElem?_of_mem hls
    obtain ⟨n, hn⟩ := h.node_of_labels hi
    have haccepted := hexact.accepted i
    rw [h.mem_processMessage] at haccepted
    rw [← hmatch hls]
    constructor
    · intro hall
      obtain ⟨n', hn', hosc⟩ := haccepted.mp ⟨ls, hi, hall⟩
      rw [hn] at hn'
      cases hn'
      rwa [h.getOSCAddress hn hi] at hosc
    · intro hosc
      rw [← h.getOSCAddress hn hi] at hosc
      obtain ⟨ls', hi', hall⟩ := haccepted.mpr ⟨n, hn, hosc⟩
      rw [hi] at hi'
      cases hi'
      exact hall
  · intro hagree
    refine ⟨h.length, fun i n ls hn hls => h.getOSCAddress hn hls, h.nodup_processMessage addr,
      fun i => ?_⟩
    rw [h.mem_processMessage]
    constructor
    · rintro ⟨ls, hi, hall⟩
      obtain ⟨n, hn⟩ := h.node_of_labels hi
      have hls := List.mem_of_getElem? hi
      refine ⟨n, hn, ?_⟩
      rw [h.getOSCAddress hn hi]
      exact (hmatch hls).mpr ((hagree ls hls).mp hall)
    · rintro ⟨n, hn, hosc⟩
      obtain ⟨ls, hi⟩ := h.labels_of_node hn
      have hls := List.mem_of_getElem? hi
      rw [h.getOSCAddress hn hi] at hosc
      exact ⟨ls, hi, (hagree ls hls).mpr ((hmatch hls).mp hosc)⟩

/-- The match of plain components is that of OSC. -/
theorem RegexpLibrary.forall₂_iff (hlib : RegexpLibrary matchExact) {ps ls : List Text}
    (hps : ∀ p ∈ ps, ∃ qs : List Piece, (∀ q ∈ qs, q.Plain) ∧ p = qs.flatMap Piece.oscText)
    (hls : ∀ l ∈ ls, '\n' ∉ l) :
    List.Forall₂ (Accepts matchExact) ps ls ↔ List.Forall₂ OscMatch ps ls := by
  induction ps generalizing ls with
  | nil => rw [List.forall₂_nil_left_iff, List.forall₂_nil_left_iff]
  | cons p ps ih =>
    cases ls with
    | nil => exact ⟨fun h => (by cases h), fun h => (by cases h)⟩
    | cons l ls =>
      obtain ⟨qs, hqs, rfl⟩ := hps p List.mem_cons_self
      have hone := hlib.matches_iff hqs (hls l List.mem_cons_self)
      have hrest := ih (fun q hq => hps q (List.mem_cons_of_mem _ hq))
        fun l' hl' => hls l' (List.mem_cons_of_mem _ hl')
      rw [List.forall₂_cons, List.forall₂_cons, hrest, Accepts, hone]

/-- The condition is met by every address of plain patterns, for labels of one line. -/
theorem RegexpLibrary.agree (hlib : RegexpLibrary matchExact) (haddr : PlainAddress addr)
    (hp : LabelsIn (fun l => l ≠ [] ∧ '\n' ∉ l) p) : Agree matchExact p addr := by
  intro ls hls
  obtain ⟨-, hlabels⟩ := hp.known ls hls
  cases hc : components addr with
  | none =>
    constructor
    · -- the empty expression matches no label
      intro hall
      obtain ⟨l, rest, hm, -, rfl⟩ := List.forall₂_cons_left_iff.mp hall
      obtain ⟨hne, hline⟩ := hlabels l List.mem_cons_self
      exact absurd ((hlib [] (by simp) l hline).mp hm) hne
    · rintro ⟨ps, hps, -⟩
      cases hps
  | some ps =>
    show List.Forall₂ _ ps ls ↔ _
    rw [hlib.forall₂_iff (haddr ps hc) fun l hl => (hlabels l hl).2]
    constructor
    · exact fun hall => ⟨ps, rfl, hall⟩
    · rintro ⟨ps', hps', hall⟩
      cases hps'
      exact hall

end

/-- A message reaches exactly the nodes whose addresses match if and only if the expressions that
its components are translated into match their labels as the components do; this is so for all
plain patterns. -/
theorem dispatch_exact_iff (matchExact : Text → Text → Bool) {body : List Call}
    (hbody : Balanced body) (root : Text)
    (hlabels : ∀ c ∈ inGroup root body, ∀ l ∈ c.labels, l ≠ [] ∧ '/' ∉ l) (addr : Text) :
    ∃ f, (inGroup root body).foldlM Call.run .new = some f ∧
      (DispatchExact matchExact f (paths (inGroup root body)) addr ↔
        Agree matchExact (paths (inGroup root body)) addr) ∧
      (RegexpLibrary matchExact → PlainAddress addr →
        (∀ c ∈ inGroup root body, ∀ l ∈ c.labels, '\n' ∉ l) →
        Agree matchExact (paths (inGroup root body)) addr) := by
  obtain ⟨f, hrun, h⟩ := built_calls hbody root
  refine ⟨f, hrun, h.dispatchExact_iff (labelsIn_paths hlabels), fun hlib haddr hline => ?_⟩
  exact hlib.agree haddr (labelsIn_paths fun c hc l hl => ⟨(hlabels c hc l hl).1, hline c hc l hl⟩)

/-- A group that is opened twice, and the two nodes in it. -/
theorem dispatch_exact_reopened :
    ∃ f, (inGroup "r".toList [.opengroup "g".toList, .addnode "axb".toList, .closegroup,
        .opengroup "g".toList, .addnode "ab".toList, .closegroup]).foldlM Call.run .new = some f ∧
      DispatchExact matchPlain f (paths (inGroup "r".toList [.opengroup "g".toList,
        .addnode "axb".toList, .closegroup, .opengroup "g".toList, .addnode "ab".toList,
        .closegroup])) "/r/*/a*b".toList := by
  have hbody : Balanced [.opengroup "g".toList, .addnode "axb".toList, .closegroup,
      .opengroup "g".toList, .addnode "ab".toList, .closegroup] :=
    .group _ (.addnode _ .nil) (.group _ (.addnode _ .nil) .nil)
  obtain ⟨f, hrun, hiff, hplain⟩ :=
    dispatch_exact_iff matchPlain hbody "r".toList (by decide) "/r/*/a*b".toList
  refine ⟨f, hrun, hiff.mpr (hplain regexpLibrary_matchPlain ?_ (by decide))⟩
  intro ps hps p hp
  have hps : ps = [['r'], ['*'], ['a', '*', 'b']] := (Option.some.inj hps).symm.trans (by decide)
  subst hps
  simp only [List.mem_cons, List.not_mem_nil, or_false] at hp
  rcases hp with rfl | rfl | rfl
  · exact ⟨[.char 'r'], by simp [Piece.Plain, specials], rfl⟩
  · exact ⟨[.star], by simp [Piece.Plain], rfl⟩
  · exact ⟨[.char 'a', .star, .char 'b'], by simp [Piece.Plain, specials], rfl⟩

/-- A dot stands for itself in OSC and for any character in an expression. -/
theorem not_dispatch_exact_dot :
    ∃ f, (inGroup "r".toList [.addnode "axb".toList]).foldlM Call.run .new = some f ∧
      ¬ DispatchExact matchPlain f (paths (inGroup "r".toList [.addnode "axb".toList]))
        "/r/a.b".toList := by
  obtain ⟨f, hrun, h⟩ := built_calls (.addnode "axb".toList .nil) "r".toList
  refine ⟨f, hrun, fun hexact => ?_⟩
  have hlabels : ∀ c ∈ inGroup "r".toList [.addnode "axb".toList], ∀ l ∈ c.labels,
      l ≠ [] ∧ '/' ∉ l := by
    decide
  have hagree := (h.dispatchExact_iff (labelsIn_paths hlabels)).mp hexact
  have hcomponents : components "/r/a.b".toList = some [['r'], ['a', '.', 'b']] := by decide
  have hknown : [['r'], ['a', 'x', 'b']] ∈
      (paths (inGroup "r".toList [.addnode "axb".toList])).known := by
    decide
  obtain ⟨ps, hps, hall⟩ := (hagree _ hknown).mp (by
    rw [hcomponents]
    exact .cons (by unfold Accepts; decide) (.cons (by unfold Accepts; decide) .nil))
  rw [hcomponents] at hps
  cases hps
  have hosc := (List.forall₂_cons.mp (List.forall₂_cons.mp hall).2).1
  -- the first characters are the same, then a dot meets another character
  obtain ⟨l, hl, hrest⟩ := (oscMatch_char (by decide)).mp hosc
  cases hl
  rcases hrest.cons_inv rfl with ⟨hc, -⟩ | ⟨hc, -⟩ | ⟨hc, -⟩ | ⟨hc, -⟩ | ⟨hc, -⟩ | ⟨-, l, hl, -⟩
  · exact absurd hc (by decide)
  · exact absurd hc (by decide)
  · exact absurd hc (by decide)
  · exact absurd hc (by decide)
  · exact absurd hc (by decide)
  · exact absurd (List.cons.inj hl).1 (by decide)

end Faust.Osc
