import Faust.Evaluate.Environment
import Faust.Lib.Outcome

/-!
# Environments can be modified without changing the original

`copyEnvReplaceDefs` copies a layer. In the copy, the names that are replaced have their new
definitions, the other definitions of the layer see the copy in place of the layer, and the names
below the layer are found where they were. No environment made before changes.
-/

namespace Faust.Environment

open Tree Outcome

variable {defName : Tree → Tree}

/-! ## Properties -/

theorem getProperty_setProperty (s : EnvState) (t key value t' key' : Tree) :
    (s.setProperty t key value).getProperty t' key' =
      if t' = t ∧ key' = key then some value else s.getProperty t' key' := by
  unfold EnvState.setProperty EnvState.getProperty
  by_cases ht : t' = t
  · subst ht
    by_cases hk : key' = key
    · subst hk
      simp
    · simp [hk, AList.lookup_insert_ne hk]
  · simp [ht]

/-- The node of a tree is the symbol with this name. -/
def Named (name : String) (t : Tree) : Prop := t.label = .sym (.user name)

theorem named_closure (abstr genv vis lenv : Tree) :
    Named "Closure" (closure abstr genv vis lenv) := rfl

theorem named_layer (name : String) (lenv : Tree) :
    Named name (.node (.sym (.user name)) [lenv]) := rfl

theorem Named.eq {a b : String} {t : Tree} (ha : Named a t) (hb : Named b t) : a = b := by
  unfold Named at ha hb
  rw [ha] at hb
  simpa using hb

/-- The name of a closure is not a definition of a layer. -/
theorem getProperty_nameClosure {id rhs cl t : Tree} (hcl : Named "Closure" cl)
    (ht : ¬ Named "Closure" t) (s : EnvState) (key : Tree) :
    (nameClosure defName id rhs cl s).getProperty t key = s.getProperty t key := by
  have hne : t ≠ cl := fun h => ht (h ▸ hcl)
  unfold nameClosure
  split
  · rfl
  · rw [getProperty_setProperty, if_neg (fun h => hne h.1)]

/-! ## Layers -/

/-- A new layer has a symbol that was not in use, and no definition is added. -/
theorem pushNewLayer_ends (lenv : Tree) (s : EnvState) :
    Ends (pushNewLayer lenv) s (fun _ => True) fun lenv2 s' =>
      ∃ name, lenv2 = .node (.sym (.user name)) [lenv] ∧ name ∉ s.symbols.names ∧
        s'.symbols.names = name :: s.symbols.names ∧ s'.props = s.props := by
  unfold pushNewLayer
  apply Ends.get_eq.bind
  rintro _ _ ⟨rfl, rfl⟩
  split
  · next sym symbols hunique =>
    obtain ⟨k, _, hnew, rfl, hnames, _⟩ := SymbolTable.uniqueLoop_some hunique
    exact ⟨_, rfl, hnew, hnames, rfl⟩
  · exact .throw trivial

theorem addLayerDef_ends (id df lenv : Tree) (s : EnvState) :
    Ends (addLayerDef id df lenv) s (fun _ => True) fun _ s' =>
      s' = s.setProperty lenv id df := by
  unfold addLayerDef
  apply Ends.get_eq.bind
  rintro _ _ ⟨rfl, rfl⟩
  split
  · split
    · exact .throw trivial
    · rfl
  · rfl

/-! ## Environments that have been built -/

/-- An environment made of layers and barriers whose symbols are in use. -/
inductive IsEnv (names : List String) : Tree → Prop
  | nil : IsEnv names nil
  | layer {name : String} {lenv : Tree} : name ∈ names → name ≠ "Closure" → IsEnv names lenv →
    IsEnv names (.node (.sym (.user name)) [lenv])

/-- What holds of the state: the symbols of closures and barriers are in use, and what has a
property is a closure, or a layer in use whose definitions are closures on the layer. -/
structure Inv (s : EnvState) : Prop where
  closure_mem : "Closure" ∈ s.symbols.names
  barrier_mem : "BARRIER" ∈ s.symbols.names
  props : ∀ t key value, s.getProperty t key = some value → ¬ Named "Closure" t →
    (∃ name ∈ s.symbols.names, name ≠ "BARRIER" ∧ Named name t) ∧
      ∃ exp genv vis, value = closure exp genv vis t

/-- The environments built so far, by `pushNewLayer`, `pushMultiClosureDefs` and barriers. -/
inductive Session (defName : Tree → Tree) : EnvState → List Tree → Prop
  | start (symbols : SymbolTable) : "Closure" ∈ symbols.names → "BARRIER" ∈ symbols.names →
    Session defName ⟨symbols, fun _ => ∅⟩ [nil]
  | layer {s s' : EnvState} {envs : List Tree} {lenv lenv2 : Tree} : Session defName s envs →
    lenv ∈ envs → pushNewLayer lenv s = .ok (lenv2, s') → Session defName s' (lenv2 :: envs)
  | defs {s s' : EnvState} {envs : List Tree} {lenv lenv2 visited : Tree}
    {ldefs : List (Tree × Tree)} : Session defName s envs → lenv ∈ envs →
    pushMultiClosureDefs defName ldefs visited lenv s = .ok (lenv2, s') →
    Session defName s' (lenv2 :: envs)
  | barrier {s : EnvState} {envs : List Tree} {lenv : Tree} : Session defName s envs →
    lenv ∈ envs → Session defName s (pushEnvBarrier lenv :: envs)

theorem IsEnv.mono {names names' : List String} (hsub : names ⊆ names') {t : Tree}
    (h : IsEnv names t) : IsEnv names' t := by
  induction h with
  | nil => exact .nil
  | layer hname hne _ ih => exact .layer (hsub hname) hne ih

/-- A tree whose symbol is not in use has no property. -/
theorem Inv.getProperty_new {s : EnvState} (h : Inv s) {name : String}
    (hname : name ∉ s.symbols.names) {t : Tree} (ht : Named name t) (key : Tree) :
    s.getProperty t key = none := by
  cases hprop : s.getProperty t key with
  | none => rfl
  | some value =>
    have hclosure : ¬ Named "Closure" t := fun hc =>
      hname (ht.eq hc ▸ h.closure_mem)
    obtain ⟨⟨name', hmem, _, hname'⟩, _⟩ := h.props t key value hprop hclosure
    exact absurd (ht.eq hname' ▸ hmem) hname

/-- A closure on the layer may be added to a layer. -/
theorem Inv.addDef {s : EnvState} (h : Inv s) {name : String} {lenv2 : Tree}
    (hname : name ∈ s.symbols.names) (hbarrier : name ≠ "BARRIER") (hlayer : Named name lenv2)
    (id rhs visited : Tree) :
    Inv ((nameClosure defName id rhs (closure rhs nil visited lenv2) s).setProperty lenv2 id
      (closure rhs nil visited lenv2)) := by
  have hsymbols : (nameClosure defName id rhs (closure rhs nil visited lenv2) s).symbols =
      s.symbols := by
    unfold nameClosure
    split <;> rfl
  refine ⟨?_, ?_, ?_⟩
  · show "Closure" ∈ (nameClosure defName id rhs _ s).symbols.names
    rw [hsymbols]
    exact h.closure_mem
  · show "BARRIER" ∈ (nameClosure defName id rhs _ s).symbols.names
    rw [hsymbols]
    exact h.barrier_mem
  · intro t key value hprop ht
    show (∃ name ∈ (nameClosure defName id rhs _ s).symbols.names, _) ∧ _
    rw [hsymbols]
    rw [getProperty_setProperty] at hprop
    split at hprop
    · next heq =>
      obtain ⟨rfl, rfl⟩ := heq
      exact ⟨⟨name, hname, hbarrier, hlayer⟩, rhs, nil, visited, (Option.some.inj hprop).symm⟩
    · rw [getProperty_nameClosure (named_closure _ _ _ _) ht] at hprop
      exact h.props t key value hprop ht

theorem addClosureDefs_ends {visited lenv2 : Tree} {name : String} (hbarrier : name ≠ "BARRIER")
    (hlayer : Named name lenv2) (ldefs : List (Tree × Tree))
    {s : EnvState} (h : Inv s) (hname : name ∈ s.symbols.names) :
    Ends (addClosureDefs defName visited lenv2 ldefs) s (fun _ => True) fun _ s' =>
      Inv s' ∧ s'.symbols = s.symbols := by
  induction ldefs generalizing s with
  | nil => exact .pure ⟨h, rfl⟩
  | cons d ldefs ih =>
    obtain ⟨id, rhs⟩ := d
    have hsymbols : (nameClosure defName id rhs (closure rhs nil visited lenv2) s).symbols =
        s.symbols := by
      unfold nameClosure
      split <;> rfl
    have hname' : name ∈ (nameClosure defName id rhs (closure rhs nil visited lenv2) s
        ).symbols.names := by rwa [hsymbols]
    have hnamed : Ends (modify (nameClosure defName id rhs (closure rhs nil visited lenv2)) :
        EnvM PUnit) s (fun _ => True) fun _ s₁ =>
          s₁ = nameClosure defName id rhs (closure rhs nil visited lenv2) s := Ends.modify rfl
    unfold addClosureDefs
    apply hnamed.bind
    rintro _ _ rfl
    apply (addLayerDef_ends _ _ _ _).bind
    rintro _ _ rfl
    apply (ih (h.addDef hname hbarrier hlayer id rhs visited) hname').mono
    rintro _ s' ⟨hs', heq⟩
    exact ⟨hs', heq.trans hsymbols⟩

/-- A computation that returns ends as it is said to end. -/
theorem of_ends {α : Type} {x : EnvM α} {s s' : EnvState} {a : α} {Q : α → EnvState → Prop}
    (h : Ends x s (fun _ => True) Q) (hrun : x s = .ok (a, s')) : Q a s' := by
  unfold Ends at h
  rwa [hrun] at h

/-- A new symbol added to the symbols in use. -/
theorem Inv.newSymbol {s s' : EnvState} (h : Inv s) {name : String}
    (hnames : s'.symbols.names = name :: s.symbols.names) (hprops : s'.props = s.props) :
    Inv s' := by
  have hsub : s.symbols.names ⊆ s'.symbols.names := by
    rw [hnames]
    exact List.subset_cons_self _ _
  refine ⟨hsub h.closure_mem, hsub h.barrier_mem, fun t key value hprop ht => ?_⟩
  have hprop' : s.getProperty t key = some value := by
    rw [← hprop, EnvState.getProperty, EnvState.getProperty, hprops]
  obtain ⟨⟨name', hmem, hbarrier, hname'⟩, hclosure⟩ := h.props t key value hprop' ht
  exact ⟨⟨name', hsub hmem, hbarrier, hname'⟩, hclosure⟩

/-- The invariant holds along a session, and what has been built are environments. -/
theorem Session.inv {s : EnvState} {envs : List Tree} (h : Session defName s envs) :
    Inv s ∧ ∀ t ∈ envs, IsEnv s.symbols.names t := by
  induction h with
  | start symbols hclosure hbarrier =>
    refine ⟨⟨hclosure, hbarrier, fun t key value hprop => ?_⟩, ?_⟩
    · simp [EnvState.getProperty] at hprop
    · intro t ht
      obtain rfl : t = nil := by simpa using ht
      exact .nil
  | layer _ hmem hrun ih =>
    obtain ⟨hinv, henvs⟩ := ih
    obtain ⟨name, rfl, hnew, hnames, hprops⟩ := of_ends (pushNewLayer_ends _ _) hrun
    have hclosure : name ≠ "Closure" := fun h => hnew (h ▸ hinv.closure_mem)
    refine ⟨hinv.newSymbol hnames hprops, fun t ht => ?_⟩
    rw [hnames]
    rcases List.mem_cons.1 ht with rfl | ht
    · exact .layer List.mem_cons_self hclosure
        ((henvs _ hmem).mono (List.subset_cons_self _ _))
    · exact (henvs t ht).mono (List.subset_cons_self _ _)
  | @defs s s' envs lenv lenv2 visited ldefs _ hmem hrun ih =>
    obtain ⟨hinv, henvs⟩ := ih
    have hends : Ends (pushMultiClosureDefs defName ldefs visited lenv) s (fun _ => True)
        fun lenv2 s' => Inv s' ∧ ∃ name, lenv2 = .node (.sym (.user name)) [lenv] ∧
          name ∉ s.symbols.names ∧ s'.symbols.names = name :: s.symbols.names := by
      unfold pushMultiClosureDefs
      apply (pushNewLayer_ends lenv s).bind
      rintro _ s₁ ⟨name, rfl, hnew, hnames, hprops⟩
      have hbarrier : name ≠ "BARRIER" := fun h => hnew (h ▸ hinv.barrier_mem)
      apply (addClosureDefs_ends hbarrier (named_layer _ _) ldefs (hinv.newSymbol hnames hprops)
        (by rw [hnames]; exact List.mem_cons_self)).bind
      rintro _ s₂ ⟨hs₂, hsymbols⟩
      exact .pure ⟨hs₂, name, rfl, hnew, by rw [hsymbols, hnames]⟩
    obtain ⟨hinv', name, rfl, hnew, hnames⟩ := of_ends hends hrun
    have hclosure : name ≠ "Closure" := fun h => hnew (h ▸ hinv.closure_mem)
    refine ⟨hinv', fun t ht => ?_⟩
    rw [hnames]
    rcases List.mem_cons.1 ht with rfl | ht
    · exact .layer List.mem_cons_self hclosure
        ((henvs _ hmem).mono (List.subset_cons_self _ _))
    · exact (henvs t ht).mono (List.subset_cons_self _ _)
  | barrier _ hmem ih =>
    obtain ⟨hinv, henvs⟩ := ih
    refine ⟨hinv, fun t ht => ?_⟩
    rcases List.mem_cons.1 ht with rfl | ht
    · exact .layer hinv.barrier_mem (by decide) (henvs _ hmem)
    · exact henvs t ht

/-! ## Lookups -/

/-- `evalIdDef` finds the same definition when the properties of the layers are the same. -/
theorem findIdDef_congr {names : List String} {s s' : EnvState} {id : Tree}
    (heq : ∀ t name, name ∈ names → name ≠ "Closure" → Named name t →
      s'.getProperty t id = s.getProperty t id) {t : Tree} (h : IsEnv names t) :
    findIdDef s' id t = findIdDef s id t := by
  induction h with
  | nil => simp [findIdDef, Tree.nil, leaf]
  | @layer name lenv hname hne _ ih =>
    rw [findIdDef, findIdDef, heq _ name hname hne (named_layer _ _), ih]

theorem searchIdDef_congr {names : List String} {s s' : EnvState} {id : Tree}
    (heq : ∀ t name, name ∈ names → name ≠ "Closure" → Named name t →
      s'.getProperty t id = s.getProperty t id) {t : Tree} (h : IsEnv names t) :
    searchIdDef s' id t = searchIdDef s id t := by
  induction h with
  | nil => simp [searchIdDef, isEnvBarrier, Tree.nil, leaf]
  | @layer name lenv hname hne _ ih =>
    rw [searchIdDef, searchIdDef, heq _ name hname hne (named_layer _ _), ih]

/-! ## The copy -/

/-- The expression a list of definitions gives to a symbol: the last one. -/
def newDef (id : Tree) : List (Tree × Tree) → Option Tree
  | [] => none
  | (k, rhs) :: ldefs => (newDef id ldefs).or (if k = id then some rhs else none)

/-- `transferDefs` leaves the other layers alone. -/
theorem getProperty_transferDefs_of_ne {anEnv copyEnv t : Tree} (h : t ≠ copyEnv)
    (entries : List (Sigma fun _ : Tree => Tree)) (s : EnvState) (id : Tree) :
    (transferDefs anEnv copyEnv entries s).getProperty t id = s.getProperty t id := by
  unfold transferDefs
  induction entries generalizing s with
  | nil => rfl
  | cons e entries ih =>
    rw [List.foldl_cons, ih, getProperty_setProperty, if_neg (fun hc => h hc.1)]

/-- In the copy, each definition of the layer has been transferred. -/
theorem getProperty_transferDefs {anEnv copyEnv : Tree}
    {entries : List (Sigma fun _ : Tree => Tree)} (hnodup : entries.NodupKeys) (s : EnvState)
    (id : Tree) :
    (transferDefs anEnv copyEnv entries s).getProperty copyEnv id =
      ((entries.dlookup id).map (updateClosure anEnv copyEnv)).or (s.getProperty copyEnv id) := by
  unfold transferDefs
  induction entries generalizing s with
  | nil => simp
  | cons e entries ih =>
    obtain ⟨k, v⟩ := e
    rw [List.nodupKeys_cons] at hnodup
    rw [List.foldl_cons, ih hnodup.2, getProperty_setProperty]
    by_cases hk : id = k
    · subst hk
      have hnone : entries.dlookup id = none := List.dlookup_eq_none.2 hnodup.1
      simp [hnone]
    · have hne : id ≠ (Sigma.mk k v : Sigma fun _ : Tree => Tree).1 := hk
      simp [hk, List.dlookup_cons_ne _ _ hne]

theorem getProperty_replaceDefs_of_ne {copyEnv visited curEnv t : Tree} (h : t ≠ copyEnv)
    (ht : ¬ Named "Closure" t) (ldefs : List (Tree × Tree)) (s : EnvState) (id : Tree) :
    (replaceDefs defName copyEnv visited curEnv ldefs s).getProperty t id =
      s.getProperty t id := by
  unfold replaceDefs
  induction ldefs generalizing s with
  | nil => rfl
  | cons d ldefs ih =>
    rw [List.foldl_cons, ih, getProperty_setProperty, if_neg (fun hc => h hc.1),
      getProperty_nameClosure (named_closure _ _ _ _) ht]

/-- In the copy, each new definition has replaced the one there was. -/
theorem getProperty_replaceDefs {copyEnv visited curEnv : Tree}
    (hcopy : ¬ Named "Closure" copyEnv) (ldefs : List (Tree × Tree)) (s : EnvState) (id : Tree) :
    (replaceDefs defName copyEnv visited curEnv ldefs s).getProperty copyEnv id =
      ((newDef id ldefs).map fun rhs => closure rhs nil visited curEnv).or
        (s.getProperty copyEnv id) := by
  unfold replaceDefs
  induction ldefs generalizing s with
  | nil => rfl
  | cons d ldefs ih =>
    obtain ⟨k, rhs⟩ := d
    rw [List.foldl_cons, ih, getProperty_setProperty,
      getProperty_nameClosure (named_closure _ _ _ _) hcopy, newDef]
    cases newDef id ldefs with
    | some rhs' => rfl
    | none =>
      by_cases hk : id = k
      · simp [hk]
      · simp [hk, Ne.symm hk]

/-- What `find` finds after a layer has been copied with new definitions: the replaced names have
their new expressions, closed in the current environment; the other definitions of the layer are
closed in the copy; other names are found as in the layer; and in all environments there were,
every name is found as before. -/
structure Overrides (find : EnvState → Tree → Tree → Option Tree) (s s' : EnvState)
    (anEnv copyEnv : Tree) (envs : List Tree) (ldefs : List (Tree × Tree))
    (visited curEnv : Tree) : Prop where
  replaced : ∀ id rhs, newDef id ldefs = some rhs →
    find s' id copyEnv = some (closure rhs nil visited curEnv)
  kept : ∀ id df, newDef id ldefs = none → s.getProperty anEnv id = some df →
    ∃ exp genv vis, df = closure exp genv vis anEnv ∧
      find s' id copyEnv = some (closure exp genv vis copyEnv)
  outside : ∀ id, newDef id ldefs = none → s.getProperty anEnv id = none →
    find s' id copyEnv = find s id anEnv
  original : ∀ env ∈ envs, ∀ id, find s' id env = find s id env

/-- The definition that `evalIdDef` finds. -/
def idDef (s : EnvState) (id env : Tree) : Option Tree := (findIdDef s id env).map Prod.fst

/-- What `copyEnvReplaceDefs` makes of the properties. -/
theorem copyEnvReplaceDefs_ends {s : EnvState} (hinv : Inv s) {anEnv lenv : Tree}
    (hbranches : anEnv.branches = [lenv]) (ldefs : List (Tree × Tree)) (visited curEnv : Tree) :
    Ends (copyEnvReplaceDefs defName anEnv ldefs visited curEnv) s (fun _ => True)
      fun copyEnv s' => ∃ name, copyEnv = .node (.sym (.user name)) [lenv] ∧
        name ∉ s.symbols.names ∧
        (∀ t id, t ≠ copyEnv → ¬ Named "Closure" t → s'.getProperty t id = s.getProperty t id) ∧
        ∀ id, s'.getProperty copyEnv id =
          ((newDef id ldefs).map fun rhs => closure rhs nil visited curEnv).or
            ((s.getProperty anEnv id).map (updateClosure anEnv copyEnv)) := by
  unfold copyEnvReplaceDefs
  rw [hbranches]
  apply Ends.get_eq.bind
  rintro s₀ s₀' ⟨h₀, h₀'⟩
  subst s₀ s₀'
  apply (pushNewLayer_ends lenv s).bind
  rintro copyEnv s₁ ⟨name, hcopy, hnew, hnames, hprops⟩
  have hsame : ∀ t id, s₁.getProperty t id = s.getProperty t id := by
    intro t id
    rw [EnvState.getProperty, hprops]
    rfl
  have hclosure : ¬ Named "Closure" copyEnv := by
    intro h
    have hname : name = "Closure" := (hcopy ▸ named_layer name lenv).eq h
    exact hnew (hname ▸ hinv.closure_mem)
  refine ⟨name, hcopy, hnew, fun t id hne ht => ?_, fun id => ?_⟩
  · rw [getProperty_replaceDefs_of_ne hne ht, getProperty_transferDefs_of_ne hne, hsame]
  · -- the copy had no definition before
    have hnone : s₁.getProperty copyEnv id = none := by
      rw [hsame]
      exact hinv.getProperty_new hnew (hcopy ▸ named_layer name lenv) id
    rw [getProperty_replaceDefs hclosure,
      getProperty_transferDefs (s.props anEnv).nodupKeys, hnone, Option.or_none]
    rfl

/-- Both searches find what the properties of the layers say. -/
theorem overrides_of {find : EnvState → Tree → Tree → Option Tree} {s s' : EnvState}
    {anEnv lenv copyEnv : Tree} {envs : List Tree} {ldefs : List (Tree × Tree)}
    {visited curEnv : Tree} (hinv : Inv s) (hanEnv : ¬ Named "Closure" anEnv)
    (hcopy : ∀ id, s'.getProperty copyEnv id =
      ((newDef id ldefs).map fun rhs => closure rhs nil visited curEnv).or
        ((s.getProperty anEnv id).map (updateClosure anEnv copyEnv)))
    (hfind : ∀ id, find s' id copyEnv = (s'.getProperty copyEnv id).or (find s' id lenv))
    (hbelow : ∀ id, find s id anEnv = (s.getProperty anEnv id).or (find s id lenv))
    (hlenv : ∀ id, find s' id lenv = find s id lenv)
    (hsame : ∀ env ∈ envs, ∀ id, find s' id env = find s id env) :
    Overrides find s s' anEnv copyEnv envs ldefs visited curEnv where
  replaced id rhs hnew := by simp [hfind, hcopy, hnew]
  kept id df hnew hdef := by
    obtain ⟨_, exp, genv, vis, rfl⟩ := hinv.props anEnv id df hdef hanEnv
    have hupdate : updateClosure anEnv copyEnv (closure exp genv vis anEnv) =
        closure exp genv vis copyEnv := by
      simp [updateClosure, isClosure, closure]
    exact ⟨exp, genv, vis, rfl, by simp [hfind, hcopy, hnew, hdef, hupdate]⟩
  outside id hnew hdef := by simp [hfind, hcopy, hnew, hdef, hbelow, hlenv]
  original := hsame

theorem idDef_layer (s : EnvState) (id : Tree) (name : String) (lenv : Tree) :
    idDef s id (.node (.sym (.user name)) [lenv]) =
      (s.getProperty (.node (.sym (.user name)) [lenv]) id).or (idDef s id lenv) := by
  have hnil : Tree.node (.sym (.user name)) [lenv] ≠ nil := by simp [nil, leaf]
  unfold idDef
  rw [findIdDef, if_neg hnil]
  cases s.getProperty (.node (.sym (.user name)) [lenv]) id <;> rfl

theorem searchIdDef_layer (s : EnvState) (id : Tree) {name : String} (h : name ≠ "BARRIER")
    (lenv : Tree) :
    searchIdDef s id (.node (.sym (.user name)) [lenv]) =
      (s.getProperty (.node (.sym (.user name)) [lenv]) id).or (searchIdDef s id lenv) := by
  have hbarrier : isEnvBarrier (.node (.sym (.user name)) [lenv]) = false := by
    simp [isEnvBarrier, nil, leaf, h]
  rw [searchIdDef, hbarrier]
  cases s.getProperty (.node (.sym (.user name)) [lenv]) id <;> rfl

/-- In a session, `copyEnvReplaceDefs` overrides the replaced names and nothing else, for the
lookups of `evalIdDef`, and for those of the pattern matcher when the environment copied is not a
barrier. -/
theorem copyEnvReplaceDefs_overrides {s s' : EnvState} {envs : List Tree}
    (hs : Session defName s envs) {anEnv copyEnv visited curEnv : Tree}
    {ldefs : List (Tree × Tree)} (hmem : anEnv ∈ envs)
    (hrun : copyEnvReplaceDefs defName anEnv ldefs visited curEnv s = .ok (copyEnv, s')) :
    Overrides idDef s s' anEnv copyEnv envs ldefs visited curEnv ∧
      (isEnvBarrier anEnv = false →
        Overrides searchIdDef s s' anEnv copyEnv envs ldefs visited curEnv) := by
  obtain ⟨hinv, henvs⟩ := hs.inv
  have hanEnv := henvs anEnv hmem
  cases hanEnv with
  | nil => cases hrun
  | @layer name' lenv hname' hne hlenv =>
    obtain ⟨name, rfl, hnew, hother, hcopy⟩ :=
      of_ends (copyEnvReplaceDefs_ends hinv rfl ldefs visited curEnv) hrun
    -- the environments there were have other symbols than the copy
    have hagree : ∀ id t name₁, name₁ ∈ s.symbols.names → name₁ ≠ "Closure" → Named name₁ t →
        s'.getProperty t id = s.getProperty t id := by
      intro id t name₁ hmem₁ hne₁ ht
      apply hother
      · rintro rfl
        exact hnew ((named_layer name lenv).eq ht ▸ hmem₁)
      · exact fun hc => hne₁ (ht.eq hc)
    have hclosure : ¬ Named "Closure" (.node (.sym (.user name')) [lenv]) := by
      simpa [Named] using hne
    have hbarrier : name ≠ "BARRIER" := fun h => hnew (h ▸ hinv.barrier_mem)
    have hidDef : ∀ id {t}, IsEnv s.symbols.names t → idDef s' id t = idDef s id t :=
      fun id t ht => congrArg (Option.map Prod.fst) (findIdDef_congr (hagree id) ht)
    have hsearch : ∀ id {t}, IsEnv s.symbols.names t → searchIdDef s' id t = searchIdDef s id t :=
      fun id t ht => searchIdDef_congr (hagree id) ht
    constructor
    · exact overrides_of hinv hclosure hcopy (fun id => idDef_layer s' id name lenv)
        (fun id => idDef_layer s id name' lenv) (fun id => hidDef id hlenv)
        (fun env henv id => hidDef id (henvs env henv))
    · intro hnotBarrier
      have hname'' : name' ≠ "BARRIER" := by
        intro h
        simp [isEnvBarrier, h] at hnotBarrier
      exact overrides_of hinv hclosure hcopy (fun id => searchIdDef_layer s' id hbarrier lenv)
        (fun id => searchIdDef_layer s id hname'' lenv) (fun id => hsearch id hlenv)
        (fun env henv id => hsearch id (henvs env henv))

/-- A layer where `x` is 1 and `y` is `x`, copied with 2 for `x`. -/
theorem copyEnvReplaceDefs_overrides_two :
    ∃ s s' anEnv copyEnv, Session id s [anEnv, nil] ∧
      copyEnvReplaceDefs id anEnv [(leaf (.sym (.user "x")), leaf (.int 2))] nil nil s =
        .ok (copyEnv, s') ∧
      Overrides idDef s s' anEnv copyEnv [anEnv, nil]
        [(leaf (.sym (.user "x")), leaf (.int 2))] nil nil := by
  have hstart : Session id ⟨⟨["Closure", "BARRIER"], fun _ => 0⟩, fun _ => ∅⟩ [nil] :=
    .start _ (by simp) (by simp)
  have hdefs : pushMultiClosureDefs id [(leaf (.sym (.user "x")), leaf (.int 1)),
      (leaf (.sym (.user "y")), leaf (.sym (.user "x")))] nil nil
      ⟨⟨["Closure", "BARRIER"], fun _ => 0⟩, fun _ => ∅⟩ = .ok (_, _) := rfl
  have hlayer := Session.defs hstart List.mem_cons_self hdefs
  exact ⟨_, _, _, _, hlayer, rfl,
    (copyEnvReplaceDefs_overrides hlayer List.mem_cons_self rfl).1⟩

end Faust.Environment
