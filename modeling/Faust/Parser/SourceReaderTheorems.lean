import Faust.Parser.SourceReader
import Faust.Lib.Outcome
import Mathlib.Logic.Relation

/-!
# Imports are expanded once

A finite set of source files that import one another. `expandrec` is a depth first search of the
graph of imports: what it adds to the visited set is told by `Visit`, what it adds to the
definitions by `Collects`. `expandlist` collects each file reached through an import once, but
the file whose list it is given is not in the visited set.
-/

namespace Faust

open Outcome Relation

/-- The files a list imports. -/
def imports (ldef : List Def) : List String :=
  ldef.filterMap fun d =>
    match d with
    | .importFile f => some f
    | _ => none

/-- The definitions of a list. -/
def definitions (ldef : List Def) : List Def :=
  ldef.filter fun d =>
    match d with
    | .definition .. => true
    | _ => false

/-- A finite set of source files; what they import are files of the set. -/
structure Sources where
  files : Finset String
  list : String → List Def
  imports_mem : ∀ f ∈ files, ∀ g ∈ imports (list f), g ∈ files

namespace Sources

variable {S : Sources} {disk : String → Option (List Def)}

/-- The file `f` imports the file `g`. -/
def Imports (S : Sources) (f g : String) : Prop := g ∈ imports (S.list f)

/-- The result of the expansion of the list of a file: the definitions of every file reachable
through imports, those of the file included, each file once, and no import. -/
def Expanded (S : Sources) (master : String) (result : List Def) : Prop :=
  imports result = [] ∧ ∃ fs : List String, fs.Nodup ∧
    (∀ f, f ∈ fs ↔ ReflTransGen S.Imports master f) ∧
    result.Perm (fs.flatMap fun f => definitions (S.list f))

/-! ## The search -/

/-- Starting from the visited files `V`, the imports of a list lead to the new files `new`. -/
structure Visit (S : Sources) (V : Finset String) (ldef : List Def) (new : List String) :
    Prop where
  nodup : new.Nodup
  fresh : ∀ f ∈ new, f ∉ V
  reached : ∀ f ∈ new, ∃ g ∈ imports ldef, ReflTransGen S.Imports g f
  imported : ∀ g ∈ imports ldef, g ∈ V ∨ g ∈ new
  closed : ∀ f ∈ new, ∀ g ∈ imports (S.list f), g ∈ V ∨ g ∈ new

/-- From `c` to `c'`, the files a list leads to have been visited, and the definitions of the list
and of these files added. -/
def Collects (S : Sources) (ldef : List Def) (c c' : SourceReader.Collected) : Prop :=
  ∃ new, S.Visit c.1 ldef new ∧ c'.1 = c.1 ∪ new.toFinset ∧
    c'.2.Perm (definitions ldef ++ new.flatMap (fun f => definitions (S.list f)) ++ c.2)

@[simp] theorem imports_nil : imports [] = [] := rfl

@[simp] theorem definitions_nil : definitions [] = [] := rfl

theorem imports_append (l₁ l₂ : List Def) : imports (l₁ ++ l₂) = imports l₁ ++ imports l₂ :=
  List.filterMap_append

theorem definitions_append (l₁ l₂ : List Def) :
    definitions (l₁ ++ l₂) = definitions l₁ ++ definitions l₂ :=
  List.filter_append ..

/-- Nothing is visited when nothing is imported. -/
theorem Visit.nil {V : Finset String} {ldef : List Def} (h : ∀ g ∈ imports ldef, g ∈ V) :
    S.Visit V ldef [] where
  nodup := List.nodup_nil
  fresh := by simp
  reached := by simp
  imported g hg := Or.inl (h g hg)
  closed := by simp

/-- Two searches one after the other. -/
theorem Visit.append {V : Finset String} {l₁ l₂ : List Def} {new₁ new₂ : List String}
    (h₁ : S.Visit V l₁ new₁) (h₂ : S.Visit (V ∪ new₁.toFinset) l₂ new₂) :
    S.Visit V (l₁ ++ l₂) (new₁ ++ new₂) where
  nodup := by
    apply List.Nodup.append h₁.nodup h₂.nodup
    intro f hf₁ hf₂
    exact h₂.fresh f hf₂ (by simp [hf₁])
  fresh f hf := by
    rcases List.mem_append.1 hf with hf | hf
    · exact h₁.fresh f hf
    · intro hV
      exact h₂.fresh f hf (by simp [hV])
  reached f hf := by
    rw [imports_append]
    rcases List.mem_append.1 hf with hf | hf
    · obtain ⟨g, hg, hgf⟩ := h₁.reached f hf
      exact ⟨g, List.mem_append_left _ hg, hgf⟩
    · obtain ⟨g, hg, hgf⟩ := h₂.reached f hf
      exact ⟨g, List.mem_append_right _ hg, hgf⟩
  imported g hg := by
    rw [imports_append] at hg
    rcases List.mem_append.1 hg with hg | hg
    · have := h₁.imported g hg
      grind
    · have := h₂.imported g hg
      simp only [Finset.mem_union, List.mem_toFinset, List.mem_append] at this ⊢
      tauto
  closed f hf g hg := by
    rcases List.mem_append.1 hf with hf | hf
    · have := h₁.closed f hf g hg
      grind
    · have := h₂.closed f hf g hg
      simp only [Finset.mem_union, List.mem_toFinset, List.mem_append] at this ⊢
      tauto

/-- A file that has not been visited, and then what its list leads to. -/
theorem Visit.file {V : Finset String} {f : String} {new : List String} (hf : f ∉ V)
    (h : S.Visit (insert f V) (S.list f) new) : S.Visit V [.importFile f] (f :: new) where
  nodup := List.nodup_cons.2 ⟨fun hm => h.fresh f hm (Finset.mem_insert_self f V), h.nodup⟩
  fresh g hg := by
    rcases List.mem_cons.1 hg with rfl | hg
    · exact hf
    · exact fun hV => h.fresh g hg (Finset.mem_insert_of_mem hV)
  reached g hg := by
    refine ⟨f, by simp [imports], ?_⟩
    rcases List.mem_cons.1 hg with rfl | hg
    · exact .refl
    · obtain ⟨k, hk, hkg⟩ := h.reached g hg
      exact .head hk hkg
  imported g hg := by
    obtain rfl : g = f := by simpa [imports] using hg
    exact Or.inr List.mem_cons_self
  closed g hg k hk := by
    rcases List.mem_cons.1 hg with rfl | hg
    · have := h.imported k hk
      grind
    · have := h.closed g hg k hk
      grind

/-! ## One turn of the loop -/

theorem Collects.refl (c : SourceReader.Collected) : S.Collects [] c c :=
  ⟨[], .nil (by simp), by simp, by simp⟩

theorem Collects.append {l₁ l₂ : List Def} {c₁ c₂ c₃ : SourceReader.Collected}
    (h₁ : S.Collects l₁ c₁ c₂) (h₂ : S.Collects l₂ c₂ c₃) : S.Collects (l₁ ++ l₂) c₁ c₃ := by
  obtain ⟨new₁, hv₁, hc₁, hp₁⟩ := h₁
  obtain ⟨new₂, hv₂, hc₂, hp₂⟩ := h₂
  rw [hc₁] at hv₂
  refine ⟨new₁ ++ new₂, hv₁.append hv₂, ?_, ?_⟩
  · rw [hc₂, hc₁, List.toFinset_append, Finset.union_assoc]
  · rw [definitions_append, List.flatMap_append]
    apply hp₂.trans
    have hstep := hp₁.append_left (definitions l₂ ++ new₂.flatMap fun f => definitions (S.list f))
    apply hstep.trans
    rw [List.perm_iff_count]
    intro d
    simp only [List.count_append]
    omega

theorem Collects.cons {d : Def} {l : List Def} {c₁ c₂ c₃ : SourceReader.Collected}
    (h₁ : S.Collects [d] c₁ c₂) (h₂ : S.Collects l c₂ c₃) : S.Collects (d :: l) c₁ c₃ :=
  h₁.append h₂

/-- Visited files stay visited. -/
theorem Collects.subset {l : List Def} {c c' : SourceReader.Collected} (h : S.Collects l c c') :
    c.1 ⊆ c'.1 := by
  obtain ⟨new, _, hc, _⟩ := h
  rw [hc]
  exact Finset.subset_union_left

theorem Collects.null (c : SourceReader.Collected) : S.Collects [.nil] c c :=
  ⟨[], .nil (by simp [imports]), by simp, by simp [definitions]⟩

theorem Collects.definition (id rhs : Tree) (c : SourceReader.Collected) :
    S.Collects [.definition id rhs] c (c.1, .definition id rhs :: c.2) :=
  ⟨[], .nil (by simp [imports]), by simp, by simp [definitions]⟩

theorem Collects.visited {f : String} {c : SourceReader.Collected} (hf : f ∈ c.1) :
    S.Collects [.importFile f] c c :=
  ⟨[], .nil (by simpa [imports] using hf), by simp, by simp [definitions]⟩

theorem Collects.file {f : String} {c c' : SourceReader.Collected} (hf : f ∉ c.1)
    (h : S.Collects (S.list f) (insert f c.1, c.2) c') : S.Collects [.importFile f] c c' := by
  obtain ⟨new, hv, hc, hp⟩ := h
  refine ⟨f :: new, hv.file hf, ?_, ?_⟩
  · rw [hc, List.toFinset_cons]
    simp
  · simpa [definitions] using hp

/-! ## The reader -/

/-- The files that can be read, now that the input string has been read. -/
def Reads (S : Sources) (disk : String → Option (List Def)) (r : SourceReader) : Prop :=
  r.gInputString = none ∧ ∀ f ∈ S.files, (r.fFileCache f).or (disk f) = some (S.list f)

/-- The files that can be read when the next file to be read is `master`, which may come from the
input string. -/
def Ready (S : Sources) (disk : String → Option (List Def)) (master : String)
    (r : SourceReader) : Prop :=
  S.Reads disk r ∨
    (r.gInputString = some (S.list master) ∧ r.fFileCache master = none ∧
      ∀ f ∈ S.files, f ≠ master → (r.fFileCache f).or (disk f) = some (S.list f))

open SourceReader in
/-- `getlist` returns the list of the file. -/
theorem getlist_ends {f : String} (hf : f ∈ S.files) {r : SourceReader} (hr : S.Ready disk f r) :
    Ends (getlist disk f) r (fun _ => False) fun l r' => l = S.list f ∧ S.Reads disk r' := by
  have hstore : ∀ {r' : SourceReader}, r'.gInputString = none →
      r'.fFileCache = Function.update r.fFileCache f (some (S.list f)) →
      (∀ g ∈ S.files, g ≠ f → (r.fFileCache g).or (disk g) = some (S.list g)) →
      S.Reads disk r' := by
    intro r' hnone hcache hother
    refine ⟨hnone, fun g hg => ?_⟩
    rw [hcache]
    by_cases hgf : g = f
    · simp [hgf]
    · rw [Function.update_of_ne hgf]
      exact hother g hg hgf
  unfold getlist
  apply Ends.get_eq.bind
  rintro _ _ ⟨rfl, rfl⟩
  rcases hr with hr | ⟨hinput, hcache, hother⟩
  · have hread := hr.2 f hf
    split
    · next l hl =>
      rw [hl] at hread
      exact .pure ⟨by simpa using hread, hr⟩
    · next hl =>
      rw [hl, Option.none_or] at hread
      rw [hr.1, hread]
      exact ⟨rfl, hstore hr.1 rfl fun g hg _ => hr.2 g hg⟩
  · rw [hcache, hinput]
    exact ⟨rfl, hstore rfl rfl hother⟩

/-- What is left to visit shrinks when a file is visited. -/
theorem card_left_lt {A V W : Finset String} {f : String} (hf : f ∈ A) (hv : f ∉ W)
    (hsub : V ⊆ W) : (A \ insert f W).card < (A \ V).card := by
  apply Finset.card_lt_card
  rw [Finset.ssubset_iff_of_subset (Finset.sdiff_subset_sdiff (Finset.Subset.refl A)
    (hsub.trans (Finset.subset_insert f W)))]
  exact ⟨f, Finset.mem_sdiff.2 ⟨hf, fun h => hv (hsub h)⟩, by simp⟩

open SourceReader in
/-- `expandrec`, with more fuel than there are files to visit, collects what the list leads to. -/
theorem expandrec_ends {fuel : ℕ} {ldef : List Def} {c : Collected} {r : SourceReader}
    (hfuel : (S.files \ c.1).card < fuel) (hmem : ∀ g ∈ imports ldef, g ∈ S.files)
    (hr : S.Reads disk r) :
    Ends (expandrec disk fuel ldef c) r (fun _ => False) fun c' r' =>
      S.Reads disk r' ∧ S.Collects ldef c c' := by
  induction fuel generalizing ldef c r with
  | zero => exact absurd hfuel (Nat.not_lt_zero _)
  | succ fuel ih =>
    -- along the loop, what is left to visit only shrinks
    have hloop : Ends (ldef.foldlM (expandDef disk (expandrec disk fuel)) c) r (fun _ => False)
        fun c' r' => (S.Reads disk r' ∧ c.1 ⊆ c'.1) ∧ S.Collects ldef c c' := by
      apply Ends.foldlM Collects.refl Collects.cons
      · rintro d hd b s ⟨hs, hsub⟩
        cases d with
        | nil => exact .pure ⟨⟨hs, hsub⟩, .null b⟩
        | definition id rhs => exact .pure ⟨⟨hs, hsub⟩, .definition id rhs b⟩
        | importFile f =>
          have hf : f ∈ S.files := hmem f (by
            simp only [imports, List.mem_filterMap]
            exact ⟨_, hd, rfl⟩)
          unfold expandDef
          show Ends (if f ∈ b.1 then _ else _) s _ _
          split
          · next hv => exact .pure ⟨⟨hs, hsub⟩, .visited hv⟩
          · next hv =>
            apply (getlist_ends hf (Or.inl hs)).bind
            rintro _ s' ⟨rfl, hs'⟩
            have hless : (S.files \ insert f b.1).card < fuel := by
              have := card_left_lt hf hv hsub
              omega
            apply (ih hless (S.imports_mem f hf) hs').mono
            rintro c' s'' ⟨hs'', hc'⟩
            have hb : S.Collects [.importFile f] b c' := .file hv hc'
            exact ⟨⟨hs'', hsub.trans hb.subset⟩, hb⟩
      · exact ⟨hr, Finset.Subset.refl _⟩
    exact hloop.mono fun c' r' h => ⟨h.1.1, h.2⟩

/-! ## The expanded list -/

/-- From no visited file, the new files are those reached through an import of the list. -/
theorem Visit.mem_iff {ldef : List Def} {new : List String} (h : S.Visit ∅ ldef new)
    {f : String} : f ∈ new ↔ ∃ g ∈ imports ldef, ReflTransGen S.Imports g f := by
  constructor
  · exact h.reached f
  · rintro ⟨g, hg, hgf⟩
    induction hgf with
    | refl => simpa using h.imported g hg
    | tail _ hstep ih => simpa using h.closed _ ih _ hstep

open SourceReader in
/-- `expandlist` returns the definitions of the list and those of the files reached through its
imports, each file once. -/
theorem expandlist_ends {fuel : ℕ} {ldef : List Def} {r : SourceReader}
    (hfuel : S.files.card < fuel) (hmem : ∀ g ∈ imports ldef, g ∈ S.files)
    (hr : S.Reads disk r) :
    Ends (expandlist disk fuel ldef) r (fun _ => False) fun result r' =>
      S.Reads disk r' ∧ ∃ new : List String, new.Nodup ∧
        (∀ f, f ∈ new ↔ ∃ g ∈ imports ldef, ReflTransGen S.Imports g f) ∧
        result.Perm (definitions ldef ++ new.flatMap fun f => definitions (S.list f)) := by
  unfold expandlist
  apply (expandrec_ends (by simpa using hfuel) hmem hr).bind
  rintro c r' ⟨hr', new, hvisit, _, hperm⟩
  exact .pure ⟨hr', new, hvisit.nodup, fun f => hvisit.mem_iff, by simpa using hperm⟩

theorem mem_definitions {d : Def} {l : List Def} :
    d ∈ definitions l ↔ d ∈ l ∧ ∃ id rhs, d = .definition id rhs := by
  cases d <;> simp [definitions]

/-- A list of definitions imports nothing. -/
theorem imports_eq_nil {l : List Def} (h : ∀ d ∈ l, ∃ id rhs, d = .definition id rhs) :
    imports l = [] := by
  apply List.eq_nil_iff_forall_not_mem.2
  intro f hf
  obtain ⟨d, hd, hdf⟩ := List.mem_filterMap.1 hf
  obtain ⟨id, rhs, rfl⟩ := h d hd
  cases hdf

theorem imports_of_perm {result ldef : List Def} {new : List String}
    (h : result.Perm (definitions ldef ++ new.flatMap fun f => definitions (S.list f))) :
    imports result = [] := by
  apply imports_eq_nil
  intro d hd
  rcases List.mem_append.1 (h.subset hd) with hd | hd
  · exact (mem_definitions.1 hd).2
  · obtain ⟨f, _, hd⟩ := List.mem_flatMap.1 hd
    exact (mem_definitions.1 hd).2

/-- When a list only imports files, as the list the compiler builds from the files on its command
line, `expandlist` returns the definitions of every file reached, each file once. -/
theorem expandlist_importFiles {fuel : ℕ} {fnames : List String} {r : SourceReader}
    (hfuel : S.files.card < fuel) (hmem : ∀ f ∈ fnames, f ∈ S.files) (hr : S.Reads disk r) :
    Ends (SourceReader.expandlist disk fuel (fnames.map .importFile)) r (fun _ => False)
      fun result _ => imports result = [] ∧ ∃ fs : List String, fs.Nodup ∧
        (∀ f, f ∈ fs ↔ ∃ g ∈ fnames, ReflTransGen S.Imports g f) ∧
        result.Perm (fs.flatMap fun f => definitions (S.list f)) := by
  have himports : imports (fnames.map .importFile) = fnames := by
    simp [imports, List.filterMap_map]
  have hdefs : definitions (fnames.map .importFile) = [] := by
    simp [definitions]
  have hfiles : ∀ g ∈ imports (fnames.map .importFile), g ∈ S.files := by rwa [himports]
  apply (expandlist_ends hfuel hfiles hr).mono
  rintro result r' ⟨_, new, hnodup, hnew, hperm⟩
  rw [himports] at hnew
  refine ⟨imports_of_perm hperm, new, hnodup, hnew, ?_⟩
  rwa [hdefs, List.nil_append] at hperm

/-- What a file reaches: itself, and what its imports reach. -/
theorem reaches_iff {master f : String} :
    ReflTransGen S.Imports master f ↔
      f = master ∨ ∃ g ∈ imports (S.list master), ReflTransGen S.Imports g f := by
  constructor
  · intro h
    rcases h.cases_head with h | ⟨g, hg, hgf⟩
    · exact Or.inl h.symm
    · exact Or.inr ⟨g, hg, hgf⟩
  · rintro (rfl | ⟨g, hg, hgf⟩)
    · exact .refl
    · exact .head hg hgf

/-- The files reached by the imports of a file contain the file when it is on a cycle. -/
theorem mem_new_iff {master : String} {new : List String}
    (hnew : ∀ f, f ∈ new ↔ ∃ g ∈ imports (S.list master), ReflTransGen S.Imports g f) :
    master ∈ new ↔ TransGen S.Imports master master := by
  rw [hnew, TransGen.head'_iff]
  rfl

/-- The list collected is the expanded list exactly when the definitions of the file itself, which
come on top of those of the files reached, are not among them already. -/
theorem expanded_iff {master : String} {new : List String} {result : List Def}
    (hnodup : new.Nodup)
    (hnew : ∀ f, f ∈ new ↔ ∃ g ∈ imports (S.list master), ReflTransGen S.Imports g f)
    (hperm : result.Perm
      (definitions (S.list master) ++ new.flatMap fun f => definitions (S.list f))) :
    S.Expanded master result ↔
      definitions (S.list master) = [] ∨ ¬ TransGen S.Imports master master := by
  rw [← mem_new_iff hnew]
  constructor
  · rintro ⟨_, fs, hfs, hreach, hresult⟩
    by_contra hne
    push Not at hne
    obtain ⟨hdefs, hmem⟩ := hne
    -- the files reached are those of `new`, so the definitions of the file are counted twice
    have hsame : fs.Perm new := by
      rw [List.perm_ext_iff_of_nodup hfs hnodup]
      intro f
      rw [hreach, reaches_iff, hnew]
      constructor
      · rintro (rfl | h)
        · exact (hnew f).1 hmem
        · exact h
      · exact Or.inr
    have hlength := (hresult.symm.trans hperm).length_eq
    rw [(hsame.flatMap_right _).length_eq, List.length_append] at hlength
    have hpos := List.length_pos_iff.2 hdefs
    omega
  · intro h
    refine ⟨imports_of_perm hperm, ?_⟩
    by_cases hmem : master ∈ new
    · have hdefs : definitions (S.list master) = [] := h.resolve_right (fun hn => hn hmem)
      rw [hdefs, List.nil_append] at hperm
      refine ⟨new, hnodup, fun f => ?_, hperm⟩
      rw [reaches_iff, hnew]
      constructor
      · exact Or.inr
      · rintro (rfl | hf)
        · exact (hnew f).1 hmem
        · exact hf
    · refine ⟨master :: new, List.nodup_cons.2 ⟨hmem, hnodup⟩, fun f => ?_, hperm⟩
      rw [List.mem_cons, hnew, reaches_iff]

open SourceReader in
/-- The expansion of the list of a file ends, and returns the definitions of every file reachable
through imports exactly once, if and only if no cycle of imports goes back to the file, or the file
has no definition. -/
theorem expandFile_iff {master : String} (hm : master ∈ S.files) {r : SourceReader}
    (hr : S.Ready disk master r) :
    (∀ fuel, S.files.card < fuel → ∃ result r',
        expandFile disk fuel master r = .ok (result, r') ∧ S.Expanded master result) ↔
      definitions (S.list master) = [] ∨ ¬ TransGen S.Imports master master := by
  have hends : ∀ fuel, S.files.card < fuel →
      Ends (expandFile disk fuel master) r (fun _ => False) fun result _ =>
        S.Expanded master result ↔
          definitions (S.list master) = [] ∨ ¬ TransGen S.Imports master master := by
    intro fuel hfuel
    apply (getlist_ends hm hr).bind
    rintro _ r₁ ⟨rfl, hr₁⟩
    apply (expandlist_ends hfuel (S.imports_mem master hm) hr₁).mono
    rintro result _ ⟨_, new, hnodup, hnew, hperm⟩
    exact expanded_iff hnodup hnew hperm
  constructor
  · intro h
    obtain ⟨result, r', hrun, hexpanded⟩ := h (S.files.card + 1) (Nat.lt_succ_self _)
    have hiff := hends (S.files.card + 1) (Nat.lt_succ_self _)
    rw [Ends, hrun] at hiff
    exact hiff.1 hexpanded
  · intro h fuel hfuel
    rcases (hends fuel hfuel).cases with ⟨result, r', hrun, hiff⟩ | ⟨_, _, hfalse⟩
    · exact ⟨result, r', hrun, hiff.2 h⟩
    · exact hfalse.elim

/-- A file `m` that imports `c` twice, where `c` imports itself. -/
def importTwice : Sources where
  files := {"m", "c"}
  list f :=
    if f = "m" then [.importFile "c", .importFile "c", .definition (Tree.leaf (.int 0)) Tree.nil]
    else [.definition (Tree.leaf (.int 1)) Tree.nil, .importFile "c"]
  imports_mem := by decide

/-- A reader that has read nothing. -/
def freshReader : SourceReader where
  fFileCache _ := none
  gInputString := none

/-- The list of `m`, which is not on a cycle, is expanded by a reader that has read nothing. -/
theorem expandFile_twice :
    (∀ fuel, 2 < fuel → ∃ result r',
      SourceReader.expandFile (fun f => some (importTwice.list f)) fuel "m" freshReader =
        .ok (result, r') ∧ importTwice.Expanded "m" result) ↔
      definitions (importTwice.list "m") = [] ∨ ¬ TransGen importTwice.Imports "m" "m" := by
  have hready : importTwice.Ready (fun f => some (importTwice.list f)) "m" freshReader :=
    Or.inl ⟨rfl, fun f _ => rfl⟩
  exact expandFile_iff (by decide) hready

/-- `c`, which imports itself, has its definitions twice in the list. -/
theorem expandFile_selfImport :
    ¬ ∀ fuel, 2 < fuel → ∃ result r',
      SourceReader.expandFile (fun f => some (importTwice.list f)) fuel "c" freshReader =
        .ok (result, r') ∧ importTwice.Expanded "c" result := by
  intro h
  obtain ⟨result, r', hrun, hexpanded⟩ := h 3 (by decide)
  have hself : ∀ f, f ∈ ["c"] ↔
      ∃ g ∈ imports (importTwice.list "c"), ReflTransGen importTwice.Imports g f := by
    intro f
    have hlist : imports (importTwice.list "c") = ["c"] := rfl
    simp only [hlist, List.mem_singleton, exists_eq_left]
    constructor
    · rintro rfl
      exact .refl
    · intro hreach
      induction hreach with
      | refl => rfl
      | tail _ hstep ih => simpa [Imports, ih, hlist] using hstep
  have hresult : Except.map Prod.fst
      (SourceReader.expandFile (fun f => some (importTwice.list f)) 3 "c" freshReader) =
      .ok [.definition (Tree.leaf (.int 1)) Tree.nil, .definition (Tree.leaf (.int 1)) Tree.nil] :=
    rfl
  rw [hrun] at hresult
  obtain rfl := Except.ok.inj hresult
  rcases (expanded_iff (List.nodup_singleton "c") hself (.refl _)).1 hexpanded with hnil | hcycle
  · exact absurd hnil (by decide)
  · exact hcycle (.single (show "c" ∈ imports (importTwice.list "c") by decide))

end Sources

end Faust
