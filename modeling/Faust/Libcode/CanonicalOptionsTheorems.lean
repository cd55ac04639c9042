import Mathlib.Data.List.Perm.Basic
import Faust.Libcode.CanonicalOptions

/-!
# The canonical list holds what the arguments say

Which options the new list holds depends on which of them occur among the arguments. The value of
an option is what follows it there, if this does not begin with a dash.
-/

namespace Faust.CommandLine

/-! ## Searching a list -/

/-- What follows `key`. -/
def nextTo (key : String) : List String → Option String
  | [] => none
  | option :: options => if key = option then options.head? else nextTo key options

lemma nextTo_append_of_notMem {key : String} {pre : List String} (h : key ∉ pre)
    (post : List String) : nextTo key (pre ++ post) = nextTo key post := by
  induction pre with
  | nil => rfl
  | cons option pre ih =>
    have hne : key ≠ option := fun heq => h (heq ▸ List.mem_cons_self)
    rw [List.cons_append, nextTo, if_neg hne]
    exact ih fun hmem => h (List.mem_cons_of_mem _ hmem)

lemma nextTo_cons_self (key : String) (options : List String) :
    nextTo key (key :: options) = options.head? := if_pos rfl

/-- What follows another option stays where it is when `mid` goes. -/
lemma nextTo_remove {key option value : String} {pre mid post : List String}
    (hne : value ≠ option) (hmid : key ∉ option :: mid)
    (h : nextTo key (pre ++ (option :: mid ++ post)) = some value) :
    nextTo key (pre ++ post) = some value := by
  induction pre with
  | nil => rwa [List.nil_append, nextTo_append_of_notMem hmid] at h
  | cons first pre ih =>
    rw [List.cons_append, nextTo] at h ⊢
    split
    · rename_i heq
      rw [if_pos heq] at h
      cases pre with
      | nil =>
        have : option = value := by simpa using h
        exact absurd this.symm hne
      | cons second pre => exact h
    · rename_i hne'
      rw [if_neg hne'] at h
      exact ih h

lemma parseKey_append_cons {key : String} {pre : List String} (h : key ∉ pre)
    (post : List String) : parseKey (pre ++ key :: post) key = some pre.length := by
  have hpre : pre.findIdx? (fun option => key = option) = none := by
    rw [List.findIdx?_eq_none_iff]
    intro option hoption
    have hne : key ≠ option := fun heq => h (heq ▸ hoption)
    simpa using hne
  rw [parseKey, List.findIdx?_append, hpre, Option.none_or, List.findIdx?_cons, if_pos (by simp)]
  simp

lemma parseKey_eq_none {key : String} {options : List String} (h : key ∉ options) :
    parseKey options key = none := by
  rw [parseKey, List.findIdx?_eq_none_iff]
  intro option hoption
  have hne : key ≠ option := fun heq => h (heq ▸ hoption)
  simpa using hne

/-! ## Options with their values -/

/-- An option with its value, or another argument. -/
structure Arg where
  name : String
  value : Option String
deriving DecidableEq, Repr

/-- The arguments it is written with. -/
def Arg.toList (u : Arg) : List String := u.name :: u.value.toList

/-- The arguments of a list of options. -/
def flatten (us : List Arg) : List String := us.flatMap Arg.toList

@[simp] lemma flatten_nil : flatten [] = [] := rfl

@[simp] lemma flatten_cons (u : Arg) (us : List Arg) : flatten (u :: us) = u.toList ++ flatten us :=
  rfl

@[simp] lemma flatten_append (us vs : List Arg) : flatten (us ++ vs) = flatten us ++ flatten vs :=
  List.flatMap_append

/-- No value begins with a dash. -/
def Undashed (us : List Arg) : Prop := ∀ u ∈ us, ∀ v ∈ u.value, isDashed v = false

lemma mem_flatten {us : List Arg} (h : Undashed us) {key : String} (hkey : isDashed key = true) :
    key ∈ flatten us ↔ ∃ u ∈ us, u.name = key := by
  constructor
  · intro hmem
    obtain ⟨u, hu, hmem⟩ := List.mem_flatMap.mp hmem
    rcases List.mem_cons.mp hmem with heq | hmem
    · exact ⟨u, hu, heq.symm⟩
    · have hvalue := h u hu key (by simpa using hmem)
      rw [hkey] at hvalue
      cases hvalue
  · rintro ⟨u, hu, rfl⟩
    exact List.mem_flatMap.mpr ⟨u, hu, List.mem_cons_self⟩

/-- The first option with this name is followed by its value. -/
lemma nextTo_flatten {us : List Arg} (h : Undashed us) {key value : String}
    (hkey : isDashed key = true) {u : Arg} (hu : us.find? (fun u => u.name = key) = some u)
    (hvalue : u.value = some value) : nextTo key (flatten us) = some value := by
  obtain ⟨hname, pre, post, rfl, hpre⟩ := List.find?_eq_some_iff_append.mp hu
  obtain rfl : u.name = key := by simpa using hname
  have hnotMem : u.name ∉ flatten pre := by
    rw [mem_flatten (fun w hw => h w (List.mem_append_left _ hw)) hkey]
    rintro ⟨w, hw, hname⟩
    exact absurd hname (by simpa using hpre w hw)
  rw [flatten_append, flatten_cons, nextTo_append_of_notMem hnotMem, Arg.toList, hvalue]
  exact nextTo_cons_self ..

/-! ## Taking options out of the list -/

/-- What is left of the arguments `l` when some options have been taken out. -/
structure Rest (l taken options : List String) : Prop where
  mem : ∀ key ∉ taken, isDashed key = true → (key ∈ options ↔ key ∈ l)
  next : ∀ key ∉ taken, isDashed key = true → ∀ value, isDashed value = false →
    nextTo key l = some value → nextTo key options = some value

lemma rest_self (l taken : List String) : Rest l taken l :=
  ⟨fun _ _ _ => Iff.rfl, fun _ _ _ _ _ h => h⟩

variable {l taken taken' : List String}

lemma Rest.mono {options : List String} (h : Rest l taken options) (hsubset : taken ⊆ taken') :
    Rest l taken' options :=
  ⟨fun key hkey => h.mem key fun hmem => hkey (hsubset hmem),
    fun key hkey => h.next key fun hmem => hkey (hsubset hmem)⟩

/-- An option goes, with what follows it if this is its value. -/
lemma Rest.erase {pre post : List String} {option : String} (mid : List String)
    (h : Rest l taken (pre ++ (option :: mid ++ post))) (hoption : isDashed option = true)
    (hmid : ∀ value ∈ mid, isDashed value = false) :
    Rest l (option :: taken) (pre ++ post) := by
  have hnotMem : ∀ key ∉ option :: taken, isDashed key = true → key ∉ option :: mid := by
    intro key hkey hdash hmem
    rcases List.mem_cons.mp hmem with heq | hmem
    · exact hkey (heq ▸ List.mem_cons_self)
    · rw [hmid key hmem] at hdash
      cases hdash
  constructor
  · intro key hkey hdash
    rw [← h.mem key (fun hmem => hkey (List.mem_cons_of_mem _ hmem)) hdash, List.mem_append,
      List.mem_append, List.mem_append, or_iff_right (a := key ∈ option :: mid)
        (hnotMem key hkey hdash)]
  · intro key hkey hdash value hvalue hnext
    have hne : value ≠ option := by
      intro heq
      rw [heq, hoption] at hvalue
      cases hvalue
    exact nextTo_remove hne (hnotMem key hkey hdash)
      (h.next key (fun hmem => hkey (List.mem_cons_of_mem _ hmem)) hdash value hvalue hnext)

lemma run_addKeyIfExisting (key defaultKey : String) (s : Options) :
    (addKeyIfExisting key defaultKey).run s =
      match parseKey s.options key with
      | some p => (some p, ⟨s.options.eraseIdx p, s.newoptions ++ [key]⟩)
      | none => (none, ⟨s.options,
          s.newoptions ++ if defaultKey ≠ "" then [defaultKey] else []⟩) := by
  cases hp : parseKey s.options key with
  | some p =>
    simp [addKeyIfExisting, hp, pushBack, CommandLine.erase]
    rfl
  | none =>
    by_cases hd : defaultKey = ""
    · simp [addKeyIfExisting, hp, hd]
      rfl
    · simp [addKeyIfExisting, hp, hd, pushBack]
      rfl

lemma run_addKeyValueIfExisting (key defaultValue : String) (s : Options) :
    (addKeyValueIfExisting key defaultValue).run s =
      match parseKey s.options key with
      | some p =>
        (addValue p defaultValue).run ⟨s.options.eraseIdx p, s.newoptions ++ [key]⟩
      | none => ((), s) := by
  rw [addKeyValueIfExisting, StateT.run_bind, run_addKeyIfExisting]
  cases hp : parseKey s.options key with
  | none =>
    obtain ⟨options, newoptions⟩ := s
    show (((), ⟨options, newoptions ++ []⟩) : Unit × Options) = _
    rw [List.append_nil]
  | some p => rfl

/-- The value that stands at the head of `post`. -/
lemma run_addValue (pre post newoptions : List String) (defaultValue : String) :
    (addValue pre.length defaultValue).run ⟨pre ++ post, newoptions⟩ =
      match post with
      | value :: post =>
        if isDashed value then ((), ⟨pre ++ value :: post, newoptions ++ [defaultValue]⟩)
        else ((), ⟨pre ++ post, newoptions ++ [value]⟩)
      | [] => ((), ⟨pre ++ [], newoptions ++ [defaultValue]⟩) := by
  cases post with
  | nil =>
    simp [addValue, pushBack]
    rfl
  | cons value post =>
    by_cases hdash : isDashed value = true
    · simp [addValue, hdash, pushBack]
      rfl
    · simp [addValue, hdash, pushBack, CommandLine.erase, List.eraseIdx_append_of_length_le]
      rfl

/-- What the new list can say about the value of `key`. -/
def ValueOf (l : List String) (key value : String) : Prop :=
  isDashed value = false ∧
    ∀ value', isDashed value' = false → nextTo key l = some value' → value = value'

lemma exists_valueOf (l : List String) (key : String) : ∃ value, ValueOf l key value := by
  by_cases h : ∃ value, isDashed value = false ∧ nextTo key l = some value
  · obtain ⟨value, hdash, hnext⟩ := h
    exact ⟨value, hdash, fun value' _ hnext' => Option.some.inj (hnext.symm.trans hnext')⟩
  · refine ⟨"", by decide, fun value' hdash hnext => ?_⟩
    exact absurd ⟨value', hdash, hnext⟩ h

/-- The options of the rows that hold. -/
def select (rows : List (Bool × Arg)) : List Arg := (rows.filter Prod.fst).map Prod.snd

lemma select_append (rows rows' : List (Bool × Arg)) :
    select (rows ++ rows') = select rows ++ select rows' := by
  rw [select, List.filter_append, List.map_append]
  rfl

/-- `m` takes options out of the list, and adds others to the new list. -/
def Takes {α : Type} (l taken : List String) (m : StateM Options α) (result : α → Prop)
    (taken' : List String) (added : List Arg → Prop) : Prop :=
  ∀ options newoptions, Rest l taken options → ∃ a options' us,
    m.run ⟨options, newoptions⟩ = (a, ⟨options', newoptions ++ flatten us⟩) ∧ result a ∧
      added us ∧ Rest l taken' options'

namespace Takes

variable {α β : Type} {taken'' : List String} {m : StateM Options α} {result : α → Prop}
  {added : List Arg → Prop}

theorem bind {f : α → StateM Options β} {result' : β → Prop} {added' : List Arg → Prop}
    (h : Takes l taken m result taken' added)
    (hf : ∀ a, result a → Takes l taken' (f a) result' taken'' added') :
    Takes l taken (m >>= f) result' taken''
      (fun us => ∃ us₁ us₂, added us₁ ∧ added' us₂ ∧ us = us₁ ++ us₂) := by
  intro options newoptions hrest
  obtain ⟨a, options₁, us, hrun, ha, hus, hrest₁⟩ := h options newoptions hrest
  obtain ⟨b, options₂, us', hrun', hb, hus', hrest₂⟩ :=
    hf a ha options₁ (newoptions ++ flatten us) hrest₁
  refine ⟨b, options₂, us ++ us', ?_, hb, ⟨us, us', hus, hus', rfl⟩, hrest₂⟩
  rw [StateT.run_bind, hrun]
  show (f a).run _ = _
  rw [hrun', flatten_append, List.append_assoc]

theorem pure {a : α} (ha : result a) (hadded : added []) :
    Takes l taken (Pure.pure a) result taken added := by
  intro options newoptions hrest
  refine ⟨a, options, [], ?_, ha, hadded, hrest⟩
  rw [flatten_nil, List.append_nil]
  rfl

theorem map {f : α → β} {result' : β → Prop} (h : Takes l taken m result taken' added)
    (hf : ∀ a, result a → result' (f a)) : Takes l taken (f <$> m) result' taken' added := by
  intro options newoptions hrest
  obtain ⟨a, options', us, hrun, ha, hus, hrest'⟩ := h options newoptions hrest
  refine ⟨f a, options', us, ?_, hf a ha, hus, hrest'⟩
  rw [StateT.run_map, hrun]
  rfl

/-- More options can be said to have been taken, and less about what was added. -/
theorem mono {added' : List Arg → Prop} (h : Takes l taken m result taken' added)
    (hsubset : taken' ⊆ taken'') (hadded : ∀ us, added us → added' us) :
    Takes l taken m result taken'' added' := by
  intro options newoptions hrest
  obtain ⟨a, options', us, hrun, ha, hus, hrest'⟩ := h options newoptions hrest
  exact ⟨a, options', us, hrun, ha, hadded us hus, hrest'.mono hsubset⟩

/-- Fewer options may have been taken before. -/
theorem of_subset (h : Takes l taken' m result taken'' added) (hsubset : taken ⊆ taken') :
    Takes l taken m result taken'' added := fun options newoptions hrest =>
  h options newoptions (hrest.mono hsubset)

theorem pushBack (name : String) : Takes l taken (CommandLine.pushBack name) (fun _ => True) taken
    (fun us => us = select [(true, ⟨name, none⟩)]) :=
  fun options _ hrest => ⟨(), options, _, rfl, trivial, rfl, hrest⟩

/-- Searching an option without a value. -/
theorem addKey {key : String} (hkey : isDashed key = true) (hnew : key ∉ taken)
    (defaultKey : String) :
    Takes l taken (addKeyIfExisting key defaultKey) (fun p => p.isSome = decide (key ∈ l))
      (key :: taken) (fun us => us = select [(decide (key ∈ l), ⟨key, none⟩),
        (decide (key ∉ l ∧ defaultKey ≠ ""), ⟨defaultKey, none⟩)]) := by
  intro options newoptions hrest
  rw [run_addKeyIfExisting]
  by_cases hmem : key ∈ options
  · have hl := (hrest.mem key hnew hkey).mp hmem
    obtain ⟨pre, post, rfl, hpre⟩ := List.eq_append_cons_of_mem hmem
    refine ⟨some pre.length, pre ++ post, [⟨key, none⟩], ?_, by simp [hl], by simp [select, hl],
      .erase [] hrest hkey (by simp)⟩
    simp [parseKey_append_cons hpre, Arg.toList, List.eraseIdx_append_of_length_le]
  · have hl : key ∉ l := fun hl => hmem ((hrest.mem key hnew hkey).mpr hl)
    refine ⟨none, options, if defaultKey ≠ "" then [⟨defaultKey, none⟩] else [], ?_, by simp [hl],
      ?_, hrest.mono (List.subset_cons_self ..)⟩
    · rw [parseKey_eq_none hmem]
      by_cases hd : defaultKey = "" <;> simp [hd, Arg.toList]
    · by_cases hd : defaultKey = "" <;> simp [select, hl, hd]

theorem addFlag {key : String} (hkey : isDashed key = true) (hnew : key ∉ taken) :
    Takes l taken (addKeyIfExisting key "") (fun p => p.isSome = decide (key ∈ l)) (key :: taken)
      (fun us => us = select [(decide (key ∈ l), ⟨key, none⟩)]) := by
  refine (addKey hkey hnew "").mono (List.Subset.refl _) fun us hus => ?_
  rw [hus]
  by_cases hl : key ∈ l <;> simp [select, hl]

/-- Searching an option with a value. -/
theorem addKeyValue {key : String} (hkey : isDashed key = true) (hnew : key ∉ taken)
    {defaultValue : String} (hdefault : isDashed defaultValue = false) :
    Takes l taken (addKeyValueIfExisting key defaultValue) (fun _ => True) (key :: taken)
      (fun us => ∃ value, ValueOf l key value ∧
        us = select [(decide (key ∈ l), ⟨key, some value⟩)]) := by
  intro options newoptions hrest
  rw [run_addKeyValueIfExisting]
  by_cases hmem : key ∈ options
  · have hl := (hrest.mem key hnew hkey).mp hmem
    obtain ⟨pre, post, rfl, hpre⟩ := List.eq_append_cons_of_mem hmem
    have hnext : ∀ value, isDashed value = false → nextTo key l = some value →
        post.head? = some value := by
      intro value hvalue hvalue'
      have hfound := hrest.next key hnew hkey value hvalue hvalue'
      rwa [nextTo_append_of_notMem hpre, nextTo_cons_self] at hfound
    rw [parseKey_append_cons hpre]
    simp only [List.eraseIdx_append_of_length_le (le_refl _), Nat.sub_self, List.eraseIdx_cons_zero]
    rw [run_addValue]
    cases post with
    | nil =>
      refine ⟨(), pre ++ [], [⟨key, some defaultValue⟩], by simp [Arg.toList], trivial,
        ⟨defaultValue, ⟨hdefault, ?_⟩, by simp [select, hl]⟩,
        .erase [] hrest hkey (by simp)⟩
      intro value hvalue hvalue'
      cases hnext value hvalue hvalue'
    | cons value post =>
      cases hdash : isDashed value with
      | true =>
        refine ⟨(), pre ++ value :: post, [⟨key, some defaultValue⟩], by simp [Arg.toList, hdash],
          trivial, ⟨defaultValue, ⟨hdefault, ?_⟩, by simp [select, hl]⟩,
          .erase [] hrest hkey (by simp)⟩
        intro value' hvalue hvalue'
        obtain rfl : value = value' := Option.some.inj (hnext value' hvalue hvalue')
        rw [hdash] at hvalue
        cases hvalue
      | false =>
        refine ⟨(), pre ++ post, [⟨key, some value⟩], by simp [Arg.toList, hdash], trivial,
          ⟨value, ⟨hdash, ?_⟩, by simp [select, hl]⟩,
          .erase [value] hrest hkey (by simp [hdash])⟩
        intro value' hvalue hvalue'
        exact Option.some.inj (hnext value' hvalue hvalue')
  · have hl : key ∉ l := fun hl => hmem ((hrest.mem key hnew hkey).mpr hl)
    obtain ⟨value, hvalue⟩ := exists_valueOf l key
    refine ⟨(), options, [], ?_, trivial, ⟨value, hvalue, by simp [select, hl]⟩,
      hrest.mono (List.subset_cons_self ..)⟩
    simp [parseKey_eq_none hmem]

end Takes

/-! ## The new list -/

/-- The values of options in the new list. -/
structure Values where
  vs : String
  lv : String
  mcd : String
  cn : String

/-- The options lead to vector mode. -/
def vectorized (given : String → Bool) : Bool := given "-sch" || given "-omp" || given "-vec"

/-- The options of vector and of scalar mode. -/
def modeRows (given : String → Bool) (vec : Bool) (vs lv : String) : List (Bool × Arg) := [
  (vec && given "-dfs", ⟨"-dfs", none⟩),
  (vec && given "-vls", ⟨"-vls", none⟩),
  (vec && given "-fun", ⟨"-fun", none⟩),
  (vec && given "-g", ⟨"-g", none⟩),
  (vec && given "-vs", ⟨"-vs", some vs⟩),
  (vec && given "-lv", ⟨"-lv", some lv⟩),
  (!vec, ⟨"-scal", none⟩),
  (!vec && given "-inpl", ⟨"-inpl", none⟩)]

/-- What follows `-vec`. -/
def restRows (given : String → Bool) (vec : Bool) (values : Values) : List (Bool × Arg) :=
  modeRows given vec values.vs values.lv ++
    [(given "-mcd", ⟨"-mcd", some values.mcd⟩), (given "-cn", ⟨"-cn", some values.cn⟩)]

/-- What can be in the new list, in its order. -/
def canonicalRows (given : String → Bool) (values : Values) : List (Bool × Arg) := [
  (given "-double", ⟨"-double", none⟩),
  (!given "-double", ⟨"-single", none⟩),
  (given "-sch", ⟨"-sch", none⟩),
  (given "-omp", ⟨"-omp", none⟩),
  (given "-omp" && given "-pl", ⟨"-pl", none⟩),
  (vectorized given, ⟨"-vec", none⟩)] ++ restRows given (vectorized given) values

/-- The new list, by options. -/
def canonicalUnits (given : String → Bool) (values : Values) : List Arg :=
  select (canonicalRows given values)

/-- The argument occurs. -/
abbrev given (l : List String) (key : String) : Bool := decide (key ∈ l)

/-- The values are what follows the options. -/
structure ValuesOf (l : List String) (values : Values) : Prop where
  vs : ValueOf l "-vs" values.vs
  lv : ValueOf l "-lv" values.lv
  mcd : ValueOf l "-mcd" values.mcd
  cn : ValueOf l "-cn" values.cn

/-- What is searched before `-mcd`. -/
def modeKeys : List String :=
  ["-inpl", "-scal", "-lv", "-vs", "-g", "-fun", "-vls", "-dfs", "-vec", "-pl", "-omp", "-sch",
    "-double"]

lemma takes_reorganizeMode (l : List String) (vec : Bool) :
    Takes l ["-vec", "-pl", "-omp", "-sch", "-double"] (reorganizeMode vec) (fun _ => True)
      modeKeys (fun us => ∃ vs lv, ValueOf l "-vs" vs ∧ ValueOf l "-lv" lv ∧
        us = select (modeRows (given l) vec vs lv)) := by
  unfold reorganizeMode
  cases vec with
  | true =>
    refine .mono (.bind (.addFlag (by decide) (by decide)) fun _ _ =>
      .bind (.addFlag (by decide) (by decide)) fun _ _ =>
      .bind (.addFlag (by decide) (by decide)) fun _ _ =>
      .bind (.addFlag (by decide) (by decide)) fun _ _ =>
      .bind (.addKeyValue (by decide) (by decide) (by decide)) fun _ _ =>
      .addKeyValue (by decide) (by decide) (by decide)) (by decide) ?_
    rintro us ⟨_, _, rfl, ⟨_, _, rfl, ⟨_, _, rfl, ⟨_, _, rfl, ⟨_, _, ⟨vs, hvs, rfl⟩,
      ⟨lv, hlv, rfl⟩, rfl⟩, rfl⟩, rfl⟩, rfl⟩, rfl⟩
    exact ⟨vs, lv, hvs, hlv, by simp only [← select_append]; rfl⟩
  | false =>
    obtain ⟨vs, hvs⟩ := exists_valueOf l "-vs"
    obtain ⟨lv, hlv⟩ := exists_valueOf l "-lv"
    refine .mono (.bind (.addKey (by decide) (by decide) "-scal") fun _ _ =>
      .bind (.addFlag (by decide) (by decide)) fun _ _ => .pure trivial rfl) (by decide) ?_
    rintro us ⟨_, _, rfl, ⟨_, _, rfl, rfl, rfl⟩, rfl⟩
    refine ⟨vs, lv, hvs, hlv, ?_⟩
    by_cases hscal : "-scal" ∈ l <;> simp [select, modeRows, hscal]

lemma takes_reorganizeRest (l : List String) (vec : Bool) :
    Takes l ["-vec", "-pl", "-omp", "-sch", "-double"] (reorganizeRest vec) (fun _ => True)
      ("-cn" :: "-mcd" :: modeKeys) (fun us => ∃ values, ValuesOf l values ∧
        us = select (restRows (given l) vec values)) := by
  refine .mono (.bind (takes_reorganizeMode l vec) fun _ _ =>
    .bind (.addKeyValue (by decide) (by decide) (by decide)) fun _ _ =>
    .addKeyValue (by decide) (by decide) (by decide)) (List.Subset.refl _) ?_
  rintro us ⟨_, _, ⟨vs, lv, hvs, hlv, rfl⟩, ⟨_, _, ⟨mcd, hmcd, rfl⟩, ⟨cn, hcn, rfl⟩, rfl⟩, rfl⟩
  refine ⟨⟨vs, lv, mcd, cn⟩, ⟨hvs, hlv, hmcd, hcn⟩, ?_⟩
  rw [restRows, select_append, ← select_append]
  rfl

/-- The mode is vector mode when `vectorize` is set, and depends on `-vec` otherwise. -/
lemma takes_reorganizeVec (l : List String) (vectorize : Bool) :
    Takes l ["-pl", "-omp", "-sch", "-double"] (reorganizeVec vectorize) (fun _ => True)
      ("-cn" :: "-mcd" :: modeKeys) (fun us => ∃ values, ValuesOf l values ∧
        us = select ((vectorize || given l "-vec", ⟨"-vec", none⟩) ::
          restRows (given l) (vectorize || given l "-vec") values)) := by
  unfold reorganizeVec
  cases vectorize with
  | true =>
    refine .mono (.bind (.pushBack "-vec") fun _ _ =>
      (takes_reorganizeRest l true).of_subset (by decide)) (List.Subset.refl _) ?_
    rintro us ⟨_, _, rfl, ⟨values, hvalues, rfl⟩, rfl⟩
    exact ⟨values, hvalues, rfl⟩
  | false =>
    have hvec : ∀ vec : Option ℕ, vec.isSome = given l "-vec" →
        Takes l ["-vec", "-pl", "-omp", "-sch", "-double"] (reorganizeRest vec.isSome)
          (fun _ => True) ("-cn" :: "-mcd" :: modeKeys) (fun us => ∃ values, ValuesOf l values ∧
            us = select (restRows (given l) (given l "-vec") values)) := by
      intro vec hvec
      rw [hvec]
      exact takes_reorganizeRest l _
    refine .mono (.bind (.addFlag (by decide) (by decide)) hvec) (List.Subset.refl _) ?_
    rintro us ⟨_, _, rfl, ⟨values, hvalues, rfl⟩, rfl⟩
    refine ⟨values, hvalues, ?_⟩
    rw [← select_append]
    rfl

lemma takes_reorganizeOmp (l : List String) :
    Takes l ["-sch", "-double"] reorganizeOmp (fun omp => omp = given l "-omp")
      ["-pl", "-omp", "-sch", "-double"] (fun us => us = select [(given l "-omp", ⟨"-omp", none⟩),
        (given l "-omp" && given l "-pl", ⟨"-pl", none⟩)]) := by
  have hpl : ∀ omp : Option ℕ, omp.isSome = given l "-omp" →
      Takes l ["-omp", "-sch", "-double"]
        (match omp with
        | some _ => do
          let _ ← addKeyIfExisting "-pl" ""
          return true
        | none => return false) (fun omp => omp = given l "-omp")
        ["-pl", "-omp", "-sch", "-double"]
        (fun us => us = select [(given l "-omp" && given l "-pl", ⟨"-pl", none⟩)]) := by
    intro omp homp
    rw [← homp]
    cases omp with
    | some p =>
      refine .mono (.bind (.addFlag (by decide) (by decide)) fun _ _ => .pure rfl rfl)
        (List.Subset.refl _) ?_
      rintro us ⟨_, _, rfl, rfl, rfl⟩
      simp
    | none => exact .mono (.pure rfl rfl) (List.subset_cons_self ..) fun us hus => hus.symm
  refine .mono (.bind (.addFlag (by decide) (by decide)) hpl) (List.Subset.refl _) ?_
  rintro us ⟨_, _, rfl, rfl, rfl⟩
  rw [← select_append]
  rfl

/-- The new list holds the options that occur among the arguments. -/
theorem takes_reorganize (l : List String) :
    Takes l [] reorganize (fun _ => True) ("-cn" :: "-mcd" :: modeKeys)
      (fun us => ∃ values, ValuesOf l values ∧ us = canonicalUnits (given l) values) := by
  have hvec : ∀ (sch : Option ℕ) (omp : Bool), sch.isSome = given l "-sch" →
      omp = given l "-omp" →
      Takes l ["-pl", "-omp", "-sch", "-double"] (reorganizeVec (sch.isSome || omp)) (fun _ => True)
        ("-cn" :: "-mcd" :: modeKeys) (fun us => ∃ values, ValuesOf l values ∧
          us = select ((vectorized (given l), ⟨"-vec", none⟩) ::
            restRows (given l) (vectorized (given l)) values)) := by
    intro sch omp hsch homp
    rw [hsch, homp]
    exact takes_reorganizeVec l _
  refine .mono (.bind (.addKey (by decide) (by decide) "-single") fun _ _ =>
    .bind (.addFlag (by decide) (by decide)) fun sch hsch =>
    .bind (takes_reorganizeOmp l) fun omp homp => hvec sch omp hsch homp) (List.Subset.refl _) ?_
  rintro us ⟨_, _, rfl, ⟨_, _, rfl, ⟨_, _, rfl, ⟨values, hvalues, rfl⟩, rfl⟩, rfl⟩, rfl⟩
  refine ⟨values, hvalues, ?_⟩
  rw [← select_append, ← select_append, ← select_append]
  by_cases hdouble : "-double" ∈ l <;> simp [canonicalUnits, canonicalRows, given, hdouble]

/-- The new list, as the arguments it is made of. -/
theorem reorganize_eq (l : List String) : ∃ values, ValuesOf l values ∧
    reorganizeCompilationOptionsAux l = flatten (canonicalUnits (given l) values) := by
  obtain ⟨_, _, us, hrun, -, ⟨values, hvalues, rfl⟩, -⟩ :=
    takes_reorganize l l [] (rest_self l [])
  refine ⟨values, hvalues, ?_⟩
  rw [reorganizeCompilationOptionsAux, hrun]
  rfl

/-! ## The new list again -/

lemma mem_select {rows : List (Bool × Arg)} {u : Arg} : u ∈ select rows ↔ (true, u) ∈ rows := by
  constructor
  · intro hmem
    obtain ⟨⟨b, u'⟩, hrow, rfl⟩ := List.mem_map.mp hmem
    obtain ⟨hrow, hb⟩ := List.mem_filter.mp hrow
    obtain rfl : b = true := hb
    exact hrow
  · intro hrow
    exact List.mem_map.mpr ⟨(true, u), List.mem_filter.mpr ⟨hrow, rfl⟩, rfl⟩

lemma find?_select (rows : List (Bool × Arg)) (p : Arg → Bool) :
    (select rows).find? p = (rows.find? fun row => row.1 && p row.2).map Prod.snd := by
  rw [select, List.find?_map, List.find?_filter]
  simp [Bool.decide_and]

lemma undashed_canonicalUnits (given : String → Bool) {l : List String} {values : Values}
    (h : ValuesOf l values) : Undashed (canonicalUnits given values) := by
  intro u hu value hvalue
  rw [canonicalUnits, mem_select] at hu
  have hrows : ∀ row ∈ canonicalRows given values, ∀ value ∈ row.2.value,
      isDashed value = false := by
    simp [canonicalRows, restRows, modeRows, h.vs.1, h.lv.1, h.mcd.1, h.cn.1]
  exact hrows _ hu value hvalue

lemma given_flatten_select {rows : List (Bool × Arg)} (h : Undashed (select rows)) {key : String}
    (hkey : isDashed key = true) :
    given (flatten (select rows)) key = rows.any fun row => row.1 && row.2.name = key := by
  rw [Bool.eq_iff_iff, decide_eq_true_iff, mem_flatten h hkey, List.any_eq_true]
  constructor
  · rintro ⟨u, hu, hname⟩
    exact ⟨(true, u), mem_select.mp hu, by simpa using hname⟩
  · rintro ⟨⟨b, u⟩, hrow, hname⟩
    obtain ⟨hb, hname⟩ : b = true ∧ u.name = key := by simpa using hname
    exact ⟨u, mem_select.mpr (hb ▸ hrow), hname⟩

/-- The value of an option is found again. -/
lemma ValueOf.eq_of_find? {us : List Arg} (h : Undashed us) {key value value' : String}
    (hkey : isDashed key = true) (hvalue' : ValueOf (flatten us) key value')
    (hfind : us.find? (fun u => u.name = key) = some ⟨key, some value⟩) : value' = value := by
  have hmem := List.mem_of_find?_eq_some hfind
  exact hvalue'.2 value (h _ hmem value rfl) (nextTo_flatten h hkey hfind rfl)

lemma select_congr {rows rows' : List (Bool × Arg)}
    (h : List.Forall₂ (fun row row' => row.1 = row'.1 ∧ (row.1 = true → row.2 = row'.2)) rows rows') :
    select rows = select rows' := by
  induction h with
  | nil => rfl
  | @cons row row' _ _ hrow _ ih =>
    obtain ⟨b, u⟩ := row
    obtain ⟨b', u'⟩ := row'
    obtain ⟨hb, hu⟩ := hrow
    obtain rfl : b = b' := hb
    cases b with
    | false => exact ih
    | true =>
      obtain rfl : u = u' := hu rfl
      show u :: select _ = u :: select _
      rw [ih]

/-- Searching the new list finds the same options. -/
lemma canonicalUnits_flatten (g : String → Bool) {l : List String} {values values' : Values}
    (h : ValuesOf l values) (h' : ValuesOf (flatten (canonicalUnits g values)) values') :
    canonicalUnits (given (flatten (canonicalUnits g values))) values' =
      canonicalUnits g values := by
  have hus := undashed_canonicalUnits g h
  obtain ⟨g', hg'⟩ : ∃ g', g' = given (flatten (canonicalUnits g values)) := ⟨_, rfl⟩
  have hgiven : ∀ key, isDashed key = true → g' key =
      (canonicalRows g values).any fun row => row.1 && row.2.name = key := by
    intro key hkey
    rw [hg']
    exact given_flatten_select hus hkey
  have hkeys : ∀ key ∈ ["-double", "-sch", "-omp", "-mcd", "-cn"], g' key = g key := by
    simp [hgiven, canonicalRows, restRows, modeRows, isDashed]
  have hmode : ∀ key ∈ ["-dfs", "-vls", "-fun", "-g", "-vs", "-lv"],
      g' key = (vectorized g && g key) := by
    simp [hgiven, canonicalRows, restRows, modeRows, isDashed]
  have hpl : g' "-pl" = (g "-omp" && g "-pl") := by
    simp [hgiven, canonicalRows, restRows, modeRows, isDashed]
  have hinpl : g' "-inpl" = (!vectorized g && g "-inpl") := by
    simp [hgiven, canonicalRows, restRows, modeRows, isDashed]
  have hvec : g' "-vec" = vectorized g := by
    simp [hgiven, canonicalRows, restRows, modeRows, isDashed]
  have hvectorized : vectorized g' = vectorized g := by
    rw [vectorized, hkeys "-sch" (by simp), hkeys "-omp" (by simp), hvec]
    simp [vectorized]
  have hvs : (vectorized g && g "-vs") = true → values'.vs = values.vs := by
    intro hvs
    refine h'.vs.eq_of_find? hus (by decide) ?_
    rw [canonicalUnits, find?_select]
    simp [canonicalRows, restRows, modeRows, hvs]
  have hlv : (vectorized g && g "-lv") = true → values'.lv = values.lv := by
    intro hlv
    refine h'.lv.eq_of_find? hus (by decide) ?_
    rw [canonicalUnits, find?_select]
    simp [canonicalRows, restRows, modeRows, hlv]
  have hmcd : g "-mcd" = true → values'.mcd = values.mcd := by
    intro hmcd
    refine h'.mcd.eq_of_find? hus (by decide) ?_
    rw [canonicalUnits, find?_select]
    simp [canonicalRows, restRows, modeRows, hmcd]
  have hcn : g "-cn" = true → values'.cn = values.cn := by
    intro hcn
    refine h'.cn.eq_of_find? hus (by decide) ?_
    rw [canonicalUnits, find?_select]
    simp [canonicalRows, restRows, modeRows, hcn]
  rw [← hg']
  apply select_congr
  simp only [List.forall_mem_cons, List.not_mem_nil, false_implies, implies_true, and_true]
    at hkeys hmode
  simp only [Bool.and_eq_true] at hvs hlv
  simp [canonicalRows, restRows, modeRows, hvectorized, hpl, hinpl, hmode, hkeys]
  exact ⟨fun h₁ h₂ => hvs ⟨h₁, h₂⟩, fun h₁ h₂ => hlv ⟨h₁, h₂⟩, hmcd, hcn⟩

/-- Reorganizing twice gives the same list as once. -/
theorem reorganize_reorganize (l : List String) :
    reorganizeCompilationOptionsAux (reorganizeCompilationOptionsAux l) =
      reorganizeCompilationOptionsAux l := by
  obtain ⟨values, hvalues, heq⟩ := reorganize_eq l
  rw [heq]
  obtain ⟨values', hvalues', heq'⟩ := reorganize_eq (flatten (canonicalUnits (given l) values))
  rw [heq', canonicalUnits_flatten (given l) hvalues hvalues']

/-! ## Another order of the arguments -/

/-- `us` and `us'` hold the same arguments, and those of each name in the same order. -/
def Rearranged (us us' : List Arg) : Prop :=
  ∀ name, us.filter (fun u => u.name = name) = us'.filter (fun u => u.name = name)

namespace Rearranged

variable {us us' : List Arg}

lemma mem_iff (h : Rearranged us us') (u : Arg) : u ∈ us ↔ u ∈ us' := by
  have hmem : ∀ vs : List Arg, u ∈ vs ↔ u ∈ vs.filter fun w => w.name = u.name := by
    intro vs
    simp [List.mem_filter]
  rw [hmem us, hmem us', h u.name]

lemma find?_eq (h : Rearranged us us') (name : String) :
    us.find? (fun u => u.name = name) = us'.find? (fun u => u.name = name) := by
  rw [← List.head?_filter, ← List.head?_filter, h name]

end Rearranged

/-- The value of an option that is given with its value is determined. -/
lemma ValueOf.eq_of_find?_isSome {us : List Arg} (h : Undashed us) {key value : String}
    (hkey : isDashed key = true) (hvalue : ValueOf (flatten us) key value) {u : Arg}
    (hfind : us.find? (fun u => u.name = key) = some u) (hsome : u.value.isSome) :
    u.value = some value := by
  obtain ⟨value', hvalue'⟩ := Option.isSome_iff_exists.mp hsome
  have hname : u.name = key := by simpa using List.find?_some hfind
  have hu : u = ⟨key, some value'⟩ := by rw [← hname, ← hvalue']
  rw [hu] at hfind
  rw [hvalue', hvalue.eq_of_find? h hkey hfind]

lemma canonicalUnits_congr {g g' : String → Bool} {values values' : Values}
    (hg : ∀ key, isDashed key = true → g key = g' key)
    (hvs : g "-vs" = true → values.vs = values'.vs) (hlv : g "-lv" = true → values.lv = values'.lv)
    (hmcd : g "-mcd" = true → values.mcd = values'.mcd)
    (hcn : g "-cn" = true → values.cn = values'.cn) :
    canonicalUnits g values = canonicalUnits g' values' := by
  have hkeys : ∀ key ∈ ["-double", "-sch", "-omp", "-pl", "-vec", "-dfs", "-vls", "-fun", "-g",
      "-vs", "-lv", "-inpl", "-mcd", "-cn"], g key = g' key := by
    simp [hg, isDashed]
  simp only [List.forall_mem_cons, List.not_mem_nil, false_implies, implies_true, and_true]
    at hkeys
  have hvectorized : vectorized g = vectorized g' := by simp only [vectorized, hkeys]
  apply select_congr
  simp only [hkeys] at hvs hlv hmcd hcn
  simp [canonicalRows, restRows, modeRows, hvectorized, hkeys]
  exact ⟨fun _ => hvs, fun _ => hlv, hmcd, hcn⟩

/-- The order of different options does not matter: when values do not begin with a dash and no
option stands without its value, two orders of the arguments that agree on the options of each name
give the same list. -/
theorem reorganize_rearranged {us us' : List Arg} (h : Rearranged us us') (hus : Undashed us)
    (hvalue : ∀ u ∈ us, u.name ∈ ["-vs", "-lv", "-mcd", "-cn"] → u.value.isSome) :
    reorganizeCompilationOptionsAux (flatten us) =
      reorganizeCompilationOptionsAux (flatten us') := by
  have hus' : Undashed us' := fun u hu => hus u ((h.mem_iff u).mpr hu)
  obtain ⟨values, hvalues, heq⟩ := reorganize_eq (flatten us)
  obtain ⟨values', hvalues', heq'⟩ := reorganize_eq (flatten us')
  rw [heq, heq']
  -- an option with a value has the same first occurrence in both
  have hsame : ∀ {key : String} {value value' : String}, isDashed key = true →
      key ∈ ["-vs", "-lv", "-mcd", "-cn"] → ValueOf (flatten us) key value →
      ValueOf (flatten us') key value' → given (flatten us) key = true → value = value' := by
    intro key value value' hkey hmem hval hval' hgiven
    obtain ⟨w, hw, hname⟩ := (mem_flatten hus hkey).mp (of_decide_eq_true hgiven)
    have hsome : (us.find? fun u => u.name = key).isSome := by
      rw [List.find?_isSome]
      exact ⟨w, hw, by simpa using hname⟩
    obtain ⟨u, hu⟩ := Option.isSome_iff_exists.mp hsome
    have huname : u.name = key := by simpa using List.find?_some hu
    have husome := hvalue u (List.mem_of_find?_eq_some hu) (huname ▸ hmem)
    have hfirst := hval.eq_of_find?_isSome hus hkey hu husome
    have hfirst' := hval'.eq_of_find?_isSome hus' hkey ((h.find?_eq key).symm.trans hu) husome
    exact Option.some.inj (hfirst.symm.trans hfirst')
  refine congrArg flatten (canonicalUnits_congr ?_ ?_ ?_ ?_ ?_)
  · intro key hkey
    rw [Bool.eq_iff_iff, decide_eq_true_iff, decide_eq_true_iff, mem_flatten hus hkey,
      mem_flatten hus' hkey]
    simp only [h.mem_iff]
  · exact hsame (by decide) (by simp) hvalues.vs hvalues'.vs
  · exact hsame (by decide) (by simp) hvalues.lv hvalues'.lv
  · exact hsame (by decide) (by simp) hvalues.mcd hvalues'.mcd
  · exact hsame (by decide) (by simp) hvalues.cn hvalues'.cn

/-- `-vec -vs 64` and `-vs 64 -vec`. -/
theorem reorganize_rearranged_vec_vs :
    reorganizeCompilationOptionsAux (flatten [⟨"-vec", none⟩, ⟨"-vs", some "64"⟩]) =
      reorganizeCompilationOptionsAux (flatten [⟨"-vs", some "64"⟩, ⟨"-vec", none⟩]) := by
  refine reorganize_rearranged (fun name => ?_) ?_ (by simp)
  · by_cases hvec : "-vec" = name
    · simp [← hvec]
    · simp [List.filter_cons, hvec]
  · simp [Undashed, isDashed]

end Faust.CommandLine
