import Faust.Libcode.CommandLine
import Faust.Libcode.CanonicalOptionsTheorems

/-!
# The settings that a command line and its canonical list make

Of the settings that decide the generated code, each is made by the last option that sets it.
-/

namespace Faust.CommandLine

/-! ## What an option sets -/

/-- The settings after the option with this short name. -/
@[simps]
def set (key value : String) (s : Settings) : Settings where
  gFloatSize :=
    if key = "-single" then 1 else if key = "-double" then 2 else if key = "-quad" then 3
    else s.gFloatSize
  gVectorSwitch := if key = "-vec" then true else if key = "-scal" then false else s.gVectorSwitch
  gSchedulerSwitch := if key = "-sch" then true else s.gSchedulerSwitch
  gOpenMPSwitch := if key = "-omp" then true else s.gOpenMPSwitch
  gOpenMPLoop := if key = "-pl" then true else s.gOpenMPLoop
  gVecSize := if key = "-vs" then atoi value else s.gVecSize
  gVectorLoopVariant := if key = "-lv" then atoi value else s.gVectorLoopVariant
  gVecLoopSize := if key = "-vls" then atoi value else s.gVecLoopSize
  gDeepFirstSwitch := if key = "-dfs" then true else s.gDeepFirstSwitch
  gFunTaskSwitch := if key = "-fun" then true else s.gFunTaskSwitch
  gGroupTaskSwitch := if key = "-g" then true else s.gGroupTaskSwitch
  gInPlace := if key = "-inpl" then true else s.gInPlace
  gMaxCopyDelay := if key = "-mcd" then atoi value else s.gMaxCopyDelay
  gClassName := if key = "-cn" then value else s.gClassName

/-- What `o` does is what its short name says. -/
def Sets (o : CmdOption) : Prop :=
  match o.effect with
  | .flag set' => ∀ value g, (set' g).toSettings = set o.short value g.toSettings
  | .value set' => ∀ value g, (set' value g).toSettings = set o.short value g.toSettings
  | .path set' => ∀ path value g, (set' path g).toSettings = g.toSettings ∧
      set o.short value g.toSettings = g.toSettings

lemma sets_cmdOptions : ∀ o ∈ cmdOptions, Sets o := by
  simp [cmdOptions, Sets, Settings.ext_iff]

/-! ## Reading the arguments one after the other -/

/-- The arguments by options: each takes its value with it. -/
def units : List String → List Arg
  | [] => []
  | arg :: rest =>
    match (findOption arg !rest.isEmpty).map CmdOption.effect, rest with
    | some (.value _), value :: rest => ⟨arg, some value⟩ :: units rest
    | some (.path _), value :: rest => ⟨arg, some value⟩ :: units rest
    | _, rest => ⟨arg, none⟩ :: units rest

/-- The short name of the option. -/
def keyOf (name : String) : String := ((findOption name true).map CmdOption.short).getD name

/-- What an option sets. -/
def Arg.set (u : Arg) (s : Settings) : Settings :=
  CommandLine.set (keyOf u.name) (u.value.getD "") s

/-- What the options set, one after the other. -/
def setAll (us : List Arg) (s : Settings) : Settings := us.foldl (fun s u => u.set s) s

lemma findOption_mem {arg : String} {more : Bool} {o : CmdOption}
    (h : findOption arg more = some o) : o ∈ cmdOptions := List.mem_of_find?_eq_some h

lemma keyOf_cmdOptions : ∀ o ∈ cmdOptions, keyOf o.short = o.short ∧
    ∀ long ∈ o.long, keyOf long = o.short := by
  decide +kernel

lemma keyOf_of_findOption {arg : String} {more : Bool} {o : CmdOption}
    (h : findOption arg more = some o) : keyOf arg = o.short := by
  obtain ⟨hshort, hlong⟩ := keyOf_cmdOptions o (findOption_mem h)
  have hcmd := List.find?_some h
  rw [CmdOption.isCmd, Bool.and_eq_true, Bool.or_eq_true, decide_eq_true_iff,
    decide_eq_true_iff] at hcmd
  rcases hcmd.1 with rfl | heq
  · exact hshort
  · exact hlong arg heq.symm

/-- The options that set something. -/
def settingKeys : List String :=
  ["-single", "-double", "-quad", "-vec", "-scal", "-sch", "-omp", "-pl", "-vs", "-lv", "-vls",
    "-dfs", "-fun", "-g", "-inpl", "-mcd", "-cn"]

lemma set_of_notMem {key : String} (h : key ∉ settingKeys) (value : String) (s : Settings) :
    set key value s = s := by
  simp only [settingKeys, List.mem_cons, List.not_mem_nil, or_false, not_or] at h
  simp [Settings.ext_iff, h]

lemma isDashed_cmdOptions : ∀ o ∈ cmdOptions, isDashed o.short = true ∧
    ∀ long ∈ o.long, isDashed long = true := by
  decide +kernel

/-- An argument that is no option sets nothing. -/
lemma set_of_not_dashed {name : String} (h : isDashed name = false) (value : String)
    (s : Settings) : set (keyOf name) value s = s := by
  have hnone : findOption name true = none := by
    cases hfind : findOption name true with
    | none => rfl
    | some o =>
      obtain ⟨hshort, hlong⟩ := isDashed_cmdOptions o (findOption_mem hfind)
      have hcmd := List.find?_some hfind
      rw [CmdOption.isCmd, Bool.and_eq_true, Bool.or_eq_true, decide_eq_true_iff,
        decide_eq_true_iff] at hcmd
      rcases hcmd.1 with rfl | heq
      · rw [hshort] at h
        cases h
      · rw [hlong name heq.symm] at h
        cases h
  have hkeys : ∀ key ∈ settingKeys, isDashed key = true := by decide
  refine set_of_notMem ?_ value s
  rw [keyOf, hnone]
  intro hmem
  have hdash : isDashed name = true := hkeys _ hmem
  rw [h] at hdash
  cases hdash

lemma units_flag {arg : String} {rest : List String} {o : CmdOption} {set' : Globals → Globals}
    (h : findOption arg (!rest.isEmpty) = some o) (ho : o.effect = .flag set') :
    units (arg :: rest) = ⟨arg, none⟩ :: units rest := by
  rw [units.eq_def]
  dsimp only
  rw [h, Option.map_some, ho]

lemma units_none {arg : String} {rest : List String} (h : findOption arg (!rest.isEmpty) = none) :
    units (arg :: rest) = ⟨arg, none⟩ :: units rest := by
  rw [units.eq_def]
  dsimp only
  rw [h, Option.map_none]

lemma units_value {arg value : String} {rest : List String} {o : CmdOption}
    (h : findOption arg true = some o) (ho : ∀ set', o.effect ≠ .flag set') :
    units (arg :: value :: rest) = ⟨arg, some value⟩ :: units rest := by
  cases heffect : o.effect with
  | flag set' => exact absurd heffect (ho set')
  | value set' => simp [units, h, heffect]
  | path set' => simp [units, h, heffect]

lemma Sets.flag {o : CmdOption} {set' : Globals → Globals} (h : Sets o)
    (ho : o.effect = .flag set') (value : String) (g : Globals) :
    (set' g).toSettings = set o.short value g.toSettings := by
  rw [Sets, ho] at h
  exact h value g

lemma Sets.value {o : CmdOption} {set' : String → Globals → Globals} (h : Sets o)
    (ho : o.effect = .value set') (value : String) (g : Globals) :
    (set' value g).toSettings = set o.short value g.toSettings := by
  rw [Sets, ho] at h
  exact h value g

lemma Sets.path {o : CmdOption} {set' : String → Globals → Globals} (h : Sets o)
    (ho : o.effect = .path set') (path value : String) (g : Globals) :
    (set' path g).toSettings = g.toSettings ∧ set o.short value g.toSettings = g.toSettings := by
  rw [Sets, ho] at h
  exact h path value g

lemma setAll_cons (u : Arg) (us : List Arg) (s : Settings) :
    setAll (u :: us) s = setAll us (u.set s) := rfl

/-- If all arguments are recognized, the settings are made by the options in their order. -/
theorem processArgs_toSettings {env : Env} {args errors : List String} {g g' : Globals}
    (h : processArgs env args g errors = .ok (g', [])) :
    errors = [] ∧ g'.toSettings = setAll (units args) g.toSettings := by
  fun_induction processArgs env args g errors with
  | case1 g errors =>
    cases h
    exact ⟨rfl, rfl⟩
  | case2 arg g errors o set' rest heffect hfind ih =>
    obtain ⟨herrors, heq⟩ := ih h
    refine ⟨herrors, ?_⟩
    rw [heq, units_flag hfind heffect, setAll_cons, Arg.set, keyOf_of_findOption hfind,
      (sets_cmdOptions o (findOption_mem hfind)).flag heffect]
  | case3 arg g errors o set' value rest heffect hfind ih =>
    obtain ⟨herrors, heq⟩ := ih h
    refine ⟨herrors, ?_⟩
    rw [heq, units_value hfind (by simp [heffect]), setAll_cons, Arg.set,
      keyOf_of_findOption hfind, (sets_cmdOptions o (findOption_mem hfind)).value heffect]
    rfl
  | case4 arg g errors o set' value rest heffect hfind ih =>
    obtain ⟨herrors, heq⟩ := ih h
    refine ⟨herrors, ?_⟩
    have hsets := sets_cmdOptions o (findOption_mem hfind)
    rw [heq, units_value hfind (by simp [heffect]), setAll_cons, Arg.set,
      keyOf_of_findOption hfind, (hsets.path heffect "" _ g).2]
    cases env.realpath value with
    | none => rfl
    | some path => rw [Option.elim_some, (hsets.path heffect path "" g).1]
  | case5 arg g errors o hflag hfind =>
    cases h
    refine ⟨rfl, ?_⟩
    have hcmd := List.find?_some hfind
    have hsets := sets_cmdOptions o (findOption_mem hfind)
    cases heffect : o.effect with
    | flag set' => exact absurd heffect (hflag set')
    | value set' => simp [CmdOption.isCmd, heffect] at hcmd
    | path set' =>
      have hunits : units [arg] = [⟨arg, none⟩] := by
        unfold units
        rw [hfind, Option.map_some, heffect]
        rfl
      rw [hunits, setAll_cons, Arg.set, keyOf_of_findOption hfind, (hsets.path heffect "" _ g').2]
      rfl
  | case6 arg rest g errors hfind hdash ih =>
    obtain ⟨herrors, -⟩ := ih h
    simp at herrors
  | case7 arg rest g errors hfind hdash ih =>
    cases hurl : env.check_url arg with
    | error e =>
      rw [hurl] at h
      cases h
    | ok _ =>
      rw [hurl] at h
      obtain ⟨herrors, heq⟩ := ih h
      refine ⟨herrors, ?_⟩
      rw [heq, units_none hfind, setAll_cons, Arg.set, set_of_not_dashed (by simpa using hdash)]

/-! ## Reading the canonical list -/

/-- It has no value. -/
def CmdOption.isFlag (o : CmdOption) : Bool :=
  match o.effect with
  | .flag _ => true
  | _ => false

/-- It is followed by its value. -/
def CmdOption.isValue (o : CmdOption) : Bool :=
  match o.effect with
  | .value _ => true
  | _ => false

/-- The option is written as `process_cmdline` reads it. -/
def Written (u : Arg) : Prop :=
  match u.value with
  | none => ∀ more, (findOption u.name more).any CmdOption.isFlag = true
  | some _ => (findOption u.name true).any CmdOption.isValue = true

lemma CmdOption.effect_of_isFlag {o : CmdOption} (h : o.isFlag = true) :
    ∃ set', o.effect = .flag set' := by
  cases heffect : o.effect with
  | flag set' => exact ⟨set', rfl⟩
  | value set' => simp [CmdOption.isFlag, heffect] at h
  | path set' => simp [CmdOption.isFlag, heffect] at h

lemma CmdOption.effect_of_isValue {o : CmdOption} (h : o.isValue = true) :
    ∃ set', o.effect = .value set' := by
  cases heffect : o.effect with
  | flag set' => simp [CmdOption.isValue, heffect] at h
  | value set' => exact ⟨set', rfl⟩
  | path set' => simp [CmdOption.isValue, heffect] at h

lemma processArgs_flatten (env : Env) {us : List Arg} (hus : ∀ u ∈ us, Written u) (g : Globals)
    (errors : List String) : ∃ g', processArgs env (flatten us) g errors = .ok (g', errors) ∧
      g'.toSettings = setAll us g.toSettings := by
  induction us generalizing g with
  | nil => exact ⟨g, rfl, rfl⟩
  | cons u us ih =>
    have hwritten := hus u List.mem_cons_self
    have ih := ih fun u hu => hus u (List.mem_cons_of_mem _ hu)
    obtain ⟨name, value⟩ := u
    cases value with
    | none =>
      obtain ⟨o, hfind, ho⟩ := (Option.any_eq_true _ _).mp (hwritten (!(flatten us).isEmpty))
      obtain ⟨set', heffect⟩ := CmdOption.effect_of_isFlag ho
      obtain ⟨g', hrun, hset⟩ := ih (set' g)
      refine ⟨g', ?_, ?_⟩
      · show processArgs env (name :: flatten us) g errors = _
        rw [processArgs, hfind]
        simpa only [heffect] using hrun
      · rw [hset, setAll_cons, Arg.set, keyOf_of_findOption hfind,
          (sets_cmdOptions o (findOption_mem hfind)).flag heffect]
    | some value =>
      obtain ⟨o, hfind, ho⟩ := (Option.any_eq_true _ _).mp hwritten
      obtain ⟨set', heffect⟩ := CmdOption.effect_of_isValue ho
      obtain ⟨g', hrun, hset⟩ := ih (set' value g)
      refine ⟨g', ?_, ?_⟩
      · show processArgs env (name :: value :: flatten us) g errors = _
        rw [processArgs]
        simpa only [List.isEmpty_cons, Bool.not_false, hfind, heffect] using hrun
      · rw [hset, setAll_cons, Arg.set, keyOf_of_findOption hfind,
          (sets_cmdOptions o (findOption_mem hfind)).value heffect]
        rfl

lemma written_canonicalUnits {g : String → Bool} (hvls : g "-vls" = false) (values : Values) :
    ∀ u ∈ canonicalUnits g values, Written u := by
  have hflag : ∀ name ∈ ["-double", "-single", "-sch", "-omp", "-pl", "-vec", "-dfs", "-fun", "-g",
      "-scal", "-inpl"], ∀ more, (findOption name more).any CmdOption.isFlag = true := by
    decide +kernel
  have hvalue : ∀ name ∈ ["-vs", "-lv", "-mcd", "-cn"],
      (findOption name true).any CmdOption.isValue = true := by
    decide +kernel
  have hrows : ∀ row ∈ canonicalRows g values, row.1 = true → Written row.2 := by
    simp only [canonicalRows, restRows, modeRows, hvls, List.forall_mem_append,
      List.forall_mem_cons]
    simp only [List.forall_mem_cons] at hflag hvalue
    simp [Written, hflag, hvalue]
  intro u hu
  exact hrows _ (mem_select.mp hu) rfl

/-- What the canonical list sets. -/
def canonicalSettings (g : String → Bool) (values : Values) : Settings where
  gFloatSize := if g "-double" then 2 else 1
  gVectorSwitch := vectorized g
  gSchedulerSwitch := g "-sch"
  gOpenMPSwitch := g "-omp"
  gOpenMPLoop := g "-omp" && g "-pl"
  gVecSize := if vectorized g && g "-vs" then atoi values.vs else 32
  gVectorLoopVariant := if vectorized g && g "-lv" then atoi values.lv else 0
  gVecLoopSize := 0
  gDeepFirstSwitch := vectorized g && g "-dfs"
  gFunTaskSwitch := vectorized g && g "-fun"
  gGroupTaskSwitch := vectorized g && g "-g"
  gInPlace := !vectorized g && g "-inpl"
  gMaxCopyDelay := if g "-mcd" then atoi values.mcd else 16
  gClassName := if g "-cn" then values.cn else "mydsp"

lemma setAll_select (rows : List (Bool × Arg)) (s : Settings) : setAll (select rows) s =
    rows.foldl (fun s row => if row.1 then set (keyOf row.2.name) (row.2.value.getD "") s else s) s := by
  induction rows generalizing s with
  | nil => rfl
  | cons row rows ih =>
    obtain ⟨b, u⟩ := row
    cases b with
    | false => exact ih s
    | true => exact ih (u.set s)

lemma setAll_canonicalUnits {g : String → Bool} (hvls : g "-vls" = false) (values : Values) :
    setAll (canonicalUnits g values) {} = canonicalSettings g values := by
  have hkeys : ∀ key ∈ ["-double", "-single", "-sch", "-omp", "-pl", "-vec", "-dfs", "-vls", "-fun",
      "-g", "-vs", "-lv", "-scal", "-inpl", "-mcd", "-cn"], keyOf key = key := by
    decide +kernel
  simp only [List.forall_mem_cons] at hkeys
  rw [canonicalUnits, setAll_select]
  simp only [canonicalRows, restRows, modeRows, hvls, List.cons_append, List.nil_append,
    List.foldl_cons, List.foldl_nil, hkeys]
  apply Settings.ext
  · simp [apply_ite Settings.gFloatSize, canonicalSettings]
  · simp [apply_ite Settings.gVectorSwitch, canonicalSettings]
  · simp [apply_ite Settings.gSchedulerSwitch, canonicalSettings]
  · simp [apply_ite Settings.gOpenMPSwitch, canonicalSettings]
  · simp [apply_ite Settings.gOpenMPLoop, canonicalSettings]
  · simp [apply_ite Settings.gVecSize, canonicalSettings]
  · simp [apply_ite Settings.gVectorLoopVariant, canonicalSettings]
  · simp [apply_ite Settings.gVecLoopSize, canonicalSettings]
  · simp [apply_ite Settings.gDeepFirstSwitch, canonicalSettings]
  · simp [apply_ite Settings.gFunTaskSwitch, canonicalSettings]
  · simp [apply_ite Settings.gGroupTaskSwitch, canonicalSettings]
  · simp [apply_ite Settings.gInPlace, canonicalSettings]
  · simp [apply_ite Settings.gMaxCopyDelay, canonicalSettings]
  · simp [apply_ite Settings.gClassName, canonicalSettings]

/-! ## The last option wins -/

/-- The last of the options with these short names. -/
def lastOf (us : List Arg) (keys : List String) : Option Arg :=
  (us.filter fun u => keyOf u.name ∈ keys).getLast?

/-- Its short name. -/
def lastKey (us : List Arg) (keys : List String) : Option String :=
  (lastOf us keys).map fun u => keyOf u.name

/-- Its value. -/
def lastValue (us : List Arg) (key default : String) : String :=
  ((lastOf us [key]).map fun u => u.value.getD "").getD default

/-- The option is given, under one of its names. -/
def gives (us : List Arg) (key : String) : Bool := (lastOf us [key]).isSome

lemma lastOf_cons (u : Arg) (us : List Arg) (keys : List String) : lastOf (u :: us) keys =
    if keyOf u.name ∈ keys then some ((lastOf us keys).getD u) else lastOf us keys := by
  unfold lastOf
  rw [List.filter_cons]
  by_cases h : keyOf u.name ∈ keys
  · simp [h, List.getLast?_cons]
  · simp [h]

/-- A setting is what the last of the options that set it says. -/
lemma setAll_field {α : Type} (f : Settings → α) (keys : List String) (val : Arg → α)
    (h : ∀ (u : Arg) s, f (u.set s) = if keyOf u.name ∈ keys then val u else f s) (us : List Arg)
    (s : Settings) : f (setAll us s) = ((lastOf us keys).map val).getD (f s) := by
  induction us generalizing s with
  | nil => rfl
  | cons u us ih =>
    rw [setAll_cons, ih, h, lastOf_cons]
    by_cases hkey : keyOf u.name ∈ keys
    · rw [if_pos hkey, if_pos hkey]
      cases lastOf us keys with
      | none => rfl
      | some w => rfl
    · rw [if_neg hkey, if_neg hkey]

/-- A switch is set when its option is given. -/
lemma setAll_switch {f : Settings → Bool} {key : String}
    (h : ∀ (u : Arg) s, f (u.set s) = if keyOf u.name = key then true else f s) (us : List Arg)
    {s : Settings} (hs : f s = false) : f (setAll us s) = gives us key := by
  rw [setAll_field f [key] (fun _ => true) (by simpa using h), hs, gives]
  cases lastOf us [key] with
  | none => rfl
  | some u => rfl

/-- The number of the precision. -/
def precision (key : String) : ℤ := if key = "-single" then 1 else if key = "-double" then 2 else 3

/-- What a command line sets, before the related options are adjusted. -/
def argSettings (us : List Arg) : Settings where
  gFloatSize := ((lastKey us ["-single", "-double", "-quad"]).map precision).getD 1
  gVectorSwitch := lastKey us ["-vec", "-scal"] = some "-vec"
  gSchedulerSwitch := gives us "-sch"
  gOpenMPSwitch := gives us "-omp"
  gOpenMPLoop := gives us "-pl"
  gVecSize := atoi (lastValue us "-vs" "32")
  gVectorLoopVariant := atoi (lastValue us "-lv" "0")
  gVecLoopSize := atoi (lastValue us "-vls" "0")
  gDeepFirstSwitch := gives us "-dfs"
  gFunTaskSwitch := gives us "-fun"
  gGroupTaskSwitch := gives us "-g"
  gInPlace := gives us "-inpl"
  gMaxCopyDelay := atoi (lastValue us "-mcd" "16")
  gClassName := lastValue us "-cn" "mydsp"

lemma setAll_number {f : Settings → ℤ} {key default : String}
    (h : ∀ (u : Arg) s, f (u.set s) = if keyOf u.name = key then atoi (u.value.getD "") else f s)
    (us : List Arg) {s : Settings} (hs : f s = atoi default) :
    f (setAll us s) = atoi (lastValue us key default) := by
  rw [setAll_field f [key] (fun u => atoi (u.value.getD "")) (by simpa using h), hs, lastValue]
  cases lastOf us [key] with
  | none => rfl
  | some u => rfl

theorem setAll_eq_argSettings (us : List Arg) : setAll us {} = argSettings us := by
  apply Settings.ext
  · rw [setAll_field Settings.gFloatSize ["-single", "-double", "-quad"]
      (fun u => precision (keyOf u.name))]
    · rw [argSettings, lastKey, Option.map_map]
      rfl
    · intro u s
      rw [Arg.set, set_gFloatSize, precision]
      by_cases hsingle : keyOf u.name = "-single"
      · simp [hsingle]
      · by_cases hdouble : keyOf u.name = "-double" <;> simp [hsingle, hdouble]
  · rw [setAll_field Settings.gVectorSwitch ["-vec", "-scal"] (fun u => keyOf u.name = "-vec")]
    · show _ = decide (lastKey us ["-vec", "-scal"] = some "-vec")
      rw [lastKey]
      cases lastOf us ["-vec", "-scal"] with
      | none => rfl
      | some u => simp
    · intro u s
      rw [Arg.set, set_gVectorSwitch]
      by_cases hvec : keyOf u.name = "-vec"
      · simp [hvec]
      · simp [hvec]
  · exact setAll_switch (fun _ _ => rfl) us rfl
  · exact setAll_switch (fun _ _ => rfl) us rfl
  · exact setAll_switch (fun _ _ => rfl) us rfl
  · exact setAll_number (fun _ _ => rfl) us (by decide)
  · exact setAll_number (fun _ _ => rfl) us (by decide)
  · exact setAll_number (fun _ _ => rfl) us (by decide)
  · exact setAll_switch (fun _ _ => rfl) us rfl
  · exact setAll_switch (fun _ _ => rfl) us rfl
  · exact setAll_switch (fun _ _ => rfl) us rfl
  · exact setAll_switch (fun _ _ => rfl) us rfl
  · exact setAll_number (fun _ _ => rfl) us (by decide)
  · exact setAll_field Settings.gClassName ["-cn"] (fun u => u.value.getD "") (by simp [Arg.set]) us _

/-! ## When the canonical list means the same -/

/-- `adjust`, on the settings. -/
lemma adjust_toSettings (g : Globals) : (adjust g).toSettings =
    { g.toSettings with
      gVectorSwitch := g.gOpenMPSwitch || g.gSchedulerSwitch || g.gVectorSwitch } := by
  unfold adjust
  split
  · rename_i h
    rw [h]
    rfl
  · rename_i h
    simp only [Bool.not_eq_true] at h
    rw [h]
    rfl

/-- What `process_cmdline` accepts. -/
lemma processCmdline_ok {env : Env} {argv : List String} {g g' : Globals}
    (h : processCmdline env argv g = .ok (true, g')) : ∃ g₁,
      processArgs env argv.tail g [] = .ok (g₁, []) ∧ g' = adjust g₁ ∧
        checkOptions g'.toSettings = none := by
  unfold processCmdline at h
  cases hrun : processArgs env argv.tail g [] with
  | error e =>
    rw [hrun] at h
    cases h
  | ok r =>
    obtain ⟨g₁, errors⟩ := r
    rw [hrun] at h
    change finish (adjust g₁) errors = _ at h
    unfold finish at h
    cases hcheck : checkOptions (adjust g₁).toSettings with
    | some error =>
      rw [hcheck] at h
      cases h
    | none =>
      rw [hcheck] at h
      cases errors with
      | nil =>
        cases h
        exact ⟨g₁, rfl, rfl, hcheck⟩
      | cons error errors => simp at h

/-- The value that the search finds. -/
def firstValue (l : List String) (key default : String) : String :=
  if key ∈ l then (nextTo key l).getD "" else default

/-- The search among the arguments `l` finds what the options `us` say. -/
structure Faithful (l : List String) (us : List Arg) : Prop where
  quad : lastKey us ["-single", "-double", "-quad"] ≠ some "-quad"
  double : lastKey us ["-single", "-double", "-quad"] = some "-double" ↔ "-double" ∈ l
  mode : gives us "-omp" = true ∨ gives us "-sch" = true ∨
    lastKey us ["-vec", "-scal"] = some "-vec" ↔ vectorized (given l) = true
  sch : gives us "-sch" = given l "-sch"
  omp : gives us "-omp" = given l "-omp"
  pl : gives us "-pl" = (given l "-omp" && given l "-pl")
  tasks : ∀ key ∈ ["-dfs", "-fun", "-g"], gives us key = (vectorized (given l) && given l key)
  inpl : gives us "-inpl" = (!vectorized (given l) && given l "-inpl")
  vs : atoi (lastValue us "-vs" "32") =
    if vectorized (given l) then atoi (firstValue l "-vs" "32") else 32
  lv : atoi (lastValue us "-lv" "0") =
    if vectorized (given l) then atoi (firstValue l "-lv" "0") else 0
  vls : atoi (lastValue us "-vls" "0") = 0
  mcd : atoi (lastValue us "-mcd" "16") = atoi (firstValue l "-mcd" "16")
  cn : lastValue us "-cn" "mydsp" = firstValue l "-cn" "mydsp"

/-- Searching finds a value for each option that needs one. -/
def Valued (l : List String) : Prop :=
  ∀ key ∈ ["-vs", "-lv", "-mcd", "-cn"], key ∈ l →
    ∃ value, isDashed value = false ∧ nextTo key l = some value

lemma Valued.firstValue_eq {l : List String} (h : Valued l) {key value : String}
    (hkey : key ∈ ["-vs", "-lv", "-mcd", "-cn"]) (hvalue : ValueOf l key value) (default : String) :
    firstValue l key default = if given l key then value else default := by
  unfold firstValue
  by_cases hl : key ∈ l
  · obtain ⟨value', hdash, hnext⟩ := h key hkey hl
    rw [if_pos hl, hnext, Option.getD_some, hvalue.2 value' hdash hnext, if_pos (by simp [hl])]
  · rw [if_neg hl, if_neg (by simp [hl])]

lemma mem_of_lastKey {us : List Arg} {keys : List String} {key : String}
    (h : lastKey us keys = some key) : key ∈ keys := by
  obtain ⟨u, hu, rfl⟩ := Option.map_eq_some_iff.mp h
  have hmem := List.mem_of_getLast? hu
  simpa using (List.mem_filter.mp hmem).2

/-- The precision is that of the search unless it is the quadruple one. -/
lemma precision_eq_iff (us : List Arg) (double : Bool) :
    (if double then 2 else 1) =
        ((lastKey us ["-single", "-double", "-quad"]).map precision).getD 1 ↔
      lastKey us ["-single", "-double", "-quad"] ≠ some "-quad" ∧
        (lastKey us ["-single", "-double", "-quad"] = some "-double" ↔ double = true) := by
  cases hlast : lastKey us ["-single", "-double", "-quad"] with
  | none => cases double <;> simp
  | some key =>
    have hkey := mem_of_lastKey hlast
    simp only [List.mem_cons, List.not_mem_nil, or_false] at hkey
    rcases hkey with rfl | rfl | rfl <;> cases double <;> simp [precision]

lemma atoi_firstValue {l : List String} (h : Valued l) {key value : String}
    (hkey : key ∈ ["-vs", "-lv", "-mcd", "-cn"]) (hvalue : ValueOf l key value)
    (default : String) (vec : Bool) :
    (if vec && given l key then atoi value else atoi default) =
      if vec then atoi (firstValue l key default) else atoi default := by
  rw [h.firstValue_eq hkey hvalue default]
  cases vec with
  | true => cases given l key <;> rfl
  | false => rfl

/-- The settings agree exactly when the search is faithful. -/
lemma settings_eq_iff {l : List String} {us : List Arg} {values : Values} (hvalued : Valued l)
    (hvalues : ValuesOf l values) :
    canonicalSettings (given l) values = { argSettings us with
      gVectorSwitch := gives us "-omp" || gives us "-sch" ||
        lastKey us ["-vec", "-scal"] = some "-vec" } ↔ Faithful l us := by
  have hvs : (if vectorized (given l) && given l "-vs" then atoi values.vs else 32) =
      if vectorized (given l) then atoi (firstValue l "-vs" "32") else 32 :=
    atoi_firstValue hvalued (by simp) hvalues.vs "32" _
  have hlv : (if vectorized (given l) && given l "-lv" then atoi values.lv else 0) =
      if vectorized (given l) then atoi (firstValue l "-lv" "0") else 0 :=
    atoi_firstValue hvalued (by simp) hvalues.lv "0" _
  have hmcd : (if given l "-mcd" then atoi values.mcd else 16) =
      atoi (firstValue l "-mcd" "16") :=
    atoi_firstValue hvalued (by simp) hvalues.mcd "16" true
  have hcn := hvalued.firstValue_eq (by simp) hvalues.cn "mydsp"
  rw [Settings.ext_iff]
  simp only [canonicalSettings, argSettings]
  rw [precision_eq_iff, hvs, hlv, hmcd, ← hcn]
  constructor
  · intro ⟨⟨hquad, hdouble⟩, hmode, hsch, homp, hpl, hvs, hlv, hvls, hdfs, hfun, hg, hinpl, hmcd,
      hcn⟩
    refine ⟨hquad, by simpa using hdouble, ?_, hsch.symm, homp.symm, hpl.symm, ?_, hinpl.symm,
      hvs.symm, hlv.symm, hvls.symm, hmcd.symm, hcn.symm⟩
    · rw [hmode]
      simp [or_assoc]
    · simp [← hdfs, ← hfun, ← hg]
  · intro h
    have htasks := h.tasks
    simp only [List.forall_mem_cons, List.not_mem_nil, false_implies, implies_true, and_true]
      at htasks
    refine ⟨⟨h.quad, by simpa using h.double⟩, ?_, h.sch.symm, h.omp.symm, h.pl.symm, h.vs.symm,
      h.lv.symm, h.vls.symm, htasks.1.symm, htasks.2.1.symm, htasks.2.2.symm, h.inpl.symm,
      h.mcd.symm, h.cn.symm⟩
    rw [Bool.eq_iff_iff, ← h.mode]
    simp [or_assoc]

/-- What `process_cmdline` makes of a canonical list. -/
lemma processCmdline_canonical (env : Env) (name : String) {g : String → Bool}
    (hvls : g "-vls" = false) (values : Values) : ∃ g', g'.toSettings = canonicalSettings g values ∧
      processCmdline env (name :: flatten (canonicalUnits g values)) {} =
        (checkOptions (canonicalSettings g values)).elim (.ok (true, g')) Except.error := by
  obtain ⟨g₁, hrun, hset⟩ := processArgs_flatten env (written_canonicalUnits hvls values) {} []
  have hcanonical : g₁.toSettings = canonicalSettings g values :=
    hset.trans (setAll_canonicalUnits hvls values)
  have hadjust : (adjust g₁).toSettings = canonicalSettings g values := by
    rw [adjust_toSettings, hcanonical]
    apply Settings.ext <;> try rfl
    show (g "-omp" || g "-sch" || vectorized g) = vectorized g
    unfold vectorized
    cases g "-omp" <;> cases g "-sch" <;> rfl
  refine ⟨adjust g₁, hadjust, ?_⟩
  unfold processCmdline
  rw [List.tail_cons, hrun]
  show finish (adjust g₁) [] = _
  rw [finish, hadjust]
  cases checkOptions (canonicalSettings g values) with
  | none => rfl
  | some error => rfl

/-- For every command line that is accepted, where `-vls` is not given and each of the options
`-vs`, `-lv`, `-mcd` and `-cn` is followed by a value that does not begin with a dash: the canonical
list is accepted, with the same settings, if and only if the search is faithful. -/
theorem reorganize_means_iff {env : Env} {name name' : String} {args : List String} {g : Globals}
    (haccepted : processCmdline env (name :: args) {} = .ok (true, g))
    (hvls : "-vls" ∉ name :: args) (hvalued : Valued (name :: args)) :
    (∃ g', processCmdline env (name' :: reorganizeCompilationOptionsAux (name :: args)) {} =
      .ok (true, g') ∧ g'.toSettings = g.toSettings) ↔ Faithful (name :: args) (units args) := by
  obtain ⟨g₁, hrun, rfl, hcheck⟩ := processCmdline_ok haccepted
  have hset : (adjust g₁).toSettings = { argSettings (units args) with
      gVectorSwitch := gives (units args) "-omp" || gives (units args) "-sch" ||
        lastKey (units args) ["-vec", "-scal"] = some "-vec" } := by
    have hargs : setAll (units args) ({} : Globals).toSettings = argSettings (units args) :=
      setAll_eq_argSettings (units args)
    rw [adjust_toSettings, (processArgs_toSettings hrun).2, List.tail_cons, hargs]
    rfl
  obtain ⟨values, hvalues, heq⟩ := reorganize_eq (name :: args)
  obtain ⟨g₂, hcanonical, hrun₂⟩ :=
    processCmdline_canonical env name' (g := given (name :: args)) (by simpa using hvls) values
  rw [heq, hrun₂, ← settings_eq_iff hvalued hvalues, ← hset]
  constructor
  · intro ⟨g', hok, hsame⟩
    cases hcheck₂ : checkOptions (canonicalSettings (given (name :: args)) values) with
    | some error =>
      rw [hcheck₂] at hok
      cases hok
    | none =>
      rw [hcheck₂] at hok
      cases hok
      rw [← hcanonical, hsame]
  · intro hsame
    refine ⟨g₂, ?_, hcanonical.trans hsame⟩
    rw [hsame, hcheck]
    rfl

/-- The size 2^32 + 32 is read as 32 by both readers. The long name of `-vec` is known to one of them
only: the canonical list of `faust --vectorize karplus.dsp` asks for scalar code. -/
theorem reorganize_means_iff_vec :
    (∃ g', processCmdline ⟨fun _ => .ok (), fun _ => none⟩ ("faust" ::
        reorganizeCompilationOptionsAux ["faust", "-vec", "-vs", "32", "-vs", "4294967328"])
        {} = .ok (true, g') ∧ g'.toSettings = { gVectorSwitch := true }) ∧
      ¬∃ g', processCmdline ⟨fun _ => .ok (), fun _ => none⟩ ("faust" ::
        reorganizeCompilationOptionsAux ["faust", "--vectorize", "karplus.dsp"])
        {} = .ok (true, g') ∧ g'.toSettings = { gVectorSwitch := true } := by
  constructor
  · refine (reorganize_means_iff (g := { gVectorSwitch := true }) ?_ (by decide) ?_).mpr ?_
    · rfl
    · simp [Valued, nextTo, isDashed]
    · constructor <;> decide +kernel
  · refine (reorganize_means_iff
      (g := { gVectorSwitch := true, gInputFiles := ["karplus.dsp"] }) ?_ (by decide) ?_).not.mpr ?_
    · rfl
    · simp [Valued]
    · exact fun h => absurd h.mode (by decide +kernel)

end Faust.CommandLine
