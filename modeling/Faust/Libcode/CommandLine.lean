import Faust.Evaluate.EvalLabel
import Mathlib.Data.List.Basic
import Mathlib.Data.String.Basic
import Mathlib.Data.Int.Notation
import Mathlib.Tactic.Simps.Basic

/-!
# The command line (`libcode.cpp`)

`process_cmdline` reads the arguments from left to right and sets the global variables. An option
has a short name and mostly a long one, and may be followed by its value.

`check_url` and `realpath` are parameters.
-/

namespace Faust

/-- The settings that decide the generated code. -/
@[ext]
structure Settings where
  gFloatSize : ℤ := 1
  gVectorSwitch : Bool := false
  gSchedulerSwitch : Bool := false
  gOpenMPSwitch : Bool := false
  gOpenMPLoop : Bool := false
  gVecSize : ℤ := 32
  gVectorLoopVariant : ℤ := 0
  gVecLoopSize : ℤ := 0
  gDeepFirstSwitch : Bool := false
  gFunTaskSwitch : Bool := false
  gGroupTaskSwitch : Bool := false
  gInPlace : Bool := false
  gMaxCopyDelay : ℤ := 16
  gClassName : String := "mydsp"
deriving DecidableEq, Repr

/-- The global variables that the command line sets. -/
structure Globals extends Settings where
  gHelpSwitch : Bool := false
  gOutputLang : String := ""
  gVersionSwitch : Bool := false
  gDetailsSwitch : Bool := false
  gArchFile : Option String := none
  gOutputFile : String := ""
  gDrawPSSwitch : Bool := false
  gPrintXMLSwitch : Bool := false
  gPrintJSONSwitch : Bool := false
  gGraphSwitch : Bool := false
  gDrawSignals : Bool := false
  gShadowBlur : Bool := false
  gDrawSVGSwitch : Bool := false
  gFoldThreshold : ℤ := 25
  gMaxNameSize : ℤ := 40
  gSimpleNames : Bool := false
  gBalancedSwitch : ℤ := 0
  gLessTempSwitch : Bool := false
  gSimplifyDiagrams : Bool := false
  gLibraryList : List String := []
  gOpenCLSwitch : Bool := false
  gCUDASwitch : Bool := false
  gUIMacroSwitch : Bool := false
  gTimeout : ℤ := 2147483647
  gTimingSwitch : Bool := false
  gPrintDocSwitch : Bool := false
  gDocLang : String := ""
  gStripDocSwitch : Bool := false
  gPrintFileListSwitch : Bool := false
  gDumpNorm : Bool := false
  gInlineArchSwitch : Bool := false
  gExportDSP : Bool := false
  gImportDirList : List String := []
  gOutputDir : String := ""
  gInputFiles : List String := []
  gErrorMsg : String := ""
deriving DecidableEq, Repr

namespace CommandLine

/-! ## Strings -/

/-- `isspace`. -/
def isSpace (c : Char) : Bool := c ∈ [' ', '\t', '\n', '\x0b', '\x0c', '\x0d']

/-- The digits that a text begins with. -/
def digits (cs : List Char) : List Char := cs.takeWhile isDigitChar

/-- `atoi`: `strtol`, which stops at `LONG_MIN` and `LONG_MAX`, converted to `int`. -/
def atoi (s : String) : ℤ :=
  match s.toList.dropWhile isSpace with
  | '-' :: cs => wrap32 (max (-digitsValue (digits cs)) (-2 ^ 63))
  | '+' :: cs => Faust.atoi (digits cs)
  | cs => Faust.atoi (digits cs)

/-- `s[0] == '-'`. -/
def isDashed (s : String) : Bool := s.toList.head? = some '-'

/-! ## Options -/

/-- What an option does. -/
inductive Effect
  /-- It has no value. -/
  | flag (set : Globals → Globals)
  /-- It is followed by its value: `(i+1 < argc)` is part of the test. -/
  | value (set : String → Globals → Globals)
  /-- It is followed by a path, which is resolved by `realpath`. -/
  | path (set : String → Globals → Globals)

/-- A case of `process_cmdline`. -/
structure CmdOption where
  short : String
  long : Option String
  effect : Effect

/-- `isCmd`, with the test that there is a value. -/
def CmdOption.isCmd (o : CmdOption) (arg : String) (more : Bool) : Bool :=
  (arg = o.short || some arg = o.long) &&
    match o.effect with
    | .value _ => more
    | _ => true

/-- The cases of `process_cmdline`, in the order of the tests. -/
def cmdOptions : List CmdOption := [
  ⟨"-h", some "--help", .flag fun g => { g with gHelpSwitch := true }⟩,
  ⟨"-lang", some "--language", .value fun v g => { g with gOutputLang := v }⟩,
  ⟨"-v", some "--version", .flag fun g => { g with gVersionSwitch := true }⟩,
  ⟨"-d", some "--details", .flag fun g => { g with gDetailsSwitch := true }⟩,
  ⟨"-a", some "--architecture", .value fun v g => { g with gArchFile := some v }⟩,
  ⟨"-o", none, .value fun v g => { g with gOutputFile := v }⟩,
  ⟨"-ps", some "--postscript", .flag fun g => { g with gDrawPSSwitch := true }⟩,
  ⟨"-xml", some "--xml", .flag fun g => { g with gPrintXMLSwitch := true }⟩,
  ⟨"-json", some "--json", .flag fun g => { g with gPrintJSONSwitch := true }⟩,
  ⟨"-tg", some "--task-graph", .flag fun g => { g with gGraphSwitch := true }⟩,
  ⟨"-sg", some "--signal-graph", .flag fun g => { g with gDrawSignals := true }⟩,
  ⟨"-blur", some "--shadow-blur", .flag fun g => { g with gShadowBlur := true }⟩,
  ⟨"-svg", some "--svg", .flag fun g => { g with gDrawSVGSwitch := true }⟩,
  ⟨"-f", some "--fold", .value fun v g => { g with gFoldThreshold := atoi v }⟩,
  ⟨"-mns", some "--max-name-size", .value fun v g => { g with gMaxNameSize := atoi v }⟩,
  ⟨"-sn", some "--simple-names", .flag fun g => { g with gSimpleNames := true }⟩,
  ⟨"-lb", some "--left-balanced", .flag fun g => { g with gBalancedSwitch := 0 }⟩,
  ⟨"-mb", some "--mid-balanced", .flag fun g => { g with gBalancedSwitch := 1 }⟩,
  ⟨"-rb", some "--right-balanced", .flag fun g => { g with gBalancedSwitch := 2 }⟩,
  ⟨"-lt", some "--less-temporaries", .flag fun g => { g with gLessTempSwitch := true }⟩,
  ⟨"-mcd", some "--max-copy-delay", .value fun v g => { g with gMaxCopyDelay := atoi v }⟩,
  ⟨"-sd", some "--simplify-diagrams", .flag fun g => { g with gSimplifyDiagrams := true }⟩,
  ⟨"-vec", some "--vectorize", .flag fun g => { g with gVectorSwitch := true }⟩,
  ⟨"-vls", some "--vec-loop-size", .value fun v g => { g with gVecLoopSize := atoi v }⟩,
  ⟨"-scal", some "--scalar", .flag fun g => { g with gVectorSwitch := false }⟩,
  ⟨"-dfs", some "--deepFirstScheduling", .flag fun g => { g with gDeepFirstSwitch := true }⟩,
  ⟨"-vs", some "--vec-size", .value fun v g => { g with gVecSize := atoi v }⟩,
  ⟨"-lv", some "--loop-variant", .value fun v g => { g with gVectorLoopVariant := atoi v }⟩,
  ⟨"-omp", some "--openMP", .flag fun g => { g with gOpenMPSwitch := true }⟩,
  ⟨"-pl", some "--par-loop", .flag fun g => { g with gOpenMPLoop := true }⟩,
  ⟨"-sch", some "--scheduler", .flag fun g =>
    { g with gSchedulerSwitch := true, gLibraryList := g.gLibraryList ++ ["scheduler.ll"] }⟩,
  ⟨"-ocl", some "--openCL", .flag fun g => { g with gOpenCLSwitch := true }⟩,
  ⟨"-cuda", some "--CUDA", .flag fun g => { g with gCUDASwitch := true }⟩,
  ⟨"-g", some "--groupTasks", .flag fun g => { g with gGroupTaskSwitch := true }⟩,
  ⟨"-fun", some "--funTasks", .flag fun g => { g with gFunTaskSwitch := true }⟩,
  ⟨"-uim", some "--user-interface-macros", .flag fun g => { g with gUIMacroSwitch := true }⟩,
  ⟨"-t", some "--timeout", .value fun v g => { g with gTimeout := atoi v }⟩,
  ⟨"-time", some "--compilation-time", .flag fun g => { g with gTimingSwitch := true }⟩,
  ⟨"-single", some "--single-precision-floats", .flag fun g => { g with gFloatSize := 1 }⟩,
  ⟨"-double", some "--double-precision-floats", .flag fun g => { g with gFloatSize := 2 }⟩,
  ⟨"-quad", some "--quad-precision-floats", .flag fun g => { g with gFloatSize := 3 }⟩,
  ⟨"-mdoc", some "--mathdoc", .flag fun g => { g with gPrintDocSwitch := true }⟩,
  ⟨"-mdlang", some "--mathdoc-lang", .value fun v g => { g with gDocLang := v }⟩,
  ⟨"-stripmdoc", some "--strip-mdoc-tags", .flag fun g => { g with gStripDocSwitch := true }⟩,
  ⟨"-flist", some "--file-list", .flag fun g => { g with gPrintFileListSwitch := true }⟩,
  ⟨"-norm", some "--normalized-form", .flag fun g => { g with gDumpNorm := true }⟩,
  ⟨"-cn", some "--class-name", .value fun v g => { g with gClassName := v }⟩,
  ⟨"-i", some "--inline-architecture-files", .flag fun g => { g with gInlineArchSwitch := true }⟩,
  ⟨"-e", some "--export-dsp", .flag fun g => { g with gExportDSP := true }⟩,
  ⟨"-I", some "--import-dir", .path fun p g =>
    { g with gImportDirList := g.gImportDirList ++ [p] }⟩,
  ⟨"-l", some "--library", .value fun v g =>
    { g with gLibraryList := g.gLibraryList ++ [v] }⟩,
  ⟨"-O", some "--output-dir", .path fun p g => { g with gOutputDir := p }⟩,
  ⟨"-inpl", some "--in-place", .flag fun g => { g with gInPlace := true }⟩]

/-- The case for an argument. -/
def findOption (arg : String) (more : Bool) : Option CmdOption :=
  cmdOptions.find? fun o => o.isCmd arg more

/-- The functions that look at the file system. `check_url` returns true or throws. -/
structure Env where
  check_url : String → Except String Unit
  realpath : String → Option String

variable (env : Env)

/-- The `while` loop: the global variables, and the arguments that are no option. -/
def processArgs : List String → Globals → List String → Except String (Globals × List String)
  | [], g, errors => .ok (g, errors)
  | arg :: rest, g, errors =>
    match findOption arg !rest.isEmpty with
    | some o =>
      match o.effect, rest with
      | .flag set, rest => processArgs rest (set g) errors
      | .value set, v :: rest => processArgs rest (set v g) errors
      | .path set, v :: rest =>
        processArgs rest ((env.realpath v).elim g fun p => set p g) errors
      | _, [] => .ok (g, errors)
    | none =>
      if isDashed arg then processArgs rest g (errors ++ [arg])
      else do
        env.check_url arg
        processArgs rest { g with gInputFiles := g.gInputFiles ++ [arg] } errors

/-- "Adjust related options". -/
def adjust (g : Globals) : Globals :=
  if g.gOpenMPSwitch || g.gSchedulerSwitch then { g with gVectorSwitch := true } else g

/-- "Check options": the text of the exception. -/
def checkOptions (s : Settings) : Option String :=
  if s.gInPlace && s.gVectorSwitch then
    some "ERROR : 'in-place' option can only be used in scalar mode\n"
  else if s.gVectorLoopVariant < 0 ∨ s.gVectorLoopVariant > 1 then
    some ("ERROR : invalid loop variant [-lv = " ++ toString s.gVectorLoopVariant ++
      "] should be 0 or 1\n")
  else if s.gVecSize < 4 then
    some ("ERROR : invalid vector size [-vs = " ++ toString s.gVecSize ++
      "] should be at least 4\n")
  else if s.gVecLoopSize > s.gVecSize then
    some ("ERROR : invalid vector loop size [-vls = " ++ toString s.gVecLoopSize ++
      "] has to be <= [-vs = " ++ toString s.gVecSize ++ "]\n")
  else none

/-- The text about the arguments that are no option. -/
def parseError : List String → String
  | [] => ""
  | arg :: args =>
    "unrecognized option(s) : \"" ++ arg ++ "\"" ++
      String.join (args.map fun arg => ",\"" ++ arg ++ "\"")

/-- The end of `process_cmdline`: whether all arguments are recognized, with the global variables,
or the text of an exception. -/
def finish (g : Globals) (errors : List String) : Except String (Bool × Globals) :=
  match checkOptions g.toSettings with
  | some error => .error error
  | none =>
    if errors.isEmpty then .ok (true, g)
    else .ok (false, { g with gErrorMsg := "WARNING : " ++ parseError errors ++ "\n" })

/-- `process_cmdline`, on the arguments with the name of the program first. -/
def processCmdline (argv : List String) (g : Globals) : Except String (Bool × Globals) := do
  let (g, errors) ← processArgs env argv.tail g []
  finish (adjust g) errors

end CommandLine

end Faust
