import Faust.Tlib.DeBruijn2SymTheorems
import Faust.Signals.EnclosureTheorems
import Faust.Propagate.DiagramTheorems
import Faust.Parallelize.SortGraphTheorems
import Faust.Lib.TaskDag
import Faust.Scheduler.Ownership
import Faust.Scheduler.Activation
import Faust.Scheduler.TaskQueueTheorems
import Faust.Generator.DelayRuns
import Faust.Signals.TableTypeTheorems
import Faust.Generator.ScriptBackEnds
import Faust.Generator.ConstantFolding
import Faust.Generator.OpenMPTheorems
import Faust.Generator.OccurencesTheorems
import Faust.Generator.SignalContainers
import Faust.Generator.VecDelays
import Faust.Signals.RecursivnessTheorems
import Faust.Parallelize.GroupLoopsTheorems
import Faust.Parallelize.LoopConstructionTheorems
import Faust.Generator.FactoryTableTheorems
import Faust.Lib.OrderedMap
import Faust.Signals.SigOrder
import Faust.Normalize.Mterm
import Faust.Normalize.Aterm
import Faust.Normalize.MtermTheorems
import Faust.Normalize.AtermTheorems
import Faust.Normalize.FactorizeTheorems
import Faust.Normalize.Simplify
import Faust.Normalize.SimplifyTheorems
import Faust.Propagate.LabelTheorems
import Faust.Parser.SourceReader
import Faust.Parser.SourceReaderTheorems
import Faust.Evaluate.EvalLabel
import Faust.Evaluate.EvalLabelTheorems
import Faust.Generator.Metadata
import Faust.Generator.MetadataTheorems
import Faust.Lib.Runs
import Faust.Generator.UiTree
import Faust.Generator.UiTreeTheorems
import Faust.Evaluate.Environment
import Faust.Evaluate.EnvironmentTheorems
import Faust.Normalize.Privatise
import Faust.Normalize.PrivatiseTheorems
import Faust.Evaluate.BoxSimplification
import Faust.Evaluate.BoxSimplificationTheorems
import Faust.Evaluate.Evaluator
import Faust.Evaluate.Eval
import Faust.Evaluate.LabelLoop
import Faust.Evaluate.Values
import Faust.Evaluate.EvalTheorems
import Faust.Tlib.ApertureTheorems
import Faust.Generator.ArrayDeclarations
import Faust.Evaluate.LoopDetector
import Faust.Lib.InternTable
import Faust.Tlib.HashConsing
import Faust.Generator.FunctionBuilder
import Faust.Generator.FunctionBuilderTheorems
import Faust.Gui.SimpleParser
import Faust.Gui.SimpleParserTheorems
import Faust.Gui.OscPatterns
import Faust.Gui.OscDispatch
import Faust.Gui.OscDispatchTheorems
import Faust.Vst.Voices
import Faust.Vst.VoicesTheorems
import Faust.Vst.Rendering
import Faust.Vst.RenderingTheorems
import Faust.Lib.Json
import Faust.Gui.JSONUI
import Faust.Gui.JSONUITheorems
import Faust.Generator.LiteralCode
import Faust.Generator.PowerFunction
import Faust.Generator.PowerFunctionTheorems
import Faust.Lib.OrderedSet
import Faust.Tlib.Numbering
import Faust.Tlib.TreeSets
import Faust.Lib.Memo
import Faust.Tlib.TreeMaps
import Faust.Tlib.Symbols
import Faust.Tlib.SymbolsTheorems
import Faust.Tlib.SymbolTableRefinement
import Faust.Lib.Traces
import Faust.Generator.MoveVariables
import Faust.Generator.MoveVariablesTheorems
import Faust.Generator.FirBlocks
import Faust.Libcode.CommandLineTheorems
import Faust.Evaluate.PatternBinding
