import EcmaLite.Peg
import EcmaLite.Syntax.Grammar
import EcmaLite.Syntax.Ast
import EcmaLite.Double.Basic
import EcmaLite.Double.Shortest
import EcmaLite.Number.Basic
import EcmaLite.Number.Read
import EcmaLite.Syntax.Escape
import EcmaLite.Syntax.Numeral
import EcmaLite.Syntax.Build
import EcmaLite.Syntax.Parse
import EcmaLite.Syntax.Hoist
import EcmaLite.Code.Instr
import EcmaLite.Fault
import EcmaLite.Code.Compile
import EcmaLite.Value
import EcmaLite.Heap.Object
import EcmaLite.Heap.Store
import EcmaLite.Coerce
import EcmaLite.Realm
import EcmaLite.Machine.Run
import EcmaLite.Host.View
import EcmaLite.Host.Session
import EcmaLite.Proofs.Keys
import EcmaLite.Proofs.ArrayLayout
import EcmaLite.Proofs.Store
import EcmaLite.Proofs.ProtoChain
import EcmaLite.Proofs.Sound
import EcmaLite.Proofs.Keeps
import EcmaLite.Proofs.MachineSound
import EcmaLite.Proofs.SessionSound
import EcmaLite.Proofs.StackPlan
import EcmaLite.Proofs.EmitRun
import EcmaLite.Proofs.EmitControl
import EcmaLite.Proofs.CompileFlaws
import EcmaLite.Proofs.CompileFaults
import EcmaLite.Proofs.Steady
import EcmaLite.Proofs.CallDepth
import EcmaLite.Proofs.EvalScope
import EcmaLite.Proofs.Stored
import EcmaLite.Proofs.Sealed
import EcmaLite.Proofs.MachineSealed
import EcmaLite.Proofs.SessionSealed
import EcmaLite.Proofs.CompilePlan
import EcmaLite.Proofs.PlanRun
import EcmaLite.Proofs.ScriptSlot
import EcmaLite.Proofs.NumberForm
import EcmaLite.Proofs.PegReads
import EcmaLite.Proofs.ScriptGives
import EcmaLite.Proofs.BuildTotal
import EcmaLite.Proofs.PegRuns
import EcmaLite.Proofs.ScriptRuns
import EcmaLite.Proofs.ChainLookup
import EcmaLite.Proofs.ShortestWhole
import EcmaLite.Proofs.LiteralKeys
import EcmaLite.Proofs.LooseEquality
import EcmaLite.Proofs.NumericText
import EcmaLite.Proofs.PegYields
import EcmaLite.Proofs.PegFuel
import EcmaLite.Proofs.ScriptFuel
import EcmaLite.Proofs.ScriptWords
import EcmaLite.Proofs.IdentifierNames
import EcmaLite.Proofs.DoubleParts
import EcmaLite.Proofs.CorrectRounding
import EcmaLite.Proofs.ShortestReadsBack
import EcmaLite.Proofs.NumberTextRoundTrip
import EcmaLite.Proofs.HoistedPositions
import EcmaLite.Proofs.EscapeDecoding
import EcmaLite.Proofs.ScopeOrder
import EcmaLite.Proofs.MachineScopes
import EcmaLite.Proofs.ScopeWalks
import EcmaLite.Proofs.SpanLayout
import EcmaLite.Proofs.BuildSpans
import EcmaLite.Proofs.PartOrder
import EcmaLite.Proofs.SpanNesting
import EcmaLite.Proofs.TextNesting
import EcmaLite.Proofs.MachineFuel
import EcmaLite.Proofs.Evaluator
import EcmaLite.Proofs.StretchRuns
import EcmaLite.Proofs.CodeRuns
import EcmaLite.Proofs.CodeLayout
import EcmaLite.Proofs.CompileRuns
import EcmaLite.Proofs.CompiledScripts
