import Shady.Library.TwosComplement
import Shady.Ir.IntLiteral
import Shady.Ir.PrimOp
import Shady.Fold
import Shady.FoldNode
import Shady.FoldExact
import Shady.Library.Dominance
import Shady.Ir.ControlFlow
import Shady.Analysis.Cfg
import Shady.Library.Fallible
import Shady.Analysis.CfgWellFormed
import Shady.Analysis.Rpo
import Shady.Analysis.Domtree
import Shady.Analysis.DomtreeExact
import Shady.Analysis.FlipCfg
import Shady.Analysis.Looptree
import Shady.Library.Tarjan
import Shady.Analysis.LooptreeWalk
import Shady.Analysis.LooptreeExact
import Shady.Library.Transition
import Shady.Internal.Scheduler
import Shady.Internal.Divergence
import Shady.Internal.Reconvergence
import Shady.Internal.Dispatch
import Shady.Internal.FindLeaf
import Shady.Analysis.Callgraph
import Shady.Passes.MarkLeafFunctions
import Shady.Passes.MarkLeafExact
import Shady.Library.Packing
import Shady.Ir.DataType
import Shady.Ir.IrTypes
import Shady.Ir.MemoryLayout
import Shady.Ir.LayoutLaw
import Shady.Library.WordArray
import Shady.Passes.LowerPhysicalPtrs
import Shady.Passes.PhysicalPtrsSlots
import Shady.Passes.PhysicalPtrsWords
import Shady.Passes.PhysicalPtrsExact
import Shady.Passes.LowerLea
import Shady.Passes.LowerLeaExact
import Shady.Passes.SubgroupVars
import Shady.Passes.SubgroupVarsExact
import Shady.Passes.LoopExits
import Shady.Passes.LowerCfInstrs
import Shady.Library.UniqueTable
import Shady.Ir.Arena
import Shady.Ir.Interning
import Shady.Passes.StackFrames
import Shady.Passes.StackFrameSlots
import Shady.Passes.StackFrameSteps
import Shady.Passes.StackFramesExact
import Shady.Library.Imperative
import Shady.Backend.Structured
import Shady.Backend.EmitC
import Shady.Backend.EmitCTerms
import Shady.Backend.EmitCValues
import Shady.Backend.EmitCChains
import Shady.Backend.EmitCTransfers
import Shady.Backend.EmitCConstructs
import Shady.Backend.EmitCBodies
import Shady.Backend.EmitCLeaves
import Shady.Backend.EmitCNested
import Shady.Backend.EmitCSelections
import Shady.Backend.EmitCLoops
import Shady.Backend.EmitCExact
import Shady.Backend.Scopes
import Shady.Backend.EmitCScopes
import Shady.Backend.EmitCEmitted
import Shady.Backend.EmitCRuns
import Shady.Analysis.Lexical
import Shady.Analysis.LexicalSearch
import Shady.Analysis.LexicalCfg
import Shady.Analysis.LexicalExact
import Shady.Analysis.DomtreeTotal
import Shady.Library.Search
import Shady.Ir.Nodes
import Shady.Analysis.Scheduling
import Shady.Common.Dict
import Shady.Common.DictWalks
import Shady.Common.DictExact
import Shady.Common.DictGrowth
import Shady.Common.DictRuns
import Shady.Common.DictCounters
import Shady.Ir.Strings
import Shady.FoldPtr
import Shady.FoldPtrPlaces
import Shady.FoldPtrExact
import Shady.Passes.DemoteAlloca
import Shady.Passes.DemoteAllocaRuns
import Shady.Passes.DemoteAllocaUses
import Shady.Passes.DemoteAllocaEscapes
import Shady.Passes.DemoteAllocaExact
import Shady.Passes.GenericPtrs
import Shady.Passes.GenericPtrsExact
import Shady.Backend.SpirvLiterals
import Shady.Backend.SpirvNames
import Shady.Passes.LowerMemcpy
import Shady.Passes.LowerMemcpyExact
import Shady.Analysis.CallgraphSearch
import Shady.Analysis.CallgraphTarjan
import Shady.Analysis.CallgraphExact
import Shady.Analysis.SchedulingExact
import Shady.Analysis.CfgTargets
import Shady.Analysis.FreeFrontier
import Shady.Analysis.FreeFrontierExact
import Shady.Analysis.FreeFrontierEnds
import Shady.Analysis.ScopeCfg
import Shady.Analysis.VerifyScoping
import Shady.Library.WordStream
import Shady.Library.Escapes
import Shady.Common.EscapeCodes
import Shady.Common.Printing
import Shady.Frontend.Token
import Shady.Library.CLiteral
import Shady.Frontend.StringLiterals
import Shady.Frontend.NumericLiterals
import Shady.Library.Scan
import Shady.Passes.InclusiveScan
import Shady.Library.CountedLoop
import Shady.Passes.LowerWorkgroups
import Shady.Passes.LowerWorkgroupsExact
import Shady.Passes.SubgroupOps
import Shady.Passes.SubgroupOpsExact
import Shady.Passes.NormalizeBuiltins
import Shady.Passes.NormalizeBuiltinsExact
import Shady.Passes.LowerInt64
import Shady.Passes.LowerInt64Exact
import Shady.Frontend.Bind
import Shady.Frontend.LexicalScoping
import Shady.Frontend.BindRuns
import Shady.Frontend.BindSucceeds
import Shady.Frontend.BindExact
import Shady.Frontend.SpirvFunctions
import Shady.Frontend.SpirvMeaning
import Shady.Frontend.SpirvBodies
import Shady.Frontend.SpirvFunctionsExact
import Shady.Frontend.SpirvFunctionsExact
import Shady.Library.Buffer
import Shady.Common.List
import Shady.Common.ListExact
import Shady.Common.ArenaExact
import Shady.Ir.SubtypesExact
import Shady.Analysis.UsesExact
import Shady.Passes.CriticalEdgesExact
import Shady.Backend.IdentifiersExact
import Shady.Frontend.TokenExact
import Shady.Analysis.Leak
import Shady.Library.Fuelled
import Shady.Frontend.SlimGrammar
import Shady.Frontend.SlimParser
import Shady.Frontend.SlimTypesRead
import Shady.Frontend.SlimParserReads
import Shady.Frontend.SlimTypesSound
import Shady.Frontend.SlimParserSound
import Shady.Frontend.SlimParserExact
