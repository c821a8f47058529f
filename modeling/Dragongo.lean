import Dragongo.Library.LowerBound
import Dragongo.Library.LittleEndian
import Dragongo.Library.ULEB128
import Dragongo.Library.Run
import Dragongo.Linemap
import Dragongo.LinemapRoundTrip
import Dragongo.LLVMType
import Dragongo.Btype
import Dragongo.EightByte
import Dragongo.EightByteStruct
import Dragongo.ABIStructLayout
import Dragongo.EightByteArray
import Dragongo.CABIOracle
import Dragongo.Library.AMD64
import Dragongo.RegisterRule
import Dragongo.ABICompletes
import Dragongo.TypeManager
import Dragongo.Placeholders
import Dragongo.PlaceholderOrder
import Dragongo.PlaceholderRuns
import Dragongo.Bexpression
import Dragongo.Evaluation
import Dragongo.Conversion
import Dragongo.PendingConversion
import Dragongo.Comparison
import Dragongo.SharedResolution
import Dragongo.ExpressionCode
import Dragongo.Conditional
import Dragongo.CallLowering
import Dragongo.SignatureSlots
import Dragongo.Marshalling
import Dragongo.TypeSteps
import Dragongo.TypeCalls
import Dragongo.TypeResolution
import Dragongo.TypeCommoning
import Dragongo.CircularPointers
import Dragongo.TypeCascade
import Dragongo.TypeSize
import Dragongo.DebugType
import Dragongo.ClonedTypes
import Dragongo.Bnode
import Dragongo.IntegrityTable
import Dragongo.Library.Acyclic
import Dragongo.Library.Remembering
import Dragongo.SharingCheck
import Dragongo.CloneSubtree
import Dragongo.GenBlocks
import Dragongo.BlockEvents
import Dragongo.DebugVars
import Dragongo.DebugWalks
import Dragongo.IntegerConstant
import Dragongo.ClonedNodes
import Dragongo.SharingRepair
import Dragongo.RepairOutcome
import Dragongo.DebugLayout
import Dragongo.Library.Memory
import Dragongo.Machine
import Dragongo.Storing
import Dragongo.Assignment
import Dragongo.CompositeInit
import Dragongo.ResolvedNodes
import Dragongo.CheckedAssignment
import Dragongo.CheckedConditional
import Dragongo.Library.Scatter
import Dragongo.Library.StringLiteral
import Dragongo.ExportData
import Dragongo.NameGen
import Dragongo.SwitchStmt
import Dragongo.Library.Slots
import Dragongo.ExprArchive
import Dragongo.TypeHash
import Dragongo.LexicalScopes
import Dragongo.ScopedDeclarations
import Dragongo.Constructors
import Dragongo.SelfAssignment
import Dragongo.ReferenceChains
import Dragongo.ReturnedTypes
import Dragongo.FunctionEntry
import Dragongo.StatementMeaning
import Dragongo.WalkFrames
import Dragongo.ControlFlow
import Dragongo.CaseLowering
import Dragongo.ExceptionLowering
import Dragongo.FunctionLowering
import Dragongo.ReturnSequence
import Dragongo.DebugMetadata
import Dragongo.InstructionPlaces
import Dragongo.Arithmetic
import Dragongo.ExpressionTrees
import Dragongo.CompositeNodes
