import LlvmDsdl.Frontend.DepfileCompleteness
import LlvmDsdl.Frontend.RoundTrip
import LlvmDsdl.Frontend.ExpressionHeight
import LlvmDsdl.Frontend.LiteralReading
import LlvmDsdl.Frontend.LosslessLexing
import LlvmDsdl.Frontend.ScopedNames
import LlvmDsdl.LSP.AdaptiveSignalTable
import LlvmDsdl.LSP.AiAuditRedaction
import LlvmDsdl.LSP.Incremental
import LlvmDsdl.LSP.ClientMirror
import LlvmDsdl.LSP.IndexConsistency
import LlvmDsdl.LSP.DocumentSync
import LlvmDsdl.LSP.FileUri
import LlvmDsdl.LSP.JsonRpcFraming
import LlvmDsdl.LSP.SchedulerSafety
import LlvmDsdl.LSP.ShardFiles
import LlvmDsdl.Runtime.AcceleratorAgreement
import LlvmDsdl.Runtime.PoolReservation
import LlvmDsdl.Semantics.BitLengthSet.Compare
import LlvmDsdl.Semantics.BitLengthSet.KFoldSums
import LlvmDsdl.Semantics.OffsetRefinement
import LlvmDsdl.Semantics.MinorVersions
import LlvmDsdl.Semantics.OrderIndependence
import LlvmDsdl.Semantics.ExtentChecks
import LlvmDsdl.Semantics.RunSet.Exactness
import LlvmDsdl.Semantics.RationalArithmetic
import LlvmDsdl.Semantics.RationalSets
import LlvmDsdl.CodeGen.ConstantLiteralExactness
import LlvmDsdl.CodeGen.DynamicScalar
import LlvmDsdl.CodeGen.InitializerRender
import LlvmDsdl.CodeGen.PruningSafety
import LlvmDsdl.Support.ImportNames
import LlvmDsdl.Support.PlanSymbol
import LlvmDsdl.Transforms.AlignedAgreement
import LlvmDsdl.Transforms.DeserializeLocality
import LlvmDsdl.Transforms.RuntimeAgreement
import LlvmDsdl.Transforms.SizeArithmetic
import LlvmDsdl.LSP.SemanticTokenSpans
import LlvmDsdl.Library.Worklist
