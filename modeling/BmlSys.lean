import BmlSys.Lib.Except
import BmlSys.Lib.Limbs
import BmlSys.Lib.Lists
import BmlSys.Lib.Binary64
import BmlSys.Lib.Binary64Ops
import BmlSys.Number.Words
import BmlSys.Number.WordsSpec
import BmlSys.Number.Exact
import BmlSys.Number.ExactSpec
import BmlSys.Number.Decimal
import BmlSys.Lib.PrefixCode
import BmlSys.Number.Encoding
import BmlSys.Number.EncodingSpec
import BmlSys.Lib.BytePack
import BmlSys.Number.Stream
import BmlSys.Number.StreamSpec
import BmlSys.Number.Operations
import BmlSys.Number.RealSemantics
import BmlSys.Number.Certified
import BmlSys.Number.CertifiedSpec
import BmlSys.Number.Checked
import BmlSys.Number.Recognize
import BmlSys.Number.RecognizeSpec
import BmlSys.Number.Completeness
import BmlSys.Number.Totality
import BmlSys.Number.Synthesis
import BmlSys.Number.Recognition
import BmlSys.Number.Matrix
import BmlSys.Number.MatrixSpec
import BmlSys.Number.Rounded
import BmlSys.Number.RoundedSpec
import BmlSys.Number.RoundTrip
import BmlSys.Lib.Selection
import BmlSys.Number.Search
import BmlSys.Number.SearchSpec
import BmlSys.Number.SearchBudgets
import BmlSys.Transformer.Graph
import BmlSys.Transformer.Values
import BmlSys.Transformer.Exact
import BmlSys.Transformer.Bounded
import BmlSys.Transformer.Ranges
import BmlSys.Transformer.BoundedSpec
import BmlSys.Transformer.BoundedRms
import BmlSys.Symbolic.Causal
import BmlSys.Symbolic.Session
import BmlSys.Symbolic.Transport
import BmlSys.Symbolic.CausalSpec
import BmlSys.Symbolic.TransportSpec
import BmlSys.Symbolic.Pipeline
import BmlSys.Symbolic.PipelineSpec
import BmlSys.Symbolic.CacheSpec
import BmlSys.Symbolic.Layout
import BmlSys.Symbolic.Distributed
import BmlSys.Inference.Model
import BmlSys.Inference.SessionSpec
import BmlSys.Inference.Remote
import BmlSys.Inference.RemoteSpec
import BmlSys.Inference.RemoteEq
import BmlSys.Lib.CountedLoops
import BmlSys.Rpn.Floats
import BmlSys.Rpn.Program
import BmlSys.Compiler.Fragment
import BmlSys.Runtime.Graph
import BmlSys.Rpn.StackUse
import BmlSys.Runtime.GraphSpec
import BmlSys.Compiler.Reference
import BmlSys.Compiler.ReferenceSpec
import BmlSys.Compiler.SplitSpec
import BmlSys.Compiler.Dag
import BmlSys.Compiler.Linearize
import BmlSys.Compiler.LinearizeSpec
import BmlSys.Compiler.Lowering
import BmlSys.Compiler.Stage
import BmlSys.Compiler.StageSpec
import BmlSys.Compiler.StackRun
import BmlSys.Compiler.StageProgram
import BmlSys.Compiler.CompactSpec
import BmlSys.Compiler.AppendSpec
import BmlSys.Compiler.HashCons
import BmlSys.Compiler.HashConsSpec
import BmlSys.Compiler.Sharing
import BmlSys.Runtime.AppendOnly
import BmlSys.Runtime.AppendOnlySpec
import BmlSys.Lib.Interleave
import BmlSys.Lib.Layers
import BmlSys.Runtime.Scheduler
import BmlSys.Runtime.SchedulerSpec
import BmlSys.Compiler.Opcode
import BmlSys.Runtime.Shm
import BmlSys.Compiler.GraphCodec
import BmlSys.Compiler.GraphCodecSpec
import BmlSys.Runtime.GraphRpc
import BmlSys.Runtime.GraphRpcSpec
import BmlSys.Compiler.VectorFragment
import BmlSys.Compiler.VectorFragmentSpec
import BmlSys.Compiler.DistributedCodecSpec
import BmlSys.Gguf.Reader
import BmlSys.Gguf.ReaderSpec
import BmlSys.Weights.GgufPreflight
import BmlSys.Weights.PreflightSpec
import BmlSys.Inference.Tokenizer
import BmlSys.Inference.TokenizerSpec
import BmlSys.Lib.PairMerge
import BmlSys.Inference.MergeSpec
import BmlSys.Inference.EncodeSpec
import BmlSys.Inference.DecodeSpec
import BmlSys.Gguf.Codecs
import BmlSys.Inference.Tensors
import BmlSys.Gguf.CodecsSpec
import BmlSys.Inference.TensorsSpec
import BmlSys.Transformer.Bits
import BmlSys.Compiler.MachineRuns
import BmlSys.Runtime.Requests
import BmlSys.Runtime.RequestsSpec
import BmlSys.Compiler.BmlOps
import BmlSys.Compiler.MatmulSpec
import BmlSys.Compiler.GraphDirectory
import BmlSys.Compiler.GraphDirectorySpec
import BmlSys.Compiler.GgufCompiler
import BmlSys.Compiler.NativePath
import BmlSys.Inference.ProfileSpec
import BmlSys.Compiler.LoadSpec
import BmlSys.Compiler.NativeSpec
import BmlSys.Compiler.NativeLoad
import BmlSys.Number.Gcd
import BmlSys.Api.DecodedText
import BmlSys.Kernels.CompareCodes
import BmlSys.Kernels.CompareCodesSpec
import BmlSys.Lib.MixedRadix
import BmlSys.Tensor.Shape
import BmlSys.Tensor.ShapeSpec
import BmlSys.Api.Generate
import BmlSys.Api.GenerateSpec
import BmlSys.Deployment.Assignment
import BmlSys.Deployment.AssignmentSpec
import BmlSys.Worker.FragmentCodec
import BmlSys.Worker.FragmentCodecSpec
import BmlSys.Symbolic.Budget
import BmlSys.Transformer.Size
import BmlSys.Symbolic.BudgetSpec
import BmlSys.Worker.Stealing
import BmlSys.Worker.StealingSpec
import BmlSys.Number.Convert
import BmlSys.Number.ConvertSpec
import BmlSys.Lib.Simulation
import BmlSys.Queue.ArrayQueue
import BmlSys.Queue.Fifo
import BmlSys.Queue.Invariant
import BmlSys.Queue.Steps
import BmlSys.Queue.ArrayQueueSpec
import BmlSys.Lib.BinaryWords
import BmlSys.Terms.Closed
import BmlSys.Terms.Synthesis
import BmlSys.Terms.SynthesisSpec
import BmlSys.Inference.Resources
import BmlSys.Inference.ResourcesSpec
