import Telora.Library.InternTable
import Telora.Library.ExceptBind
import Telora.Library.Lists
import Telora.Library.Runs
import Telora.Library.Reachability
import Telora.Library.Machine
import Telora.Library.Paths
import Telora.Library.Agreement
import Telora.Library.Binary64
import Telora.Library.Lexing
import Telora.Value.FloatText
import Telora.Json.Lexer
import Telora.Json.Fragments
import Telora.Json.Grammar
import Telora.Json.Lowering
import Telora.Json.Writer
import Telora.Json.Text
import Telora.Json.RoundTrip
import Telora.Json.StringDecoder
import Telora.Json.StringTokens
import Telora.Json.Natives
import Telora.Codec.Node
import Telora.Modules.Resolver
import Telora.Modules.Confinement
import Telora.Modules.GraphLoading
import Telora.Toml.Lowering
import Telora.Toml.Rules
import Telora.Toml.Relation
import Telora.Toml.Passing
import Telora.Toml.Faithful
import Telora.Toml.Numbers
import Telora.Toml.DateTimes
import Telora.Toml.StringRoundTrip
import Telora.Toml.Fragments
import Telora.Documents.Positions
import Telora.Library.BinarySearch
import Telora.Library.Entries
import Telora.Value.Basic
import Telora.Value.Value
import Telora.Types.Descriptor
import Telora.Bytecode.Instruction
import Telora.Bytecode.Lir
import Telora.Bytecode.Assembly
import Telora.Bytecode.Stepping
import Telora.Heap.Heap
import Telora.Heap.Graph
import Telora.Heap.Publish
import Telora.Heap.CopyInvariant
import Telora.Heap.CopyRun
import Telora.Heap.Publication
import Telora.Heap.Equality
import Telora.Heap.Access
import Telora.Heap.Bisimulation
import Telora.Heap.EqualityRun
import Telora.Heap.EqualitySound
import Telora.Heap.Copies
import Telora.Heap.Boundary
import Telora.Heap.Denotation
import Telora.Heap.Unfolding
import Telora.Heap.Export
import Telora.Heap.Import
import Telora.Heap.RoundTrip
import Telora.Heap.StorageIndependence
import Telora.Vm.Account
import Telora.Vm.Machine
import Telora.Vm.Registers
import Telora.Vm.Operations
import Telora.Vm.Continuations
import Telora.Vm.Step
import Telora.Vm.Transition
import Telora.Vm.Limits
import Telora.Vm.DictHeaps
import Telora.Yaml.Aliases
import Telora.Yaml.BlockScalars
import Telora.Yaml.CoreSchema
import Telora.Yaml.Faithful
import Telora.Yaml.Keys
import Telora.Yaml.Provenance
import Telora.Yaml.QuotedLines
import Telora.Types.TypeGraph
import Telora.Types.Joins
import Telora.Types.Soundness
import Telora.Lsp.Requests
import Telora.Workspace.Publication
import Telora.Lsp.DocumentServer
import Telora.Lsp.OpenDocuments
import Telora.Semantic.Snapshots
import Telora.Dyn.StructFields
import Telora.Fmt.Display
import Telora.Natives.Attributes
import Telora.Evaluation.TrueCauses
import Telora.Modules.OpenNames
import Telora.Syntax.Placeholders
import Telora.Natives.ParsedShape
import Telora.Natives.Paths
import Telora.Cli.BuildPlan
import Telora.Cli.BuildPlanText
import Telora.Hash.Framing
import Telora.Inference.Schemes
import Telora.Inference.Termination
