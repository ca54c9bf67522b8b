import Relrc.Lib.Slots
import Relrc.Lib.Ancestry
import Relrc.Lib.Ownership
import Relrc.Lib.Fallible
import Relrc.Lib.OrderedMap
import Relrc.Lib.PostOrder
import Relrc.Lib.RefCells
import Relrc.Lib.Lockstep
import Relrc.Lib.Ranked
import Relrc.Lib.Mailbox
import Relrc.Lib.Dag
import Relrc.Model.Node
import Relrc.Model.Registry
import Relrc.Model.World
import Relrc.Model.History
import Relrc.Model.Petgraph
import Relrc.Model.Serialization
import Relrc.Model.Detached
import Relrc.Model.Machine
import Relrc.Model.Guarded
import Relrc.Model.Calls
import Relrc.Model.Allocation
import Relrc.Model.Transfer
import Relrc.Model.Conversation
import Relrc.Model.Dialogue
import Relrc.Model.Copies
import Relrc.Model.Answers
import Relrc.Model.Ideal
import Relrc.Memory.HeapFacts
import Relrc.Memory.HeapInv
import Relrc.Memory.RegistryFacts
import Relrc.Memory.Invariant
import Relrc.Memory.Micro
import Relrc.Memory.Frame
import Relrc.Memory.Runs
import Relrc.Memory.Program
import Relrc.Memory.Handles
import Relrc.Memory.Callers
import Relrc.Liveness
import Relrc.Registries
import Relrc.PlainRc
import Relrc.Edges
import Relrc.WeakEdges
import Relrc.Copies
import Relrc.Traversal
import Relrc.Refinement
import Relrc.Graph.Insertion
import Relrc.Graph.Agreement
import Relrc.Graph.Views
import Relrc.Graph.Callers
import Relrc.Graph.Ancestors
import Relrc.Codec.DecodeRun
import Relrc.Codec.Encode
import Relrc.Codec.Decode
import Relrc.Codec.Restore
import Relrc.Codec.Mapping
import Relrc.Codec.RoundTrip
import Relrc.Codec.Unshared
import Relrc.Codec.Interference
import Relrc.Codec.Objects
import Relrc.Codec.Residue
import Relrc.Detached.Records
import Relrc.Detached.Attach
import Relrc.Detached.Cuts
import Relrc.Detached.RoundTrip
import Relrc.Detached.Wire
import Relrc.Detached.Transfer
import Relrc.Detached.Foreign
import Relrc.Detached.Delivery
import Relrc.Detached.Conversation
import Relrc.Detached.Duplex
import Relrc.Detached.Dialogue
import Relrc.Detached.Decoded
import Relrc.Model.WireExchange
import Relrc.Detached.WireExchange
import Relrc.Borrows.Nodes
import Relrc.Borrows.Graphs
import Relrc.Borrows.Codec
import Relrc.Borrows.Program
import Relrc.Parametric.Nodes
import Relrc.Parametric.Graphs
import Relrc.Parametric.Codec
import Relrc.Parametric.Program
import Relrc.Parametric.Transcripts
