import Relrc.Model.History

/-!
# The `petgraph` adaptors

`petgraph.rs` and `petgraph/edge_ref.rs`. An `EdgeRef` is an edge id together with the graph it
belongs to; the model keeps the id. `none` stands for the panic "edge is valid".
-/

namespace Relrc

/-- `petgraph::Direction`. -/
inductive Direction where
  | outgoing
  | incoming
deriving DecidableEq

namespace HistoryGraph

variable {N E : Type} (g : HistoryGraph) (w : World N E)

/-- `EdgeRef::source`. -/
def edgeRefSource (e : EdgeId) : Option NodeId := g.source w e

/-- `EdgeRef::target`. -/
def edgeRefTarget (e : EdgeId) : Option NodeId := g.target w e

/-- `EdgeRef::weight`, through `EdgeRef::edge_data`. -/
def edgeRefWeight (e : EdgeId) : Option E := (g.getEdge w e).map InnerEdgeData.value

/-- `IntoNeighborsDirected::neighbors_directed`. -/
def neighborsDirected (n : NodeId) : Direction → List (Option NodeId)
  | .outgoing => (g.outgoingEdges w n).map fun e => some e.target
  | .incoming => (g.incomingEdges w n).map (g.source w)

/-- `IntoNeighbors::neighbors`. -/
def neighbors (n : NodeId) : List (Option NodeId) := g.neighborsDirected w n .outgoing

/-- `IntoEdgeReferences::edge_references`. -/
def edgeReferences : List EdgeId := g.allNodeIds.flatMap (g.incomingEdges w)

/-- `IntoEdges::edges`. -/
def edges (n : NodeId) : List EdgeId := g.outgoingEdges w n

/-- `IntoEdgesDirected::edges_directed`. -/
def edgesDirected (n : NodeId) : Direction → List EdgeId
  | .outgoing => g.outgoingEdges w n
  | .incoming => g.incomingEdges w n

end HistoryGraph

end Relrc
