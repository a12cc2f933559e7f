import SessionGraph.Node

/-!
# Graphs

A session type is a graph of nodes, kept in the order in which they were added, and a root where
the protocol starts. A graph under construction may lack a root, and its ids may point nowhere:
nothing is checked until a node is looked up (`Graph.node`).
-/

namespace SessionGraph

/-- A session type: its nodes and where it starts. -/
structure Graph where
  nodes : Array Node
  root : Option NodeId
deriving DecidableEq, Repr

namespace Graph

/-- The graph without nodes. -/
def empty : Graph := ⟨#[], none⟩

/-- The number of nodes. -/
def size (g : Graph) : Nat := g.nodes.size

/-- The node with the given id. -/
def node (g : Graph) (id : NodeId) : Except Fault Node :=
  match g.nodes[id]? with
  | some node => .ok node
  | none => .error (.outOfBounds g.size id)

/-- Adds a node at the end and gives its id. -/
def push (g : Graph) (node : Node) : Except Fault (NodeId × Graph) := do
  let id ← NodeId.ofIndex g.size
  return (id, { g with nodes := g.nodes.push node })

/-- The same nodes started from `id`, wherever that points. -/
def withRoot (g : Graph) (id : NodeId) : Graph := { g with root := some id }

/-- Replaces the node with the given id. -/
def setNode (g : Graph) (id : NodeId) (node : Node) : Except Fault Graph :=
  if id < g.size then .ok { g with nodes := g.nodes.setIfInBounds id node }
  else .error (.outOfBounds g.size id)

/-- Redirects the successor in `slot` of the node with the given id. -/
def setSuccessor (g : Graph) (id : NodeId) (slot : Nat) (target : NodeId) :
    Except Fault Graph := do
  let node ← g.node id
  let node' ← node.setSuccessor slot target
  return { g with nodes := g.nodes.setIfInBounds id node' }

/-- Where the edges lead, by node and then by slot. -/
def edges (g : Graph) : List NodeId := g.nodes.toList.flatMap Node.successors

theorem node_eq_ok_iff {g : Graph} {id : NodeId} {n : Node} :
    g.node id = .ok n ↔ g.nodes[id]? = some n := by
  unfold node
  split <;> simp_all

theorem lt_size_of_node {g : Graph} {id : NodeId} {n : Node} (h : g.node id = .ok n) :
    id < g.size := by
  rw [node_eq_ok_iff] at h
  exact (Array.getElem?_eq_some_iff.mp h).1

/-- A node has no more successors than its graph has edges. -/
theorem length_successors_le {g : Graph} {id : NodeId} {n : Node} (h : g.node id = .ok n) :
    n.successors.length ≤ g.edges.length := by
  rw [node_eq_ok_iff, ← Array.getElem?_toList] at h
  obtain ⟨before, after, hsplit⟩ := List.append_of_mem (List.mem_of_getElem? h)
  simp only [edges, hsplit, List.flatMap_append, List.flatMap_cons, List.length_append]
  omega

end Graph

end SessionGraph
