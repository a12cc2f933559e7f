import SessionGraph.Graph.Copy

/-!
# Unrolling

A graph is unrolled at its root by giving every edge that leads back to the root a copy of the
whole graph of its own, and leading the edge to the root of that copy instead. The type stays the
same, and the graph grows by one copy for each such edge.
-/

namespace SessionGraph.Graph

/-- The edges that lead to `target`, each as a node and a slot, in order. -/
def edgesTo (g : Graph) (target : NodeId) : List (NodeId × Nat) :=
  g.nodes.toList.zipIdx.flatMap fun (node, id) =>
    (node.successors.zipIdx.filter fun (next, _) => next = target).map fun (_, slot) => (id, slot)

/-- Leads one edge of `unrolled` to the root of a new copy of `g`. -/
def spliceCopy (g : Graph) (root : NodeId) (unrolled : Graph) (edge : NodeId × Nat) :
    Except Fault Graph := do
  let (unrolled, block) ← unrolled.graft g false
  let target ← block.image root
  unrolled.setSuccessor edge.1 edge.2 target

/-- How many copies unrolling needs. -/
def unrollingCopies (g : Graph) : Nat :=
  match g.root with
  | none => 0
  | some root => (g.edgesTo root).length

/-- Unrolls the graph once at its root. -/
def unroll (g : Graph) : Except Fault Graph := do
  let first ← g.copy
  match g.root with
  | none => return first
  | some root => (g.edgesTo root).foldlM (spliceCopy g root) first

end SessionGraph.Graph
