import SessionGraph.Graph

/-!
# Copies

The nodes of one graph can be copied behind those of another. A copy is a block of consecutive
nodes, and each id of the source has its image in the block (`Block.image`). The edges of the copy
stay inside the block: an edge of the source that leaves the source cannot be copied.
-/

namespace SessionGraph

/-- Where a copy lies: it has `length` nodes from `offset` on. -/
structure Block where
  offset : Nat
  length : Nat
deriving DecidableEq, Repr

namespace Block

/-- Where the copy of a node lies. -/
def image (block : Block) (id : NodeId) : Except Fault NodeId :=
  if id < block.length then NodeId.ofIndex (id + block.offset) else .error (.foreign id)

/-- The ids of the copied nodes, in the order of the source. -/
def ids (block : Block) : Except Fault (List NodeId) :=
  (List.range' block.offset block.length).mapM NodeId.ofIndex

end Block

namespace Graph

/-- Copies the nodes of `source` behind those of `g`. The copy of the root becomes the root if
`rooted`, and otherwise the root stays as it was. -/
def graft (g source : Graph) (rooted : Bool) : Except Fault (Graph × Block) := do
  let block : Block := ⟨g.size, source.size⟩
  let copied ← source.nodes.toList.mapM (Node.relink block.image)
  let root ← if rooted then source.root.mapM block.image else .ok g.root
  return (⟨g.nodes ++ copied, root⟩, block)

/-- A copy on its own. -/
def copy (g : Graph) : Except Fault Graph := do
  let (g', _) ← empty.graft g true
  return g'

end Graph

end SessionGraph
