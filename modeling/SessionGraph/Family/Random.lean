import SessionGraph.Draw
import SessionGraph.Graph

/-!
# Random types

A random type is grown from a budget of nodes. An action takes one node of the budget and leaves
the rest to what follows it; a choice shares it out among its branches, at least one node each.
Where one node is left growing stops, with the end of the protocol or with an edge back to one of
the actions on the way from the root.
-/

namespace SessionGraph

/-- What a random type may look like. -/
structure RandomFamily where
  /-- The budget of nodes. -/
  budget : Nat := 100
  /-- How many branches a choice has at most; its labels are below this number. -/
  labelCount : Nat := 4
  /-- Whether edges may lead back. -/
  backEdges : Bool := true
  /-- How many participants actions are with. -/
  participants : Nat := 2
deriving DecidableEq, Repr

namespace RandomFamily

variable {σ : Type}

/-- A payload. -/
def drawPayload (source : Source σ) : Drawing σ Payload := do
  let index ← source.below .full Payload.all.length (by decide)
  return Payload.all.get index

/-- Where growing stops, below the actions of `path`, the last of which comes first. -/
def drawLeaf (source : Source σ) (backEdges : Bool) (path : List NodeId) (next : Nat) :
    Drawing σ (NodeId × List Node) := do
  if inside : backEdges = true ∧ 0 < path.length then
    if ← source.flip then
      let index ← source.below .full path.length inside.2
      return (path.reverse.get (index.cast List.length_reverse.symm), [])
  let id ← NodeId.ofIndex next
  return (id, [.done])

/-- The differences between neighbours in `start`, `cuts`, `stop`. -/
def gaps (start : Nat) (cuts : List Nat) (stop : Nat) : List Nat :=
  match cuts with
  | [] => [stop - start]
  | cut :: cuts => (cut - start) :: gaps cut cuts stop

/-- The labels of a choice, each with its part of a budget of `size` nodes. -/
def drawShares (source : Source σ) (factor size : Nat) (hfactor : 0 < factor) (hsize : 1 < size) :
    Drawing σ (List (Label × Nat)) := do
  let extra ← source.below .full (min (size - 1) factor) (by omega)
  let labels ← source.distinct (extra.val + 1) factor (by have := extra.isLt; omega)
  let cuts ← source.distinct extra.val (size - 2) (by have := extra.isLt; omega)
  let sorted := (cuts.map (· + 1)).mergeSort
  return labels.zip (gaps 0 sorted (size - 1))

/-- Grows the branches of a choice in the order given, when `next` nodes are there already. Nothing
is added behind the nodes of the last branch. -/
def growBranches (grow : (size next : Nat) → Drawing σ (NodeId × List Node)) :
    List (Label × Nat) → (next : Nat) → Drawing σ (List (Label × NodeId) × List Node)
  | [], _ => return ([], [])
  | [(label, size)], next => do
    let (target, nodes) ← grow size next
    return ([(label, target)], nodes)
  | (label, size) :: shares, next => do
    let (target, nodes) ← grow size next
    let (targets, nodes') ← growBranches grow shares (next + nodes.length)
    return ((label, target) :: targets, nodes ++ nodes')

/-- Branches in the order of their labels. -/
def sortBranches (branches : List (Label × NodeId)) : List (Label × NodeId) :=
  branches.mergeSort fun a b => a.1 ≤ b.1

/-- Grows a type from a budget of `size` nodes, when `next` nodes are there already and the actions
of `path` are above. Gives the node it starts with and the nodes it adds. At most `depth` actions
follow one another, which is no bound when `size ≤ depth`. -/
def grow (source : Source σ) (family : RandomFamily) (hparticipants : 0 < family.participants)
    (hfactor : 0 < family.labelCount) :
    (depth size : Nat) → (path : List NodeId) → (next : Nat) → Drawing σ (NodeId × List Node)
  | 0, _, path, next => drawLeaf source family.backEdges path next
  | depth + 1, size, path, next =>
    if hsize : 1 < size then do
      let participant ← source.below .half family.participants hparticipants
      let id ← NodeId.ofIndex next
      let kind ← source.below .half 4 (by decide)
      let polarity : Polarity := if kind.val = 0 ∨ kind.val = 3 then .input else .output
      if kind.val < 2 then
        let payload ← drawPayload source
        let (target, nodes) ←
          grow source family hparticipants hfactor depth (size - 1) (id :: path) (next + 1)
        return (id, .message polarity participant payload target :: nodes)
      else
        let shares ← drawShares source family.labelCount size hfactor hsize
        let (targets, nodes) ←
          growBranches
            (fun size next => grow source family hparticipants hfactor depth size (id :: path) next)
            shares (next + 1)
        return (id, .choice polarity participant (sortBranches targets) :: nodes)
    else drawLeaf source family.backEdges path next

/-- A random type. -/
def draw (family : RandomFamily) (source : Source σ) : Except Fault (Drawing σ Graph) :=
  if hparticipants : 0 < family.participants then
    if hfactor : 0 < family.labelCount then
      .ok do
        let (root, nodes) ←
          family.grow source hparticipants hfactor family.budget family.budget [] 0
        return ⟨nodes.toArray, some root⟩
    else .error .noBranching
  else .error .noParticipant

end RandomFamily

end SessionGraph
