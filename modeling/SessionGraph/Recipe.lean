import SessionGraph.Draw.Seed
import SessionGraph.Family.Exponential
import SessionGraph.Family.Loops
import SessionGraph.Family.Random
import SessionGraph.Journal
import SessionGraph.Term.Translate

/-!
# Recipes

The ways to come by a graph: from its nodes, from a term, from one of the families, and by
unrolling another graph.
-/

namespace SessionGraph

/-- A member of one of the families. -/
inductive Family where
  | random (family : RandomFamily)
  | loops (count : Nat)
  | exponential (k : Nat)
deriving DecidableEq, Repr

/-- Draws a member of a family. What was asked for is checked before anything is drawn. -/
def Family.draw {σ : Type} (source : Source σ) : Family → Except Fault (Drawing σ Graph)
  | .random family => family.draw source
  | .loops count => LoopFamily.draw count source
  | .exponential k => do
    let g ← ExponentialFamily.member k
    return pure g

/-- Draws a member of a family and leaves the seed as it is after the draws. -/
def Family.drawFrom (family : Family) (seed : Seed) : Except Fault (Graph × Seed) := do
  let drawing ← family.draw Seed.source
  drawing.run seed

/-- Draws a member of each family in turn. A family that is refused leaves the seed as it is. -/
def Family.drawAll : List Family → Seed → List (Except Fault Graph)
  | [], _ => []
  | family :: families, seed =>
    match family.drawFrom seed with
    | .ok (g, seed) => .ok g :: drawAll families seed
    | .error fault => .error fault :: drawAll families seed

namespace Node

/-- The node itself, if all its successors can be node ids. -/
def checkIds (node : Node) : Except Fault Node := node.relink NodeId.ofIndex

end Node

/-- The graph with the given nodes in order, started from `root`. -/
def Graph.ofNodes (nodes : List Node) (root : Option Nat) : Except Fault Graph := do
  let nodes ← nodes.mapM Node.checkIds
  let g ← nodes.foldlM (fun g node => return (← g.push node).2) Graph.empty
  match root with
  | none => return g
  | some index => return g.withRoot (← NodeId.ofIndex index)

/-- How to make a graph. -/
inductive Recipe where
  | ofNodes (nodes : List Node) (root : Option Nat)
  | ofTerm (term : Term)
  | ofFamily (family : Family) (seed : Seed)
  | unrolled (recipe : Recipe)

/-- Makes the graph. -/
def Recipe.make : Recipe → Journal Graph
  | .ofNodes nodes root => do
    let g ← Graph.ofNodes nodes root
    return g
  | .ofTerm term => do
    let g ← term.toGraph
    return g
  | .ofFamily family seed => do
    let (g, _) ← family.drawFrom seed
    return g
  | .unrolled recipe => do
    let g ← recipe.make
    Journal.unroll g

end SessionGraph
