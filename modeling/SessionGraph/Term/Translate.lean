import SessionGraph.Graph
import SessionGraph.Term

/-!
# From terms to graphs

The actions of a term become nodes in the order in which the term is read. Recursion leaves no node
of its own: a variable stands for the first action below its binder, so an edge leads back to that
node. This is why a variable has to be bound, and may not be met before an action below its binder.

A node has its id before what follows it is translated, so that variables can stand for it. Until
then an end keeps its place (`Translator.action`).
-/

namespace SessionGraph

/-- Labels that ascend strictly. -/
def Ascending (labels : List Label) : Prop := labels.Pairwise (· < ·)

instance (labels : List Label) : Decidable (Ascending labels) :=
  inferInstanceAs (Decidable (labels.Pairwise _))

/-- A translation that is under way. -/
structure Translator where
  /-- What there is of the graph. -/
  graph : Graph
  /-- The nodes that variables stand for, innermost binder last. -/
  bindings : Array (Variable × NodeId)

namespace Translator

/-- Nothing is translated yet. -/
def blank : Translator := ⟨.empty, #[]⟩

/-- Adds a node at the end and gives its id. -/
def push (s : Translator) (node : Node) : Except Error (NodeId × Translator) := do
  let (id, graph) ← s.graph.push node
  return (id, ⟨graph, s.bindings⟩)

/-- The node that a variable stands for. -/
def find (s : Translator) (v : Variable) : Option NodeId :=
  (s.bindings.findRev? (·.1 == v)).map Prod.snd

/-- Translates an action by `build`. The variables of `waiting` stand for its node while `build`
translates what follows it. -/
def action (s : Translator) (waiting : List Variable)
    (build : Translator → Except Error (Node × Translator)) :
    Except Error (NodeId × Translator) := do
  let (id, ⟨graph, bindings⟩) ← s.push .done
  let outer := bindings.size
  let (node, ⟨graph, bindings⟩) ← build ⟨graph, bindings ++ waiting.map (·, id)⟩
  let graph ← graph.setNode id node
  return (id, ⟨graph, bindings.shrink outer⟩)

end Translator

namespace Term

mutual

/-- Translates a term and gives the node that it starts with. The variables of `waiting` are bound
since the last action, outermost first. -/
def translate (s : Translator) (waiting : List Variable) :
    Term → Except Error (NodeId × Translator)
  | .done => s.push .done
  | .mu v body => body.translate s (waiting ++ [v])
  | .var v =>
    if v ∈ waiting then .error (.term (.unguarded v))
    else
      match s.find v with
      | some id => .ok (id, s)
      | none => .error (.term (.unbound v))
  | .message polarity participant payload body =>
    s.action waiting fun s => do
      let (next, s) ← body.translate s []
      return (.message polarity participant payload next, s)
  | .choice polarity participant branches => do
    if ¬ Ascending (branches.map Prod.fst) then
      throw (.term (.unsorted participant (branches.map Prod.fst)))
    s.action waiting fun s => do
      let (targets, s) ← translateBranches s branches
      return (.choice polarity participant targets, s)

/-- Translates the branches of a choice and gives the nodes that they start with. -/
def translateBranches (s : Translator) :
    List (Label × Term) → Except Error (List (Label × NodeId) × Translator)
  | [] => .ok ([], s)
  | (label, body) :: branches => do
    let (next, s) ← body.translate s []
    let (targets, s) ← translateBranches s branches
    return ((label, next) :: targets, s)

end

/-- The graph of a term. -/
def toGraph (t : Term) : Except Error Graph := do
  let (root, s) ← t.translate .blank []
  return s.graph.withRoot root

end Term

end SessionGraph
