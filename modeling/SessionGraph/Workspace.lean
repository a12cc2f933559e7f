import SessionGraph.Graph.Text
import SessionGraph.Recipe

/-!
# Workspaces

Graphs that go by names and are worked on one command at a time. The workspace also remembers
where the last copy lies.
-/

namespace SessionGraph

/-- Named graphs, and where the last copy lies. -/
structure Workspace where
  graphs : List (String × Graph)
  lastCopy : Block

/-- What is done to the graph with a given name. -/
inductive Action where
  | clear
  | make (recipe : Recipe)
  | push (node : Node)
  | setRoot (index : Nat)
  | setNode (index : Nat) (node : Node)
  | setSuccessor (index slot target : Nat)
  | readNode (index : Nat)
  | measure
  | graft (source : String) (rooted : Bool)
  | copyFrom (source : String)
  | unroll (source : String)
  | equals (other : String)
  | write
  | compare (other : String) (strategies : List Strategy) (cancelled : Bool)

/-- What an action is answered with. -/
inductive Reply where
  | nothing
  | id (id : NodeId)
  | node (node : Node)
  | measure (size : Nat)
  | copied (length : Nat) (targets : List NodeId)
  | flag (value : Bool)
  | text (value : String)
  | reports (reports : List (Strategy × Report)) (cancelled : Bool)

namespace Workspace

/-- A workspace without graphs. -/
def empty : Workspace := ⟨[], ⟨0, 0⟩⟩

/-- The graph with a name. A name that was not given yet stands for the empty graph. -/
def get (w : Workspace) (name : String) : Graph :=
  (w.graphs.lookup name).getD Graph.empty

/-- Gives a name to a graph. -/
def set (w : Workspace) (name : String) (g : Graph) : Workspace :=
  { w with graphs := (name, g) :: w.graphs.filter (·.1 ≠ name) }

/-- The graph with a name, as the source of a copy into the graph `target`: a graph that is copied
into itself is taken aside first. -/
def copySource (w : Workspace) (target source : String) : Except Fault Graph :=
  if source = target then (w.get source).copy else .ok (w.get source)

/-- Does something to the graph with a name. -/
def act (w : Workspace) (name : String) (action : Action) : Journal (Workspace × Reply) := do
  let g := w.get name
  match action with
  | .clear => return (w.set name Graph.empty, .nothing)
  | .make recipe => return (w.set name (← recipe.make), .nothing)
  | .push node =>
    let (id, g) ← g.push (← node.checkIds)
    return (w.set name g, .id id)
  | .setRoot index =>
    let root ← NodeId.ofIndex index
    return (w.set name (g.withRoot root), .nothing)
  | .setNode index node =>
    let id ← NodeId.ofIndex index
    let g ← g.setNode id (← node.checkIds)
    return (w.set name g, .nothing)
  | .setSuccessor index slot target =>
    let id ← NodeId.ofIndex index
    let target ← NodeId.ofIndex target
    let g ← g.setSuccessor id slot target
    return (w.set name g, .nothing)
  | .readNode index =>
    let id ← NodeId.ofIndex index
    let node ← g.node id
    return (w, .node node)
  | .measure => return (w, .measure g.size)
  | .graft source rooted =>
    let source ← w.copySource name source
    let (g, block) ← g.graft source rooted
    let targets ← block.ids
    return ({ w.set name g with lastCopy := block }, .copied block.length targets)
  | .copyFrom source =>
    let source ← w.copySource name source
    let g ← source.copy
    return (w.set name g, .nothing)
  | .unroll source => return (w.set name (← Journal.unroll (w.get source)), .nothing)
  | .equals other => return (w, .flag (g = w.get other))
  | .write =>
    let text ← g.text
    return (w, .text text)
  | .compare other strategies cancelled =>
    let reports ← Journal.compareAll strategies g (w.get other) cancelled
    return (w, .reports reports cancelled)

/-- Where the last copy of a node lies. -/
def lastImage (w : Workspace) (index : Nat) : Except Fault NodeId := do
  w.lastCopy.image (← NodeId.ofIndex index)

end Workspace

/-! ## Scripts -/

/-- One line of a script. -/
inductive Command where
  | act (name : String) (action : Action)
  /-- Asks where the last copy of a node lies. -/
  | image (index : Nat)

/-- How a command went: what it was answered with and the graph that it was for, or why it was not
carried out. -/
inductive Progress where
  | done (reply : Reply) (graph : Option Graph)
  | failed (error : Error)

namespace Workspace

/-- Carries out a command. -/
def perform (w : Workspace) : Command → Journal (Workspace × Progress)
  | .act name action => do
    let (w, reply) ← w.act name action
    return (w, .done reply (some (w.get name)))
  | .image index => do
    let id ← w.lastImage index
    return (w, .done (.id id) none)

/-- Carries out commands in turn. A term that cannot be laid out changes nothing; a fault ends the
script. -/
def runScript (w : Workspace) : List Command → Journal (List Progress)
  | [] => return []
  | command :: commands => do
    let (w, progress) ←
      try w.perform command
      catch error => pure (w, Progress.failed error)
    match progress with
    | .failed (.fault fault) => return [.failed (.fault fault)]
    | progress => return progress :: (← w.runScript commands)

end Workspace

end SessionGraph
