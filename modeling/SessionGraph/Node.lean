import SessionGraph.Fault
import SessionGraph.Payload

/-!
# Nodes

A node is one action of a session type: the protocol is over, a message is exchanged with a
participant, or one of several labelled branches is taken with a participant. What follows an
action is given by the ids of other nodes, the successors.

A node may be given new successors in place of its own. `Node.relink` does so by a function of
the old ones and stops at the first that has none; `Node.setSuccessor` replaces the one in a slot.
-/

namespace SessionGraph

/-- Who a message is exchanged with. -/
abbrev Participant := Nat

/-- The name of a branch. -/
abbrev Label := Nat

/-- The position of a node in its graph. -/
abbrev NodeId := Nat

namespace NodeId

/-- Node ids are the numbers below this one. -/
def limit : Nat := 0x100000000

/-- The id of the node at `index`. -/
def ofIndex (index : Nat) : Except Fault NodeId :=
  if index < limit then .ok index else .error .idSpace

/-- How a node id is printed. -/
def text (id : NodeId) : String := "#" ++ toString id

theorem ofIndex_eq_ok_iff {index : Nat} {id : NodeId} :
    ofIndex index = .ok id ↔ index < limit ∧ id = index := by
  unfold ofIndex
  by_cases h : index < limit <;> simp [h, eq_comm]

end NodeId

/-- Which side of an exchange is described: the one that waits for it or the one that makes it. -/
inductive Polarity where
  | input
  | output
deriving DecidableEq, Repr

/-- One action of a session type, with the ids of what follows. -/
inductive Node where
  /-- The protocol is over. -/
  | done
  /-- A message of the given payload is received from or sent to a participant. -/
  | message (polarity : Polarity) (participant : Participant) (payload : Payload) (next : NodeId)
  /-- A participant's choice is awaited, or a choice is made and told to a participant. -/
  | choice (polarity : Polarity) (participant : Participant) (branches : List (Label × NodeId))
deriving DecidableEq, Repr

namespace Node

/-- The ids of what follows, in order. -/
def successors : Node → List NodeId
  | .done => []
  | .message _ _ _ next => [next]
  | .choice _ _ branches => branches.map Prod.snd

/-- Who the action is with. -/
def participant? : Node → Option Participant
  | .done => none
  | .message _ participant _ _ => some participant
  | .choice _ participant _ => some participant

/-- Gives each branch the continuation that `f` finds for its own, from left to right. -/
def relinkBranches (f : NodeId → Except Fault NodeId) :
    List (Label × NodeId) → Except Fault (List (Label × NodeId))
  | [] => .ok []
  | (label, next) :: rest => do
    let next' ← f next
    let rest' ← relinkBranches f rest
    return (label, next') :: rest'

/-- The same action with `f` applied to each successor in order. -/
def relink (f : NodeId → Except Fault NodeId) : Node → Except Fault Node
  | .done => .ok .done
  | .message polarity participant payload next => do
    return .message polarity participant payload (← f next)
  | .choice polarity participant branches => do
    return .choice polarity participant (← relinkBranches f branches)

/-- The same action with `target` as the successor in `slot`. -/
def setSuccessor (node : Node) (slot : Nat) (target : NodeId) : Except Fault Node :=
  match node, slot with
  | .message polarity participant payload _, 0 =>
    .ok (.message polarity participant payload target)
  | .choice polarity participant branches, slot =>
    match branches[slot]? with
    | some (label, _) => .ok (.choice polarity participant (branches.set slot (label, target)))
    | none => .error (.outOfBounds branches.length slot)
  | node, slot => .error (.outOfBounds node.successors.length slot)

end Node

end SessionGraph
