import SessionGraph.Graph

/-!
# The exponential family

A family of types on which giving up assumptions is costly: comparing the member `k` with the next
one visits a number of pairs that grows exponentially in `k` when assumptions are discharged, and
polynomially when they are retained.

The member `k` is a cycle of `k` choices with two labels. By label 1 a choice of the cycle leads on
to the next. By label 2 the last leads to the root and any other to a chain of choices; a chain
leads to the root by label 1, after as many steps as the cycle would still have taken, and from
each of its choices to the sink by label 2. The sink leads to itself.

Choices are added without branches, and get their branches one after the other.
-/

namespace SessionGraph.ExponentialFamily

/-- A node with all that it holds. -/
def nodeText : Node → String
  | .done => "End"
  | .message .input participant payload next => "In" ++ messageText participant payload next
  | .message .output participant payload next => "Out" ++ messageText participant payload next
  | .choice .input participant branches => "Select" ++ choiceText participant branches
  | .choice .output participant branches => "Branch" ++ choiceText participant branches
where
  messageText (participant : Participant) (payload : Payload) (next : NodeId) : String :=
    " \x7b participant: " ++ toString participant ++ ", sort: " ++ payload.name ++
      ", cont: NodeId(" ++ toString next ++ ") \x7d"
  choiceText (participant : Participant) (branches : List (Label × NodeId)) : String :=
    " \x7b participant: " ++ toString participant ++ ", branches: [" ++
      ", ".intercalate (branches.map fun b =>
        "(" ++ toString b.1 ++ ", NodeId(" ++ toString b.2 ++ "))") ++ "] \x7d"

/-- Adds a choice without branches. -/
def pushChoice (g : Graph) : Except Fault (NodeId × Graph) := g.push (.choice .output 0 [])

/-- Adds a branch to a choice. -/
def link (g : Graph) (source : NodeId) (label : Label) (target : NodeId) : Except Fault Graph := do
  match ← g.node source with
  | .choice .output participant branches =>
    g.setNode source (.choice .output participant (branches ++ [(label, target)]))
  | node => .error (.unlinkable (nodeText node))

/-- Adds choices without branches, and gives their ids in order. -/
def pushChoices (g : Graph) : (count : Nat) → Except Fault (List NodeId × Graph)
  | 0 => .ok ([], g)
  | count + 1 => do
    let (id, g) ← pushChoice g
    let (ids, g) ← pushChoices g count
    return (id :: ids, g)

/-- Lets each choice but the last lead to the next. -/
def linkRow (g : Graph) : (ids : List NodeId) → Except Fault Graph
  | id :: next :: ids => do
    let g ← link g id 1 next
    linkRow g (next :: ids)
  | _ => .ok g

/-- Lets a chain with the choice `last` at its end lead to the root after `count` more choices. -/
def extendChain (g : Graph) (root sink last : NodeId) : (count : Nat) → Except Fault Graph
  | 0 => do
    let g ← link g last 1 root
    link g last 2 sink
  | count + 1 => do
    let (next, g) ← pushChoice g
    let g ← link g last 1 next
    let g ← link g last 2 sink
    extendChain g root sink next count

/-- Gives the choices of the cycle from position `i` on their second branches. -/
def addChains (g : Graph) (k : Nat) (root sink : NodeId) (i : Nat) :
    (ids : List NodeId) → Except Fault Graph
  | [] => .ok g
  | id :: ids => do
    if i = k - 1 then
      let g ← link g id 2 root
      addChains g k root sink (i + 1) ids
    else
      let (first, g) ← pushChoice g
      let g ← link g id 2 first
      let g ← extendChain g root sink first (k - (i + 2))
      addChains g k root sink (i + 1) ids

/-- The member `k`. -/
def member (k : Nat) : Except Fault Graph := do
  if k = 0 then throw .noMember
  let (cycle, g) ← pushChoices .empty k
  match cycle with
  | [] => throw (.outOfBounds 0 0)
  | root :: ids =>
    let g ← linkRow g (root :: ids)
    let g ← link g ((root :: ids).getLast (List.cons_ne_nil root ids)) 1 root
    let (sink, g) ← pushChoice g
    let g ← link g sink 1 sink
    let g ← link g sink 2 sink
    let g ← addChains g k root sink 0 (root :: ids)
    return g.withRoot root

end SessionGraph.ExponentialFamily
