import SessionGraph.Draw
import SessionGraph.Graph

/-!
# Random trees of loops

All types of this family are the same: a choice between two labels, over and over. Their graphs are
the binary trees of a given number of nodes, and every open end of the tree leads back to the root.
A tree is grown by putting a new node at one of the open ends at a time.
-/

namespace SessionGraph.LoopFamily

variable {σ : Type}

/-- A choice with two open ends. -/
def openNode : Node := .choice .output 0 [(0, 0), (1, 0)]

/-- An open end of a tree: a node and a slot. -/
abbrev OpenEnd := NodeId × Nat

/-- Puts `count` more nodes at open ends. -/
def growTree (source : Source σ) :
    (count : Nat) → (ends : Array OpenEnd) → Graph → Drawing σ Graph
  | 0, _, g => return g
  | count + 1, ends, g =>
    if some_end : 0 < ends.size then do
      let (id, g) ← g.push openNode
      let index ← source.below .full ends.size some_end
      let (parent, slot) := ends[index]
      let g ← g.setSuccessor parent slot id
      growTree source count ((ends.eraseIdx index index.isLt).push (id, 0) |>.push (id, 1)) g
    else return g

/-- A type of the family with `count` nodes. -/
def draw (count : Nat) (source : Source σ) : Except Fault (Drawing σ Graph) :=
  if count = 0 then .error .noNode
  else .ok (growTree source (count - 1) #[(0, 0), (0, 1)] ⟨#[openNode], some 0⟩)

end SessionGraph.LoopFamily
