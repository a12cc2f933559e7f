/-!
# Faults

The ways in which an operation stops without an answer, and the wording of each. A fault is a
misuse of the library, such as a node id that is not in the graph it is used with; what is wrong
with a term is a `TermError` instead.
-/

namespace SessionGraph

/-- Why an operation stopped without an answer. -/
inductive Fault where
  /-- Position `index` was asked of a sequence of `length` entries. -/
  | outOfBounds (length index : Nat)
  /-- The id does not belong to the graph that was copied. -/
  | foreign (id : Nat)
  /-- The index is too large for a node id. -/
  | idSpace
  /-- A text was to be put in at a byte where no character of the other starts or ends. -/
  | insideCharacter
  /-- A random family was asked for types between no participants. -/
  | noParticipant
  /-- A random family was asked for choices without branches. -/
  | noBranching
  /-- A family of loops was asked for a type without nodes. -/
  | noNode
  /-- The exponential family was asked for its member before the first. -/
  | noMember
  /-- A branch was to be added to the node that is printed, which is not the choice of a sender. -/
  | unlinkable (node : String)
  /-- Drawing distinct numbers was given up. -/
  | undrawn
  /-- A worker stopped with a message of its own. -/
  | raised (text : String)
deriving DecidableEq, Repr

namespace Fault

/-- The wording of a fault. -/
def message : Fault → String
  | .outOfBounds length index =>
    "index out of bounds: the len is " ++ toString length ++ " but the index is " ++ toString index
  | .foreign id => "#" ++ toString id ++ " is not in the copied arena"
  | .idSpace => "node index exceeds the u32 id space"
  | .insideCharacter => "assertion failed: self.is_char_boundary(idx)"
  | .noParticipant => "at least one participant is needed"
  | .noBranching => "branching factor must be positive"
  | .noNode => "at least one node is needed"
  | .noMember => "the family starts at k = 1"
  | .unlinkable node =>
    "internal error: entered unreachable code: linking from non-branch " ++ node
  | .undrawn => "drawing distinct numbers was given up"
  | .raised text => text

end Fault

end SessionGraph
