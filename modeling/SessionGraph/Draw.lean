import SessionGraph.Fault
import Std.Data.TreeSet

/-!
# Draws

Where the random families get their numbers from. A source of draws is anything with a state from
which a number below a positive bound, and a side of a coin, can be drawn (`Source`); nothing is
said about how likely a draw is. `Source.distinct` draws until it has enough different numbers. A
source may go on repeating itself, so it comes with a patience, the number of draws to make before
giving up.
-/

namespace SessionGraph

/-- Something drawn from a source with states in `σ`. -/
abbrev Drawing (σ : Type) := StateT σ (Except Fault)

/-- The width of the machine word that a draw is made from. -/
inductive WordWidth where
  | half
  | full
deriving DecidableEq, Repr

/-- A source of draws with states in `σ`. -/
structure Source (σ : Type) where
  /-- A number below `bound`. -/
  below (width : WordWidth) (bound : Nat) (positive : 0 < bound) : Drawing σ (Fin bound)
  /-- A side of a coin. -/
  flip : Drawing σ Bool
  /-- How many draws to make for one row of different numbers. -/
  patience : Nat

namespace Source

variable {σ : Type}

/-- Draws below `bound` until `needed` different numbers outside `seen` have come, in the order in
which they came. A number that has been seen is drawn in vain. -/
def distinctFrom (source : Source σ) (bound : Nat) :
    (tries needed : Nat) → (room : needed ≤ bound) → (seen : Std.TreeSet Nat) →
      Drawing σ (List Nat)
  | _, 0, _, _ => return []
  | 0, _ + 1, _, _ => throw .undrawn
  | tries + 1, needed + 1, room, seen => do
    let value ← source.below .full bound (by omega)
    if value.val ∈ seen then source.distinctFrom bound tries (needed + 1) room seen
    else
      let values ← source.distinctFrom bound tries needed (by omega) (seen.insert value.val)
      return value.val :: values

/-- As many different numbers below `bound`, in the order in which they were drawn. -/
def distinct (source : Source σ) (count bound : Nat) (room : count ≤ bound) :
    Drawing σ (List Nat) :=
  source.distinctFrom bound source.patience count room ∅

end Source

end SessionGraph
