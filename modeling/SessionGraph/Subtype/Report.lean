import SessionGraph.Subtype.Walk

/-!
# Reports

A comparison of two graphs walks from the pair of their roots and reports whether the walk held
and how many pairs it looked at. A graph without a root is related to none, and no pair is looked at
to find that out.
-/

namespace SessionGraph

/-- The outcome of a comparison. -/
structure Report where
  related : Bool
  steps : Nat
deriving DecidableEq, Repr

namespace Comparison

/-- The whole walk that starts at a pair. -/
def walk (c : Comparison) (polls : Polls) (start : NodePair) : Except Fault Walk :=
  match h : Walk.idle.inspect c (polls 1) start with
  | .error fault => .error fault
  | .ok w => w.run c polls (Walk.consistent_idle.inspect h)

/-- The pair of the roots. -/
def roots (c : Comparison) : Option NodePair :=
  match c.left.root, c.right.root with
  | some left, some right => some (left, right)
  | _, _ => none

/-- Compares the graphs from their roots. -/
def report (c : Comparison) (polls : Polls) : Except Fault Report :=
  match c.roots with
  | none => .ok ⟨false, 0⟩
  | some start => do
    let w ← c.walk polls start
    return ⟨w.holds, w.steps⟩

end Comparison

end SessionGraph
