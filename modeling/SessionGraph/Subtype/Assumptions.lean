import SessionGraph.Subtype.Demand
import Std.Data.TreeSet.Lemmas

/-!
# Assumptions

The set of pairs of nodes that a walk takes to be related, ordered by the left node and then by the
right one. It is used through membership only: `Assumptions.mem_insert` and `Assumptions.mem_erase`
say what is assumed after a pair is added or given up.
-/

namespace SessionGraph

/-- The order of pairs: by the left node, then by the right one. -/
abbrev NodePair.order : NodePair → NodePair → Ordering :=
  compareLex (compareOn Prod.fst) (compareOn Prod.snd)

theorem NodePair.order_eq_iff {a b : NodePair} : NodePair.order a b = .eq ↔ a = b := by
  obtain ⟨a₁, a₂⟩ := a
  obtain ⟨b₁, b₂⟩ := b
  simp [NodePair.order, compareLex, compareOn, Ordering.then_eq_eq]

/-- The pairs that a walk takes to be related. -/
structure Assumptions where
  pairs : Std.TreeSet NodePair NodePair.order

namespace Assumptions

instance : Membership NodePair Assumptions where
  mem s pair := pair ∈ s.pairs

instance (pair : NodePair) (s : Assumptions) : Decidable (pair ∈ s) :=
  inferInstanceAs (Decidable (pair ∈ s.pairs))

/-- Nothing is assumed. -/
def empty : Assumptions := ⟨∅⟩

/-- Adds a pair. -/
def insert (s : Assumptions) (pair : NodePair) : Assumptions := ⟨s.pairs.insert pair⟩

/-- Gives up a pair. -/
def erase (s : Assumptions) (pair : NodePair) : Assumptions := ⟨s.pairs.erase pair⟩

@[simp]
theorem not_mem_empty (a : NodePair) : a ∉ empty := Std.TreeSet.not_mem_emptyc

@[simp]
theorem mem_insert {s : Assumptions} {a b : NodePair} : a ∈ s.insert b ↔ a = b ∨ a ∈ s := by
  change a ∈ s.pairs.insert b ↔ a = b ∨ a ∈ s.pairs
  rw [Std.TreeSet.mem_insert, NodePair.order_eq_iff, eq_comm]

@[simp]
theorem mem_erase {s : Assumptions} {a b : NodePair} : a ∈ s.erase b ↔ a ≠ b ∧ a ∈ s := by
  change a ∈ s.pairs.erase b ↔ a ≠ b ∧ a ∈ s.pairs
  rw [Std.TreeSet.mem_erase, Ne, NodePair.order_eq_iff, eq_comm]

end Assumptions

end SessionGraph
