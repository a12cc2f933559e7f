import Mathlib.Algebra.Order.Ring.Nat
import Mathlib.Logic.Function.Iterate
import SessionGraph.Proofs.Cancellation

/-!
# Walks end

A round that opens a pair puts more on the stack, and a discharging walk opens the same pairs again
and again. Each round lowers the backlog all the same (`Walk.advance_lt`), so a walk is over after
no more rounds than its backlog says (`Walk.exists_rounds`). For the first pair that is bounded by
the sizes of the graphs alone, whatever is read off the flag, and wherever ids lead.
-/

namespace SessionGraph

namespace DepthFirst

theorem weight_eq_pow (width free : Nat) : weight width free = (width + 2) ^ free := by
  induction free with
  | zero => rfl
  | succ free ih => rw [weight, ih, Nat.pow_succ, Nat.mul_comm]

theorem fresh_nil {κ : Type} [BEq κ] (keys : List κ) : fresh keys [] = keys.length := by
  rw [fresh, List.filter_eq_self.mpr (by simp)]

end DepthFirst

namespace Walk

variable {c : Comparison} {polls : Polls}

/-- One more round, unless the walk has stopped at a fault. -/
def round (c : Comparison) (polls : Polls) (x : Except Fault Walk) : Except Fault Walk :=
  x >>= fun w => w.advance c polls

theorem length_allPairs (c : Comparison) :
    (allPairs c).length = c.left.size * c.right.size := by
  simp [allPairs, List.length_flatMap, List.map_const']

theorem backlog_pos {w : Walk} (hs : w.stack ≠ []) : 0 < w.backlog c := by
  obtain ⟨top, rest, hstack⟩ := List.exists_cons_of_ne_nil hs
  rw [backlog, hstack, List.map_cons]
  exact Nat.zero_lt_of_lt (DepthFirst.backlog_pop _)

/-- Rounds are made while the stack is not empty, and their number is at most the backlog. -/
theorem exists_rounds (c : Comparison) (polls : Polls) {w : Walk} (hw : w.Consistent) :
    ∃ n ≤ w.backlog c,
      (∀ k < n, ∃ v, (round c polls)^[k] (.ok w) = .ok v ∧ v.stack ≠ []) ∧
      (round c polls)^[n] (.ok w) = w.run c polls hw := by
  by_cases hs : w.stack = []
  · exact ⟨0, Nat.zero_le _, by simp, (run_of_nil hw hs).symm⟩
  rcases hadvance : w.advance c polls with fault | w'
  · refine ⟨1, backlog_pos hs, fun k hk => ?_, ?_⟩
    · obtain rfl : k = 0 := by omega
      exact ⟨w, rfl, hs⟩
    · rw [run_of_error hw hs hadvance]
      exact hadvance
  · have hlt := advance_lt hw hs hadvance
    obtain ⟨n, hn, hbefore, hend⟩ := exists_rounds c polls (hw.advance hs hadvance)
    have hround (k : Nat) : (round c polls)^[k + 1] (.ok w) = (round c polls)^[k] (.ok w') := by
      rw [Function.iterate_succ_apply, ← hadvance]
      rfl
    refine ⟨n + 1, by omega, fun k hk => ?_, ?_⟩
    · cases k with
      | zero => exact ⟨w, rfl, hs⟩
      | succ k =>
        rw [hround]
        exact hbefore k (by omega)
    · rw [hround, run_of_ok hw hs hadvance, hend]
termination_by w.backlog c

end Walk

namespace Comparison

variable {c : Comparison} {polls : Polls} {start : NodePair}

/-- What is left to do after the first pair. -/
theorem backlog_of_first {w : Walk} {cancelled : Bool}
    (h : Walk.idle.inspect c cancelled start = .ok w) :
    w.backlog c ≤
      (c.left.edges.length + c.right.edges.length + 2) ^ (c.left.size * c.right.size) := by
  rcases Walk.stack_of_inspect h with ⟨hs, -⟩ | ⟨l, r, pending, complete, -, hl, hr, hd, hs, -⟩
  · simp [Walk.backlog, hs, Walk.idle, DepthFirst.backlog]
  have hpending := length_pending_le hd
  have hleft := Graph.length_successors_le hl
  have hright := Graph.length_successors_le hr
  have hfresh : DepthFirst.fresh (Walk.allPairs c) [start] < c.left.size * c.right.size := by
    rw [← Walk.length_allPairs, ← DepthFirst.fresh_nil]
    exact DepthFirst.fresh_cons_lt (Walk.mem_allPairs hl hr) List.not_mem_nil
  -- the first pair has at most `width` visits to make, and is itself no longer free
  generalize hwidth : c.left.edges.length + c.right.edges.length = width at *
  rw [Walk.backlog, hs, hwidth]
  simp only [Walk.idle, List.map_cons, List.map_nil, DepthFirst.backlog, Nat.add_zero,
    DepthFirst.weight_eq_pow]
  calc (pending.length + 1) * (width + 2) ^ DepthFirst.fresh (Walk.allPairs c) [start]
      ≤ (width + 2) * (width + 2) ^ DepthFirst.fresh (Walk.allPairs c) [start] :=
        Nat.mul_le_mul_right _ (by omega)
    _ = (width + 2) ^ (DepthFirst.fresh (Walk.allPairs c) [start] + 1) := by
        rw [Nat.pow_succ, Nat.mul_comm]
    _ ≤ (width + 2) ^ (c.left.size * c.right.size) := Nat.pow_le_pow_right (by omega) hfresh

theorem exists_faultsAt {fault : Fault} (h : c.walk polls start = .error fault) :
    ∃ pair, c.FaultsAt polls start pair fault := by
  rcases fault_of_walk h with hfirst | ⟨w, hw, hs, hadvance⟩
  · exact ⟨start, .first hfirst⟩
  rcases hnext : w.upcoming with _ | next
  · obtain ⟨top, rest, -, hleave⟩ := Walk.advance_of_upcoming_none hs hnext
    rw [hleave] at hadvance
    cases hadvance
  · exact ⟨next, .round hw hnext hadvance⟩

/-- A walk that is over has an empty stack, or has come to a pair of which a node is not there. -/
theorem empty_or_faultsAt (c : Comparison) (polls : Polls) (start : NodePair) :
    (∃ w, c.walk polls start = .ok w ∧ w.stack = []) ∨
    ∃ pair fault, c.walk polls start = .error fault ∧ c.FaultsAt polls start pair fault ∧
      ((c.left.size ≤ pair.1 ∧ fault = .outOfBounds c.left.size pair.1) ∨
        (pair.1 < c.left.size ∧ c.right.size ≤ pair.2 ∧
          fault = .outOfBounds c.right.size pair.2)) := by
  rcases hwalk : c.walk polls start with fault | w
  · obtain ⟨pair, hfault⟩ := exists_faultsAt hwalk
    exact .inr ⟨pair, fault, rfl, hfault, demandAt_eq_error hfault.demandAt_eq⟩
  · exact .inl ⟨w, rfl, (reaches_of_walk hwalk).2⟩

/-- Whatever the graphs and the first pair are and however the polls are answered, a walk goes
through finitely many rounds, a number that the sizes of the graphs bound. Its stack is empty then,
or it has come to a pair of which a node is not there. -/
theorem walk_ends (c : Comparison) (polls : Polls) (start : NodePair) :
    ∃ n ≤ (c.left.edges.length + c.right.edges.length + 2) ^ (c.left.size * c.right.size),
      (∀ k < n, ∃ w, (Walk.round c polls)^[k] (Walk.idle.inspect c (polls 1) start) = .ok w ∧
        w.stack ≠ []) ∧
      (Walk.round c polls)^[n] (Walk.idle.inspect c (polls 1) start) = c.walk polls start ∧
      ((∃ w, c.walk polls start = .ok w ∧ w.stack = []) ∨
        ∃ pair fault, c.walk polls start = .error fault ∧ c.FaultsAt polls start pair fault ∧
          ((c.left.size ≤ pair.1 ∧ fault = .outOfBounds c.left.size pair.1) ∨
            (pair.1 < c.left.size ∧ c.right.size ≤ pair.2 ∧
              fault = .outOfBounds c.right.size pair.2))) := by
  have hend := c.empty_or_faultsAt polls start
  rcases hfirst : Walk.idle.inspect c (polls 1) start with fault | w
  · exact ⟨0, Nat.zero_le _, by simp, (walk_of_error hfirst).symm, hend⟩
  · obtain ⟨n, hn, hbefore, hrun⟩ :=
      Walk.exists_rounds c polls (Walk.consistent_idle.inspect hfirst)
    exact ⟨n, hn.trans (backlog_of_first hfirst), hbefore, hrun.trans (walk_of_ok hfirst).symm,
      hend⟩

end Comparison

end SessionGraph
