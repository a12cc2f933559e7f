import SessionGraph.Proofs.Simulation
import SessionGraph.Subtype.Report

/-!
# The rounds of a walk

`Comparison.Reaches` is the set of states that a walk goes through from its first pair on. What
holds after the first pair and is kept by each round holds of all of them, and a walk ends in one
whose stack is empty (`Comparison.reaches_of_walk`) or faults in one whose next pair has no nodes
(`Comparison.fault_of_walk`).

Two things follow whatever the strategy is. A walk that starts in a set of pairs whose demands can
be looked up and stay in the set does not fault (`Comparison.exists_walk`), and one that starts in
a simulation is never refuted (`Comparison.Reaches.holds_of_similar`).
-/

namespace SessionGraph

/-- The polls of a flag that is never set. -/
def Polls.never : Polls := fun _ => false

namespace Walk

variable {c : Comparison} {polls : Polls} {w w' : Walk} {pair : NodePair} {d : Demand}

/-- The walk after looking at a pair that is not assumed, with what the rules demand of it. -/
def enter (w : Walk) (pair : NodePair) : Demand → Walk
  | .settled related => { w with steps := w.steps + 1, holds := related }
  | .expand pending complete =>
    ⟨⟨pair, pending, complete⟩ :: w.stack, w.assumed.insert pair, w.steps + 1, true⟩

theorem inspect_of_mem (h : pair ∈ w.assumed) :
    w.inspect c false pair = .ok { w with steps := w.steps + 1, holds := true } := by
  simp [inspect, h]

theorem inspect_of_not_mem (h : pair ∉ w.assumed) :
    w.inspect c false pair = (demandAt c.left c.right pair).map (w.enter pair) := by
  simp only [inspect, h, if_false, demandAt, Bool.false_eq_true]
  rcases c.left.node pair.1 with _ | l <;> rcases c.right.node pair.2 with _ | r <;>
    simp only [bind, Except.bind, pure, Except.pure, Except.map]
  rcases l.demand r with related | ⟨pending, complete⟩ <;> rfl

/-- Everything that looking at a pair can do while the flag is not set. -/
theorem inspect_false_cases (h : w.inspect c false pair = .ok w') :
    (pair ∈ w.assumed ∧ w' = { w with steps := w.steps + 1, holds := true }) ∨
    ∃ d, pair ∉ w.assumed ∧ demandAt c.left c.right pair = .ok d ∧ w' = w.enter pair d := by
  by_cases hmem : pair ∈ w.assumed
  · rw [inspect_of_mem hmem, Except.ok.injEq] at h
    exact .inl ⟨hmem, h.symm⟩
  · rw [inspect_of_not_mem hmem] at h
    rcases hd : demandAt c.left c.right pair with fault | d
    · rw [hd] at h
      cases h
    · rw [hd] at h
      simp only [Except.map, Except.ok.injEq] at h
      exact .inr ⟨d, hmem, rfl, h.symm⟩

theorem inspect_cancelled (w : Walk) (pair : NodePair) :
    w.inspect c true pair = .ok { w with steps := w.steps + 1, holds := false } := rfl

theorem steps_of_inspect {cancelled : Bool} (h : w.inspect c cancelled pair = .ok w') :
    w'.steps = w.steps + 1 := by
  rcases inspect_cases h with ⟨-, rfl⟩ | ⟨-, -, rfl⟩ | ⟨_, _, -, -, -, -, hcase⟩
  · rfl
  · rfl
  · rcases hcase with ⟨_, -, rfl⟩ | ⟨_, _, -, rfl⟩ <;> rfl

theorem advance_of_pending {next : NodePair} {pending : List NodePair} {complete : Bool}
    {rest : List OpenPair} (hs : w.stack = ⟨pair, next :: pending, complete⟩ :: rest)
    (hw : w.holds = true) :
    w.advance c polls = inspect { w with stack := ⟨pair, pending, complete⟩ :: rest } c
      (polls (w.steps + 1)) next := by
  obtain ⟨stack, assumed, steps, holds⟩ := w
  simp only at hs hw
  subst hs hw
  rfl

theorem advance_of_mem {next : NodePair} {pending : List NodePair} {complete : Bool}
    {rest : List OpenPair} (hs : w.stack = ⟨pair, next :: pending, complete⟩ :: rest)
    (hw : w.holds = true) (hnext : next ∈ w.assumed) :
    w.advance c .never =
      .ok ⟨⟨pair, pending, complete⟩ :: rest, w.assumed, w.steps + 1, true⟩ :=
  (advance_of_pending hs hw).trans (inspect_of_mem hnext)

theorem advance_of_not_mem {next : NodePair} {pending : List NodePair} {complete : Bool}
    {rest : List OpenPair} (hs : w.stack = ⟨pair, next :: pending, complete⟩ :: rest)
    (hw : w.holds = true) (hnext : next ∉ w.assumed) :
    w.advance c .never = (demandAt c.left c.right next).map
      (enter { w with stack := ⟨pair, pending, complete⟩ :: rest } next) :=
  (advance_of_pending hs hw).trans (inspect_of_not_mem hnext)

theorem advance_of_demand {next : NodePair} {pending : List NodePair} {complete : Bool}
    {rest : List OpenPair} (hs : w.stack = ⟨pair, next :: pending, complete⟩ :: rest)
    (hw : w.holds = true) (hnext : next ∉ w.assumed)
    (hd : demandAt c.left c.right next = .ok d) :
    w.advance c .never =
      .ok (enter { w with stack := ⟨pair, pending, complete⟩ :: rest } next d) := by
  rw [advance_of_not_mem hs hw hnext, hd]
  rfl

theorem advance_of_leave {top : OpenPair} {rest : List OpenPair} (hs : w.stack = top :: rest)
    (hw : w.holds = false ∨ top.pending = []) :
    w.advance c polls =
      .ok ⟨rest, c.strategy.release w.assumed top.pair, w.steps, w.holds && top.complete⟩ := by
  obtain ⟨stack, assumed, steps, holds⟩ := w
  obtain ⟨pair, pending, complete⟩ := top
  simp only at hs hw
  subst hs
  cases holds with
  | false => cases pending <;> rfl
  | true =>
    rcases hw with hw | rfl
    · cases hw
    · rfl

theorem run_of_nil (hw : w.Consistent) (hs : w.stack = []) : w.run c polls hw = .ok w := by
  rw [run, dif_pos hs]

theorem run_of_error {fault : Fault} (hw : w.Consistent) (hs : w.stack ≠ [])
    (h : w.advance c polls = .error fault) : w.run c polls hw = .error fault := by
  rw [run, dif_neg hs]
  split
  · simp_all
  · simp_all

theorem run_of_ok (hw : w.Consistent) (hs : w.stack ≠ []) (h : w.advance c polls = .ok w') :
    w.run c polls hw = w'.run c polls (hw.advance hs h) := by
  rw [run, dif_neg hs]
  split
  · simp_all
  · rename_i w'' h'
    rw [h, Except.ok.injEq] at h'
    subst h'
    rfl

end Walk

namespace Comparison

variable {c : Comparison} {polls : Polls} {start : NodePair} {w : Walk}

/-- The states that the walk from `start` goes through. -/
inductive Reaches (c : Comparison) (polls : Polls) (start : NodePair) : Walk → Prop
  | first {w : Walk} (h : Walk.idle.inspect c (polls 1) start = .ok w) : c.Reaches polls start w
  | round {w w' : Walk} (h : c.Reaches polls start w) (hs : w.stack ≠ [])
      (hadvance : w.advance c polls = .ok w') : c.Reaches polls start w'

theorem Reaches.consistent (h : c.Reaches polls start w) : w.Consistent := by
  induction h with
  | first h => exact Walk.consistent_idle.inspect h
  | round _ hs hadvance ih => exact ih.advance hs hadvance

/-- Rounds until the stack is empty stay among the states of the walk. -/
theorem Reaches.run {w : Walk} (h : c.Reaches polls start w) :
    (∃ w', w.run c polls h.consistent = .ok w' ∧ c.Reaches polls start w' ∧ w'.stack = []) ∨
    ∃ w' fault, w.run c polls h.consistent = .error fault ∧ c.Reaches polls start w' ∧
      w'.stack ≠ [] ∧ w'.advance c polls = .error fault := by
  by_cases hs : w.stack = []
  · exact .inl ⟨w, Walk.run_of_nil _ hs, h, hs⟩
  · rcases hadvance : w.advance c polls with fault | w'
    · exact .inr ⟨w, fault, Walk.run_of_error _ hs hadvance, h, hs, hadvance⟩
    · have hlt := Walk.advance_lt h.consistent hs hadvance
      rw [Walk.run_of_ok _ hs hadvance]
      exact (h.round hs hadvance).run
termination_by w.backlog c

theorem walk_of_error {fault : Fault} (h : Walk.idle.inspect c (polls 1) start = .error fault) :
    c.walk polls start = .error fault := by
  unfold walk
  split <;> simp_all

theorem walk_of_ok (h : Walk.idle.inspect c (polls 1) start = .ok w) :
    c.walk polls start = w.run c polls (Walk.consistent_idle.inspect h) := by
  unfold walk
  split
  · simp_all
  · rename_i w' h'
    rw [h, Except.ok.injEq] at h'
    subst h'
    rfl

theorem Reaches.walk_eq (h : c.Reaches polls start w) :
    c.walk polls start = w.run c polls h.consistent := by
  induction h with
  | first h => exact walk_of_ok h
  | round h hs hadvance ih => rw [ih, Walk.run_of_ok _ hs hadvance]

theorem reaches_of_walk (h : c.walk polls start = .ok w) :
    c.Reaches polls start w ∧ w.stack = [] := by
  rcases hfirst : Walk.idle.inspect c (polls 1) start with fault | first
  · rw [walk_of_error hfirst] at h
    cases h
  · rw [walk_of_ok hfirst] at h
    rcases (Reaches.first hfirst).run with ⟨w', hrun, hw', hs⟩ | ⟨_, fault, hrun, -⟩
    · rw [h, Except.ok.injEq] at hrun
      exact hrun ▸ ⟨hw', hs⟩
    · rw [h] at hrun
      cases hrun

theorem fault_of_walk {fault : Fault} (h : c.walk polls start = .error fault) :
    Walk.idle.inspect c (polls 1) start = .error fault ∨
    ∃ w, c.Reaches polls start w ∧ w.stack ≠ [] ∧ w.advance c polls = .error fault := by
  rcases hfirst : Walk.idle.inspect c (polls 1) start with fault' | first
  · rw [walk_of_error hfirst] at h
    exact .inl h
  · rw [walk_of_ok hfirst] at h
    rcases (Reaches.first hfirst).run with ⟨_, hrun, -⟩ | ⟨w, fault', hrun, hw, hs, hadvance⟩
    · rw [h] at hrun
      cases hrun
    · rw [h, Except.error.injEq] at hrun
      exact .inr ⟨w, hw, hs, hrun ▸ hadvance⟩

end Comparison

/-! ## Walks that do not fault -/

/-- The demands of the pairs of `S` can be looked up and ask for pairs of `S`. -/
def Explorable (left right : Graph) (S : NodePair → Prop) : Prop :=
  ∀ pair, S pair → ∃ d, demandAt left right pair = .ok d ∧ ∀ p ∈ d.pending, S p

theorem explorable_reachable {left right : Graph} (hl : left.Traversable)
    (hr : right.Traversable) :
    Explorable left right fun p => left.Reachable p.1 ∧ right.Reachable p.2 := by
  rintro pair ⟨hpl, hpr⟩
  obtain ⟨l, hnl⟩ := Graph.exists_node (hl _ hpl)
  obtain ⟨r, hnr⟩ := Graph.exists_node (hr _ hpr)
  have hd := demandAt_eq_ok_iff.mpr ⟨l, r, hnl, hnr, rfl⟩
  exact ⟨_, hd, fun p hp => Graph.Reachable.of_mem_pending hpl hpr hd hp⟩

namespace Walk

variable {c : Comparison} {polls : Polls} {w w' : Walk} {pair : NodePair} {cancelled : Bool}
  {S : NodePair → Prop}

/-- The pairs that are still to be looked at are pairs of `S`. -/
def Within (S : NodePair → Prop) (w : Walk) : Prop := ∀ top ∈ w.stack, ∀ p ∈ top.pending, S p

theorem Within.inspect (hS : Explorable c.left c.right S) (hw : w.Within S) (hpair : S pair)
    (h : w.inspect c cancelled pair = .ok w') : w'.Within S := by
  rcases stack_of_inspect h with ⟨hs, -⟩ | ⟨l, r, pending, complete, -, hl, hr, hd, hs, -⟩
  · rw [Within, hs]
    exact hw
  · rw [Within, hs, List.forall_mem_cons]
    refine ⟨fun p hp => ?_, hw⟩
    obtain ⟨d, hd', hpending⟩ := hS pair hpair
    rw [demandAt_eq_ok_iff.mpr ⟨l, r, hl, hr, hd⟩, Except.ok.injEq] at hd'
    exact hpending p (hd' ▸ hp)

theorem Within.advance (hS : Explorable c.left c.right S) (hw : w.Within S) (hs : w.stack ≠ [])
    (h : w.advance c polls = .ok w') : w'.Within S := by
  rcases advance_cases hs h with
    ⟨pair, next, pending, complete, rest, -, hstack, hinspect⟩ | ⟨top, rest, -, hstack, rfl⟩
  · rw [Within, hstack, List.forall_mem_cons, List.forall_mem_cons] at hw
    refine Within.inspect hS ?_ hw.1.1 hinspect
    exact List.forall_mem_cons.mpr ⟨hw.1.2, hw.2⟩
  · rw [Within, hstack, List.forall_mem_cons] at hw
    exact hw.2

theorem exists_inspect (hS : Explorable c.left c.right S) (hpair : S pair) :
    ∃ w', w.inspect c cancelled pair = .ok w' := by
  cases cancelled with
  | true => exact ⟨_, rfl⟩
  | false =>
    by_cases hmem : pair ∈ w.assumed
    · exact ⟨_, inspect_of_mem hmem⟩
    · obtain ⟨d, hd, -⟩ := hS pair hpair
      exact ⟨w.enter pair d, by rw [inspect_of_not_mem hmem, hd]; rfl⟩

theorem Within.exists_advance (hS : Explorable c.left c.right S) (hw : w.Within S)
    (hs : w.stack ≠ []) : ∃ w', w.advance c polls = .ok w' := by
  obtain ⟨⟨pair, pending, complete⟩, rest, hstack⟩ := List.exists_cons_of_ne_nil hs
  rcases Bool.eq_false_or_eq_true w.holds with hholds | hholds
  · cases pending with
    | nil => exact ⟨_, advance_of_leave hstack (.inr rfl)⟩
    | cons next pending =>
      rw [advance_of_pending hstack hholds]
      rw [Within, hstack, List.forall_mem_cons, List.forall_mem_cons] at hw
      exact exists_inspect hS hw.1.1
  · exact ⟨_, advance_of_leave hstack (.inl hholds)⟩

end Walk

namespace Comparison

variable {c : Comparison} {polls : Polls} {start : NodePair} {w : Walk} {S : NodePair → Prop}

theorem Reaches.within (hS : Explorable c.left c.right S) (hstart : S start)
    (h : c.Reaches polls start w) : w.Within S := by
  induction h with
  | first h => exact Walk.Within.inspect hS (fun _ h => absurd h List.not_mem_nil) hstart h
  | round _ hs hadvance ih => exact ih.advance hS hs hadvance

theorem exists_walk (hS : Explorable c.left c.right S) (hstart : S start) :
    ∃ w, c.walk polls start = .ok w := by
  rcases h : c.walk polls start with fault | w
  · exfalso
    rcases fault_of_walk h with hfirst | ⟨w, hw, hs, hadvance⟩
    · have hw : ∃ w, Walk.idle.inspect c (polls 1) start = .ok w := Walk.exists_inspect hS hstart
      rw [hfirst] at hw
      obtain ⟨w, hw⟩ := hw
      cases hw
    · have hw' : ∃ w', w.advance c polls = .ok w' := (hw.within hS hstart).exists_advance hS hs
      obtain ⟨w', hw'⟩ := hw'
      rw [hadvance] at hw'
      cases hw'
  · exact ⟨w, rfl⟩

end Comparison

/-! ## Walks that are not refuted -/

namespace Walk

variable {c : Comparison} {w w' : Walk} {pair : NodePair} {R : NodePair → Prop}

/-- Nothing was refuted so far, and nothing will be while the pairs of `R` are related. -/
def Unrefuted (R : NodePair → Prop) (w : Walk) : Prop :=
  w.holds = true ∧ ∀ top ∈ w.stack, top.complete = true ∧ ∀ p ∈ top.pending, R p

theorem Unrefuted.inspect (hR : IsSimulation c.left c.right R) (hw : w.Unrefuted R)
    (hpair : R pair) (h : w.inspect c false pair = .ok w') : w'.Unrefuted R := by
  rcases inspect_false_cases h with ⟨-, rfl⟩ | ⟨d, -, hd, rfl⟩
  · exact ⟨rfl, hw.2⟩
  · obtain ⟨d', hd', hmet⟩ := hR pair hpair
    rw [hd, Except.ok.injEq] at hd'
    subst hd'
    cases d with
    | settled related => exact ⟨hmet, hw.2⟩
    | expand pending complete => exact ⟨rfl, List.forall_mem_cons.mpr ⟨hmet, hw.2⟩⟩

theorem Unrefuted.advance (hR : IsSimulation c.left c.right R) (hw : w.Unrefuted R)
    (hs : w.stack ≠ []) (h : w.advance c .never = .ok w') : w'.Unrefuted R := by
  rcases advance_cases hs h with
    ⟨pair, next, pending, complete, rest, -, hstack, hinspect⟩ | ⟨top, rest, -, hstack, rfl⟩
  · obtain ⟨hholds, hw⟩ := hw
    rw [hstack, List.forall_mem_cons, List.forall_mem_cons] at hw
    refine Unrefuted.inspect hR ?_ hw.1.2.1 hinspect
    exact ⟨hholds, List.forall_mem_cons.mpr ⟨⟨hw.1.1, hw.1.2.2⟩, hw.2⟩⟩
  · obtain ⟨hholds, hw⟩ := hw
    rw [hstack, List.forall_mem_cons] at hw
    exact ⟨by rw [hholds, hw.1.1]; rfl, hw.2⟩

end Walk

namespace Comparison

variable {c : Comparison} {start : NodePair} {w : Walk}

theorem Reaches.holds_of_similar (hstart : Similar c.left c.right start)
    (h : c.Reaches .never start w) : w.holds = true := by
  obtain ⟨R, hR, hstart⟩ := hstart
  have hw : w.Unrefuted R := by
    induction h with
    | first h =>
      exact Walk.Unrefuted.inspect hR ⟨rfl, fun _ h => absurd h List.not_mem_nil⟩ hstart h
    | round _ hs hadvance ih => exact ih.advance hR hs hadvance
  exact hw.1

end Comparison

end SessionGraph
