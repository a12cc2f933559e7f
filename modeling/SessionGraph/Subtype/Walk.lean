import SessionGraph.DepthFirst
import SessionGraph.Subtype.Assumptions

/-!
# The walk over pairs of nodes

To tell whether two graphs are related, a walk looks at pairs of their nodes depth first, with a
stack of the pairs whose demands are not met yet. A pair is assumed related while its demands are
looked at, so that a cycle closes when an assumed pair is met again. The two strategies differ in
what becomes of an assumption when all is known about its pair: `discharging` gives it up and
`retaining` keeps it.

Before each pair is looked at, a flag is polled. Once it reads as set the walk fails, as it does at
any pair that is refuted, and only unwinds its stack.

One round of the walk is `Walk.advance`. The stacked pairs are distinct and assumed in every walk
(`Walk.Consistent`), so a round leaves less to do (`Walk.advance_lt`) and `Walk.run` ends, however
the polls are answered.
-/

namespace SessionGraph

/-- What becomes of an assumption when its pair is left. -/
inductive Strategy where
  | discharging
  | retaining
deriving DecidableEq, Repr

namespace Strategy

/-- Both strategies, in the order in which they are run. -/
def all : List Strategy := [.discharging, .retaining]

/-- The name of the kind of proof that a strategy looks for. -/
def name : Strategy → String
  | .discharging => "inductive"
  | .retaining => "coinductive"

/-- What stays assumed when `pair` is left. -/
def release (strategy : Strategy) (assumed : Assumptions) (pair : NodePair) : Assumptions :=
  match strategy with
  | .discharging => assumed.erase pair
  | .retaining => assumed

end Strategy

/-- The answers that a walk gets when it polls its flag: `polls n` is that of the `n`-th poll, and
the first poll has number 1. -/
abbrev Polls := Nat → Bool

/-- The two graphs that a walk compares, and how it does so. -/
structure Comparison where
  strategy : Strategy
  left : Graph
  right : Graph

/-- A pair whose demands are being looked at. -/
structure OpenPair where
  pair : NodePair
  pending : List NodePair
  complete : Bool
deriving DecidableEq, Repr

/-- A walk that is under way. -/
structure Walk where
  stack : List OpenPair
  assumed : Assumptions
  /-- The number of pairs looked at, which is that of polls made. -/
  steps : Nat
  /-- Whether what was looked at last is related. -/
  holds : Bool

namespace Walk

/-- A walk that has not started. -/
def idle : Walk := ⟨[], .empty, 0, true⟩

/-- Looks at a pair, with `cancelled` as the answer of the poll. -/
def inspect (w : Walk) (c : Comparison) (cancelled : Bool) (pair : NodePair) : Except Fault Walk :=
  if cancelled then .ok { w with steps := w.steps + 1, holds := false }
  else if pair ∈ w.assumed then .ok { w with steps := w.steps + 1, holds := true }
  else do
    let left ← c.left.node pair.1
    let right ← c.right.node pair.2
    match left.demand right with
    | .settled related => return { w with steps := w.steps + 1, holds := related }
    | .expand pending complete =>
      return { stack := ⟨pair, pending, complete⟩ :: w.stack, assumed := w.assumed.insert pair,
               steps := w.steps + 1, holds := true }

/-- One round: looks at the next pair that the top of the stack asks for, or leaves the top when it
asks for no more or has failed. An empty stack stays as it is. -/
def advance (w : Walk) (c : Comparison) (polls : Polls) : Except Fault Walk :=
  match w with
  | ⟨[], assumed, steps, holds⟩ => .ok ⟨[], assumed, steps, holds⟩
  | ⟨⟨pair, next :: pending, complete⟩ :: rest, assumed, steps, true⟩ =>
    inspect ⟨⟨pair, pending, complete⟩ :: rest, assumed, steps, true⟩ c (polls (steps + 1)) next
  | ⟨⟨pair, _, complete⟩ :: rest, assumed, steps, holds⟩ =>
    .ok ⟨rest, c.strategy.release assumed pair, steps, holds && complete⟩

/-- The stacked pairs are distinct and assumed. -/
structure Consistent (w : Walk) : Prop where
  nodup : (w.stack.map OpenPair.pair).Nodup
  assumed : ∀ pair ∈ w.stack.map OpenPair.pair, pair ∈ w.assumed

/-- All pairs of nodes of the two graphs. -/
def allPairs (c : Comparison) : List NodePair :=
  (List.range c.left.size).flatMap fun left => (List.range c.right.size).map (left, ·)

/-- What a walk has left to do. -/
def backlog (c : Comparison) (w : Walk) : Nat :=
  DepthFirst.backlog (c.left.edges.length + c.right.edges.length) (allPairs c)
    (w.stack.map fun top => (top.pair, top.pending.length))

/-! ## The rounds -/

/-- Everything that looking at a pair can do. -/
theorem inspect_cases {c : Comparison} {cancelled : Bool} {pair : NodePair} {w w' : Walk}
    (h : w.inspect c cancelled pair = .ok w') :
    (cancelled = true ∧ w' = { w with steps := w.steps + 1, holds := false }) ∨
    (cancelled = false ∧ pair ∈ w.assumed ∧
      w' = { w with steps := w.steps + 1, holds := true }) ∨
    (∃ left right, cancelled = false ∧ pair ∉ w.assumed ∧
      c.left.node pair.1 = .ok left ∧ c.right.node pair.2 = .ok right ∧
      ((∃ related, left.demand right = .settled related ∧
          w' = { w with steps := w.steps + 1, holds := related }) ∨
        (∃ pending complete, left.demand right = .expand pending complete ∧
          w' = ⟨⟨pair, pending, complete⟩ :: w.stack, w.assumed.insert pair, w.steps + 1, true⟩)))
    := by
  unfold inspect at h
  cases cancelled with
  | true =>
    cases h
    exact .inl ⟨rfl, rfl⟩
  | false =>
    rw [if_neg Bool.false_ne_true] at h
    split at h
    · cases h
      exact .inr (.inl ⟨rfl, ‹_›, rfl⟩)
    · rcases hl : c.left.node pair.1 with _ | left
      · simp [hl, bind, Except.bind] at h
      rcases hr : c.right.node pair.2 with _ | right
      · simp [hl, hr, bind, Except.bind] at h
      refine .inr (.inr ⟨left, right, rfl, ‹_›, rfl, rfl, ?_⟩)
      rcases hd : left.demand right with related | ⟨pending, complete⟩
      · simp only [hl, hr, hd, bind, Except.bind, pure, Except.pure, Except.ok.injEq] at h
        exact .inl ⟨related, rfl, h.symm⟩
      · simp only [hl, hr, hd, bind, Except.bind, pure, Except.pure, Except.ok.injEq] at h
        exact .inr ⟨pending, complete, rfl, h.symm⟩

/-- Looking at a pair leaves the stack and the assumptions alone or puts the pair on both. -/
theorem stack_of_inspect {c : Comparison} {cancelled : Bool} {pair : NodePair} {w w' : Walk}
    (h : w.inspect c cancelled pair = .ok w') :
    (w'.stack = w.stack ∧ w'.assumed = w.assumed) ∨
    (∃ left right pending complete, pair ∉ w.assumed ∧
      c.left.node pair.1 = .ok left ∧ c.right.node pair.2 = .ok right ∧
      left.demand right = .expand pending complete ∧
      w'.stack = ⟨pair, pending, complete⟩ :: w.stack ∧ w'.assumed = w.assumed.insert pair) := by
  rcases inspect_cases h with ⟨-, rfl⟩ | ⟨-, -, rfl⟩ | ⟨left, right, -, hnew, hl, hr, hcase⟩
  · exact .inl ⟨rfl, rfl⟩
  · exact .inl ⟨rfl, rfl⟩
  · rcases hcase with ⟨related, -, rfl⟩ | ⟨pending, complete, hd, rfl⟩
    · exact .inl ⟨rfl, rfl⟩
    · exact .inr ⟨left, right, pending, complete, hnew, hl, hr, hd, rfl, rfl⟩

/-- Everything that a round can do. -/
theorem advance_cases {c : Comparison} {polls : Polls} {w w' : Walk} (hs : w.stack ≠ [])
    (h : w.advance c polls = .ok w') :
    (∃ pair next pending complete rest, w.holds = true ∧
      w.stack = ⟨pair, next :: pending, complete⟩ :: rest ∧
      inspect { w with stack := ⟨pair, pending, complete⟩ :: rest } c (polls (w.steps + 1)) next
        = .ok w') ∨
    (∃ top rest, (w.holds = false ∨ top.pending = []) ∧ w.stack = top :: rest ∧
      w' = ⟨rest, c.strategy.release w.assumed top.pair, w.steps, w.holds && top.complete⟩)
    := by
  unfold advance at h
  split at h
  · exact absurd rfl hs
  · exact .inl ⟨_, _, _, _, _, rfl, rfl, h⟩
  · rename_i pair pending complete rest assumed steps holds hne
    cases h
    refine .inr ⟨⟨pair, pending, complete⟩, rest, ?_, rfl, rfl⟩
    cases holds with
    | false => exact .inl rfl
    | true =>
      cases pending with
      | nil => exact .inr rfl
      | cons next pending => exact (hne next pending rfl rfl).elim

theorem mem_allPairs {c : Comparison} {pair : NodePair} {left right : Node}
    (hl : c.left.node pair.1 = .ok left) (hr : c.right.node pair.2 = .ok right) :
    pair ∈ allPairs c := by
  simp only [allPairs, List.mem_flatMap, List.mem_range, List.mem_map]
  exact ⟨pair.1, Graph.lt_size_of_node hl, pair.2, Graph.lt_size_of_node hr, rfl⟩

/-- Opening a pair keeps a walk consistent. -/
theorem Consistent.inspect {c : Comparison} {cancelled : Bool} {pair : NodePair} {w w' : Walk}
    (hw : w.Consistent) (h : w.inspect c cancelled pair = .ok w') : w'.Consistent := by
  obtain ⟨hnodup, hassumed⟩ := hw
  rcases stack_of_inspect h with ⟨hs, ha⟩ | ⟨_, _, _, _, hnew, -, -, -, hs, ha⟩
  · exact ⟨hs ▸ hnodup, by rw [hs, ha]; exact hassumed⟩
  · refine ⟨?_, fun p hp => ?_⟩
    · rw [hs, List.map_cons, List.nodup_cons]
      exact ⟨fun hmem => hnew (hassumed _ hmem), hnodup⟩
    · rw [hs, List.map_cons, List.mem_cons] at hp
      rw [ha, Assumptions.mem_insert]
      exact hp.imp id (hassumed p)

theorem Consistent.advance {c : Comparison} {polls : Polls} {w w' : Walk} (hw : w.Consistent)
    (hs : w.stack ≠ []) (h : w.advance c polls = .ok w') : w'.Consistent := by
  rcases advance_cases hs h with
    ⟨pair, next, pending, complete, rest, -, hstack, hinspect⟩ | ⟨top, rest, -, hstack, rfl⟩
  · refine Consistent.inspect ?_ hinspect
    obtain ⟨hnodup, hassumed⟩ := hw
    rw [hstack] at hnodup hassumed
    exact ⟨hnodup, hassumed⟩
  · obtain ⟨hnodup, hassumed⟩ := hw
    rw [hstack] at hnodup hassumed
    rw [List.map_cons, List.nodup_cons] at hnodup
    refine ⟨hnodup.2, fun p hp => ?_⟩
    have hp' : p ∈ w.assumed := hassumed p (List.mem_cons_of_mem _ hp)
    cases c.strategy with
    | retaining => exact hp'
    | discharging =>
      rw [Strategy.release, Assumptions.mem_erase]
      refine ⟨?_, hp'⟩
      rintro rfl
      exact hnodup.1 hp

/-- A round leaves less to do. -/
theorem advance_lt {c : Comparison} {polls : Polls} {w w' : Walk} (hw : w.Consistent)
    (hs : w.stack ≠ []) (h : w.advance c polls = .ok w') : w'.backlog c < w.backlog c := by
  unfold backlog
  rcases advance_cases hs h with
    ⟨pair, next, pending, complete, rest, -, hstack, hinspect⟩ | ⟨top, rest, -, hstack, rfl⟩
  · rw [hstack]
    rcases stack_of_inspect hinspect with
      ⟨hstack', -⟩ | ⟨left, right, pending', complete', hnew, hl, hr, hd, hstack', -⟩
    · rw [hstack']
      exact DepthFirst.backlog_spend
    · have hassumed := hw.assumed
      rw [hstack] at hassumed
      rw [hstack']
      refine DepthFirst.backlog_push (mem_allPairs hl hr) (fun hmem => hnew (hassumed _ ?_)) ?_
      · simpa [Function.comp_def] using hmem
      · have hpending := length_pending_le hd
        have hleft := Graph.length_successors_le hl
        have hright := Graph.length_successors_le hr
        simp only
        omega
  · rw [hstack]
    exact DepthFirst.backlog_pop _

theorem consistent_idle : idle.Consistent := ⟨List.nodup_nil, fun _ h => absurd h List.not_mem_nil⟩

/-- Rounds until the stack is empty. -/
def run (w : Walk) (c : Comparison) (polls : Polls) (hw : w.Consistent) : Except Fault Walk :=
  if hs : w.stack = [] then .ok w
  else
    match h : w.advance c polls with
    | .error fault => .error fault
    | .ok w' =>
      have := advance_lt hw hs h
      run w' c polls (hw.advance hs h)
termination_by w.backlog c

end Walk

end SessionGraph
