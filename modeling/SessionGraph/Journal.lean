import SessionGraph.Event
import SessionGraph.Graph.Unrolling
import SessionGraph.Subtype.Report
import SessionGraph.Term

/-!
# Journals

Work that may fail and that notes events as it goes on. What was noted before a failure stays in
the journal.
-/

namespace SessionGraph

/-- Work with a journal. -/
abbrev Journal := ExceptT Error (StateM (Array Event))

instance : MonadLift (Except Fault) Journal where
  monadLift
    | .ok a => return a
    | .error fault => throw (.fault fault)

instance : MonadLift (Except Error) Journal where
  monadLift
    | .ok a => return a
    | .error error => throw error

namespace Journal

/-- Notes an event. -/
def note (event : Event) : Journal Unit := modify (·.push event)

/-- The outcome of the work and the events that it noted. -/
def record {α : Type} (work : Journal α) : Except Error α × Array Event :=
  work.run.run #[]

/-- Compares two graphs, with a flag that stays as it is. -/
def compare (c : Comparison) (cancelled : Bool) : Journal Report :=
  match c.roots with
  | none => do
    note (.rootless c.strategy)
    return ⟨false, 0⟩
  | some _ => do
    let report ← c.report fun _ => cancelled
    note (.compared c.strategy c.left.size c.right.size report.steps cancelled report.related)
    return report

/-- Compares two graphs by each of the strategies in turn. -/
def compareAll (strategies : List Strategy) (left right : Graph) (cancelled : Bool) :
    Journal (List (Strategy × Report)) :=
  strategies.mapM fun strategy => do
    return (strategy, ← compare ⟨strategy, left, right⟩ cancelled)

/-- Unrolls a graph. -/
def unroll (g : Graph) : Journal Graph := do
  let unrolled ← g.unroll
  if g.root.isSome then note (.unrolled g.size g.unrollingCopies unrolled.size)
  return unrolled

end Journal

end SessionGraph
