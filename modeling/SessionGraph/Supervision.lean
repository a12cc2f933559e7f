import SessionGraph.Journal

/-!
# Supervised work

A worker polls a flag while it works, and a supervisor sets the flag when a deadline passes. The
supervisor returns what the worker answers, and whether the worker was in time; the answer of a
worker that was not is only telling if it is positive (`Finding.verdict`).

Time is told by the polls that a worker makes: a deadline passes between two of them, or after the
last. Whatever the worker does, it is cut short by the first poll that reads as set (`Work.perform`).
-/

namespace SessionGraph

/-- What a worker does with its flag. -/
inductive Work where
  /-- Compares two graphs. -/
  | compare (c : Comparison)
  /-- Compares two graphs a number of times, with one more poll after each. -/
  | rounds (count : Nat) (c : Comparison)
  /-- Waits for the flag. -/
  | wait (value : Bool)
  /-- Answers at once. -/
  | answer (value : Bool)
  /-- Stops with a message. -/
  | raise (text : String)

/-- What a worker answers, and how many polls it made for that. -/
structure Answer where
  value : Bool
  polls : Nat
deriving DecidableEq, Repr

namespace Work

/-- The polls of a flag that is set before poll `cut`, after `made` polls. -/
def pollsFrom (cut made : Nat) : Polls := fun poll => cut ≤ made + poll

/-- The rounds that are left when `made` polls were made and all held so far if `holds`. -/
def performRounds (c : Comparison) (cut : Nat) :
    (count made : Nat) → (holds : Bool) → Except Fault Answer
  | 0, made, holds => .ok ⟨holds, made⟩
  | count + 1, made, holds => do
    let report ← c.report (pollsFrom cut made)
    let made := made + report.steps + 1
    let holds := holds && report.related
    if cut ≤ made then return ⟨holds, made⟩
    performRounds c cut count made holds

/-- What becomes of work whose flag is set before poll `cut`. -/
def perform (cut : Nat) : Work → Except Fault Answer
  | .compare c => do
    let report ← c.report (pollsFrom cut 0)
    return ⟨report.related, report.steps⟩
  | .rounds count c => performRounds c cut count 0 true
  | .wait value => .ok ⟨value, max 1 cut⟩
  | .answer value => .ok ⟨value, 0⟩
  | .raise text => .error (.raised text)

end Work

/-- What a supervisor returns. -/
structure Finding where
  value : Bool
  /-- The work ended before its deadline. -/
  completed : Bool
deriving DecidableEq, Repr

namespace Finding

/-- What is known from a supervised comparison: nothing if it was cut short and failed. -/
def verdict (finding : Finding) : Option Bool :=
  if finding.completed || finding.value then some finding.value else none

end Finding

namespace Work

/-- What a supervisor returns when the deadline passes right before poll `cut`. -/
def supervise (work : Work) (cut : Nat) : Except Fault Finding := do
  let answer ← work.perform cut
  return ⟨answer.value, answer.polls < cut⟩

/-- How many polls a worker makes in a millisecond. -/
def pollsPerMillisecond : Nat := 10000

/-- The number of the first poll after a time. -/
def firstPollAfter (time : Milliseconds) : Nat := time * pollsPerMillisecond + 1

/-- Supervises work and notes what happens. -/
def superviseFor (work : Work) (deadline : Milliseconds) : Journal Finding := do
  let finding ← work.supervise (firstPollAfter deadline)
  if !finding.completed then Journal.note (.deadlinePassed deadline)
  Journal.note (.joined finding.completed)
  return finding

/-- Supervises work until the supervisor itself is given up after a time, which sets the flag too.
Gives what the supervisor returned, if it did, and whether the flag was set when the work ended. -/
def superviseUntil (work : Work) (deadline abandoned : Milliseconds) :
    Journal (Option Finding × Bool) := do
  if deadline ≤ abandoned then
    let finding ← work.superviseFor deadline
    return (some finding, !finding.completed)
  let finding ← work.supervise (firstPollAfter abandoned)
  if finding.completed then
    Journal.note (.joined true)
    return (some finding, false)
  return (none, true)

end Work

end SessionGraph
