import SessionGraph.Bench.Trial

/-!
# The benchmark

Runs the trials that the arguments ask for, each comparison as a task of its own, and prints a row
for each with the time that it took. A comparison that is not over when its time is up is told to
stop and waited for.
-/

namespace SessionGraph.Bench

/-- Fails with the message of a fault. -/
def orFail {α : Type} : Except Fault α → IO α
  | .ok a => return a
  | .error fault => throw (.userError fault.message)

/-- Goes on with a walk to its end, and reads the flag before each round. -/
partial def follow (c : Comparison) (flag : IO.Ref Bool) (w : Walk) : IO Walk := do
  if w.stack.isEmpty then return w
  let cancelled ← flag.get
  follow c flag (← orFail (w.advance c fun _ => cancelled))

/-- Compares two graphs from their roots. -/
def compareRoots (c : Comparison) (flag : IO.Ref Bool) : IO Bool := do
  match c.roots with
  | none => return false
  | some start =>
    let w ← orFail (Walk.idle.inspect c (← flag.get) start)
    return (← follow c flag w).holds

/-- Compares two graphs a number of times, or until the flag is set. -/
def repeatComparison (count : Nat) (c : Comparison) (flag : IO.Ref Bool) : IO Bool := do
  let mut holds := true
  for _ in [0:count] do
    holds := (← compareRoots c flag) && holds
    if ← flag.get then break
  return holds

/-- Waits for a task, and gives up at a point in time. Tells whether the task was over by then. -/
partial def waitUntil {α : Type} (task : Task α) (deadline : Nat) : IO Bool := do
  if ← IO.hasFinished task then return true
  if deadline ≤ (← IO.monoMsNow) then return false
  IO.sleep 1
  waitUntil task deadline

/-- Runs a trial by one of the strategies and prints its row. -/
def runTrial (trial : Trial) (deadline : Milliseconds) (strategy : Strategy) : IO Unit := do
  let flag ← IO.mkRef false
  let begun ← IO.monoMsNow
  let work : IO (Bool × Nat) := do
    let start ← IO.monoNanosNow
    let holds ← repeatComparison trial.rounds ⟨strategy, trial.left, trial.right⟩ flag
    return (holds, (← IO.monoNanosNow) - start)
  let task ← IO.asTask work .dedicated
  let completed ← waitUntil task (begun + deadline)
  unless completed do flag.set true
  let (holds, nanos) ← IO.ofExcept (← IO.wait task)
  if Finding.verdict ⟨holds, completed⟩ = some false then
    IO.eprintln ("expected related types were refuted: " ++ strategy.name ++ ", "
      ++ toString trial.index)
  let row : Row := ⟨strategy, trial.index, completed⟩
  IO.println (row.text ++ "," ++ toString nanos)

/-- Runs a suite. -/
def runSuite (settings : Settings) (suite : Suite) : IO Unit := do
  let mut seed := settings.startSeed
  for index in suite.indices settings do
    let (trial, next) ← orFail ((suite.trial settings index).run seed)
    seed := next
    for strategy in Strategy.all do
      runTrial trial settings.deadline strategy

end SessionGraph.Bench

open SessionGraph.Bench in
def main (arguments : List String) : IO UInt32 := do
  match parse arguments with
  | .error error =>
    IO.eprintln ("error: " ++ error.message)
    return 2
  | .ok .version => IO.println versionLine
  | .ok .help => helpLines.forM fun line => IO.println line
  | .ok (.run settings) =>
    if settings.header then IO.println Row.header
    settings.chosen.forM (runSuite settings)
  return 0
