import SessionGraph.Bench.Arguments
import SessionGraph.Recipe
import SessionGraph.Supervision

/-!
# Trials of the benchmark

A suite is a row of trials, and a trial is a pair of graphs that are to be compared by both
strategies a number of times. All graphs of a suite are drawn from one seed, in order. A
comparison that is not over when its time is up counts as not completed.
-/

namespace SessionGraph.Bench

/-- Two graphs to compare. -/
structure Trial where
  index : Nat
  left : Graph
  right : Graph
  /-- How often they are compared. -/
  rounds : Nat

/-- What a comparison of a trial came to. -/
structure Row where
  strategy : Strategy
  index : Nat
  completed : Bool
deriving DecidableEq, Repr

namespace Row

/-- The names of the columns. -/
def header : String := "algorithm,index,completed,nanos"

/-- A row without the time that it took. -/
def text (row : Row) : String :=
  row.strategy.name ++ "," ++ toString row.index ++ "," ++ (if row.completed then "1" else "0")

end Row

/-- Draws a member of a family from the seed. -/
def drawMember (family : Family) : Drawing Seed Graph := fun seed => family.drawFrom seed

/-- Draws a random type until unrolling makes it grow, and gives both. -/
def drawUnrollable (family : RandomFamily) : (tries : Nat) → Drawing Seed (Graph × Graph)
  | 0 => throw .undrawn
  | tries + 1 => do
    let g ← drawMember (.random family)
    let unrolled ← g.unroll
    if unrolled.size ≠ g.size then return (g, unrolled)
    drawUnrollable family tries

namespace Suite

/-- The numbers of the trials of a suite. -/
def indices (suite : Suite) (settings : Settings) : List Nat :=
  match suite with
  | .exponential => List.range' 1 (settings.quantity .kMax)
  | .isomorphic => List.range' 1 (settings.quantity .instances)
  | .reflexive | .unrolled => List.range (settings.quantity .instances)

/-- Draws the trial with a number. -/
def trial (suite : Suite) (settings : Settings) (index : Nat) : Drawing Seed Trial := do
  match suite with
  | .exponential =>
    let left ← drawMember (.exponential index)
    let right ← drawMember (.exponential (index + 1))
    return ⟨index, left, right, 1⟩
  | .isomorphic =>
    let left ← drawMember (.loops index)
    let right ← drawMember (.loops index)
    return ⟨index, left, right, 1⟩
  | .reflexive =>
    let g ← drawMember (.random { budget := 10000 })
    let copy ← g.copy
    return ⟨index, copy, g, settings.quantity .iterations⟩
  | .unrolled =>
    let (left, right) ← drawUnrollable { budget := 1000 } Seed.patience
    return ⟨index, left, right, settings.quantity .iterations⟩

end Suite

namespace Settings

/-- The seed that each suite starts from. -/
def startSeed (settings : Settings) : Seed := ⟨UInt64.ofNat (settings.quantity .seed)⟩

/-- The time for each comparison of a trial. -/
def deadline (settings : Settings) : Milliseconds := settings.quantity .timeout * 1000

end Settings

/-- The rows of a trial. -/
def Trial.rows (trial : Trial) (deadline : Milliseconds) : Except Fault (List Row) :=
  Strategy.all.mapM fun strategy => do
    let work := Work.rounds trial.rounds ⟨strategy, trial.left, trial.right⟩
    let finding ← work.supervise (Work.firstPollAfter deadline)
    return ⟨strategy, trial.index, finding.completed⟩

/-- The rows of the trials with the given numbers. -/
def Suite.rowsFrom (suite : Suite) (settings : Settings) :
    List Nat → Seed → Except Fault (List Row)
  | [], _ => .ok []
  | index :: indices, seed => do
    let (trial, seed) ← (suite.trial settings index).run seed
    let rows ← trial.rows settings.deadline
    let rest ← suite.rowsFrom settings indices seed
    return rows ++ rest

/-- The rows of all chosen suites. -/
def Settings.rows (settings : Settings) : Except Fault (List Row) := do
  let rows ← settings.chosen.mapM fun suite =>
    suite.rowsFrom settings (suite.indices settings) settings.startSeed
  return rows.flatten

/-- What is printed and the code that is returned for it. -/
structure Outcome where
  exit : Nat
  lines : List String
deriving DecidableEq, Repr

/-- The name and version of the benchmark. -/
def versionLine : String := "subtyping-bench 0.1.0"

/-- How the benchmark is used. -/
def helpLines : List String :=
  ["Time inductive and coinductive session subtyping",
   "",
   "Usage: subtyping-bench [OPTIONS]",
   "",
   "Options:",
   "      --suite <SUITE>            Suites to run, in order. Runs all of them when omitted "
     ++ "[possible values: exponential, isomorphic, reflexive, unfolded]",
   "      --seed <SEED>              Seed for the random suites [default: 42]",
   "      --k-max <K_MAX>            Largest k of the exponential family [default: 10]",
   "      --instances <INSTANCES>    Generated types per random suite [default: 100]",
   "      --iterations <ITERATIONS>  Repetitions of each check in the reflexive and unfolded suites "
     ++ "[default: 10000]",
   "      --timeout <TIMEOUT>        Deadline per timed run, in seconds [default: 10]",
   "      --header                   Print the CSV column names first",
   "  -v, --verbose...               Log more",
   "  -h, --help                     Print help",
   "  -V, --version                  Print version"]

/-- The outcome for given arguments, with the rows as they are without times. -/
def outcome (arguments : List String) : Except Fault Outcome :=
  match parse arguments with
  | .error _ => .ok ⟨2, []⟩
  | .ok .version => .ok ⟨0, [versionLine]⟩
  | .ok .help => .ok ⟨0, helpLines⟩
  | .ok (.run settings) => do
    let rows ← settings.rows
    return ⟨0, (if settings.header then [Row.header] else []) ++ rows.map Row.text⟩

end SessionGraph.Bench
