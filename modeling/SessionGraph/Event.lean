import SessionGraph.Subtype.Walk

/-!
# Events

What the library reports about its work while it goes on. An event has a level, a message and
named fields, so that any log can show it.
-/

namespace SessionGraph

/-- A length of time in milliseconds. -/
abbrev Milliseconds := Nat

namespace Milliseconds

/-- The thousandths of a second as decimals, without zeros at the end. -/
def decimals (thousandths : Nat) : String :=
  let digits := [thousandths / 100, thousandths / 10 % 10, thousandths % 10]
  String.join ((digits.reverse.dropWhile (· = 0)).reverse.map toString)

/-- A length of time in the largest unit that it fills: seconds or milliseconds. No time at all is
given in nanoseconds. -/
def text (time : Milliseconds) : String :=
  if time = 0 then "0ns"
  else if time < 1000 then toString time ++ "ms"
  else if time % 1000 = 0 then toString (time / 1000) ++ "s"
  else toString (time / 1000) ++ "." ++ decimals (time % 1000) ++ "s"

end Milliseconds

/-- How much an event matters. -/
inductive Level where
  | debug
  | warn
deriving DecidableEq, Repr

/-- The name of a level. -/
def Level.name : Level → String
  | .debug => "DEBUG"
  | .warn => "WARN"

/-- What a field of an event holds. -/
inductive FieldValue where
  | text (value : String)
  | number (value : Nat)
  | flag (value : Bool)
deriving DecidableEq, Repr

/-- Something that happened. -/
inductive Event where
  /-- A graph without a root was compared. -/
  | rootless (strategy : Strategy)
  /-- A comparison of graphs of the given sizes ended. -/
  | compared (strategy : Strategy) (leftNodes rightNodes steps : Nat) (cancelled related : Bool)
  /-- A graph was unrolled. -/
  | unrolled (nodes copies unrolledNodes : Nat)
  /-- A worker was told to stop. -/
  | deadlinePassed (deadline : Milliseconds)
  /-- A worker has returned. -/
  | joined (completed : Bool)
deriving DecidableEq, Repr

namespace Event

def level : Event → Level
  | .deadlinePassed _ => .warn
  | _ => .debug

def message : Event → String
  | .rootless _ => "rootless type is never related"
  | .compared .. => "subtype check finished"
  | .unrolled .. => "unfolded type at its root"
  | .deadlinePassed _ => "deadline passed, cancelling worker"
  | .joined _ => "worker joined"

def fields : Event → List (String × FieldValue)
  | .rootless strategy => [("algorithm", .text strategy.name)]
  | .compared strategy leftNodes rightNodes steps cancelled related =>
    [("algorithm", .text strategy.name), ("left_nodes", .number leftNodes),
     ("right_nodes", .number rightNodes), ("steps", .number steps),
     ("cancelled", .flag cancelled), ("verdict", .flag related)]
  | .unrolled nodes copies unrolledNodes =>
    [("nodes", .number nodes), ("copies", .number copies), ("unfolded_nodes", .number unrolledNodes)]
  | .deadlinePassed deadline => [("deadline", .text deadline.text)]
  | .joined completed => [("completed", .flag completed)]

end Event

end SessionGraph
