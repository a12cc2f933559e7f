import SessionGraph.Node

/-!
# Terms

A session type written down: an action is followed by terms, and repetition is expressed by
recursion variables. `mu v body` is `body` in which `v` stands for the whole.
-/

namespace SessionGraph

/-- A recursion variable. -/
abbrev Variable := Nat

/-- A session type as a term. -/
inductive Term where
  | done
  | message (polarity : Polarity) (participant : Participant) (payload : Payload) (next : Term)
  | choice (polarity : Polarity) (participant : Participant) (branches : List (Label × Term))
  | mu (v : Variable) (body : Term)
  | var (v : Variable)

/-- What is wrong with a term. -/
inductive TermError where
  /-- No recursion around the variable binds it. -/
  | unbound (v : Variable)
  /-- The variable is repeated before anything was done. -/
  | unguarded (v : Variable)
  /-- The labels of a choice do not ascend. -/
  | unsorted (participant : Participant) (labels : List Label)
deriving DecidableEq, Repr

/-- Why a graph could not be made. -/
inductive Error where
  | term (error : TermError)
  | fault (fault : Fault)
deriving DecidableEq, Repr

namespace TermError

/-- The labels of a choice as a bracketed list. -/
def labelList (labels : List Label) : String :=
  "[" ++ ", ".intercalate (labels.map toString) ++ "]"

/-- The wording of a term error. -/
def message : TermError → String
  | .unbound v => "recursion variable " ++ toString v ++ " is not bound by an enclosing μ"
  | .unguarded v =>
    "recursion variable " ++ toString v ++ " occurs before any action below its μ"
  | .unsorted participant labels =>
    "labels of participant " ++ toString participant ++ "'s choice are not strictly ascending: "
      ++ labelList labels

end TermError

namespace Error

/-- The wording of an error. -/
def message : Error → String
  | .term e => e.message
  | .fault f => f.message

end Error

instance : MonadLift (Except Fault) (Except Error) where
  monadLift
    | .ok a => .ok a
    | .error fault => .error (.fault fault)

end SessionGraph
