/-!
# Flags

A flag is set once and for all, and read by everyone who has a handle to it. Handles can be
duplicated; all handles to one flag see it set at once.
-/

namespace SessionGraph

/-- Flags, and the handles that were given out for them. -/
structure FlagBank where
  flags : List Bool
  /-- Which flag each handle is for. -/
  handles : List Nat
deriving DecidableEq, Repr

namespace FlagBank

/-- One flag, not set, with one handle. -/
def single : FlagBank := ⟨[false], [0]⟩

/-- A flag of its own with a handle of its own. -/
def add (bank : FlagBank) : FlagBank :=
  ⟨bank.flags ++ [false], bank.handles ++ [bank.flags.length]⟩

/-- One more handle to the flag of a handle. -/
def duplicate (bank : FlagBank) (handle : Nat) : FlagBank :=
  match bank.handles[handle]? with
  | some flag => { bank with handles := bank.handles ++ [flag] }
  | none => bank

/-- Sets the flag of a handle. -/
def cancel (bank : FlagBank) (handle : Nat) : FlagBank :=
  match bank.handles[handle]? with
  | some flag => { bank with flags := bank.flags.set flag true }
  | none => bank

/-- What each handle sees. -/
def readings (bank : FlagBank) : List Bool :=
  bank.handles.map fun flag => bank.flags.getD flag false

end FlagBank

/-- What is done to flags. -/
inductive FlagCommand where
  | add
  | duplicate (handle : Nat)
  | cancel (handle : Nat)
deriving DecidableEq, Repr

namespace FlagBank

/-- Does what a command says. -/
def apply (bank : FlagBank) : FlagCommand → FlagBank
  | .add => bank.add
  | .duplicate handle => bank.duplicate handle
  | .cancel handle => bank.cancel handle

/-- What each handle sees after each of the commands. -/
def history (bank : FlagBank) : List FlagCommand → List (List Bool)
  | [] => []
  | command :: commands =>
    let bank := bank.apply command
    bank.readings :: bank.history commands

end FlagBank

end SessionGraph
