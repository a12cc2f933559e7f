/-!
# Arguments of the benchmark

The command line of the benchmark. Options are read from left to right; an option's value is the
next argument or stands behind an equals sign, letters of one dash can be put together, and two
dashes alone end the options. Only suites and verbosity may be given more than once. Asking for the
version or for help ends the reading, whatever follows.
-/

namespace SessionGraph.Bench

/-- A set of comparisons. -/
inductive Suite where
  | exponential
  | isomorphic
  | reflexive
  | unrolled
deriving DecidableEq, Repr

namespace Suite

/-- Every suite, in the order in which they are run. -/
def all : List Suite := [.exponential, .isomorphic, .reflexive, .unrolled]

/-- The name of a suite on the command line. -/
def name : Suite → String
  | .exponential => "exponential"
  | .isomorphic => "isomorphic"
  | .reflexive => "reflexive"
  | .unrolled => "unfolded"

/-- The suite with a name. -/
def ofName? (text : String) : Option Suite := all.find? (·.name == text)

end Suite

/-- An option with a number as its value. -/
inductive Quantity where
  | seed
  | kMax
  | instances
  | iterations
  | timeout
deriving DecidableEq, Repr

namespace Quantity

def all : List Quantity := [.seed, .kMax, .instances, .iterations, .timeout]

/-- The name of the option. -/
def name : Quantity → String
  | .seed => "seed"
  | .kMax => "k-max"
  | .instances => "instances"
  | .iterations => "iterations"
  | .timeout => "timeout"

/-- The value when the option is not given. -/
def default : Quantity → Nat
  | .seed => 42
  | .kMax => 10
  | .instances => 100
  | .iterations => 10000
  | .timeout => 10

end Quantity

/-- An option without a value. -/
inductive Switch where
  | header
  | verbose
  | version
  | help
deriving DecidableEq, Repr

namespace Switch

def all : List Switch := [.header, .verbose, .version, .help]

/-- The name of the option. -/
def name : Switch → String
  | .header => "header"
  | .verbose => "verbose"
  | .version => "version"
  | .help => "help"

/-- The letter of the option. -/
def letter? : Switch → Option Char
  | .header => none
  | .verbose => some 'v'
  | .version => some 'V'
  | .help => some 'h'

end Switch

/-- What the benchmark is to do. -/
structure Settings where
  /-- The suites that were named. -/
  suites : List Suite := []
  /-- The values that were given, each at most once. -/
  quantities : List (Quantity × Nat) := []
  header : Bool := false
  verbosity : Nat := 0
deriving DecidableEq, Repr

namespace Settings

/-- The value of an option. -/
def quantity (settings : Settings) (q : Quantity) : Nat :=
  (settings.quantities.lookup q).getD q.default

/-- The suites to run: those that were named, or all. -/
def chosen (settings : Settings) : List Suite :=
  if settings.suites.isEmpty then Suite.all else settings.suites

end Settings

/-- What is wrong with the arguments. -/
inductive ArgumentError where
  | unknown (argument : String)
  | unexpected (argument : String)
  | missing (option : String)
  | invalid (option value : String)
  | repeated (option : String)
  | valued (option : String)
deriving DecidableEq, Repr

/-- The wording of an argument error. -/
def ArgumentError.message : ArgumentError → String
  | .unknown argument => "unknown option " ++ argument
  | .unexpected argument => "unexpected argument " ++ argument
  | .missing option => "--" ++ option ++ " needs a value"
  | .invalid option value => "invalid value for --" ++ option ++ ": " ++ value
  | .repeated option => "--" ++ option ++ " cannot be used more than once"
  | .valued option => "--" ++ option ++ " takes no value"

/-- What is asked for. -/
inductive Request where
  | run (settings : Settings)
  | version
  | help
deriving DecidableEq, Repr

/-! ## Single arguments -/

/-- The number that a row of digits stands for. -/
def numberOfDigits (digits : List Char) : Nat :=
  digits.foldl (fun number digit => 10 * number + (digit.toNat - '0'.toNat)) 0

/-- A number that fits a word: digits after at most one plus sign. -/
def parseNumber? (text : String) : Option Nat :=
  let digits := match text.toList with
    | '+' :: digits => digits
    | digits => digits
  if digits ≠ [] ∧ digits.all Char.isDigit ∧ numberOfDigits digits < 0x10000000000000000 then
    some (numberOfDigits digits)
  else none

/-- Whether an argument can be the value of the option before it. -/
def isValue (argument : String) : Bool :=
  match argument.toList with
  | '-' :: _ :: _ => false
  | _ => true

/-- The form of an argument. -/
inductive ArgumentForm where
  /-- Two dashes. -/
  | endOfOptions
  /-- A name behind two dashes, and the value behind an equals sign. -/
  | long (name : String) (value : Option String)
  /-- Letters behind one dash. -/
  | short (letters : List Char)
  | plain
deriving DecidableEq, Repr

/-- Tells the form of an argument. -/
def ArgumentForm.of (argument : String) : ArgumentForm :=
  match argument.toList with
  | ['-', '-'] => .endOfOptions
  | '-' :: '-' :: rest =>
    match rest.dropWhile (· ≠ '=') with
    | [] => .long (String.ofList rest) none
    | _ :: value => .long (String.ofList (rest.takeWhile (· ≠ '='))) (some (String.ofList value))
  | '-' :: letter :: letters => .short (letter :: letters)
  | _ => .plain

/-- An option with a value. -/
inductive ValuedOption where
  | suite
  | quantity (q : Quantity)
deriving DecidableEq, Repr

namespace ValuedOption

def all : List ValuedOption := .suite :: Quantity.all.map .quantity

/-- The name of the option. -/
def name : ValuedOption → String
  | .suite => "suite"
  | .quantity q => q.name

end ValuedOption

/-- What a name behind two dashes stands for. -/
inductive OptionKind where
  | valued (option : ValuedOption)
  | switch (option : Switch)
deriving DecidableEq, Repr

/-- The option with a name. -/
def OptionKind.ofName? (name : String) : Option OptionKind :=
  match ValuedOption.all.find? (·.name == name) with
  | some option => some (.valued option)
  | none => (Switch.all.find? (·.name == name)).map .switch

/-! ## Reading -/

namespace Settings

/-- Takes up the value of an option. -/
def addValue (settings : Settings) (option : ValuedOption) (value : String) :
    Except ArgumentError Settings :=
  match option with
  | .suite =>
    match Suite.ofName? value with
    | some suite => .ok { settings with suites := settings.suites ++ [suite] }
    | none => .error (.invalid option.name value)
  | .quantity q =>
    match parseNumber? value with
    | none => .error (.invalid option.name value)
    | some number =>
      if (settings.quantities.lookup q).isSome then .error (.repeated option.name)
      else .ok { settings with quantities := (q, number) :: settings.quantities }

/-- Takes up an option without a value, or ends the reading. -/
def addSwitch (settings : Settings) : Switch → Except ArgumentError (Settings ⊕ Request)
  | .version => .ok (.inr .version)
  | .help => .ok (.inr .help)
  | .verbose => .ok (.inl { settings with verbosity := settings.verbosity + 1 })
  | .header =>
    if settings.header then .error (.repeated Switch.header.name)
    else .ok (.inl { settings with header := true })

/-- Takes up the letters behind one dash. -/
def addLetters (settings : Settings) : List Char → Except ArgumentError (Settings ⊕ Request)
  | [] => .ok (.inl settings)
  | letter :: letters =>
    match Switch.all.find? (·.letter? == some letter) with
    | none => .error (.unknown ("-" ++ letter.toString))
    | some switch => do
      match ← settings.addSwitch switch with
      | .inl settings => settings.addLetters letters
      | .inr request => return .inr request

end Settings

/-- Reads the arguments that are left, after those that led to `settings`. -/
def parseFrom (settings : Settings) : List String → Except ArgumentError Request
  | [] => .ok (.run settings)
  | argument :: rest =>
    match ArgumentForm.of argument with
    | .endOfOptions =>
      match rest with
      | [] => .ok (.run settings)
      | extra :: _ => .error (.unexpected extra)
    | .plain => .error (.unexpected argument)
    | .short letters => do
      match ← settings.addLetters letters with
      | .inl settings => parseFrom settings rest
      | .inr request => return request
    | .long name value =>
      match OptionKind.ofName? name, value with
      | none, _ => .error (.unknown argument)
      | some (.switch option), some _ => .error (.valued option.name)
      | some (.switch option), none => do
        match ← settings.addSwitch option with
        | .inl settings => parseFrom settings rest
        | .inr request => return request
      | some (.valued option), some value => do
        let settings ← settings.addValue option value
        parseFrom settings rest
      | some (.valued option), none =>
        match rest with
        | [] => .error (.missing option.name)
        | value :: rest =>
          if isValue value then do
            let settings ← settings.addValue option value
            parseFrom settings rest
          else .error (.missing option.name)

/-- Reads the arguments. -/
def parse (arguments : List String) : Except ArgumentError Request := parseFrom {} arguments

end SessionGraph.Bench
