import VisionGraph.Text.Blank
/-!
Command lines: options with two dashes, flags, and subcommands with options of their own.

An option takes its value after an equals sign or from the next word, unless that starts with a dash. A
value is checked when the next option that is known follows or when the words have ended, so that an
unknown option is reported before a wrong value that stands in front of it.
-/

namespace VisionGraph

/-- Why words are no command line. A request for help counts as one of these. -/
inductive UsageError where
  | help
  /-- Nothing was given. -/
  | nothing
  | unknownArgument
  | unknownSubcommand
  | missingSubcommand
  /-- A value is missing, or is none of the allowed ones. -/
  | invalidValue
  /-- A value cannot be read. -/
  | malformedValue
  /-- An option that may be given once is given twice. -/
  | conflict
  /-- A flag has a value. -/
  | surplusValue
deriving DecidableEq, Repr

namespace UsageError

def message : UsageError → String
  | .help => "help was asked for"
  | .nothing => "a subcommand is needed"
  | .unknownArgument => "unexpected argument"
  | .unknownSubcommand => "unrecognized subcommand"
  | .missingSubcommand => "a subcommand is missing"
  | .invalidValue => "invalid value"
  | .malformedValue => "malformed value"
  | .conflict => "an option is given twice"
  | .surplusValue => "a flag takes no value"

/-- Asking for help is no error. -/
def exitCode : UsageError → UInt32
  | .help => 0
  | _ => 2

end UsageError

namespace Usage

/-- How often an option may be given, and what with. -/
inductive Arity where
  | flag | once | many
deriving DecidableEq, Repr

/-- An option; `check` says what is wrong with a value. -/
structure OptionSpec where
  name : String
  arity : Arity
  check : String → Option UsageError

/-- What was given so far: options with their values in order, the last option with its value if there
was one, and whether only plain words may follow. -/
structure Given where
  values : List (String × String)
  pending : Option (OptionSpec × Option String)
  trailing : Bool

namespace Given

def empty : Given := ⟨[], none, false⟩

/-- Whether the next word may be the value of an option. -/
def awaits (g : Given) : Bool :=
  match g.pending with
  | some (_, none) => true
  | _ => false

/-- Takes an option that is complete. -/
def add (g : Given) (x : OptionSpec) (value : String) : Except UsageError Given :=
  if x.arity ≠ .many && (g.values.lookup x.name).isSome then .error .conflict
  else
    match x.check value with
    | some e => .error e
    | none => .ok { g with values := g.values ++ [(x.name, value)] }

/-- Takes the pending option. -/
def settle (g : Given) : Except UsageError Given :=
  match g.pending with
  | none => .ok g
  | some (_, none) => .error .invalidValue
  | some (x, some value) => { g with pending := none }.add x value

def value? (g : Given) (name : String) : Option String := g.values.lookup name

def all (g : Given) (name : String) : List String :=
  (g.values.filter (·.1 == name)).map (·.2)

def has (g : Given) (name : String) : Bool := (g.value? name).isSome

end Given

/-- The name of a long option and the value attached to it. -/
def splitLong (word : String) : String × Option String :=
  let body := word.toList.drop 2
  let name := String.ofList (body.takeWhile (· != '='))
  match body.dropWhile (· != '=') with
  | [] => (name, none)
  | _ :: value => (name, some (String.ofList value))

/-- Takes a long option. -/
def takeLong (options : List OptionSpec) (g : Given) (word : String) : Except UsageError Given :=
  let (name, value) := splitLong word
  if name = "help" then
    match value with
    | some _ => .error .surplusValue
    | none => g.settle.bind fun _ => .error .help
  else
    match options.find? (·.name == name) with
    | none => .error .unknownArgument
    | some x =>
      match x.arity, value with
      | .flag, some _ => .error .surplusValue
      | .flag, none => g.settle.bind (·.add x "")
      | _, some value => g.settle.bind (·.add x value)
      | _, none => g.settle.map fun g => { g with pending := some (x, none) }

/-- Takes a short option; there is only the one for help. -/
def takeShort (g : Given) (word : String) : Except UsageError Given :=
  if word.toList[1]? = some 'h' then g.settle.bind fun _ => .error .help else .error .unknownArgument

/-- What follows the word that asks for help on a subcommand. -/
def helpOn (subcommands : List String) : List String → UsageError
  | [] => .help
  | [word] => if subcommands.contains word || word = "help" then .help else .unknownSubcommand
  | _ => .unknownSubcommand

/-- What is wrong with a word that is no option and no value. -/
def strayWord (subcommands : List String) (g : Given) (word : String) : UsageError :=
  if subcommands.isEmpty then .unknownArgument
  else if g.trailing && (subcommands.contains word || word = "help") then .unknownArgument
  else .unknownSubcommand

/-- Reads words up to the first subcommand, which is given with the words after it. -/
def scan (options : List OptionSpec) (subcommands : List String) (g : Given) :
    List String → Except UsageError (Given × Option (String × List String))
  | [] => .ok (g, none)
  | word :: rest =>
    if g.trailing then .error (strayWord subcommands g word)
    else if !g.awaits && subcommands.contains word then .ok (g, some (word, rest))
    else if !g.awaits && !subcommands.isEmpty && word = "help" then .error (helpOn subcommands rest)
    else if word = "--" then scan options subcommands { g with trailing := true } rest
    else if word.startsWith "--" then
      match takeLong options g word with
      | .ok g => scan options subcommands g rest
      | .error e => .error e
    else if word.startsWith "-" && word ≠ "-" then
      match takeShort g word with
      | .ok g => scan options subcommands g rest
      | .error e => .error e
    else
      match g.pending with
      | some (x, none) => scan options subcommands { g with pending := some (x, some word) } rest
      | _ => .error (strayWord subcommands g word)

/-- Reads words that hold no subcommand. -/
def read (options : List OptionSpec) (words : List String) : Except UsageError Given := do
  (← scan options [] .empty words).1.settle

/-- Reads words that hold a subcommand with options of its own. -/
def readWith (options : List OptionSpec) (subcommands : List (String × List OptionSpec)) (words : List String) :
    Except UsageError (Given × String × Given) := do
  match ← scan options (subcommands.map (·.1)) .empty words with
  | (outer, some (name, rest)) =>
    let inner ← read ((subcommands.lookup name).getD []) rest
    return (← outer.settle, name, inner)
  | (outer, none) =>
    let outer ← outer.settle
    throw (if outer.values.isEmpty then .nothing else .missingSubcommand)

/-! ### Values -/

/-- An unsigned number, possibly with a plus sign. -/
def natural? (word : String) : Option Nat :=
  match word.toList with
  | '+' :: digits => digits? digits
  | digits => digits? digits

/-- A number that may have a sign, with a zero of either sign. -/
def integer? (word : String) : Option Int :=
  match word.toList with
  | '-' :: digits => (digits? digits).map fun n => -(n : Int)
  | _ => (natural? word).map Int.ofNat

/-- A number below a bound, read as an integer first. -/
def below? (bound : Nat) (word : String) : Option Nat :=
  (integer? word).bind fun n => if 0 ≤ n ∧ n < bound then some n.toNat else none

/-- A number below a bound, without a minus sign. -/
def naturalBelow? (bound : Nat) (word : String) : Option Nat := (natural? word).filter (· < bound)

def flag (name : String) : OptionSpec := ⟨name, .flag, fun _ => none⟩

/-- A path, which is not empty. -/
def path (name : String) : OptionSpec :=
  ⟨name, .once, fun v => if v.isEmpty then some .invalidValue else none⟩

/-- A value that a reader takes. -/
def value {α : Type} (name : String) (read : String → Option α) : OptionSpec :=
  ⟨name, .once, fun v => if (read v).isSome then none else some .malformedValue⟩

/-- One of some words. -/
def choice {α : Type} (name : String) (read : String → Option α) : OptionSpec :=
  ⟨name, .once, fun v => if (read v).isSome then none else some .invalidValue⟩

end Usage

end VisionGraph
