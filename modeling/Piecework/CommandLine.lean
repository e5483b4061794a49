import Piecework.Decimal

/-!
# Command lines

A setting is given by its name, as `--name value` or `--name=value`, or by its
letter, as `-c value`, `-cvalue` or `-c=value`, and at most once. Arguments are
read from left to right, and the first problem or the first request for help
ends the reading. The environment comes afterwards and fills in what was not
given.
-/

namespace Piecework.CommandLine

/-- Why a command line is not carried out. -/
inductive Refusal where
  | help
  | usage
  deriving DecidableEq, Repr

/-- A setting, which puts its text into a record of all settings when the text is a value for it. -/
structure Setting (α : Type) where
  name : String
  letter : Option Char := none
  environment : Option String := none
  store : String → α → Option α

/-- Store any text. -/
def storeText {α : Type} (put : String → α → α) (text : String) (a : α) : Option α :=
  some (put text a)

/-- Store a number of at most `limit`. -/
def storeNumber {α : Type} (limit : Nat) (put : Nat → α → α) (text : String) (a : α) :
    Option α :=
  (Decimal.unsigned? limit text.toList).map (put · a)

/-- What one argument is; a value may be attached to a setting. -/
inductive Argument (α : Type) where
  | ending
  | help
  | setting (s : Setting α) (attached : Option String)
  | stray

/-- The value attached to a letter, after at most one equals sign. -/
def attachedToLetter : List Char → Option String
  | [] => none
  | '=' :: cs => some (String.ofList cs)
  | cs => some (String.ofList cs)

/-- The value attached to a name, from its equals sign on. -/
def attachedToName : List Char → Option String
  | [] => none
  | _ :: cs => some (String.ofList cs)

/-- What an argument with these characters is. -/
def Argument.ofChars {α : Type} (settings : List (Setting α)) : List Char → Argument α
  | ['-', '-'] => .ending
  | '-' :: '-' :: cs =>
    let name := String.ofList (cs.takeWhile (· ≠ '='))
    let attached := attachedToName (cs.dropWhile (· ≠ '='))
    if name = "help" then
      if attached.isNone then .help else .stray
    else match settings.find? (·.name = name) with
      | some s => .setting s attached
      | none => .stray
  | '-' :: c :: cs =>
    if c = 'h' then .help
    else match settings.find? (·.letter = some c) with
      | some s => .setting s (attachedToLetter cs)
      | none => .stray
  | _ => .stray

/-- Whether an argument of its own can be a value. -/
def isValue (arg : String) : Bool := arg == "-" || arg.toList.head? != some '-'

/-- What has been given: the names of the settings and the record of their values. -/
structure Given (α : Type) where
  names : List String := []
  values : α

namespace Given

/-- Take a value for a setting that has none yet. -/
def put {α : Type} (g : Given α) (s : Setting α) (text : String) : Except Refusal (Given α) :=
  if g.names.contains s.name then .error .usage
  else match s.store text g.values with
    | none => .error .usage
    | some values => .ok ⟨s.name :: g.names, values⟩

/-- Read the arguments. -/
def readAll {α : Type} (settings : List (Setting α)) (g : Given α) :
    List String → Except Refusal (Given α)
  | [] => .ok g
  | [arg] =>
    match Argument.ofChars settings arg.toList with
    | .ending => .ok g
    | .help => .error .help
    | .setting s (some text) => g.put s text
    | _ => .error .usage
  | arg :: next :: rest =>
    match Argument.ofChars settings arg.toList with
    | .help => .error .help
    | .setting s (some text) =>
      match g.put s text with
      | .error e => .error e
      | .ok g => readAll settings g (next :: rest)
    | .setting s none =>
      if isValue next then
        match g.put s next with
        | .error e => .error e
        | .ok g => readAll settings g rest
      else .error .usage
    | _ => .error .usage

/-- Fill in from the environment what was not given. -/
def fill {α : Type} (environment : String → Option String) (g : Given α) :
    List (Setting α) → Except Refusal (Given α)
  | [] => .ok g
  | s :: rest =>
    match s.environment.bind environment with
    | none => fill environment g rest
    | some text =>
      if g.names.contains s.name then fill environment g rest
      else match g.put s text with
        | .error e => .error e
        | .ok g => fill environment g rest

end Given

/-- The values of a command line in an environment, over the values of settings not given. -/
def read {α : Type} (settings : List (Setting α)) (default : α)
    (environment : String → Option String) (args : List String) : Except Refusal α :=
  match Given.readAll settings { values := default } args with
  | .error e => .error e
  | .ok g => (g.fill environment settings).map (·.values)

end Piecework.CommandLine
