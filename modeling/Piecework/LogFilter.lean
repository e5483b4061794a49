import Piecework.Decimal

/-!
# Which log lines are shown

A filter is a row of directives with commas between them: a level for all
lines, or a target with or without a level for the lines of that target. The
directive with the longest fitting target decides, and of equal ones the last.
Directives for spans are read and show nothing, because no start-up line is
written inside a span.
-/

namespace Piecework

/-- How much is shown, from nothing to everything. -/
inductive Level where
  | off
  | error
  | warn
  | info
  | debug
  | trace
  deriving DecidableEq, Repr

namespace Level

/-- The position of a level in order of detail. -/
def rank : Level → Nat
  | off => 0
  | error => 1
  | warn => 2
  | info => 3
  | debug => 4
  | trace => 5

/-- All levels in order of detail. -/
def all : List Level := [off, error, warn, info, debug, trace]

/-- The name of a level in lower case. -/
def name : Level → String
  | off => "off"
  | error => "error"
  | warn => "warn"
  | info => "info"
  | debug => "debug"
  | trace => "trace"

/-- The level written by its name in any case or by its position. -/
def ofChars? (cs : List Char) : Option Level :=
  match Decimal.unsigned? wordMax cs with
  | some n => all[n]?
  | none => all.find? fun l => l.name.toList = cs.map Char.toLower

end Level

/-- A line of a filter: the level for all lines, for the lines of a target, or for a span. -/
inductive Directive where
  | everywhere (l : Level)
  | target (name : List Char) (l : Level)
  | span
  deriving DecidableEq, Repr

namespace Directive

/-- A character that a directive may start with, apart from the bracket of a span. -/
def isStart (c : Char) : Bool :=
  c.isAlphanum || c == '-' || c == ':' || c == '_' || 128 ≤ c.toNat

/-- The level after an equals sign; none at all shows everything. -/
def level? (cs : List Char) : Option Level := if cs.isEmpty then some .trace else Level.ofChars? cs

/-- The directive written by some characters. -/
def ofChars? (cs : List Char) : Option Directive :=
  let name := cs.takeWhile (· ≠ '=')
  if cs.head? = some '[' ∨ (isStart (cs.headD ' ') ∧ name.contains '[') then some .span
  else if !isStart (cs.headD ' ') then none
  else match cs.dropWhile (· ≠ '='), Level.ofChars? name with
    | [], some l => some (.everywhere l)
    | [], none => some (.target name .trace)
    | _ :: level, _ => (level? level).map (.target name)

/-- The length of the target that makes a directive fit a line's target, and its level. -/
def fit? (target : List Char) : Directive → Option (Nat × Level)
  | .everywhere l => some (0, l)
  | .target name l => if name.isPrefixOf target then some (name.length + 1, l) else none
  | .span => none

end Directive

/-- A row of directives. -/
abbrev LogFilter := List Directive

namespace LogFilter

/-- The parts between commas; nothing after the last comma is no part. -/
def parts : List Char → List (List Char)
  | [] => []
  | c :: cs =>
    if c = ',' then [] :: parts cs
    else match parts cs with
      | [] => [[c]]
      | p :: ps => (c :: p) :: ps

/-- The characters without space around them. -/
def trim (cs : List Char) : List Char :=
  ((cs.dropWhile (· == ' ')).reverse.dropWhile (· == ' ')).reverse

/-- The written directives of a filter, each read or refused; empty parts are none. -/
def directives (text : String) : List (Option Directive) :=
  ((parts text.toList).filter (! ·.isEmpty)).map fun p => Directive.ofChars? (trim p)

/-- A filter without directives shows errors. -/
def orErrors (f : LogFilter) : LogFilter := if f.isEmpty then [.everywhere .error] else f

/-- The filter of a text all of whose directives can be read. -/
def ofText? (text : String) : Option LogFilter := ((directives text).mapM id).map orErrors

/-- The filter of a text without the directives that cannot be read. -/
def ofReadable (text : String) : LogFilter := orErrors ((directives text).filterMap id)

/-- The level of the best of some fits: the longest target, and of equal ones the last. -/
def best : List (Nat × Level) → Nat × Level
  | [] => (0, .off)
  | (n, l) :: rest => if rest.any (n ≤ ·.1) then best rest else (n, l)

/-- Whether a line of a target and a level is shown. -/
def shows (f : LogFilter) (target : String) (l : Level) : Bool :=
  l.rank ≤ (best (f.filterMap (Directive.fit? target.toList))).2.rank

/-- The filter of a setting if it is made and can be read, and of a default otherwise. -/
def ofSetting (setting : Option String) (default : String) : LogFilter :=
  (setting.bind ofText?).getD (ofReadable default)

end LogFilter

end Piecework
