import Piecework.Blank
import Piecework.Json

/-!
# Quoted strings in log lines

A string is shown between double quotes. Quotes, backslashes and characters
that have no visible form of their own are escaped, the rest stands as it is.
-/

namespace Piecework.Quoted

/-- The code points without a visible form of their own that are not blank: controls, formatting
characters, combining marks and private ones, as closed ranges. -/
def invisibleRanges : List (Nat × Nat) :=
  [(0x0, 0x1F), (0x7F, 0x9F), (0xAD, 0xAD), (0x300, 0x36F), (0x483, 0x489), (0x591, 0x5BD),
    (0x600, 0x605), (0x610, 0x61A), (0x61C, 0x61C), (0x64B, 0x65F), (0x180E, 0x180E),
    (0x1AB0, 0x1ACE), (0x1DC0, 0x1DFF), (0x200B, 0x200F), (0x202A, 0x202E), (0x2060, 0x206F),
    (0x20D0, 0x20F0), (0xE000, 0xF8FF), (0xFE00, 0xFE0F), (0xFE20, 0xFE2F), (0xFEFF, 0xFEFF),
    (0xFFF0, 0xFFFB), (0xFFFE, 0xFFFF), (0xE0000, 0x10FFFF)]

/-- A character that stands as it is. -/
def isVisible (c : Char) : Bool :=
  c == ' '
    || (!isBlank c && !invisibleRanges.any fun r => decide (r.1 ≤ c.toNat ∧ c.toNat ≤ r.2))

/-- The hexadecimal digits of a number without leading zeros. -/
def hexDigits (n : Nat) : List Char :=
  if n < 16 then [Json.hexDigit n] else hexDigits (n / 16) ++ [Json.hexDigit (n % 16)]
termination_by n
decreasing_by omega

/-- A character between quotes. -/
def escape (c : Char) : List Char :=
  if c = '"' then ['\\', '"']
  else if c = '\\' then ['\\', '\\']
  else if c = '\n' then ['\\', 'n']
  else if c = '\r' then ['\\', 'r']
  else if c = '\t' then ['\\', 't']
  else if c = '\x00' then ['\\', '0']
  else if isVisible c then [c]
  else '\\' :: 'u' :: '\x7b' :: hexDigits c.toNat ++ ['\x7d']

/-- A string with its quotes. -/
def text (s : String) : String := String.ofList ('"' :: s.toList.flatMap escape ++ ['"'])

end Piecework.Quoted
