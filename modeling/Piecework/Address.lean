import Piecework.Config

/-!
# Addresses to listen on

An address is a host and a port with a colon between them; a host may contain
colons of its own, so the last one counts. Whether the host exists is a
question to the network and not asked here.
-/

namespace Piecework

/-- Why an address cannot be listened on. -/
inductive AddressError where
  | noPort
  | badPort
  deriving DecidableEq, Repr

/-- The wording of an address error. -/
def AddressError.message : AddressError → String
  | noPort => "invalid socket address"
  | badPort => "invalid port value"

/-- A host and a port. -/
structure Address where
  host : String
  port : Nat
  deriving DecidableEq, Repr

/-- The address written by a text. -/
def Address.ofText (text : String) : Except AddressError Address :=
  let cs := text.toList.reverse
  match cs.dropWhile (· ≠ ':') with
  | [] => .error .noPort
  | _ :: host =>
    match Decimal.unsigned? portMax (cs.takeWhile (· ≠ ':')).reverse with
    | some port => .ok ⟨String.ofList host.reverse, port⟩
    | none => .error .badPort

end Piecework
