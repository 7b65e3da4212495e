import ZigCst.Text.Basic

/-!
# Hexadecimal digits
-/

namespace ZigCst
namespace Hex

/-- The value of a hexadecimal digit. -/
def digit? (c : Char) : Option Nat :=
  if '0' ≤ c ∧ c ≤ '9' then some (c.toNat - '0'.toNat)
  else if 'a' ≤ c ∧ c ≤ 'f' then some (c.toNat - 'a'.toNat + 10)
  else if 'A' ≤ c ∧ c ≤ 'F' then some (c.toNat - 'A'.toNat + 10)
  else none

def isDigit (c : Char) : Bool := (digit? c).isSome

/-- The number that digits denote, most significant first. -/
def value (ds : Text) : Nat :=
  ds.foldl (fun n c => n * 16 + (digit? c).getD 0) 0

/-- The scalar value with a given number: neither a surrogate nor too large. -/
def scalar? (n : Nat) : Option Char :=
  if n.isValidChar then some (Char.ofNat n) else none

end Hex
end ZigCst
