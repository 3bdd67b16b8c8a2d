/-!
# Digits

Numbers written in a given base, and the reading of digits.  Hexadecimal
digits are written in lower case and read in either case; only the ASCII
digits count as digits.
-/

namespace OnMesh.Digits

def hexValue? (c : Char) : Option Nat :=
  if '0' ≤ c ∧ c ≤ '9' then some (c.toNat - 48)
  else if 'a' ≤ c ∧ c ≤ 'f' then some (c.toNat - 87)
  else if 'A' ≤ c ∧ c ≤ 'F' then some (c.toNat - 55)
  else none

def isHex (c : Char) : Bool := (hexValue? c).isSome

def isDecimal (c : Char) : Bool := '0' ≤ c && c ≤ '9'

def number (base : Nat) (cs : List Char) : Nat :=
  cs.foldl (fun n c => n * base + (hexValue? c).getD 0) 0

/-- The lowest `width` hexadecimal digits of a number, most significant
first. -/
def hexFixed : Nat → Nat → List Char
  | 0, _ => []
  | width + 1, n => hexFixed width (n / 16) ++ [Nat.digitChar (n % 16)]

def hex (n : Nat) : List Char := Nat.toDigits 16 n

def decimal (n : Nat) : List Char := Nat.toDigits 10 n

@[simp]
theorem length_hexFixed (width n : Nat) :
    (hexFixed width n).length = width := by
  induction width generalizing n with
  | zero => rfl
  | succ width ih => simp [hexFixed, ih]

/-- A number below 256 in decimal: an optional plus sign, then digits;
leading zeros are fine. -/
def byte? (cs : List Char) : Option Nat :=
  let digits := match cs with
    | '+' :: rest => rest
    | _ => cs
  if digits.isEmpty || !digits.all isDecimal then none
  else if number 10 digits ≤ 255 then some (number 10 digits) else none

end OnMesh.Digits
