import OnMesh.Address
import OnMesh.Text.Digits

/-!
# Address text

An address is written as eight groups in hexadecimal between colons, with the
first longest run of two or more zero groups written as `::`; an address that
embeds a dotted quad behind `ffff` shows it as such.  Reading takes groups of
one to four digits of either case, one `::` that stands for at least one group,
and a dotted quad in place of the last two groups.
-/

namespace OnMesh.Address

/-! ## Writing -/

def joinGroups (gs : List Nat) : List Char :=
  [':'].intercalate (gs.map Digits.hex)

/-- Start and length of the first longest run of zeros. -/
structure ZeroRun where
  start : Nat
  length : Nat
deriving DecidableEq

def leadingZeros (gs : List Nat) : Nat := (gs.takeWhile (· == 0)).length

/-- The first longest run of zeros in a list of groups that begins
at the given place. -/
def longestZeroRun (place : Nat) : List Nat → ZeroRun
  | [] => ⟨place, 0⟩
  | g :: gs =>
    let here := leadingZeros (g :: gs)
    let later := longestZeroRun (place + 1) gs
    if later.length ≤ here then ⟨place, here⟩ else later

/-- Four numbers below 256 in decimal between dots. -/
def dottedText (high low : Nat) : List Char :=
  ['.'].intercalate
    ([high / 256, high % 256, low / 256, low % 256].map Digits.decimal)

def chars (a : Address) : List Char :=
  match a.groups with
  | [0, 0, 0, 0, 0, 0xffff, high, low] =>
    "::ffff:".toList ++ dottedText high low
  | gs =>
    let run := longestZeroRun 0 gs
    if run.length ≤ 1 then joinGroups gs
    else joinGroups (gs.take run.start) ++ [':', ':'] ++
        joinGroups (gs.drop (run.start + run.length))

def text (a : Address) : String := String.ofList a.chars

/-! ## Reading -/

/-- The rest of the text behind a separator, which the first item of
a row goes without. -/
def separated (separator : Char) (first : Bool) (cs : List Char) :
    Option (List Char) :=
  if first then some cs
  else match cs with
    | c :: rest => if c = separator then some rest else none
    | [] => none

/-- A group of one to four hexadecimal digits, and the text behind it. -/
def readGroup? (cs : List Char) : Option (Nat × List Char) :=
  let digits := cs.takeWhile Digits.isHex
  if digits.length = 0 ∨ 4 < digits.length then none
  else some (Digits.number 16 digits, cs.dropWhile Digits.isHex)

/-- A number below 256 in one to three decimal digits without a leading zero,
and the text behind it. -/
def readOctet? (cs : List Char) : Option (Nat × List Char) :=
  let digits := cs.takeWhile Digits.isDecimal
  let value := Digits.number 10 digits
  if digits.length = 0 ∨ 3 < digits.length ∨ 255 < value then none
  else if 1 < digits.length ∧ digits.head? = some '0' then none
  else some (value, cs.dropWhile Digits.isDecimal)

/-- So many octets between dots, and the text behind them. -/
def readOctets? : Nat → Bool → List Char → Option (List Nat × List Char)
  | 0, _, cs => some ([], cs)
  | count + 1, first, cs => do
    let body ← separated '.' first cs
    let (octet, rest) ← readOctet? body
    let (octets, rest) ← readOctets? count false rest
    some (octet :: octets, rest)

/-- A dotted quad as two groups, and the text behind it. -/
def readDotted? (cs : List Char) : Option ((Nat × Nat) × List Char) :=
  match readOctets? 4 true cs with
  | some ([a, b, c, d], rest) => some ((a * 256 + b, c * 256 + d), rest)
  | _ => none

/-- A row of groups between colons, as far as the text goes along. -/
structure Row where
  groups : List Nat
  /-- The row ends in a dotted quad. -/
  dotted : Bool
  rest : List Char

/-- Read at most so many groups.  A dotted quad ends the row and takes two
places. -/
def readRow : Nat → Bool → List Char → Row
  | 0, _, cs => ⟨[], false, cs⟩
  | places + 1, first, cs =>
    match separated ':' first cs with
    | none => ⟨[], false, cs⟩
    | some body =>
      match if places = 0 then none else readDotted? body with
      | some ((high, low), rest) => ⟨[high, low], true, rest⟩
      | none =>
        match readGroup? body with
        | none => ⟨[], false, cs⟩
        | some (g, rest) =>
          let row := readRow places false rest
          ⟨g :: row.groups, row.dotted, row.rest⟩

def ofChars? (cs : List Char) : Option Address :=
  let front := readRow 8 true cs
  if front.groups.length = 8 then
    if front.rest.isEmpty then some (ofGroups front.groups) else none
  else if front.dotted then none
  else match front.rest with
    | ':' :: ':' :: rest =>
      let back := readRow (7 - front.groups.length) true rest
      let zeros := 8 - front.groups.length - back.groups.length
      if back.rest.isEmpty then
        some (ofGroups (front.groups ++ List.replicate zeros 0 ++ back.groups))
      else none
    | _ => none

def parse? (s : String) : Option Address := ofChars? s.toList

end OnMesh.Address
