import OnMesh.Address.Text
import OnMesh.Prefix

/-!
# Prefix text

A prefix is written as its network address, a slash and its length.
Faults in reading are reported in the order slash, address, length,
and show the whole text.
-/

namespace OnMesh.Prefix

def text (p : Prefix) : String :=
  String.ofList (p.network.chars ++ '/' :: Digits.decimal p.length)

def tagged (p : Prefix) : String := "Prefix(" ++ p.text ++ ")"

def parse (s : String) : Except Fault Prefix :=
  match s.toList.dropWhile (· != '/') with
  | [] => .error (.invalidPrefix (.noLength s))
  | _ :: length =>
    match Address.ofChars? (s.toList.takeWhile (· != '/')) with
    | none => .error (.invalidPrefix (.badAddress s))
    | some a =>
      match Digits.byte? length with
      | none => .error (.invalidPrefix (.badLength s))
      | some n => make a n

end OnMesh.Prefix
