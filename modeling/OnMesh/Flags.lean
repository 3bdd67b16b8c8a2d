import OnMesh.Fault

/-!
# Prefix flags

Eight bits of which five have a meaning and a letter.  The other
bits are carried along.
-/

namespace OnMesh

structure Flags where
  bits : UInt8
deriving DecidableEq, Inhabited

namespace Flags

def none : Flags := ⟨0⟩

def preferredBit : UInt8 := 0x01

def slaacBit : UInt8 := 0x02

def defaultRouteBit : UInt8 := 0x04

def onMeshBit : UInt8 := 0x08

def stableBit : UInt8 := 0x10

def letters : List (Char × UInt8) :=
  [('p', preferredBit), ('a', slaacBit), ('r', defaultRouteBit),
    ('o', onMeshBit), ('s', stableBit)]

def has (f : Flags) (bit : UInt8) : Bool := f.bits &&& bit != 0

def isPreferred (f : Flags) : Bool := f.has preferredBit

def isSlaac (f : Flags) : Bool := f.has slaacBit

def isDefaultRoute (f : Flags) : Bool := f.has defaultRouteBit

def isOnMesh (f : Flags) : Bool := f.has onMeshBit

def isStable (f : Flags) : Bool := f.has stableBit

def union (f g : Flags) : Flags := ⟨f.bits ||| g.bits⟩

def contains (f g : Flags) : Bool := f.bits &&& g.bits == g.bits

def text (f : Flags) : String :=
  String.ofList ((letters.filter fun l => f.has l.2).map (·.1))

def tagged (f : Flags) : String := "Flags(" ++ f.text ++ ")"

/-- Add the flags of the given letters; the text is shown in the fault. -/
def addLetters (s : String) (f : Flags) : List Char → Except Fault Flags
  | [] => .ok f
  | c :: cs =>
    match letters.find? (·.1 == c) with
    | Option.none => .error (.invalidFlags (.unknownLetter c s))
    | some (_, bit) => addLetters s ⟨f.bits ||| bit⟩ cs

def parse (s : String) : Except Fault Flags := addLetters s none s.toList

end Flags

end OnMesh
