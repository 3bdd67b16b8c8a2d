import OnMesh.Wire.Reader

/-!
# Frame headers

Every frame starts with twelve bytes: wire version, kind of message,
sender (eight bytes) and payload length (two bytes), numbers least
significant byte first.
-/

namespace OnMesh.Wire

inductive Kind where
  | delta
  | snapshotRequest
  | snapshot
deriving DecidableEq

namespace Kind

def text : Kind → String
  | delta => "delta"
  | snapshotRequest => "snapshot_request"
  | snapshot => "snapshot"

def toByte : Kind → UInt8
  | delta => 1
  | snapshotRequest => 2
  | snapshot => 3

def ofByte (b : UInt8) : Except Fault Kind :=
  if b = 1 then .ok delta
  else if b = 2 then .ok snapshotRequest
  else if b = 3 then .ok snapshot
  else .error (.unknownKind b)

theorem ofByte_toByte (k : Kind) : ofByte k.toByte = .ok k := by cases k <;> rfl

end Kind

/-- What stands in front of a message. -/
structure Header where
  version : UInt8
  kind : Kind
  /-- The node that put the frame on the link. -/
  sender : NodeId
  payloadLength : UInt16
deriving DecidableEq

namespace Header

def size : Nat := 12

def currentVersion : UInt8 := 1

/-- A header for a payload that is not yet laid out. -/
def make (kind : Kind) (sender : NodeId) : Header :=
  ⟨currentVersion, kind, sender, 0⟩

def toBytes (h : Header) : List UInt8 :=
  h.version :: h.kind.toByte :: h.sender.toBytes ++
    Bytes.toBytes 2 h.payloadLength.toNat

@[simp]
theorem length_toBytes (h : Header) : h.toBytes.length = size := by
  simp [toBytes, NodeId.toBytes, size]

def reader : Reader Header := do
  Reader.need size
  let version := UInt8.ofNat (← Reader.number 1)
  if version ≠ currentVersion then
    Reader.refuse (.invalidWire (.unsupportedVersion version))
  match Kind.ofByte (UInt8.ofNat (← Reader.number 1)) with
  | .error fault => Reader.refuse fault
  | .ok kind =>
    let sender := NodeId.ofBytes (← Reader.bytes 8)
    let payloadLength := UInt16.ofNat (← Reader.number 2)
    return ⟨version, kind, sender, payloadLength⟩

/-- Read a header and hand back the bytes behind it. -/
def parse (bs : List UInt8) : Except Fault (Header × List UInt8) :=
  reader.read bs

end Header

end OnMesh.Wire
