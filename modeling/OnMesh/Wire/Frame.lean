import OnMesh.Wire.Message

/-!
# Frames

A frame is a header and a message.  Frames are written for one link-layer packet
of at most 1280 bytes; a frame is read only if its payload is exactly as long as
the header says and the message uses all of it.
-/

namespace OnMesh.Wire

/-- A message on its way over one link. -/
structure Frame where
  header : Header
  message : Message
deriving DecidableEq

namespace Frame

def maxSize : Nat := 1280

/-- The most contexts, with one prefix each, that fit one frame, both as a
snapshot and as a delta that replaces every prefix and context. -/
def maxContexts : Nat :=
  min
    ((maxSize - Header.size - 8 - 2 * 2) / (prefixEntrySize + contextEntrySize))
    ((maxSize - Header.size - 2 * 8 - 4 * 2) /
      (prefixEntrySize + prefixSize + contextEntrySize + 1))

def make (sender : NodeId) (message : Message) : Frame :=
  ⟨Header.make message.kind sender, message⟩

def sender (f : Frame) : NodeId := f.header.sender

/-- The bytes of a frame.  Kind and payload length are those of the message,
whatever the header says. -/
def serialize (f : Frame) : Except Fault (List UInt8) := do
  let payload ← f.message.payload
  let total := Header.size + payload.length
  if maxSize < total then
    .error (.invalidWire (.tooLarge total maxSize))
  else
    let header := { f.header with
      kind := f.message.kind, payloadLength := UInt16.ofNat payload.length }
    .ok (header.toBytes ++ payload)

/-- Take a frame that uses all bytes. -/
def reader : Reader Frame := do
  let header ← Header.reader
  let remaining ← Reader.remaining
  if remaining ≠ header.payloadLength.toNat then
    Reader.refuse
      (.invalidWire (.lengthMismatch header.payloadLength.toNat remaining))
  let message ← Message.reader header.kind
  let trailing ← Reader.remaining
  if trailing ≠ 0 then
    Reader.refuse (.invalidWire (.trailing trailing))
  return ⟨header, message⟩

def parse (bs : List UInt8) : Except Fault Frame := (reader.read bs).map (·.1)

end Frame

end OnMesh.Wire
