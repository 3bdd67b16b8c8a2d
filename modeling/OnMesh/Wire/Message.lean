import OnMesh.Delta
import OnMesh.Wire.Header

/-!
# Messages

The three messages of the mesh and their layout.  Lists stand behind their count
in two bytes, and all entries of a list take the same number of bytes.
-/

namespace OnMesh.Wire

/-- What a frame says. -/
inductive Message where
  | delta (delta : Delta)
  /-- Asks a neighbour for its data if they are newer than the version held. -/
  | snapshotRequest (held : Version)
  | snapshot (data : NetworkData)
deriving DecidableEq

def Message.kind : Message → Kind
  | delta _ => .delta
  | snapshotRequest _ => .snapshotRequest
  | snapshot _ => .snapshot

/-! ## Sizes -/

def prefixSize : Nat := 17

def prefixEntrySize : Nat := prefixSize + 1 + 8

def contextEntrySize : Nat := 1 + prefixSize + 1

/-! ## Writing -/

def versionBytes (v : Version) : List UInt8 := Bytes.toBytes 8 v.number.toNat

def prefixBytes (p : Prefix) : List UInt8 :=
  Bytes.toBytes 16 p.network.bits.toNat ++ [UInt8.ofNat p.length]

def prefixEntryBytes (e : PrefixEntry) : List UInt8 :=
  prefixBytes e.net ++ e.flags.bits :: e.owner.toBytes

def contextEntryBytes (c : ContextEntry) : List UInt8 :=
  c.id.value :: prefixBytes c.net ++ [if c.compress then 1 else 0]

/-- The bytes of a list behind its count, which has to fit two bytes. -/
def listBytes {α : Type} (item : α → List UInt8) (xs : List α) :
    Except Fault (List UInt8) :=
  if 65535 < xs.length then .error (.invalidWire (.tooManyEntries xs.length))
  else .ok (Bytes.toBytes 2 xs.length ++ xs.flatMap item)

def deltaBytes (d : Delta) : Except Fault (List UInt8) := do
  let prefixesAdded ← listBytes prefixEntryBytes d.prefixesAdded
  let prefixesRemoved ← listBytes prefixBytes d.prefixesRemoved
  let contextsAdded ← listBytes contextEntryBytes d.contextsAdded
  let contextsRemoved ← listBytes (fun id => [id.value]) d.contextsRemoved
  return versionBytes d.base ++ versionBytes d.target ++ prefixesAdded ++
    prefixesRemoved ++
    contextsAdded ++ contextsRemoved

def snapshotBytes (d : NetworkData) : Except Fault (List UInt8) := do
  let prefixes ← listBytes prefixEntryBytes d.prefixEntries
  let contexts ← listBytes contextEntryBytes d.contextEntries
  return versionBytes d.version ++ prefixes ++ contexts

def Message.payload : Message → Except Fault (List UInt8)
  | delta d => deltaBytes d
  | snapshotRequest held => .ok (versionBytes held)
  | snapshot d => snapshotBytes d

/-! ## Reading -/

def versionReader : Reader Version :=
  do return ⟨UInt64.ofNat (← Reader.number 8)⟩

/-- Take a prefix; bits past its length are cleared. -/
def prefixReader : Reader Prefix := do
  let bits ← Reader.number 16
  let length ← Reader.number 1
  match Prefix.make ⟨BitVec.ofNat 128 bits⟩ length with
  | .error fault => Reader.refuse fault
  | .ok p => return p

def prefixEntryReader : Reader PrefixEntry := do
  let net ← prefixReader
  let flags : Flags := ⟨UInt8.ofNat (← Reader.number 1)⟩
  let owner := NodeId.ofBytes (← Reader.bytes 8)
  return ⟨net, flags, owner⟩

def contextIdReader : Reader ContextId :=
  do return ⟨UInt8.ofNat (← Reader.number 1)⟩

/-- Take a context entry; any byte but zero says that it may be used. -/
def contextEntryReader : Reader ContextEntry := do
  let id ← contextIdReader
  let net ← prefixReader
  let compress := (← Reader.number 1) != 0
  return ⟨id, net, compress⟩

/-- Take a delta, which has to end at a later version than it starts at. -/
def deltaReader : Reader Delta := do
  Reader.need 16
  let base ← versionReader
  let target ← versionReader
  if target ≤ base then
    Reader.refuse (.invalidWire (.notAdvancing base target))
  let prefixesAdded ← Reader.counted prefixEntrySize prefixEntryReader
  let prefixesRemoved ← Reader.counted prefixSize prefixReader
  let contextsAdded ← Reader.counted contextEntrySize contextEntryReader
  let contextsRemoved ← Reader.counted 1 contextIdReader
  return ⟨base, target, prefixesAdded, prefixesRemoved, contextsAdded,
    contextsRemoved⟩

def snapshotRequestReader : Reader Version := do
  Reader.need 8
  versionReader

def snapshotReader : Reader NetworkData := do
  Reader.need 8
  let version ← versionReader
  let prefixes ← Reader.counted prefixEntrySize prefixEntryReader
  let contexts ← Reader.counted contextEntrySize contextEntryReader
  return NetworkData.ofParts version prefixes contexts

def Message.reader : Kind → Reader Message
  | .delta => do return .delta (← deltaReader)
  | .snapshotRequest => do return .snapshotRequest (← snapshotRequestReader)
  | .snapshot => do return .snapshot (← snapshotReader)

end OnMesh.Wire
