import OnMesh.Proofs.Delta
import OnMesh.Proofs.Wire.Reading
import OnMesh.Wire.Frame

/-!
# The grammar of frames

A spelling is a frame field by field as it stands in its bytes, which is more
than what the frame says: a prefix has all bits of an address, a context any
byte for its use, a snapshot its entries in any order and as often as they come.
The types of spellings are the grammar, so there is no spelling of a byte string
that is no frame.  Every byte string has one spelling at most, and it is read
exactly if it has one, as what the spelling means.
-/

namespace OnMesh.Wire

variable {σ : Type}

/-! ## Spellings -/

/-- An address and a length byte; the bits past the length may be anything. -/
structure SpelledPrefix where
  address : Address
  length : UInt8
  length_le : length.toNat ≤ 128

structure SpelledPrefixEntry where
  net : SpelledPrefix
  flags : Flags
  owner : NodeId

/-- A context id, a prefix and a byte that says whether the
context may be used. -/
structure SpelledContextEntry where
  id : ContextId
  net : SpelledPrefix
  compress : UInt8

/-- Two versions, the second one later, and four lists. -/
@[ext]
structure SpelledDelta where
  base : Version
  target : Version
  advances : base < target
  prefixesAdded : Counted SpelledPrefixEntry
  prefixesRemoved : Counted SpelledPrefix
  contextsAdded : Counted SpelledContextEntry
  contextsRemoved : Counted ContextId

@[ext]
structure SpelledSnapshot where
  version : Version
  prefixes : Counted SpelledPrefixEntry
  contexts : Counted SpelledContextEntry

/-- What stands behind the header. -/
inductive SpelledBody where
  | delta (d : SpelledDelta)
  | snapshotRequest (held : Version)
  | snapshot (d : SpelledSnapshot)

namespace SpelledPrefix

def bytes (s : SpelledPrefix) : List UInt8 :=
  Bytes.toBytes 16 s.address.bits.toNat ++ [s.length]

/-- The bits past the length are cleared. -/
def value (s : SpelledPrefix) : Prefix :=
  Prefix.ofAddress s.address s.length.toNat s.length_le

end SpelledPrefix

namespace SpelledPrefixEntry

def bytes (s : SpelledPrefixEntry) : List UInt8 :=
  s.net.bytes ++ s.flags.bits :: s.owner.toBytes

def value (s : SpelledPrefixEntry) : PrefixEntry :=
  ⟨s.net.value, s.flags, s.owner⟩

end SpelledPrefixEntry

namespace SpelledContextEntry

def bytes (s : SpelledContextEntry) : List UInt8 :=
  s.id.value :: s.net.bytes ++ [s.compress]

/-- Any byte but zero says that the context may be used. -/
def value (s : SpelledContextEntry) : ContextEntry :=
  ⟨s.id, s.net.value, s.compress != 0⟩

end SpelledContextEntry

def contextIdBytes (id : ContextId) : List UInt8 := [id.value]

namespace SpelledDelta

def bytes (s : SpelledDelta) : List UInt8 :=
  versionBytes s.base ++ (versionBytes s.target ++
    (countedBytes SpelledPrefixEntry.bytes s.prefixesAdded.items ++
      (countedBytes SpelledPrefix.bytes s.prefixesRemoved.items ++
        (countedBytes SpelledContextEntry.bytes s.contextsAdded.items ++
          countedBytes contextIdBytes s.contextsRemoved.items))))

/-- The lists are kept as they stand, in their order and with their repeats. -/
def value (s : SpelledDelta) : Delta where
  base := s.base
  target := s.target
  prefixesAdded := s.prefixesAdded.items.map SpelledPrefixEntry.value
  prefixesRemoved := s.prefixesRemoved.items.map SpelledPrefix.value
  contextsAdded := s.contextsAdded.items.map SpelledContextEntry.value
  contextsRemoved := s.contextsRemoved.items

end SpelledDelta

namespace SpelledSnapshot

def bytes (s : SpelledSnapshot) : List UInt8 :=
  versionBytes s.version ++
    (countedBytes SpelledPrefixEntry.bytes s.prefixes.items ++
    countedBytes SpelledContextEntry.bytes s.contexts.items)

def prefixEntries (s : SpelledSnapshot) : List PrefixEntry :=
  s.prefixes.items.map SpelledPrefixEntry.value

def contextEntries (s : SpelledSnapshot) : List ContextEntry :=
  s.contexts.items.map SpelledContextEntry.value

/-- A later entry wins over an earlier one for the same prefix or context id. -/
def value (s : SpelledSnapshot) : NetworkData :=
  NetworkData.ofParts s.version s.prefixEntries s.contextEntries

end SpelledSnapshot

namespace SpelledBody

def kind : SpelledBody → Kind
  | delta _ => .delta
  | snapshotRequest _ => .snapshotRequest
  | snapshot _ => .snapshot

def bytes : SpelledBody → List UInt8
  | delta d => d.bytes
  | snapshotRequest held => versionBytes held
  | snapshot d => d.bytes

def value : SpelledBody → Message
  | delta d => .delta d.value
  | snapshotRequest held => .snapshotRequest held
  | snapshot d => .snapshot d.value

end SpelledBody

/-- A sender and a body whose length can be announced in two bytes. -/
@[ext]
structure SpelledFrame where
  sender : NodeId
  body : SpelledBody
  length_le : body.bytes.length ≤ 65535

namespace SpelledFrame

/-- Wire version 1, kind of message, eight bytes of sender, two bytes that say
how many bytes follow, and those. -/
def bytes (s : SpelledFrame) : List UInt8 :=
  1 :: s.body.kind.toByte ::
    (s.sender.toBytes ++ (Bytes.toBytes 2 s.body.bytes.length ++ s.body.bytes))

/-- The frame that is spelled. -/
def value (s : SpelledFrame) : Frame where
  header := ⟨Header.currentVersion, s.body.kind, s.sender,
    UInt16.ofNat s.body.bytes.length⟩
  message := s.body.value

end SpelledFrame

/-! ## Entries are read as they are spelled -/

theorem SpelledPrefix.length_bytes (s : SpelledPrefix) :
    s.bytes.length = prefixSize := by
  simp [bytes, prefixSize]

theorem SpelledPrefixEntry.length_bytes (s : SpelledPrefixEntry) :
    s.bytes.length = prefixEntrySize := by
  simp [bytes, SpelledPrefix.length_bytes, prefixEntrySize, NodeId.toBytes]

theorem SpelledContextEntry.length_bytes (s : SpelledContextEntry) :
    s.bytes.length = contextEntrySize := by
  simp [bytes, SpelledPrefix.length_bytes, contextEntrySize]
  omega

theorem length_contextIdBytes (id : ContextId) :
    (contextIdBytes id).length = 1 := rfl

theorem length_versionBytes (v : Version) : (versionBytes v).length = 8 :=
  Bytes.length_toBytes _ _

theorem toBytes_ofBytes {bs : List UInt8} (h : bs.length = 8) :
    (NodeId.ofBytes bs).toBytes = bs := by
  have hlt := Bytes.ofBytes_lt bs
  rw [h] at hlt
  rw [NodeId.ofBytes, NodeId.toBytes, UInt64.toNat_ofNat_of_lt' hlt, ← h,
    Bytes.toBytes_ofBytes]

variable {bs rest : List UInt8}

theorem reads_version_iff {v : Version} :
    Reads versionReader bs v rest ↔ bs = versionBytes v ++ rest := by
  simp only [versionReader, reads_bind_iff, reads_number_iff, reads_pure_iff]
  constructor
  · rintro ⟨n, mid, ⟨hlt, rfl⟩, rfl, rfl⟩
    rw [versionBytes, UInt64.toNat_ofNat_of_lt' hlt]
  · rintro rfl
    exact ⟨v.number.toNat, rest,
      ⟨v.number.toNat_lt, rfl⟩, by rw [UInt64.ofNat_toNat], rfl⟩

theorem recognizes_net :
    Recognizes prefixReader SpelledPrefix.bytes SpelledPrefix.value := by
  intro bs p rest
  simp only [prefixReader, reads_bind_iff, reads_number_iff 16, reads_byte_iff]
  constructor
  · rintro ⟨bits, mid, ⟨hbits, rfl⟩, n, mid', ⟨length, rfl, rfl⟩, h⟩
    by_cases hle : length.toNat ≤ 128
    · rw [Prefix.make, dif_pos hle] at h
      obtain ⟨rfl, rfl⟩ := reads_pure_iff.1 h
      -- Sixteen bytes are a number below 2 ^ 128, so as 128 bits it is still
      -- the same.
      have hmod : bits % 2 ^ 128 = bits := Nat.mod_eq_of_lt hbits
      refine ⟨⟨⟨BitVec.ofNat 128 bits⟩, length, hle⟩, ?_, rfl⟩
      rw [SpelledPrefix.bytes, BitVec.toNat_ofNat, hmod, List.append_assoc]
      rfl
    · rw [Prefix.make, dif_neg hle] at h
      exact absurd h not_reads_refuse
  · rintro ⟨⟨address, length, hle⟩, rfl, rfl⟩
    refine ⟨address.bits.toNat, length :: rest, ⟨address.bits.isLt, ?_⟩,
      length.toNat, rest, ⟨length, rfl, rfl⟩, ?_⟩
    · rw [SpelledPrefix.bytes, List.append_assoc]
      rfl
    · rw [BitVec.ofNat_toNat, BitVec.setWidth_eq, Prefix.make, dif_pos hle]
      exact reads_pure_iff.2 ⟨rfl, rfl⟩

theorem recognizes_prefixEntry :
    Recognizes prefixEntryReader SpelledPrefixEntry.bytes
      SpelledPrefixEntry.value := by
  intro bs e rest
  simp only [prefixEntryReader, reads_bind_iff, recognizes_net.reads_iff,
    reads_byte_iff, reads_bytes_iff, reads_pure_iff]
  constructor
  · rintro ⟨net, mid, ⟨net, rfl, rfl⟩, n, mid', ⟨flags, rfl, rfl⟩, owner, mid'',
      ⟨rfl, hlength⟩, rfl, rfl⟩
    refine ⟨⟨net, ⟨flags⟩, NodeId.ofBytes owner⟩, ?_, ?_⟩
    · rw [SpelledPrefixEntry.bytes, toBytes_ofBytes hlength, List.append_assoc]
      rfl
    · rw [SpelledPrefixEntry.value, UInt8.ofNat_toNat]
  · rintro ⟨⟨net, flags, owner⟩, rfl, rfl⟩
    refine ⟨net.value, flags.bits :: (owner.toBytes ++ rest), ⟨net, ?_, rfl⟩,
      flags.bits.toNat, owner.toBytes ++ rest, ⟨flags.bits, rfl, rfl⟩,
      owner.toBytes, rest, ⟨rfl, Bytes.length_toBytes _ _⟩, ?_, rfl⟩
    · rw [SpelledPrefixEntry.bytes, List.append_assoc]
      rfl
    · rw [SpelledPrefixEntry.value, UInt8.ofNat_toNat, NodeId.ofBytes_toBytes]

theorem recognizes_contextId :
    Recognizes contextIdReader contextIdBytes (fun id => id) := by
  intro bs id rest
  simp only [contextIdReader, reads_bind_iff, reads_byte_iff, reads_pure_iff]
  constructor
  · rintro ⟨n, mid, ⟨b, rfl, rfl⟩, rfl, rfl⟩
    exact ⟨⟨b⟩, rfl, by rw [UInt8.ofNat_toNat]⟩
  · rintro ⟨⟨b⟩, rfl, rfl⟩
    exact ⟨b.toNat, rest, ⟨b, rfl, rfl⟩, by rw [UInt8.ofNat_toNat], rfl⟩

theorem recognizes_contextEntry :
    Recognizes contextEntryReader SpelledContextEntry.bytes
      SpelledContextEntry.value := by
  have hcompress : ∀ b : UInt8, (b.toNat != 0) = (b != 0) := by
    intro b
    rw [Bool.eq_iff_iff, bne_iff_ne, bne_iff_ne, ne_eq, ne_eq,
      ← UInt8.toNat_inj]
    rfl
  intro bs c rest
  simp only [contextEntryReader, reads_bind_iff, recognizes_contextId.reads_iff,
    recognizes_net.reads_iff, reads_byte_iff, reads_pure_iff]
  constructor
  · rintro ⟨id, mid, ⟨id, rfl, rfl⟩, net, mid', ⟨net, rfl, rfl⟩, n, mid'',
      ⟨b, rfl, rfl⟩, rfl, rfl⟩
    refine ⟨⟨id, net, b⟩, ?_, ?_⟩
    · simp [SpelledContextEntry.bytes, contextIdBytes]
    · rw [SpelledContextEntry.value, hcompress]
  · rintro ⟨⟨id, net, b⟩, rfl, rfl⟩
    refine ⟨id, net.bytes ++ b :: rest, ⟨id, ?_, rfl⟩, net.value, b :: rest,
      ⟨net, rfl, rfl⟩, b.toNat, rest, ⟨b, rfl, rfl⟩, ?_, rfl⟩
    · simp [SpelledContextEntry.bytes, contextIdBytes]
    · rw [SpelledContextEntry.value, hcompress]

/-! ## Messages and frames are read as they are spelled -/

theorem recognizes_delta :
    Recognizes deltaReader SpelledDelta.bytes SpelledDelta.value := by
  intro bs d rest
  simp only [deltaReader, reads_bind_iff, reads_need_iff, reads_version_iff,
    reads_guard_iff,
    (recognizes_prefixEntry.counted SpelledPrefixEntry.length_bytes).reads_iff,
    (recognizes_net.counted SpelledPrefix.length_bytes).reads_iff,
    (recognizes_contextEntry.counted
      SpelledContextEntry.length_bytes).reads_iff,
    (recognizes_contextId.counted length_contextIdBytes).reads_iff,
    List.map_id', reads_pure_iff]
  constructor
  · rintro ⟨-, mid, ⟨-, rfl⟩, base, mid, rfl, target, mid, rfl, hadvances,
      -, mid, ⟨added, rfl, rfl⟩, -, mid, ⟨removed, rfl, rfl⟩,
      -, mid, ⟨bound, rfl, rfl⟩, -, mid, ⟨unbound, rfl, rfl⟩, rfl, rfl⟩
    refine ⟨⟨base, target, UInt64.not_le.1 hadvances, added, removed, bound,
      unbound⟩, ?_, rfl⟩
    simp only [SpelledDelta.bytes, List.append_assoc]
  · rintro ⟨⟨base, target, hadvances, added, removed, bound, unbound⟩, rfl, rfl⟩
    refine ⟨(), _, ⟨?_, rfl⟩, base, _, ?_, target, _, rfl,
      UInt64.not_le.2 hadvances,
      _, _, ⟨added, rfl, rfl⟩, _, _, ⟨removed, rfl, rfl⟩,
      _, _, ⟨bound, rfl, rfl⟩, _, _, ⟨unbound, rfl, rfl⟩, rfl, rfl⟩
    · simp only [SpelledDelta.bytes, List.length_append, length_versionBytes]
      omega
    · simp only [SpelledDelta.bytes, List.append_assoc]

theorem recognizes_snapshotRequest :
    Recognizes snapshotRequestReader versionBytes (fun held => held) := by
  intro bs held rest
  simp only [snapshotRequestReader, reads_bind_iff, reads_need_iff,
    reads_version_iff]
  constructor
  · rintro ⟨-, mid, ⟨-, rfl⟩, rfl⟩
    exact ⟨held, rfl, rfl⟩
  · rintro ⟨held, rfl, rfl⟩
    refine ⟨(), _, ⟨?_, rfl⟩, rfl⟩
    rw [List.length_append, length_versionBytes]
    omega

theorem recognizes_snapshot :
    Recognizes snapshotReader SpelledSnapshot.bytes SpelledSnapshot.value := by
  intro bs d rest
  simp only [snapshotReader, reads_bind_iff, reads_need_iff, reads_version_iff,
    (recognizes_prefixEntry.counted SpelledPrefixEntry.length_bytes).reads_iff,
    (recognizes_contextEntry.counted
      SpelledContextEntry.length_bytes).reads_iff, reads_pure_iff]
  constructor
  · rintro ⟨-, mid, ⟨-, rfl⟩, version, mid, rfl, -, mid, ⟨prefixes, rfl, rfl⟩,
      -, mid, ⟨contexts, rfl, rfl⟩, rfl, rfl⟩
    refine ⟨⟨version, prefixes, contexts⟩, ?_, rfl⟩
    simp only [SpelledSnapshot.bytes, List.append_assoc]
  · rintro ⟨⟨version, prefixes, contexts⟩, rfl, rfl⟩
    refine ⟨(), _, ⟨?_, rfl⟩, version, _, ?_, _, _, ⟨prefixes, rfl, rfl⟩, _, _,
      ⟨contexts, rfl, rfl⟩, rfl, rfl⟩
    · simp only [SpelledSnapshot.bytes, List.length_append, length_versionBytes]
      omega
    · simp only [SpelledSnapshot.bytes, List.append_assoc]

/-- The message behind a header is a body of the kind that the header says. -/
theorem reads_message_iff {kind : Kind} {m : Message} :
    Reads (Message.reader kind) bs m rest ↔
      ∃ s : SpelledBody, s.kind = kind ∧ bs = s.bytes ++ rest ∧
      s.value = m := by
  cases kind with
  | delta =>
      simp only [Message.reader, reads_bind_iff,
        recognizes_delta.reads_iff, reads_pure_iff]
      constructor
      · rintro ⟨d, mid, ⟨s, rfl, rfl⟩, rfl, rfl⟩
        exact ⟨.delta s, rfl, rfl, rfl⟩
      · rintro ⟨s, hkind, rfl, rfl⟩
        cases s with
        | delta s => exact ⟨s.value, rest, ⟨s, rfl, rfl⟩, rfl, rfl⟩
        | snapshotRequest held => cases hkind
        | snapshot s => cases hkind
  | snapshotRequest =>
      simp only [Message.reader, reads_bind_iff,
        recognizes_snapshotRequest.reads_iff, reads_pure_iff]
      constructor
      · rintro ⟨held, mid, ⟨held, rfl, rfl⟩, rfl, rfl⟩
        exact ⟨.snapshotRequest held, rfl, rfl, rfl⟩
      · rintro ⟨s, hkind, rfl, rfl⟩
        cases s with
        | delta s => cases hkind
        | snapshotRequest held => exact ⟨held, rest, ⟨held, rfl, rfl⟩, rfl, rfl⟩
        | snapshot s => cases hkind
  | snapshot =>
      simp only [Message.reader, reads_bind_iff,
        recognizes_snapshot.reads_iff, reads_pure_iff]
      constructor
      · rintro ⟨d, mid, ⟨s, rfl, rfl⟩, rfl, rfl⟩
        exact ⟨.snapshot s, rfl, rfl, rfl⟩
      · rintro ⟨s, hkind, rfl, rfl⟩
        cases s with
        | delta s => cases hkind
        | snapshotRequest held => cases hkind
        | snapshot s => exact ⟨s.value, rest, ⟨s, rfl, rfl⟩, rfl, rfl⟩

theorem Kind.ofByte_eq_ok_iff {b : UInt8} {kind : Kind} :
    Kind.ofByte b = .ok kind ↔ b = kind.toByte := by
  constructor
  · intro h
    rw [Kind.ofByte] at h
    split at h
    · next hb => cases h; exact hb
    · split at h
      · next hb => cases h; exact hb
      · split at h
        · next hb => cases h; exact hb
        · cases h
  · rintro rfl
    exact Kind.ofByte_toByte kind

/-- A header is read off exactly the twelve bytes that it is written as. -/
theorem reads_header_iff {h : Header} :
    Reads Header.reader bs h rest ↔
    h.version = Header.currentVersion ∧ bs = h.toBytes ++ rest := by
  simp only [Header.reader, reads_bind_iff, reads_need_iff, reads_byte_iff,
    reads_guard_iff]
  constructor
  · rintro ⟨-, mid, ⟨-, rfl⟩, n, mid, ⟨version, rfl, rfl⟩, hversion, n, mid,
      ⟨b, rfl, rfl⟩, hread⟩
    simp only [UInt8.ofNat_toNat] at hversion hread
    cases hkind : Kind.ofByte b with
    | error fault =>
        rw [hkind] at hread
        exact absurd hread not_reads_refuse
    | ok kind =>
        rw [hkind] at hread
        rw [Kind.ofByte_eq_ok_iff] at hkind
        simp only [reads_bind_iff, reads_bytes_iff, reads_number_iff,
          reads_pure_iff] at hread
        obtain ⟨sender, mid, ⟨rfl, hsender⟩, length, mid, ⟨hlt, rfl⟩,
          rfl, rfl⟩ := hread
        have hlength : (UInt16.ofNat length).toNat = length :=
          UInt16.toNat_ofNat_of_lt' hlt
        refine ⟨not_not.1 hversion, ?_⟩
        simp [Header.toBytes, toBytes_ofBytes hsender, hlength, hkind]
  · rintro ⟨hversion, rfl⟩
    have hbytes : h.toBytes ++ rest = h.version :: h.kind.toByte ::
        (h.sender.toBytes ++
          (Bytes.toBytes 2 h.payloadLength.toNat ++ rest)) := by
      simp [Header.toBytes]
    rw [hbytes]
    refine ⟨(), _, ⟨?_, rfl⟩, h.version.toNat, _, ⟨h.version, rfl, rfl⟩, ?_,
      h.kind.toByte.toNat, _, ⟨h.kind.toByte, rfl, rfl⟩, ?_⟩
    · rw [← hbytes, List.length_append, Header.length_toBytes]
      omega
    · rw [UInt8.ofNat_toNat]
      exact not_not.2 hversion
    · rw [UInt8.ofNat_toNat, UInt8.ofNat_toNat, Kind.ofByte_toByte]
      simp only [reads_bind_iff, reads_bytes_iff,
        reads_number_iff, reads_pure_iff]
      refine ⟨h.sender.toBytes, _, ⟨rfl, Bytes.length_toBytes _ _⟩,
        h.payloadLength.toNat, rest, ⟨h.payloadLength.toNat_lt, rfl⟩, ?_, rfl⟩
      rw [NodeId.ofBytes_toBytes, UInt16.ofNat_toNat]

theorem SpelledFrame.bytes_eq (s : SpelledFrame) :
    s.bytes = s.value.header.toBytes ++ s.body.bytes := by
  have hlength : (UInt16.ofNat s.body.bytes.length).toNat =
      s.body.bytes.length :=
    UInt16.toNat_ofNat_of_lt' (Nat.lt_succ_of_le s.length_le)
  simp [bytes, value, Header.toBytes, Header.currentVersion, hlength]

/-- A frame is read off exactly the byte strings that spell it, to their end. -/
theorem reads_frame_iff {f : Frame} :
    Reads Frame.reader bs f rest ↔
    ∃ s : SpelledFrame, bs = s.bytes ∧ rest = [] ∧ s.value = f := by
  simp only [Frame.reader, reads_bind_iff, reads_header_iff,
    reads_remaining_iff, reads_guard_iff, reads_message_iff, reads_pure_iff]
  constructor
  · rintro ⟨h, mid, ⟨hversion, rfl⟩, n, mid, ⟨rfl, rfl⟩, hlength, m, mid,
      ⟨s, hkind, rfl, rfl⟩, n, mid, ⟨rfl, rfl⟩, htrailing, rfl, rfl⟩
    obtain rfl : mid = [] := List.eq_nil_of_length_eq_zero (not_not.1 htrailing)
    rw [List.append_nil] at hlength ⊢
    -- Nothing is left behind the body, so the length in the
    -- header is that of the body.
    have hlen : s.bytes.length = h.payloadLength.toNat := not_not.1 hlength
    have hle : s.bytes.length ≤ 65535 := by
      rw [hlen]
      exact Nat.le_of_lt_succ h.payloadLength.toNat_lt
    have hheader : (⟨Header.currentVersion, s.kind, h.sender,
        UInt16.ofNat s.bytes.length⟩ : Header)
        = h := by
      rw [hlen, UInt16.ofNat_toNat, ← hversion, hkind]
    refine ⟨⟨h.sender, s, hle⟩, ?_, rfl, ?_⟩
    · rw [SpelledFrame.bytes_eq, SpelledFrame.value, hheader]
    · rw [SpelledFrame.value, hheader]
  · rintro ⟨s, rfl, rfl, rfl⟩
    refine ⟨s.value.header, s.body.bytes, ⟨rfl, s.bytes_eq⟩, _, _, ⟨rfl, rfl⟩,
      ?_, s.body.value, [], ⟨s.body, rfl, (List.append_nil _).symm, rfl⟩, 0, [],
      ⟨rfl, rfl⟩, not_not.2 rfl, rfl, rfl⟩
    exact not_not.2
      (UInt16.toNat_ofNat_of_lt' (Nat.lt_succ_of_le s.length_le)).symm

theorem Frame.parse_eq_ok_iff {f : Frame} :
    parse bs = .ok f ↔ ∃ s : SpelledFrame, s.bytes = bs ∧ s.value = f := by
  have hread : parse bs = .ok f ↔ ∃ rest, Reads reader bs f rest := by
    rw [parse, Reader.read]
    cases hr : reader bs with
    | error stop => simp [Reads, hr, Except.map]
    | ok taken => simp [Reads, hr, Except.map, Prod.ext_iff]
  rw [hread]
  constructor
  · rintro ⟨rest, h⟩
    obtain ⟨s, rfl, -, hvalue⟩ := reads_frame_iff.1 h
    exact ⟨s, rfl, hvalue⟩
  · rintro ⟨s, rfl, hvalue⟩
    exact ⟨[], reads_frame_iff.2 ⟨s, rfl, rfl, hvalue⟩⟩

/-! ## Spellings are told apart by their bytes -/

theorem delimits_nodeId : Delimits NodeId.toBytes := by
  have hlength : ∀ id : NodeId, id.toBytes.length = 8 :=
    fun id => Bytes.length_toBytes _ _
  apply delimits_of_length hlength
  intro id id' h
  rw [← NodeId.ofBytes_toBytes id, h, NodeId.ofBytes_toBytes]

theorem delimits_version : Delimits versionBytes := by
  apply delimits_of_length length_versionBytes
  rintro ⟨v⟩ ⟨v'⟩ h
  have hnumber : v.toNat = v'.toNat := toBytes_inj 8 v.toNat_lt v'.toNat_lt h
  rw [UInt64.toNat_inj.1 hnumber]

theorem delimits_contextId : Delimits contextIdBytes := by
  apply delimits_of_length length_contextIdBytes
  rintro ⟨id⟩ ⟨id'⟩ h
  have hid : id = id' := List.head_eq_of_cons_eq h
  rw [hid]

theorem delimits_net : Delimits SpelledPrefix.bytes := by
  apply delimits_of_length SpelledPrefix.length_bytes
  rintro ⟨⟨bits⟩, length, hle⟩ ⟨⟨bits'⟩, length', hle'⟩ h
  obtain ⟨haddress, hlast⟩ := List.append_inj h (by simp)
  obtain rfl : bits = bits' :=
    BitVec.eq_of_toNat_eq (toBytes_inj 16 bits.isLt bits'.isLt haddress)
  obtain rfl : length = length' := List.head_eq_of_cons_eq hlast
  rfl

theorem delimits_prefixEntry : Delimits SpelledPrefixEntry.bytes := by
  rintro ⟨net, flags, owner⟩ ⟨net', flags', owner'⟩ rest rest' h
  simp only [SpelledPrefixEntry.bytes, List.append_assoc, List.cons_append] at h
  obtain ⟨rfl, hbehind⟩ := delimits_net _ _ _ _ h
  obtain ⟨hflags, howner⟩ := List.cons_eq_cons.1 hbehind
  obtain ⟨rfl, rfl⟩ := delimits_nodeId _ _ _ _ howner
  obtain rfl : flags = flags' := congrArg Flags.mk hflags
  exact ⟨rfl, rfl⟩

theorem delimits_contextEntry : Delimits SpelledContextEntry.bytes := by
  rintro ⟨id, net, compress⟩ ⟨id', net', compress'⟩ rest rest' h
  simp only [SpelledContextEntry.bytes, List.append_assoc,
    List.cons_append] at h
  obtain ⟨hid, hbehind⟩ := List.cons_eq_cons.1 h
  obtain ⟨rfl, hcompress⟩ := delimits_net _ _ _ _ hbehind
  obtain ⟨rfl, rfl⟩ := List.cons_eq_cons.1 hcompress
  obtain rfl : id = id' := congrArg ContextId.mk hid
  exact ⟨rfl, rfl⟩

theorem delimits_delta : Delimits SpelledDelta.bytes := by
  rintro ⟨base, target, _, added, removed, bound, unbound⟩
    ⟨base', target', _, added', removed', bound', unbound'⟩ rest rest' h
  simp only [SpelledDelta.bytes, List.append_assoc] at h
  obtain ⟨rfl, htarget⟩ := delimits_version _ _ _ _ h
  obtain ⟨rfl, hadded⟩ := delimits_version _ _ _ _ htarget
  obtain ⟨rfl, hremoved⟩ := delimits_prefixEntry.counted _ _ _ _ hadded
  obtain ⟨rfl, hbound⟩ := delimits_net.counted _ _ _ _ hremoved
  obtain ⟨rfl, hunbound⟩ := delimits_contextEntry.counted _ _ _ _ hbound
  obtain ⟨rfl, hrest⟩ := delimits_contextId.counted _ _ _ _ hunbound
  exact ⟨rfl, hrest⟩

theorem delimits_snapshot : Delimits SpelledSnapshot.bytes := by
  rintro ⟨version, prefixes, contexts⟩
    ⟨version', prefixes', contexts'⟩ rest rest' h
  simp only [SpelledSnapshot.bytes, List.append_assoc] at h
  obtain ⟨rfl, hprefixes⟩ := delimits_version _ _ _ _ h
  obtain ⟨rfl, hcontexts⟩ := delimits_prefixEntry.counted _ _ _ _ hprefixes
  obtain ⟨rfl, hrest⟩ := delimits_contextEntry.counted _ _ _ _ hcontexts
  exact ⟨rfl, hrest⟩

/-- Of the kinds of bodies each one delimits itself; which kind it is
stands in the header. -/
theorem SpelledBody.delimits {s s' : SpelledBody} (hkind : s.kind = s'.kind)
    {rest rest' : List UInt8} (h : s.bytes ++ rest = s'.bytes ++ rest') :
    s = s' ∧ rest = rest' := by
  cases s with
  | delta d =>
      cases s' with
      | delta d' =>
          obtain ⟨rfl, hrest⟩ := delimits_delta _ _ _ _ h
          exact ⟨rfl, hrest⟩
      | snapshotRequest held' => cases hkind
      | snapshot d' => cases hkind
  | snapshotRequest held =>
      cases s' with
      | delta d' => cases hkind
      | snapshotRequest held' =>
          obtain ⟨rfl, hrest⟩ := delimits_version _ _ _ _ h
          exact ⟨rfl, hrest⟩
      | snapshot d' => cases hkind
  | snapshot d =>
      cases s' with
      | delta d' => cases hkind
      | snapshotRequest held' => cases hkind
      | snapshot d' =>
          obtain ⟨rfl, hrest⟩ := delimits_snapshot _ _ _ _ h
          exact ⟨rfl, hrest⟩

theorem Kind.toByte_inj {kind kind' : Kind} (h : kind.toByte = kind'.toByte) :
    kind = kind' :=
  Except.ok.inj
    ((Kind.ofByte_toByte kind).symm.trans ((congrArg Kind.ofByte h).trans
    (Kind.ofByte_toByte kind')))

theorem delimits_frame : Delimits SpelledFrame.bytes := by
  rintro ⟨sender, body, _⟩ ⟨sender', body', _⟩ rest rest' h
  simp only [SpelledFrame.bytes, List.append_assoc, List.cons_append] at h
  obtain ⟨hkind, hsender⟩ := List.cons_eq_cons.1 (List.cons_eq_cons.1 h).2
  obtain ⟨rfl, hlength⟩ := delimits_nodeId _ _ _ _ hsender
  -- What the length field says is not needed: the body shows where it ends.
  obtain ⟨-, hbody⟩ := List.append_inj hlength (by simp)
  obtain ⟨rfl, hrest⟩ := SpelledBody.delimits (Kind.toByte_inj hkind) hbody
  exact ⟨rfl, hrest⟩

/-! ## The grammar decides -/

/-- Bits past the length do not count. -/
theorem SpelledPrefix.getMsbD_value (s : SpelledPrefix) (i : Nat) :
    s.value.network.bits.getMsbD i =
      (decide (i < s.length.toNat) && s.address.bits.getMsbD i) := by
  have hle := s.length_le
  have hshift : i + (128 - s.length.toNat) < 128 ↔
      i < s.length.toNat := by omega
  show (s.address.bits &&& BitVec.allOnes 128 <<<
    (128 - s.length.toNat)).getMsbD i = _
  rw [BitVec.getMsbD_and, BitVec.getMsbD_shiftLeft, BitVec.getMsbD_allOnes,
    Bool.and_comm, decide_eq_decide.2 hshift]

/-- What it means that frames are read by the grammar. -/
structure Frame.FollowsGrammar : Prop where
  /-- Exactly what is spelled like a frame is read, and it is
  spelled in one way only. -/
  accepted_iff : ∀ bs, (∃ f, parse bs = .ok f) ↔
    ∃! s : SpelledFrame, s.bytes = bs
  /-- It is read as it is spelled. -/
  read_as_spelled : ∀ s : SpelledFrame, parse s.bytes = .ok s.value
  /-- Nothing is read that a frame begins with. -/
  beginning_refused : ∀ bs more f, parse (bs ++ more) = .ok f → more ≠ [] →
    ∃ fault, parse bs = .error fault
  /-- Nothing is read that begins with a frame. -/
  extension_refused : ∀ bs more f, parse bs = .ok f → more ≠ [] →
    ∃ fault, parse (bs ++ more) = .error fault
  /-- The bits of a prefix past its length are cleared. -/
  bits_cleared : ∀ (p : SpelledPrefix) (i : Nat),
    p.value.network.bits.getMsbD i =
    (decide (i < p.value.length) && p.address.bits.getMsbD i)
  /-- Only a zero keeps a context from being used. -/
  compress_iff : ∀ c : SpelledContextEntry, c.value.compress = true ↔
    c.compress ≠ 0
  /-- In a snapshot the last entry for a prefix wins. -/
  last_prefix_wins : ∀ (d : SpelledSnapshot) (p : Prefix),
    d.value.prefixEntry? p = d.prefixEntries.reverse.find? fun e => e.net = p
  /-- In a snapshot the last entry for a context id wins. -/
  last_context_wins : ∀ (d : SpelledSnapshot) (id : ContextId),
    d.value.contextEntry? id = d.contextEntries.reverse.find? fun c => c.id = id

/-- Two frames one of which begins the other are the same. -/
theorem Frame.eq_nil_of_parse_append {bs more : List UInt8} {f g : Frame}
    (hshort : parse bs = .ok f) (hlong : parse (bs ++ more) = .ok g) :
    more = [] := by
  obtain ⟨s, rfl, -⟩ := parse_eq_ok_iff.1 hshort
  obtain ⟨s', hbytes, -⟩ := parse_eq_ok_iff.1 hlong
  have heq : s'.bytes ++ [] = s.bytes ++ more := by rw [hbytes, List.append_nil]
  exact (delimits_frame _ _ _ _ heq).2.symm

/-- Reading frames follows the grammar. -/
theorem Frame.followsGrammar : FollowsGrammar where
  accepted_iff := by
    intro bs
    constructor
    · rintro ⟨f, h⟩
      obtain ⟨s, rfl, -⟩ := parse_eq_ok_iff.1 h
      exact ⟨s, rfl, fun s' hs' => delimits_frame.injective hs'⟩
    · rintro ⟨s, rfl, -⟩
      exact ⟨s.value, parse_eq_ok_iff.2 ⟨s, rfl, rfl⟩⟩
  read_as_spelled := fun s => parse_eq_ok_iff.2 ⟨s, rfl, rfl⟩
  beginning_refused := by
    intro bs more f hlong hmore
    cases hshort : parse bs with
    | error fault => exact ⟨fault, rfl⟩
    | ok g => exact absurd (eq_nil_of_parse_append hshort hlong) hmore
  extension_refused := by
    intro bs more f hshort hmore
    cases hlong : parse (bs ++ more) with
    | error fault => exact ⟨fault, rfl⟩
    | ok g => exact absurd (eq_nil_of_parse_append hshort hlong) hmore
  bits_cleared := SpelledPrefix.getMsbD_value
  compress_iff := fun c => bne_iff_ne
  last_prefix_wins := fun d => NetworkData.prefixEntry?_ofParts _ _ _
  last_context_wins := fun d => NetworkData.contextEntry?_ofParts _ _ _

end OnMesh.Wire
