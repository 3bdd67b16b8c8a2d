import OnMesh.Proofs.Wire.Grammar

/-!
# What is written is read back

A message is written if its lists can be counted and the frame fits one packet,
and then takes exactly its size.  What is written is a spelling of the message,
so by the grammar it is read back as the message, unless the message is a delta
that does not advance, which has no spelling and is refused.
-/

namespace OnMesh.Wire

/-! ## What is written -/

theorem listBytes_eq_ok_iff {α : Type} {write : α → List UInt8} {xs : List α}
    {bs : List UInt8} :
    listBytes write xs = .ok bs ↔
    xs.length ≤ 65535 ∧ bs = countedBytes write xs := by
  rw [listBytes]
  split
  · next h => simp [Nat.not_le.2 h]
  · next h =>
      rw [Except.ok.injEq]
      exact ⟨fun heq => ⟨Nat.not_lt.1 h, heq.symm⟩, fun heq => heq.2.symm⟩

theorem length_prefixBytes (p : Prefix) :
    (prefixBytes p).length = prefixSize := by
  simp [prefixBytes, prefixSize]

theorem length_prefixEntryBytes (e : PrefixEntry) :
    (prefixEntryBytes e).length = prefixEntrySize := by
  simp [prefixEntryBytes, length_prefixBytes, prefixEntrySize, NodeId.toBytes]

theorem length_contextEntryBytes (c : ContextEntry) :
    (contextEntryBytes c).length = contextEntrySize := by
  simp [contextEntryBytes, length_prefixBytes, contextEntrySize]
  omega

namespace Message

/-- Every list of the message has a count of two bytes. -/
def IsCountable : Message → Prop
  | delta d =>
    d.prefixesAdded.length ≤ 65535 ∧ d.prefixesRemoved.length ≤ 65535 ∧
      d.contextsAdded.length ≤ 65535 ∧ d.contextsRemoved.length ≤ 65535
  | snapshotRequest _ => True
  | snapshot d =>
    d.prefixEntries.length ≤ 65535 ∧ d.contextEntries.length ≤ 65535

def body : Message → List UInt8
  | delta d => versionBytes d.base ++ (versionBytes d.target ++
      (countedBytes prefixEntryBytes d.prefixesAdded ++
        (countedBytes prefixBytes d.prefixesRemoved ++
          (countedBytes contextEntryBytes d.contextsAdded ++
            countedBytes contextIdBytes d.contextsRemoved))))
  | snapshotRequest held => versionBytes held
  | snapshot d =>
    versionBytes d.version ++ (countedBytes prefixEntryBytes d.prefixEntries ++
      countedBytes contextEntryBytes d.contextEntries)

def size : Message → Nat
  | delta d => 16 + 4 * 2 + d.prefixesAdded.length * prefixEntrySize +
      d.prefixesRemoved.length * prefixSize + d.contextsAdded.length *
        contextEntrySize +
      d.contextsRemoved.length
  | snapshotRequest _ => 8
  | snapshot d => 8 + 2 * 2 + d.prefixEntries.length * prefixEntrySize +
      d.contextEntries.length * contextEntrySize

/-- A delta has to end at a later version than it starts at. -/
def Advances : Message → Prop
  | delta d => d.base < d.target
  | snapshotRequest _ => True
  | snapshot _ => True

theorem length_body (m : Message) : m.body.length = m.size := by
  cases m with
  | delta d =>
      simp only [body, size, List.length_append, length_versionBytes,
        length_countedBytes length_prefixEntryBytes, length_countedBytes
          length_prefixBytes, length_countedBytes length_contextEntryBytes,
        length_countedBytes length_contextIdBytes]
      omega
  | snapshotRequest held => exact length_versionBytes held
  | snapshot d =>
      simp only [body, size, List.length_append, length_versionBytes,
        length_countedBytes length_prefixEntryBytes,
        length_countedBytes length_contextEntryBytes]
      omega

theorem bind_eq_ok_iff {ε α β : Type} {x : Except ε α} {k : α → Except ε β}
    {b : β} : (x >>= k) = .ok b ↔ ∃ a, x = .ok a ∧ k a = .ok b := by
  cases x with
  | error e => simp [bind, Except.bind]
  | ok a => simp [bind, Except.bind]

/-- A message has a payload exactly if its lists can be counted. -/
theorem payload_eq_ok_iff {m : Message} {bs : List UInt8} :
    m.payload = .ok bs ↔ m.IsCountable ∧ bs = m.body := by
  cases m with
  | delta d =>
      simp only [payload, deltaBytes, bind_eq_ok_iff, listBytes_eq_ok_iff,
        IsCountable, body]
      constructor
      · rintro ⟨_, ⟨h1, rfl⟩, _, ⟨h2, rfl⟩, _, ⟨h3, rfl⟩, _, ⟨h4, rfl⟩, heq⟩
        refine ⟨⟨h1, h2, h3, h4⟩, ?_⟩
        rw [← Except.ok.inj heq]
        simp only [List.append_assoc]
        rfl
      · rintro ⟨⟨h1, h2, h3, h4⟩, rfl⟩
        refine ⟨_, ⟨h1, rfl⟩, _, ⟨h2, rfl⟩, _, ⟨h3, rfl⟩, _, ⟨h4, rfl⟩, ?_⟩
        simp only [List.append_assoc]
        rfl
  | snapshotRequest held =>
      simp only [payload, IsCountable, body, true_and, Except.ok.injEq]
      exact eq_comm
  | snapshot d =>
      simp only [payload, snapshotBytes, bind_eq_ok_iff, listBytes_eq_ok_iff,
        IsCountable, body]
      constructor
      · rintro ⟨_, ⟨h1, rfl⟩, _, ⟨h2, rfl⟩, heq⟩
        refine ⟨⟨h1, h2⟩, ?_⟩
        rw [← Except.ok.inj heq]
        simp only [List.append_assoc]
      · rintro ⟨⟨h1, h2⟩, rfl⟩
        refine ⟨_, ⟨h1, rfl⟩, _, ⟨h2, rfl⟩, ?_⟩
        simp only [List.append_assoc]
        rfl

end Message

/-! ## It is a spelling of the message -/

def SpelledPrefix.ofPrefix (p : Prefix) : SpelledPrefix where
  address := p.network
  length := UInt8.ofNat p.length
  length_le := by
    have := p.length_le
    simp
    omega

def SpelledPrefixEntry.ofEntry (e : PrefixEntry) : SpelledPrefixEntry :=
  ⟨.ofPrefix e.net, e.flags, e.owner⟩

def SpelledContextEntry.ofEntry (c : ContextEntry) : SpelledContextEntry :=
  ⟨c.id, .ofPrefix c.net, if c.compress then 1 else 0⟩

theorem SpelledPrefix.value_ofPrefix (p : Prefix) : (ofPrefix p).value = p := by
  have hle := p.length_le
  have hlength : (UInt8.ofNat p.length).toNat = p.length := by
    simp
    omega
  apply Prefix.ext
  · show (⟨p.network.bits &&& Prefix.mask (UInt8.ofNat p.length).toNat⟩ :
      Address) = p.network
    rw [hlength, show p.network.bits &&& Prefix.mask p.length =
      p.network.bits from p.masked]
  · exact hlength

theorem SpelledPrefixEntry.value_ofEntry (e : PrefixEntry) :
    (ofEntry e).value = e := by
  rw [ofEntry, value, SpelledPrefix.value_ofPrefix]

theorem SpelledContextEntry.value_ofEntry (c : ContextEntry) :
    (ofEntry c).value = c := by
  have hcompress : ((if c.compress then 1 else 0 : UInt8) != 0) =
      c.compress := by
    cases c.compress with
    | true => rfl
    | false => rfl
  rw [ofEntry, value, SpelledPrefix.value_ofPrefix, hcompress]

def Counted.spell {α σ : Type} (spell : α → σ) (xs : List α)
    (h : xs.length ≤ 65535) : Counted σ :=
  ⟨xs.map spell, by rw [List.length_map]; exact h⟩

theorem countedBytes_map {α σ : Type} (write : σ → List UInt8) (spell : α → σ)
    (xs : List α) :
    countedBytes write (xs.map spell) =
      countedBytes (fun a => write (spell a)) xs := by
  rw [countedBytes, countedBytes, List.length_map, List.flatMap_map]

theorem map_value_spell {α σ : Type} {value : σ → α} {spell : α → σ}
    (h : ∀ a, value (spell a) = a) (xs : List α) :
    (xs.map spell).map value = xs := by
  have hid : value ∘ spell = id := funext h
  rw [List.map_map, hid, List.map_id]

namespace Message

def spell : (m : Message) → m.IsCountable → m.Advances → SpelledBody
  | delta d, hcount, hadvances =>
    .delta {
      base := d.base
      target := d.target
      advances := hadvances
      prefixesAdded := .spell .ofEntry d.prefixesAdded hcount.1
      prefixesRemoved := .spell .ofPrefix d.prefixesRemoved hcount.2.1
      contextsAdded := .spell .ofEntry d.contextsAdded hcount.2.2.1
      contextsRemoved := ⟨d.contextsRemoved, hcount.2.2.2⟩ }
  | snapshotRequest held, _, _ => .snapshotRequest held
  | snapshot d, hcount, _ =>
    .snapshot {
      version := d.version
      prefixes := .spell .ofEntry d.prefixEntries hcount.1
      contexts := .spell .ofEntry d.contextEntries hcount.2 }

variable {m : Message} (hcount : m.IsCountable) (hadvances : m.Advances)

theorem kind_spell : (m.spell hcount hadvances).kind = m.kind := by
  cases m with
  | delta d => rfl
  | snapshotRequest held => rfl
  | snapshot d => rfl

theorem bytes_spell : (m.spell hcount hadvances).bytes = m.body := by
  cases m with
  | delta d =>
      simp only [spell, SpelledBody.bytes, SpelledDelta.bytes, Counted.spell,
        countedBytes_map]
      rfl
  | snapshotRequest held => rfl
  | snapshot d =>
      simp only [spell, SpelledBody.bytes, SpelledSnapshot.bytes, Counted.spell,
        countedBytes_map]
      rfl

theorem value_spell : (m.spell hcount hadvances).value = m := by
  cases m with
  | delta d =>
      simp only [spell, SpelledBody.value, SpelledDelta.value, Counted.spell,
        map_value_spell SpelledPrefixEntry.value_ofEntry,
        map_value_spell SpelledPrefix.value_ofPrefix,
        map_value_spell SpelledContextEntry.value_ofEntry]
  | snapshotRequest held => rfl
  | snapshot d =>
      simp only [spell, SpelledBody.value, SpelledSnapshot.value,
        SpelledSnapshot.prefixEntries, SpelledSnapshot.contextEntries,
        Counted.spell, map_value_spell SpelledPrefixEntry.value_ofEntry,
        map_value_spell SpelledContextEntry.value_ofEntry,
        NetworkData.ofParts_entries]

end Message

/-! ## Frames -/

namespace Frame

/-- The header that a frame is written with: kind and payload length are
those of the message. -/
def laidOut (f : Frame) : Header :=
  { f.header with
    kind := f.message.kind, payloadLength := UInt16.ofNat f.message.size }

/-- A frame has bytes exactly if its lists can be counted and it fits one
packet. -/
theorem serialize_eq_ok_iff {f : Frame} {bs : List UInt8} :
    f.serialize = .ok bs ↔
    f.message.IsCountable ∧ Header.size + f.message.size ≤ maxSize ∧
      bs = f.laidOut.toBytes ++ f.message.body := by
  rw [serialize, Message.bind_eq_ok_iff]
  constructor
  · rintro ⟨payload, hpayload, heq⟩
    obtain ⟨hcount, rfl⟩ := Message.payload_eq_ok_iff.1 hpayload
    dsimp only at heq
    rw [Message.length_body] at heq
    split at heq
    · cases heq
    · next hfits => exact ⟨hcount, Nat.not_lt.1 hfits, (Except.ok.inj heq).symm⟩
  · rintro ⟨hcount, hfits, rfl⟩
    refine ⟨f.message.body, Message.payload_eq_ok_iff.2 ⟨hcount, rfl⟩, ?_⟩
    rw [Message.length_body, if_neg (Nat.not_lt.2 hfits)]
    rfl

theorem payloadLength_laidOut {f : Frame}
    (h : Header.size + f.message.size ≤ maxSize) :
    f.laidOut.payloadLength.toNat = f.message.size := by
  have hlt : f.message.size < 2 ^ 16 := by
    rw [Header.size, maxSize] at h
    omega
  exact UInt16.toNat_ofNat_of_lt' hlt

def spell (f : Frame) (hcount : f.message.IsCountable)
    (hadvances : f.message.Advances)
    (hfits : Header.size + f.message.size ≤ maxSize) : SpelledFrame where
  sender := f.sender
  body := f.message.spell hcount hadvances
  length_le := by
    rw [Message.bytes_spell, Message.length_body]
    rw [Header.size, maxSize] at hfits
    omega

section Spell

variable {f : Frame} (hversion : f.header.version = Header.currentVersion)
  (hcount : f.message.IsCountable) (hadvances : f.message.Advances)
  (hfits : Header.size + f.message.size ≤ maxSize)

include hversion

theorem value_spell :
    (f.spell hcount hadvances hfits).value = ⟨f.laidOut, f.message⟩ := by
  rw [spell, SpelledFrame.value, Message.kind_spell, Message.bytes_spell,
    Message.length_body, Message.value_spell, ← hversion]
  rfl

theorem bytes_spell :
    (f.spell hcount hadvances hfits).bytes =
      f.laidOut.toBytes ++ f.message.body := by
  rw [SpelledFrame.bytes_eq, value_spell hversion, spell, Message.bytes_spell]

end Spell

/-- A frame that advances is read back with its message. -/
theorem parse_serialize {f : Frame} {bs : List UInt8}
    (hversion : f.header.version = Header.currentVersion)
    (hadvances : f.message.Advances) (h : f.serialize = .ok bs) :
    parse bs = .ok ⟨f.laidOut, f.message⟩ := by
  obtain ⟨hcount, hfits, rfl⟩ := serialize_eq_ok_iff.1 h
  exact parse_eq_ok_iff.2 ⟨f.spell hcount hadvances hfits,
    bytes_spell hversion _ _ _, value_spell hversion _ _ _⟩

/-- A delta that does not advance is refused as soon as both
versions are known. -/
theorem deltaReader_of_not_advances {d : Delta} (h : d.target ≤ d.base) :
    deltaReader (Message.delta d).body =
      .error (.refused (.invalidWire (.notAdvancing d.base d.target))) := by
  have hneed : 16 ≤ (Message.delta d).body.length := by
    rw [Message.length_body, Message.size]
    omega
  have henough :
      Reads (Reader.need 16) (Message.delta d).body () (Message.delta d).body :=
    reads_need_iff.2 ⟨hneed, rfl⟩
  rw [deltaReader, bind_of_reads henough, Message.body,
    bind_of_reads (reads_version_iff.2 rfl),
    bind_of_reads (reads_version_iff.2 rfl), if_pos h]
  rfl

/-- A frame whose delta does not advance is refused. -/
theorem parse_serialize_of_not_advances {f : Frame} {bs : List UInt8}
    {d : Delta} (hversion : f.header.version = Header.currentVersion)
    (hmessage : f.message = .delta d) (hnot : d.target ≤ d.base)
    (h : f.serialize = .ok bs) :
    parse bs = .error (.invalidWire (.notAdvancing d.base d.target)) := by
  obtain ⟨hcount, hfits, rfl⟩ := serialize_eq_ok_iff.1 h
  have hheader :
      Reads Header.reader (f.laidOut.toBytes ++ f.message.body) f.laidOut
      f.message.body := reads_header_iff.2 ⟨hversion, rfl⟩
  have hkind : f.laidOut.kind = .delta := by rw [laidOut, hmessage]; rfl
  have hread : reader (f.laidOut.toBytes ++ f.message.body) =
      .error (.refused (.invalidWire (.notAdvancing d.base d.target))) := by
    rw [reader, bind_of_reads hheader,
      bind_of_reads (reads_remaining_iff.2 ⟨rfl, rfl⟩), Message.length_body,
      payloadLength_laidOut hfits, if_neg (not_not.2 rfl), hkind, hmessage]
    exact bind_refused (bind_refused (deltaReader_of_not_advances hnot))
  rw [parse, Reader.read, hread]
  rfl

theorem length_serialize {f : Frame} {bs : List UInt8}
    (h : f.serialize = .ok bs) : bs.length = Header.size + f.message.size := by
  obtain ⟨-, -, rfl⟩ := serialize_eq_ok_iff.1 h
  rw [List.length_append, Header.length_toBytes, Message.length_body]

/-- What it means that a message goes over a link and arrives as it was. -/
structure Delivers (sender : NodeId) (m : Message) : Prop where
  /-- A frame is written exactly if the lists of its message can be
  counted and it fits. -/
  written_iff : (∃ bs, (make sender m).serialize = .ok bs) ↔
    m.IsCountable ∧ 12 + m.size ≤ 1280
  /-- It takes twelve bytes more than the message. -/
  length_eq : ∀ bs, (make sender m).serialize = .ok bs → bs.length = 12 + m.size
  /-- Everything in it is read back. -/
  read_back : ∀ bs, (make sender m).serialize = .ok bs → m.Advances →
    ∃ f, parse bs = .ok f ∧ f.sender = sender ∧ f.message = m ∧
    f.header.version = 1 ∧
      f.header.kind = m.kind ∧ f.header.payloadLength.toNat = m.size
  /-- Only deltas that do not advance are refused. -/
  refused : ∀ bs d, (make sender m).serialize = .ok bs → m = .delta d →
    d.target ≤ d.base →
    parse bs = .error (.invalidWire (.notAdvancing d.base d.target))
  /-- Of a header only version and sender count. -/
  header_ignored : ∀ h h' : Header, h.version = h'.version →
    h.sender = h'.sender →
    serialize ⟨h, m⟩ = serialize ⟨h', m⟩

/-- Every message goes over a link and arrives as it was. -/
theorem delivers (sender : NodeId) (m : Message) : Delivers sender m where
  written_iff := by
    constructor
    · rintro ⟨bs, h⟩
      obtain ⟨hcount, hfits, -⟩ := serialize_eq_ok_iff.1 h
      exact ⟨hcount, hfits⟩
    · rintro ⟨hcount, hfits⟩
      exact ⟨_, serialize_eq_ok_iff.2 ⟨hcount, hfits, rfl⟩⟩
  length_eq := fun bs h => length_serialize h
  read_back := by
    intro bs h hadvances
    obtain ⟨-, hfits, -⟩ := serialize_eq_ok_iff.1 h
    exact ⟨_, parse_serialize rfl hadvances h, rfl, rfl, rfl, rfl,
      payloadLength_laidOut hfits⟩
  refused := fun bs d h hm hnot => parse_serialize_of_not_advances rfl hm hnot h
  header_ignored := by
    rintro ⟨version, kind, sender, length⟩ ⟨_, kind', _, length'⟩ rfl rfl
    rfl

/-- A prefix entry takes 26 bytes, a prefix 17 and a context entry 19. -/
example : (prefixEntrySize, prefixSize, contextEntrySize) = (26, 17, 19) := rfl

end Frame

end OnMesh.Wire
