import OnMesh.Proofs.Wire.RoundTrip

/-!
# Writing what was read

Reading forgets the bits of a prefix past its length, which byte it was that
said that a context may be used, and the order and the repeats of the entries of
a snapshot.  What was read is written again in one way, the canonical one, which
is never longer.  So writing what was read gives the same bytes exactly if they
were canonical.
-/

namespace OnMesh.Wire

/-! ## Canonical spellings -/

namespace SpelledPrefix

/-- No bit past the length is set. -/
def IsCanonical (s : SpelledPrefix) : Prop :=
  ∀ i, s.length.toNat ≤ i → s.address.bits.getMsbD i = false

/-- By address, then by length. -/
def Before (s s' : SpelledPrefix) : Prop :=
  s.address.bits.toNat < s'.address.bits.toNat ∨
    s.address = s'.address ∧ s.length.toNat < s'.length.toNat

end SpelledPrefix

def SpelledPrefixEntry.IsCanonical (s : SpelledPrefixEntry) : Prop :=
  s.net.IsCanonical

/-- No bit past the length of the prefix is set, and the use is zero or one. -/
structure SpelledContextEntry.IsCanonical (s : SpelledContextEntry) : Prop where
  net : s.net.IsCanonical
  compress : s.compress = 0 ∨ s.compress = 1

/-- Every entry of a delta is canonical, in whatever order. -/
structure SpelledDelta.IsCanonical (s : SpelledDelta) : Prop where
  prefixesAdded : ∀ e ∈ s.prefixesAdded.items, e.IsCanonical
  prefixesRemoved : ∀ p ∈ s.prefixesRemoved.items, p.IsCanonical
  contextsAdded : ∀ c ∈ s.contextsAdded.items, c.IsCanonical

/-- Every entry of a snapshot is canonical, and the entries are
strictly ascending. -/
structure SpelledSnapshot.IsCanonical (s : SpelledSnapshot) : Prop where
  prefixes : ∀ e ∈ s.prefixes.items, e.IsCanonical
  contexts : ∀ c ∈ s.contexts.items, c.IsCanonical
  prefixes_ascending : s.prefixes.items.Pairwise fun e e' => e.net.Before e'.net
  contexts_ascending : s.contexts.items.Pairwise fun c c' => c.id.value.toNat <
    c'.id.value.toNat

/-- Nothing in the body will be forgotten. -/
def SpelledBody.IsCanonical : SpelledBody → Prop
  | delta d => d.IsCanonical
  | snapshotRequest _ => True
  | snapshot d => d.IsCanonical

/-! ## Spelling again what was read -/

namespace SpelledPrefix

theorem ofPrefix_value_iff {s : SpelledPrefix} :
    ofPrefix s.value = s ↔ s.IsCanonical := by
  constructor
  · intro h i hi
    have hbit := s.getMsbD_value i
    have haddress : s.value.network = s.address := congrArg address h
    rw [haddress, decide_eq_false (Nat.not_lt.2 hi), Bool.false_and] at hbit
    exact hbit
  · intro h
    have hbits : s.value.network.bits = s.address.bits := by
      apply BitVec.eq_of_getMsbD_eq
      intro i _
      rw [getMsbD_value]
      by_cases hi : i < s.length.toNat
      · rw [decide_eq_true hi, Bool.true_and]
      · rw [h i (Nat.not_lt.1 hi), Bool.and_false]
    obtain ⟨⟨bits⟩, length, hle⟩ := s
    have hlength : UInt8.ofNat length.toNat = length := UInt8.ofNat_toNat
    simp only [ofPrefix, mk.injEq]
    exact ⟨congrArg Address.mk hbits, hlength⟩

/-- The order of canonical prefixes is the order of their spellings. -/
theorem rank_value_lt_iff {s s' : SpelledPrefix} (h : s.IsCanonical)
    (h' : s'.IsCanonical) : rank s.value < rank s'.value ↔ s.Before s' := by
  have hle := s.length_le
  have hle' := s'.length_le
  have haddress : s.value.network = s.address :=
    congrArg address (ofPrefix_value_iff.2 h)
  have haddress' : s'.value.network = s'.address :=
    congrArg address (ofPrefix_value_iff.2 h')
  have heq : s.address = s'.address ↔
      s.address.bits.toNat = s'.address.bits.toNat :=
    ⟨fun h => by rw [h], fun h => congrArg Address.mk (BitVec.eq_of_toNat_eq h)⟩
  show s.value.network.bits.toNat * 256 + s.length.toNat <
    s'.value.network.bits.toNat * 256 + s'.length.toNat ↔ _
  rw [haddress, haddress', Before, heq]
  omega

end SpelledPrefix

theorem SpelledPrefixEntry.ofEntry_value_iff {s : SpelledPrefixEntry} :
    ofEntry s.value = s ↔ s.IsCanonical := by
  rw [IsCanonical, ← SpelledPrefix.ofPrefix_value_iff]
  exact ⟨congrArg net, fun h => by rw [ofEntry, value, h]⟩

theorem SpelledContextEntry.ofEntry_value_iff {s : SpelledContextEntry} :
    ofEntry s.value = s ↔ s.IsCanonical := by
  obtain ⟨id, net, compress⟩ := s
  have hcompress :
      (if (compress != 0) = true then (1 : UInt8) else 0) = compress ↔
      compress = 0 ∨ compress = 1 := by
    by_cases h : compress = 0
    · subst h
      exact iff_of_true rfl (Or.inl rfl)
    · rw [if_pos (bne_iff_ne.2 h), eq_comm]
      exact (or_iff_right h).symm
  constructor
  · intro h
    simp only [ofEntry, value, mk.injEq, true_and] at h
    exact ⟨SpelledPrefix.ofPrefix_value_iff.1 h.1, hcompress.1 h.2⟩
  · rintro ⟨hnet, hbyte⟩
    simp only [ofEntry, value, mk.injEq, true_and]
    exact ⟨SpelledPrefix.ofPrefix_value_iff.2 hnet, hcompress.2 hbyte⟩

/-- A list is spelled again in the same way exactly if its values are kept and
each of its items is canonical. -/
theorem map_spell_eq_iff {α σ : Type} {value : σ → α} {spell : α → σ}
    {canonical : σ → Prop} (hvalue : ∀ a, value (spell a) = a)
    (hspell : ∀ s, spell (value s) = s ↔ canonical s) {as : List α}
    {items : List σ} :
    as.map spell = items ↔ as = items.map value ∧ ∀ s ∈ items, canonical s := by
  constructor
  · rintro rfl
    refine ⟨(map_value_spell hvalue as).symm, ?_⟩
    intro s hs
    obtain ⟨a, -, rfl⟩ := List.mem_map.1 hs
    rw [← hspell, hvalue]
  · rintro ⟨rfl, h⟩
    rw [List.map_map]
    calc
      items.map (spell ∘ value) = items.map id :=
        List.map_congr_left fun s hs => (hspell s).2 (h s hs)
      _ = items := List.map_id items

theorem map_ofEntry_eq_iff {es : List PrefixEntry}
    {items : List SpelledPrefixEntry} :
    es.map .ofEntry = items ↔
      es = items.map SpelledPrefixEntry.value ∧ ∀ e ∈ items, e.IsCanonical :=
  map_spell_eq_iff SpelledPrefixEntry.value_ofEntry fun _ =>
    SpelledPrefixEntry.ofEntry_value_iff

theorem map_ofContext_eq_iff {cs : List ContextEntry}
    {items : List SpelledContextEntry} :
    cs.map .ofEntry = items ↔
      cs = items.map SpelledContextEntry.value ∧ ∀ c ∈ items, c.IsCanonical :=
  map_spell_eq_iff SpelledContextEntry.value_ofEntry fun _ =>
    SpelledContextEntry.ofEntry_value_iff

theorem map_ofPrefix_eq_iff {ps : List Prefix} {items : List SpelledPrefix} :
    ps.map .ofPrefix = items ↔
      ps = items.map SpelledPrefix.value ∧ ∀ p ∈ items, p.IsCanonical :=
  map_spell_eq_iff SpelledPrefix.value_ofPrefix fun _ =>
    SpelledPrefix.ofPrefix_value_iff

namespace SpelledSnapshot

variable {s : SpelledSnapshot}

theorem length_prefixEntries_value_le (s : SpelledSnapshot) :
    s.value.prefixEntries.length ≤ s.prefixes.items.length := by
  calc
    s.value.prefixEntries.length ≤ s.prefixEntries.length :=
      NetworkData.length_prefixEntries_ofParts_le _ _ _
    _ = s.prefixes.items.length := List.length_map _

theorem length_contextEntries_value_le (s : SpelledSnapshot) :
    s.value.contextEntries.length ≤ s.contexts.items.length := by
  calc
    s.value.contextEntries.length ≤ s.contextEntries.length :=
      NetworkData.length_contextEntries_ofParts_le _ _ _
    _ = s.contexts.items.length := List.length_map _

/-- Canonical entries come out as they went in exactly if they
are spelled in order. -/
theorem prefixEntries_value_iff
    (hprefixes : ∀ e ∈ s.prefixes.items, e.IsCanonical) :
    s.value.prefixEntries = s.prefixEntries ↔
      s.prefixes.items.Pairwise fun e e' => e.net.Before e'.net := by
  rw [value, NetworkData.prefixEntries_ofParts_eq_iff, prefixEntries,
    List.pairwise_map]
  apply List.Pairwise.iff_of_mem
  intro e e' he he'
  exact SpelledPrefix.rank_value_lt_iff (hprefixes e he) (hprefixes e' he')

theorem contextEntries_value_iff :
    s.value.contextEntries = s.contextEntries ↔
      s.contexts.items.Pairwise fun c c' => c.id.value.toNat <
        c'.id.value.toNat := by
  rw [value, NetworkData.contextEntries_ofParts_eq_iff, contextEntries,
    List.pairwise_map]
  rfl

end SpelledSnapshot

/-- What was read of a body is spelled again in the same way exactly if
the body is canonical. -/
theorem SpelledBody.spell_value_iff {s : SpelledBody}
    (hcount : s.value.IsCountable) (hadvances : s.value.Advances) :
    s.value.spell hcount hadvances = s ↔ s.IsCanonical := by
  cases s with
  | delta d =>
      have hspell :
          (SpelledBody.delta d).value.spell hcount hadvances = .delta d ↔
          d.value.prefixesAdded.map .ofEntry = d.prefixesAdded.items ∧
            d.value.prefixesRemoved.map .ofPrefix = d.prefixesRemoved.items ∧
            d.value.contextsAdded.map .ofEntry = d.contextsAdded.items := by
        constructor
        · intro h
          have hsame := delta.inj h
          exact ⟨congrArg (fun d => d.prefixesAdded.items) hsame,
            congrArg (fun d => d.prefixesRemoved.items) hsame,
            congrArg (fun d => d.contextsAdded.items) hsame⟩
        · rintro ⟨hadded, hremoved, hbound⟩
          exact congrArg delta (SpelledDelta.ext rfl rfl (Counted.ext hadded)
            (Counted.ext hremoved) (Counted.ext hbound) rfl)
      rw [hspell, map_ofEntry_eq_iff, map_ofPrefix_eq_iff, map_ofContext_eq_iff]
      constructor
      · rintro ⟨⟨-, hadded⟩, ⟨-, hremoved⟩, -, hbound⟩
        exact ⟨hadded, hremoved, hbound⟩
      · rintro ⟨hadded, hremoved, hbound⟩
        exact ⟨⟨rfl, hadded⟩, ⟨rfl, hremoved⟩, rfl, hbound⟩
  | snapshotRequest held => exact iff_of_true rfl trivial
  | snapshot d =>
      have hspell :
          (SpelledBody.snapshot d).value.spell hcount hadvances = .snapshot d ↔
          d.value.prefixEntries.map .ofEntry = d.prefixes.items ∧
            d.value.contextEntries.map .ofEntry = d.contexts.items := by
        constructor
        · intro h
          have hsame := snapshot.inj h
          exact ⟨congrArg (fun d => d.prefixes.items) hsame,
            congrArg (fun d => d.contexts.items) hsame⟩
        · rintro ⟨hprefixes, hcontexts⟩
          exact congrArg snapshot
            (SpelledSnapshot.ext (NetworkData.version_ofParts _ _ _)
            (Counted.ext hprefixes) (Counted.ext hcontexts))
      rw [hspell, map_ofEntry_eq_iff, map_ofContext_eq_iff]
      constructor
      · rintro ⟨⟨hprefixes, hnets⟩, hcontexts, huses⟩
        exact ⟨hnets, huses, (SpelledSnapshot.prefixEntries_value_iff hnets).1
          hprefixes, SpelledSnapshot.contextEntries_value_iff.1 hcontexts⟩
      · rintro ⟨hnets, huses, hprefixes, hcontexts⟩
        exact ⟨⟨(SpelledSnapshot.prefixEntries_value_iff hnets).2 hprefixes,
          hnets⟩, SpelledSnapshot.contextEntries_value_iff.2 hcontexts, huses⟩

/-! ## Writing what was read -/

namespace SpelledBody

/-- What was read of a body can be written again. -/
theorem isCountable_value (s : SpelledBody) : s.value.IsCountable := by
  cases s with
  | delta d =>
      simp only [value, SpelledDelta.value, Message.IsCountable,
        List.length_map]
      exact ⟨d.prefixesAdded.length_le, d.prefixesRemoved.length_le,
        d.contextsAdded.length_le, d.contextsRemoved.length_le⟩
  | snapshotRequest held => trivial
  | snapshot d =>
      exact ⟨Nat.le_trans d.length_prefixEntries_value_le d.prefixes.length_le,
        Nat.le_trans d.length_contextEntries_value_le d.contexts.length_le⟩

theorem advances_value (s : SpelledBody) : s.value.Advances := by
  cases s with
  | delta d => exact d.advances
  | snapshotRequest held => trivial
  | snapshot d => trivial

/-- Repeats in a snapshot are left out when it is written again. -/
theorem size_value_le (s : SpelledBody) : s.value.size ≤ s.bytes.length := by
  cases s with
  | delta d =>
      simp only [value, SpelledDelta.value, Message.size, bytes,
        SpelledDelta.bytes, List.length_append, List.length_map,
        length_versionBytes,
        length_countedBytes SpelledPrefixEntry.length_bytes,
        length_countedBytes SpelledPrefix.length_bytes,
        length_countedBytes SpelledContextEntry.length_bytes,
        length_countedBytes length_contextIdBytes]
      omega
  | snapshotRequest held => exact Nat.le_of_eq (length_versionBytes held).symm
  | snapshot d =>
      have hprefixes :=
        Nat.mul_le_mul_right prefixEntrySize d.length_prefixEntries_value_le
      have hcontexts :=
        Nat.mul_le_mul_right contextEntrySize d.length_contextEntries_value_le
      simp only [value, Message.size, bytes, SpelledSnapshot.bytes,
        List.length_append, length_versionBytes,
        length_countedBytes SpelledPrefixEntry.length_bytes,
        length_countedBytes SpelledContextEntry.length_bytes]
      omega

end SpelledBody

namespace Frame

/-- The bytes are a frame, and nothing in them will be forgotten. -/
def IsCanonical (bs : List UInt8) : Prop :=
  ∃ s : SpelledFrame, s.bytes = bs ∧ s.body.IsCanonical

theorem isCanonical_bytes_iff {s : SpelledFrame} :
    IsCanonical s.bytes ↔ s.body.IsCanonical := by
  constructor
  · rintro ⟨s', hbytes, h⟩
    rw [← delimits_frame.injective hbytes]
    exact h
  · intro h
    exact ⟨s, rfl, h⟩

theorem length_bytes (s : SpelledFrame) :
    s.bytes.length = Header.size + s.body.bytes.length := by
  rw [s.bytes_eq, List.length_append, Header.length_toBytes]

/-- What it means that writing a frame that was read from some
bytes gives other ones. -/
structure Rewrites (f : Frame) (bs bs' : List UInt8) : Prop where
  written : f.serialize = .ok bs'
  length_le : bs'.length ≤ bs.length
  /-- The new bytes say the same, and are written again as they are. -/
  read_back : ∃ g, parse bs' = .ok g ∧ g.sender = f.sender ∧
    g.message = f.message ∧
    g.serialize = .ok bs'
  /-- Only canonical bytes are written again as they were. -/
  eq_iff : bs' = bs ↔ IsCanonical bs

/-- Every frame that was read from one packet can be written again. -/
theorem exists_rewrites {f : Frame} {bs : List UInt8} (hsize : bs.length ≤ 1280)
    (h : parse bs = .ok f) : ∃ bs', Rewrites f bs bs' := by
  obtain ⟨s, rfl, rfl⟩ := parse_eq_ok_iff.1 h
  have hcount : s.value.message.IsCountable := s.body.isCountable_value
  have hadvances : s.value.message.Advances := s.body.advances_value
  have hle : s.value.message.size ≤ s.body.bytes.length := s.body.size_value_le
  have hfits : Header.size + s.value.message.size ≤ maxSize := by
    rw [length_bytes] at hsize
    exact Nat.le_trans (Nat.add_le_add_left hle _) hsize
  have hwritten : s.value.serialize =
      .ok (s.value.spell hcount hadvances hfits).bytes :=
    serialize_eq_ok_iff.2 ⟨hcount, hfits, bytes_spell rfl _ _ _⟩
  refine ⟨(s.value.spell hcount hadvances hfits).bytes, hwritten, ?_, ?_, ?_⟩
  · rw [length_serialize hwritten, length_bytes]
    exact Nat.add_le_add_left hle _
  · exact ⟨_, parse_serialize rfl hadvances hwritten, rfl, rfl, hwritten⟩
  · -- Bytes determine spellings, so it is enough to compare the spellings.
    calc
      (s.value.spell hcount hadvances hfits).bytes = s.bytes
          ↔ s.value.spell hcount hadvances hfits = s :=
        ⟨fun heq => delimits_frame.injective heq, congrArg SpelledFrame.bytes⟩
      _ ↔ s.body.value.spell hcount hadvances = s.body :=
        ⟨congrArg SpelledFrame.body, fun heq => SpelledFrame.ext rfl heq⟩
      _ ↔ s.body.IsCanonical := s.body.spell_value_iff hcount hadvances
      _ ↔ IsCanonical s.bytes := isCanonical_bytes_iff.symm

/-- A prefix of 64 bits in 17 bytes, with something in its last 64 bits. -/
def untidyPrefix (past : UInt8) : List UInt8 :=
  [past, 0, 0, 0, 0, 0, 0, 0, 0, 0, 0, 0, 0xb8, 0x0d, 0x01, 0x20, 64]

/-- A snapshot in which a prefix stands twice, once with bits past its length,
and a context has seven as its use. -/
def untidySnapshot : List UInt8 :=
  [1, 3, 9, 0, 0, 0, 0, 0, 0, 0, 83, 0] ++ [5, 0, 0, 0, 0, 0, 0, 0] ++
    [2, 0] ++ untidyPrefix 1 ++ [1, 9, 0, 0, 0, 0, 0, 0, 0] ++
      untidyPrefix 0 ++ [3, 9, 0, 0, 0, 0, 0, 0, 0] ++
    [1, 0] ++ [4] ++ untidyPrefix 0 ++ [7]

/-- Writing the untidy snapshot again leaves the repeat out. -/
theorem rewrites_untidySnapshot : ∃ f bs', parse untidySnapshot = .ok f ∧
    Rewrites f untidySnapshot bs' ∧ bs'.length < untidySnapshot.length := by
  have hsize : (parse untidySnapshot).map (fun f => f.message.size) =
      .ok 57 := by
    decide +kernel
  cases hparse : parse untidySnapshot with
  | error fault =>
      rw [hparse] at hsize
      cases hsize
  | ok f =>
      rw [hparse] at hsize
      obtain ⟨bs', h⟩ := exists_rewrites (by decide +kernel) hparse
      have hmessage : f.message.size = 57 := Except.ok.inj hsize
      have hlength : bs'.length = 69 := by
        rw [length_serialize h.written, hmessage]; rfl
      exact ⟨f, bs', rfl, h, by rw [hlength]; decide +kernel⟩

end Frame

end OnMesh.Wire
