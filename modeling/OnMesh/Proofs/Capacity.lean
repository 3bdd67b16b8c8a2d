import OnMesh.Proofs.Lineage
import OnMesh.Proofs.Node.Upkeep
import Mathlib.Data.List.Perm.Subperm

/-!
# Every message fits a frame

Data that are in step with a pool of ids bind no more contexts than the range
has ids, and publish no more prefixes than that.  The range of acceptable
settings is narrow enough for a delta that replaces everything, so every message
about such data fits one frame.
-/

namespace OnMesh

open Wire (Frame Message Header)

/-- The data have no more prefixes and contexts than fit one frame. -/
structure NetworkData.Fits (d : NetworkData) : Prop where
  prefixes : d.prefixes.size ≤ Frame.maxContexts
  contexts : d.contexts.size ≤ Frame.maxContexts

theorem NetworkData.fits_empty : NetworkData.empty.Fits :=
  ⟨Nat.zero_le _, Nat.zero_le _⟩

theorem ContextRange.length_ids (r : ContextRange) : r.ids.length = r.size := by
  rw [ids, List.length_map, List.length_range]

namespace Replica

variable {r : Replica} {pool : ContextPool}

/-- Bound ids are ids of the range, each bound once. -/
theorem InStep.contexts_le (h : r.InStep pool) :
    r.data.contexts.size ≤ pool.range.size := by
  rw [← Table.length_keys, ← ContextRange.length_ids]
  refine (List.subperm_of_subset (Table.nodup_keys _) ?_).length_le
  intro id hid
  obtain ⟨b, hb⟩ := Table.mem_keys_iff.1 hid
  exact h.orderly.inRange id b.net (h.lent id b hb)

/-- As long as the data bind fewer ids than there are and none is held
back, an id is free. -/
theorem InStep.exists_lowestFree? (h : r.InStep pool)
    (hnotices : r.notices = []) (hretiring : pool.retiring = Table.empty)
    (hspare : r.data.contexts.size < pool.range.size) :
    ∃ id, pool.lowestFree? = some id := by
  apply Option.ne_none_iff_exists'.1
  intro hnone
  have hlive := h.live_eq hnotices
  have hbound : pool.range.ids ⊆ r.data.contexts.keys := by
    intro id hid
    have htaken := ContextPool.lowestFree?_eq_none_iff.1 hnone id
    have hne : pool.live.get? id ≠ none := fun hfree =>
      htaken ⟨hid, hfree, by rw [hretiring]; rfl⟩
    rw [hlive, NetworkData.bindings, Table.get?_map] at hne
    obtain ⟨net, hnet⟩ := Option.ne_none_iff_exists'.1 hne
    obtain ⟨b, hb, -⟩ := Option.map_eq_some_iff.1 hnet
    exact Table.mem_keys_iff.2 ⟨b, hb⟩
  have hnodup : pool.range.ids.Nodup :=
    pool.range.ascending_ids.imp fun hlt heq =>
      UInt8.ne_of_lt hlt (congrArg _ heq)
  have hle := (List.subperm_of_subset hnodup hbound).length_le
  rw [ContextRange.length_ids, Table.length_keys] at hle
  omega

/-- Every published prefix has a context of its own. -/
theorem InStep.prefixes_le (h : r.InStep pool) :
    r.data.prefixes.size ≤ r.data.contexts.size := by
  have hlength : (r.data.contexts.entries.map fun e => e.2.net).length =
      r.data.contexts.size := List.length_map _
  rw [← Table.length_keys, ← hlength]
  refine (List.subperm_of_subset (Table.nodup_keys _) ?_).length_le
  intro net hnet
  obtain ⟨id, hid⟩ := h.bound net (Table.contains_eq_true_iff.2 hnet)
  exact List.mem_map.2 ⟨(id, ⟨net, true⟩), Table.get?_eq_some_iff.1 hid, rfl⟩

/-- Every context is that of a published prefix, and of no other's. -/
theorem InStep.contexts_le_prefixes (h : r.InStep pool) :
    r.data.contexts.size ≤ r.data.prefixes.size := by
  have hlength : (r.data.contexts.entries.map fun e => e.2.net).length =
      r.data.contexts.size := List.length_map _
  have hnodup : (r.data.contexts.entries.map fun e => e.2.net).Nodup := by
    refine List.Nodup.map_on ?_ (List.Nodup.of_map _ r.data.contexts.nodup_keys)
    rintro ⟨i, b⟩ hi ⟨j, d⟩ hj hnet
    have hb : r.data.contexts.get? i = some b := Table.get?_of_mem hi
    have hd : r.data.contexts.get? j = some d := Table.get?_of_mem hj
    have hij : i = j := h.bindsOnce i j b d hb hd hnet
    subst hij
    rw [Option.some.inj (hb.symm.trans hd)]
  rw [← hlength, ← Table.length_keys]
  refine (List.subperm_of_subset hnodup ?_).length_le
  intro net hnet
  obtain ⟨⟨id, b⟩, he, rfl⟩ := List.mem_map.1 hnet
  exact Table.contains_eq_true_iff.1 (h.published id b (Table.get?_of_mem he)).2

end Replica

/-- Settings that are acceptable have a range that fits one frame. -/
theorem NodeSettings.size_le_of_validate {s : NodeSettings}
    (h : s.validate = .ok ()) : s.contextRange.size ≤ Frame.maxContexts := by
  rw [validate] at h
  split at h
  · cases h
  · split at h
    · cases h
    · next hsize => exact Nat.le_of_not_lt hsize

/-- The data of an authority with acceptable settings fit one frame. -/
theorem Node.Stocked.fits {n : Node} (h : n.Stocked)
    (hrole : n.role.canPublish = true)
    (hsettings : n.settings.validate = .ok ()) : n.data.Fits := by
  have hready := h hrole
  have hrange : n.pool.range.size ≤ Frame.maxContexts := by
    have hsame : n.pool.range = n.settings.contextRange := hready.range
    rw [hsame]
    exact NodeSettings.size_le_of_validate hsettings
  have hcontexts : n.data.contexts.size ≤ n.pool.range.size :=
    hready.inStep.contexts_le
  have hprefixes : n.data.prefixes.size ≤ n.data.contexts.size :=
    hready.inStep.prefixes_le
  exact ⟨by omega, by omega⟩

namespace Wire

theorem Frame.maxContexts_eq : Frame.maxContexts = 19 := by decide

/-- The lists of a delta between two states of the data are parts of
what the states list. -/
theorem Message.size_delta_le {old new : NetworkData} (hold : old.Fits)
    (hnew : new.Fits) :
    (Message.delta (Delta.between old new)).IsCountable ∧
      Header.size + (Message.delta (Delta.between old new)).size ≤
        Frame.maxSize := by
  have hprefixesAdded : (Delta.between old new).prefixesAdded.length ≤
      Frame.maxContexts := by
    calc
      (Delta.between old new).prefixesAdded.length ≤ new.prefixEntries.length :=
        List.length_filter_le _ _
      _ = new.prefixes.size := new.length_prefixEntries
      _ ≤ Frame.maxContexts := hnew.prefixes
  have hprefixesRemoved :
      (Delta.between old new).prefixesRemoved.length ≤ Frame.maxContexts := by
    calc
      (Delta.between old new).prefixesRemoved.length ≤
          old.prefixes.keys.length :=
        List.length_filter_le _ _
      _ = old.prefixes.size := old.prefixes.length_keys
      _ ≤ Frame.maxContexts := hold.prefixes
  have hcontextsAdded : (Delta.between old new).contextsAdded.length ≤
      Frame.maxContexts := by
    calc
      (Delta.between old new).contextsAdded.length ≤
          new.contextEntries.length :=
        List.length_filter_le _ _
      _ = new.contexts.size := new.length_contextEntries
      _ ≤ Frame.maxContexts := hnew.contexts
  have hcontextsRemoved :
      (Delta.between old new).contextsRemoved.length ≤ Frame.maxContexts := by
    calc
      (Delta.between old new).contextsRemoved.length ≤
          old.contexts.keys.length :=
        List.length_filter_le _ _
      _ = old.contexts.size := old.contexts.length_keys
      _ ≤ Frame.maxContexts := hold.contexts
  rw [Frame.maxContexts_eq]
    at hprefixesAdded hprefixesRemoved hcontextsAdded hcontextsRemoved
  constructor
  · exact ⟨by omega, by omega, by omega, by omega⟩
  · simp only [Message.size, Header.size, Frame.maxSize, prefixEntrySize,
      contextEntrySize, prefixSize]
    omega

theorem Message.size_snapshot_le {data : NetworkData} (h : data.Fits) :
    (Message.snapshot data).IsCountable ∧
      Header.size + (Message.snapshot data).size ≤ Frame.maxSize := by
  have hprefixes : data.prefixEntries.length ≤ 19 := by
    rw [NetworkData.length_prefixEntries, ← Frame.maxContexts_eq]
    exact h.prefixes
  have hcontexts : data.contextEntries.length ≤ 19 := by
    rw [NetworkData.length_contextEntries, ← Frame.maxContexts_eq]
    exact h.contexts
  constructor
  · exact ⟨by omega, by omega⟩
  · simp only [Message.size, Header.size, Frame.maxSize, prefixEntrySize,
      contextEntrySize, prefixSize]
    omega

/-- A frame about data of a lineage that fits can be written, and it is read
back. -/
theorem Frame.serialize_of_within {held : Set NetworkData}
    (hfits : ∀ d ∈ held, d.Fits) (sender : NodeId) {message : Message}
    (h : message.Within held) :
    ∃ bytes header, (Frame.make sender message).serialize = .ok bytes ∧
      Frame.parse bytes = .ok ⟨header, message⟩ ∧ header.sender = sender := by
  have hsize : message.IsCountable ∧
      Header.size + message.size ≤ Frame.maxSize := by
    cases message with
    | delta d =>
        obtain ⟨old, hold, new, hnew, -, rfl⟩ := h
        exact Message.size_delta_le (hfits old hold) (hfits new hnew)
    | snapshotRequest v => exact ⟨trivial, show 12 + 8 ≤ 1280 by decide⟩
    | snapshot data => exact Message.size_snapshot_le (hfits data h)
  have hbytes := (serialize_eq_ok_iff (f := Frame.make sender message)).2
    ⟨hsize.1, hsize.2, rfl⟩
  exact ⟨_, _, hbytes, parse_serialize rfl h.advances hbytes, rfl⟩

end Wire

end OnMesh
