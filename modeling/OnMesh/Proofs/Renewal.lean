import OnMesh.Proofs.Replica

/-!
# Two ways to newer data

A replica gets to newer data by the delta from those it holds, or by a snapshot
of the new ones.  Both ways end in one state, and data that are not newer are
refused both ways.  The delta lists what differs between the old data and the
new ones, each key at most once, and nothing else.
-/

namespace OnMesh

namespace Table

variable {κ α : Type} [Ranked κ] {old new : Table κ α} {added : List (κ × α)}
  {removed : List κ}
  (hadded : ∀ k a, (k, a) ∈ added ↔ new.get? k = some a ∧ old.get? k ≠ some a)
  (hremoved : ∀ k, k ∈ removed ↔ (∃ a, old.get? k = some a) ∧ new.get? k = none)

include hadded hremoved

/-- Tables are equal if nothing is listed as new or different and nothing as
gone. -/
theorem eq_iff_of_listed : old = new ↔ added = [] ∧ removed = [] := by
  rw [List.eq_nil_iff_forall_not_mem, List.eq_nil_iff_forall_not_mem]
  constructor
  · rintro rfl
    refine ⟨fun e he => ?_, fun k hk => ?_⟩
    · obtain ⟨hnew, hold⟩ := (hadded e.1 e.2).1 he
      exact hold hnew
    · obtain ⟨⟨a, hold⟩, hnew⟩ := (hremoved k).1 hk
      rw [hold] at hnew
      cases hnew
  · rintro ⟨hnone, hkept⟩
    apply ext_get?
    intro k
    cases hnew : new.get? k with
    | some a =>
        by_contra hold
        exact hnone (k, a) ((hadded k a).2 ⟨hnew, hold⟩)
    | none =>
        by_contra hold
        exact hkept k ((hremoved k).2 ⟨Option.ne_none_iff_exists'.1 hold, hnew⟩)

/-- A key is not listed both with a value and as gone. -/
theorem nodup_of_listed (hkeys : (added.map (·.1)).Nodup)
    (hgone : removed.Nodup) : (added.map (·.1) ++ removed).Nodup := by
  refine List.nodup_append.2 ⟨hkeys, hgone, ?_⟩
  rintro k hk _ hgone rfl
  obtain ⟨e, he, rfl⟩ := List.mem_map.1 hk
  have hnew := ((hadded e.1 e.2).1 he).1
  rw [((hremoved e.1).1 hgone).2] at hnew
  cases hnew

end Table

namespace NetworkData

theorem map_fst_prefixRows (ps : List PrefixEntry) :
    (prefixRows ps).map (·.1) = ps.map (·.net) := by
  rw [prefixRows, List.map_map]
  rfl

theorem map_fst_contextRows (cs : List ContextEntry) :
    (contextRows cs).map (·.1) = cs.map (·.id) := by
  rw [contextRows, List.map_map]
  rfl

theorem map_net_prefixEntries (d : NetworkData) :
    d.prefixEntries.map (·.net) = d.prefixes.keys := by
  rw [← map_fst_prefixRows, prefixRows_prefixEntries]
  rfl

theorem map_id_contextEntries (d : NetworkData) :
    d.contextEntries.map (·.id) = d.contexts.keys := by
  rw [← map_fst_contextRows, contextRows_contextEntries]
  rfl

theorem prefixEntry?_eq_none_iff {d : NetworkData} {p : Prefix} :
    d.prefixEntry? p = none ↔ d.prefixes.get? p = none := Option.map_eq_none_iff

theorem contextEntry?_eq_none_iff {d : NetworkData} {id : ContextId} :
    d.contextEntry? id = none ↔ d.contexts.get? id = none :=
  Option.map_eq_none_iff

end NetworkData

namespace Delta

/-! ## What a delta lists -/

/-- A delta that lists the changes between two states of the data: what is new
or different, what is gone, and each key once. -/
structure Lists (old new : NetworkData) (d : Delta) : Prop where
  prefixAdded_iff : ∀ e, e ∈ d.prefixesAdded ↔
    new.prefixEntry? e.net = some e ∧ old.prefixEntry? e.net ≠ some e
  prefixRemoved_iff : ∀ p, p ∈ d.prefixesRemoved ↔
    old.prefixEntry? p ≠ none ∧ new.prefixEntry? p = none
  contextAdded_iff : ∀ c, c ∈ d.contextsAdded ↔
    new.contextEntry? c.id = some c ∧ old.contextEntry? c.id ≠ some c
  contextRemoved_iff : ∀ id, id ∈ d.contextsRemoved ↔
    old.contextEntry? id ≠ none ∧ new.contextEntry? id = none
  /-- No prefix is listed twice, be it as added or as removed. -/
  nodup_prefixes : (d.prefixesAdded.map (·.net) ++ d.prefixesRemoved).Nodup
  /-- No context id is listed twice, be it as added or as removed. -/
  nodup_contexts : (d.contextsAdded.map (·.id) ++ d.contextsRemoved).Nodup
  /-- Nothing is listed only if nothing differs but the version. -/
  isEmpty_iff : d.isEmpty = true ↔
    old.prefixes = new.prefixes ∧ old.contexts = new.contexts

variable {old new : NetworkData}

theorem isEmpty_iff {d : Delta} : d.isEmpty = true ↔
    (d.prefixesAdded = [] ∧ d.prefixesRemoved = []) ∧
      (d.contextsAdded = [] ∧ d.contextsRemoved = []) := by
  simp only [isEmpty, Bool.and_eq_true, List.isEmpty_iff, and_assoc]

theorem mem_prefixRows_between (old new : NetworkData) (p : Prefix)
    (a : Publication) :
    (p, a) ∈ NetworkData.prefixRows (between old new).prefixesAdded ↔
      new.prefixes.get? p = some a ∧ old.prefixes.get? p ≠ some a :=
  NetworkData.mem_prefixRows_iff.trans mem_prefixesAdded_between

theorem mem_contextRows_between (old new : NetworkData) (id : ContextId)
    (b : Binding) :
    (id, b) ∈ NetworkData.contextRows (between old new).contextsAdded ↔
      new.contexts.get? id = some b ∧ old.contexts.get? id ≠ some b :=
  NetworkData.mem_contextRows_iff.trans mem_contextsAdded_between

theorem nodup_prefixes_between (old new : NetworkData) :
    ((between old new).prefixesAdded.map (·.net) ++
      (between old new).prefixesRemoved).Nodup := by
  rw [← NetworkData.map_fst_prefixRows]
  refine Table.nodup_of_listed (mem_prefixRows_between old new)
    (fun _ => mem_prefixesRemoved_between) ?_ ((Table.nodup_keys _).filter _)
  have hkeys : (new.prefixEntries.map (·.net)).Nodup := by
    rw [NetworkData.map_net_prefixEntries]
    exact Table.nodup_keys _
  rw [NetworkData.map_fst_prefixRows]
  exact hkeys.sublist (List.filter_sublist.map _)

theorem nodup_contexts_between (old new : NetworkData) :
    ((between old new).contextsAdded.map (·.id) ++
      (between old new).contextsRemoved).Nodup := by
  rw [← NetworkData.map_fst_contextRows]
  refine Table.nodup_of_listed (mem_contextRows_between old new)
    (fun _ => mem_contextsRemoved_between) ?_ ((Table.nodup_keys _).filter _)
  have hkeys : (new.contextEntries.map (·.id)).Nodup := by
    rw [NetworkData.map_id_contextEntries]
    exact Table.nodup_keys _
  rw [NetworkData.map_fst_contextRows]
  exact hkeys.sublist (List.filter_sublist.map _)

theorem prefixes_eq_iff :
    old.prefixes = new.prefixes ↔ (between old new).prefixesAdded = [] ∧
    (between old new).prefixesRemoved = [] := by
  rw [Table.eq_iff_of_listed (mem_prefixRows_between old new) fun _ =>
    mem_prefixesRemoved_between, NetworkData.prefixRows, List.map_eq_nil_iff]

theorem contexts_eq_iff :
    old.contexts = new.contexts ↔ (between old new).contextsAdded = [] ∧
    (between old new).contextsRemoved = [] := by
  rw [Table.eq_iff_of_listed (mem_contextRows_between old new)
    fun _ => mem_contextsRemoved_between, NetworkData.contextRows,
    List.map_eq_nil_iff]

/-- The delta between two states of the data is a list of what differs. -/
theorem lists_between (old new : NetworkData) :
    (between old new).Lists old new where
  prefixAdded_iff e := by
    simp only [mem_prefixesAdded_between, ne_eq,
      NetworkData.prefixEntry?_eq_some_iff, true_and]
  prefixRemoved_iff p := by
    rw [mem_prefixesRemoved_between, ← Option.isSome_iff_exists,
      Option.isSome_iff_ne_none, ne_eq, ne_eq,
      NetworkData.prefixEntry?_eq_none_iff,
      NetworkData.prefixEntry?_eq_none_iff]
  contextAdded_iff c := by
    simp only [mem_contextsAdded_between, ne_eq,
      NetworkData.contextEntry?_eq_some_iff, true_and]
  contextRemoved_iff id := by
    rw [mem_contextsRemoved_between, ← Option.isSome_iff_exists,
      Option.isSome_iff_ne_none, ne_eq, ne_eq,
      NetworkData.contextEntry?_eq_none_iff,
      NetworkData.contextEntry?_eq_none_iff]
  nodup_prefixes := nodup_prefixes_between old new
  nodup_contexts := nodup_contexts_between old new
  isEmpty_iff := by rw [isEmpty_iff, prefixes_eq_iff, contexts_eq_iff]

end Delta

namespace Replica

/-! ## Taking over new data -/

/-- The replica once it has gone on from its data to new ones. -/
def renewed (r : Replica) (new : NetworkData) : Replica :=
  { r with
    data := new
    lastDelta := some (Delta.between r.data new)
    notices := r.notices ++ [Notice.ofDelta (Delta.between r.data new)] }

/-- The delta to some data and a snapshot of them do the same to a replica. -/
structure Renews (r : Replica) (new : NetworkData) : Prop where
  newer : r.version < new.version →
    r.applyDelta (Delta.between r.data new) = (.ok new.version, r.renewed new) ∧
      r.adopt new = (true, r.renewed new)
  refused : new.version ≤ r.version →
    r.applyDelta (Delta.between r.data new) =
        (.error (.staleDelta new.version r.version), r) ∧
      r.adopt new = (false, r)

theorem renews (r : Replica) (new : NetworkData) : r.Renews new where
  newer hlt := by
    refine ⟨?_, adopt_of_lt hlt⟩
    rw [applyDelta_of_next hlt rfl, Delta.apply_between]
    rfl
  refused hle := ⟨applyDelta_of_le hle, adopt_of_le hle⟩

/-- The delta from old data to new ones is as good as a snapshot of the new ones
for every replica that holds the old ones, and lists no more than it has to. -/
theorem renews_between (old new : NetworkData) :
    (Delta.between old new).Lists old new ∧
      ∀ r : Replica, r.data = old → r.Renews new :=
  ⟨Delta.lists_between old new, fun r _ => r.renews new⟩

end Replica

end OnMesh
