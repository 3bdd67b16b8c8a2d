import OnMesh.Delta
import OnMesh.Proofs.Table

/-!
# Deltas lead where they say

Applying the delta between two states of the data to the first one gives the
second one, version and all.  Both tables are followed key by key: a key that
is listed as removed is in no new entry, and a listed entry is the new one.
-/

namespace OnMesh

namespace NetworkData

theorem ext {d e : NetworkData} (hversion : d.version = e.version)
    (hprefixes : ∀ p, d.prefixes.get? p = e.prefixes.get? p)
    (hcontexts : ∀ id, d.contexts.get? id = e.contexts.get? id) : d = e := by
  cases d
  cases e
  simp only at hversion hprefixes hcontexts
  rw [hversion, Table.ext_get? hprefixes, Table.ext_get? hcontexts]

def prefixRows (ps : List PrefixEntry) : List (Prefix × Publication) :=
  ps.map fun e => (e.net, ⟨e.flags, e.owner⟩)

def contextRows (cs : List ContextEntry) : List (ContextId × Binding) :=
  cs.map fun c => (c.id, ⟨c.net, c.compress⟩)

theorem mem_prefixRows_iff {ps : List PrefixEntry} {p : Prefix}
    {a : Publication} :
    (p, a) ∈ prefixRows ps ↔ (⟨p, a.flags, a.owner⟩ : PrefixEntry) ∈ ps := by
  rw [prefixRows, List.mem_map]
  constructor
  · rintro ⟨e, he, heq⟩
    cases heq
    exact he
  · intro h
    exact ⟨_, h, rfl⟩

theorem mem_contextRows_iff {cs : List ContextEntry} {id : ContextId}
    {a : Binding} :
    (id, a) ∈ contextRows cs ↔
    (⟨id, a.net, a.compress⟩ : ContextEntry) ∈ cs := by
  rw [contextRows, List.mem_map]
  constructor
  · rintro ⟨c, hc, heq⟩
    cases heq
    exact hc
  · intro h
    exact ⟨_, h, rfl⟩

theorem prefixRows_prefixEntries (d : NetworkData) :
    prefixRows d.prefixEntries = d.prefixes.entries := by
  simp [prefixRows, prefixEntries, Function.comp_def]

theorem contextRows_contextEntries (d : NetworkData) :
    contextRows d.contextEntries = d.contexts.entries := by
  simp [contextRows, contextEntries, Function.comp_def]

theorem foldl_insertPrefix (d : NetworkData) (ps : List PrefixEntry) :
    ps.foldl insertPrefix d =
      { d with prefixes := d.prefixes.insertAll (prefixRows ps) } := by
  induction ps generalizing d with
  | nil => rfl
  | cons e ps ih => rw [List.foldl_cons, ih]; rfl

theorem foldl_insertContext (d : NetworkData) (cs : List ContextEntry) :
    cs.foldl insertContext d =
      { d with contexts := d.contexts.insertAll (contextRows cs) } := by
  induction cs generalizing d with
  | nil => rfl
  | cons c cs ih => rw [List.foldl_cons, ih]; rfl

/-- Entries of prefixes and of contexts go into different tables. -/
theorem insertEntries_eq (d : NetworkData) (ps : List PrefixEntry)
    (cs : List ContextEntry) :
    d.insertEntries ps cs =
      { d with
        prefixes := d.prefixes.insertAll (prefixRows ps)
        contexts := d.contexts.insertAll (contextRows cs) } := by
  rw [insertEntries, foldl_insertPrefix, foldl_insertContext]

theorem prefixEntry?_eq_some_iff {d : NetworkData} {p : Prefix}
    {e : PrefixEntry} :
    d.prefixEntry? p = some e ↔
    e.net = p ∧ d.prefixes.get? p = some ⟨e.flags, e.owner⟩ := by
  unfold prefixEntry?
  rw [Option.map_eq_some_iff]
  constructor
  · rintro ⟨a, ha, rfl⟩
    exact ⟨rfl, ha⟩
  · rintro ⟨rfl, h⟩
    exact ⟨_, h, rfl⟩

theorem contextEntry?_eq_some_iff {d : NetworkData} {id : ContextId}
    {c : ContextEntry} :
    d.contextEntry? id = some c ↔
    c.id = id ∧ d.contexts.get? id = some ⟨c.net, c.compress⟩ := by
  unfold contextEntry?
  rw [Option.map_eq_some_iff]
  constructor
  · rintro ⟨a, ha, rfl⟩
    exact ⟨rfl, ha⟩
  · rintro ⟨rfl, h⟩
    exact ⟨_, h, rfl⟩

theorem mem_prefixEntries_iff {d : NetworkData} {e : PrefixEntry} :
    e ∈ d.prefixEntries ↔ d.prefixes.get? e.net = some ⟨e.flags, e.owner⟩ := by
  rw [Table.get?_eq_some_iff, ← prefixRows_prefixEntries, mem_prefixRows_iff]

theorem mem_contextEntries_iff {d : NetworkData} {c : ContextEntry} :
    c ∈ d.contextEntries ↔ d.contexts.get? c.id = some ⟨c.net, c.compress⟩ := by
  rw [Table.get?_eq_some_iff, ← contextRows_contextEntries, mem_contextRows_iff]

/-- Reading the entries of the data one by one gives the data again. -/
theorem ofParts_entries (d : NetworkData) :
    ofParts d.version d.prefixEntries d.contextEntries = d := by
  rw [ofParts, insertEntries_eq, prefixRows_prefixEntries,
    contextRows_contextEntries]
  show (⟨d.version, Table.ofList d.prefixes.entries,
    Table.ofList d.contexts.entries⟩ :
    NetworkData) = d
  rw [Table.ofList_entries, Table.ofList_entries]

theorem length_prefixEntries (d : NetworkData) :
    d.prefixEntries.length = d.prefixes.size := by
  rw [prefixEntries, List.length_map, Table.size]

theorem length_contextEntries (d : NetworkData) :
    d.contextEntries.length = d.contexts.size := by
  rw [contextEntries, List.length_map, Table.size]

section Parts

variable (v : Version) (ps : List PrefixEntry) (cs : List ContextEntry)

theorem version_ofParts : (ofParts v ps cs).version = v := by
  rw [ofParts, insertEntries_eq]

theorem prefixes_ofParts :
    (ofParts v ps cs).prefixes = Table.ofList (prefixRows ps) := by
  rw [ofParts, insertEntries_eq]
  rfl

theorem contexts_ofParts :
    (ofParts v ps cs).contexts = Table.ofList (contextRows cs) := by
  rw [ofParts, insertEntries_eq]
  rfl

/-- Of several entries for a prefix the last one is published. -/
theorem prefixEntry?_ofParts (p : Prefix) :
    prefixEntry? (ofParts v ps cs) p = ps.reverse.find? fun e => e.net = p := by
  unfold prefixEntry?
  rw [prefixes_ofParts]
  exact Table.map_get?_ofList
    (fun e : PrefixEntry => (e.net, (⟨e.flags, e.owner⟩ : Publication)))
    (fun p a => ⟨p, a.flags, a.owner⟩) (fun _ => rfl) ps p

/-- Of several entries for a context id the last one is bound. -/
theorem contextEntry?_ofParts (id : ContextId) :
    contextEntry? (ofParts v ps cs) id =
      cs.reverse.find? fun c => c.id = id := by
  unfold contextEntry?
  rw [contexts_ofParts]
  exact Table.map_get?_ofList
    (fun c : ContextEntry => (c.id, (⟨c.net, c.compress⟩ : Binding)))
    (fun id b => ⟨id, b.net, b.compress⟩) (fun _ => rfl) cs id

theorem length_prefixEntries_ofParts_le :
    (ofParts v ps cs).prefixEntries.length ≤ ps.length := by
  have hrows : (prefixRows ps).length = ps.length := List.length_map _
  rw [length_prefixEntries, prefixes_ofParts, ← hrows]
  exact Table.size_ofList_le _

theorem length_contextEntries_ofParts_le :
    (ofParts v ps cs).contextEntries.length ≤ cs.length := by
  have hrows : (contextRows cs).length = cs.length := List.length_map _
  rw [length_contextEntries, contexts_ofParts, ← hrows]
  exact Table.size_ofList_le _

/-- Prefix entries come out as they went in exactly if they went in in order. -/
theorem prefixEntries_ofParts_eq_iff :
    (ofParts v ps cs).prefixEntries = ps ↔
    ps.Pairwise fun e e' => rank e.net < rank e'.net := by
  rw [prefixEntries, prefixes_ofParts]
  exact Table.map_entries_ofList_eq_iff
    (fun e : PrefixEntry => (e.net, (⟨e.flags, e.owner⟩ : Publication)))
    (fun p a => ⟨p, a.flags, a.owner⟩) (fun _ => rfl) (fun _ _ => rfl) ps

/-- Context entries come out as they went in exactly if they went in in
order. -/
theorem contextEntries_ofParts_eq_iff :
    (ofParts v ps cs).contextEntries = cs ↔
    cs.Pairwise fun c c' => rank c.id < rank c'.id := by
  rw [contextEntries, contexts_ofParts]
  exact Table.map_entries_ofList_eq_iff
    (fun c : ContextEntry => (c.id, (⟨c.net, c.compress⟩ : Binding)))
    (fun id b => ⟨id, b.net, b.compress⟩) (fun _ => rfl) (fun _ _ => rfl) cs

end Parts

end NetworkData

namespace Delta

theorem mem_prefixesAdded_between {old new : NetworkData} {e : PrefixEntry} :
    e ∈ (between old new).prefixesAdded ↔
      new.prefixes.get? e.net = some ⟨e.flags, e.owner⟩ ∧
        old.prefixes.get? e.net ≠ some ⟨e.flags, e.owner⟩ := by
  simp only [between, List.mem_filter, NetworkData.mem_prefixEntries_iff,
    decide_eq_true_eq, ne_eq, NetworkData.prefixEntry?_eq_some_iff, true_and]

theorem mem_contextsAdded_between {old new : NetworkData} {c : ContextEntry} :
    c ∈ (between old new).contextsAdded ↔
      new.contexts.get? c.id = some ⟨c.net, c.compress⟩ ∧
        old.contexts.get? c.id ≠ some ⟨c.net, c.compress⟩ := by
  simp only [between, List.mem_filter, NetworkData.mem_contextEntries_iff,
    decide_eq_true_eq, ne_eq, NetworkData.contextEntry?_eq_some_iff, true_and]

theorem mem_prefixesRemoved_between {old new : NetworkData} {p : Prefix} :
    p ∈ (between old new).prefixesRemoved ↔
      (∃ a, old.prefixes.get? p = some a) ∧ new.prefixes.get? p = none := by
  simp only [between, List.mem_filter, Table.mem_keys_iff, Bool.not_eq_true',
    Table.contains_eq_false_iff]

theorem mem_contextsRemoved_between {old new : NetworkData} {id : ContextId} :
    id ∈ (between old new).contextsRemoved ↔
      (∃ a, old.contexts.get? id = some a) ∧ new.contexts.get? id = none := by
  simp only [between, List.mem_filter, Table.mem_keys_iff, Bool.not_eq_true',
    Table.contains_eq_false_iff]

/-- The delta between two states of the data leads from the first to the
second. -/
theorem apply_between (old new : NetworkData) :
    (between old new).apply old = new := by
  rw [apply, NetworkData.insertEntries_eq]
  apply NetworkData.ext
  · rfl
  · intro p
    apply Table.get?_insertAll_eraseAll
    · intro q a hq
      exact (mem_prefixesAdded_between.1
        (NetworkData.mem_prefixRows_iff.1 hq)).1
    · intro q hq
      exact (mem_prefixesRemoved_between.1 hq).2
    · intro q a hnew hold
      exact NetworkData.mem_prefixRows_iff.2
        (mem_prefixesAdded_between.2 ⟨hnew, hold⟩)
    · intro q a hold hnew
      exact mem_prefixesRemoved_between.2 ⟨⟨a, hold⟩, hnew⟩
  · intro id
    apply Table.get?_insertAll_eraseAll
    · intro j a hj
      exact (mem_contextsAdded_between.1
        (NetworkData.mem_contextRows_iff.1 hj)).1
    · intro j hj
      exact (mem_contextsRemoved_between.1 hj).2
    · intro j a hnew hold
      exact NetworkData.mem_contextRows_iff.2
        (mem_contextsAdded_between.2 ⟨hnew, hold⟩)
    · intro j a hold hnew
      exact mem_contextsRemoved_between.2 ⟨⟨a, hold⟩, hnew⟩

end Delta

end OnMesh
