import OnMesh.NetworkData

/-!
# Deltas

A delta lists what changes from one version of the network data to another.
`Delta.between` computes the shortest one, `Delta.apply` carries one out.
-/

namespace OnMesh

/-- The changes that lead from the data at `base` to the data at `target`. -/
structure Delta where
  base : Version
  target : Version
  /-- New or changed prefix entries. -/
  prefixesAdded : List PrefixEntry
  prefixesRemoved : List Prefix
  /-- New or changed contexts. -/
  contextsAdded : List ContextEntry
  contextsRemoved : List ContextId
deriving DecidableEq, Inhabited

namespace Delta

/-- The delta from one state of the data to another, listing only what
differs, in key order. -/
def between (old new : NetworkData) : Delta where
  base := old.version
  target := new.version
  prefixesAdded :=
    new.prefixEntries.filter fun e => old.prefixEntry? e.net ≠ some e
  prefixesRemoved := old.prefixes.keys.filter fun p => !new.prefixes.contains p
  contextsAdded :=
    new.contextEntries.filter fun c => old.contextEntry? c.id ≠ some c
  contextsRemoved :=
    old.contexts.keys.filter fun id => !new.contexts.contains id

def isEmpty (d : Delta) : Bool :=
  d.prefixesAdded.isEmpty && d.prefixesRemoved.isEmpty &&
    d.contextsAdded.isEmpty && d.contextsRemoved.isEmpty

/-- The data after the listed changes, removals first, at the version
where the delta ends. -/
def apply (d : Delta) (data : NetworkData) : NetworkData :=
  { ((data.eraseContexts d.contextsRemoved).erasePrefixes
      d.prefixesRemoved).insertEntries d.prefixesAdded d.contextsAdded with
    version := d.target }

end Delta

end OnMesh
