import OnMesh.Entry

/-!
# Network data

The data that the mesh agrees on: which prefixes are published and which context
stands for which prefix, under one version.  Both sets are tables, so equal data
have equal representations.
-/

namespace OnMesh

/-- What is recorded of a published prefix. -/
structure Publication where
  flags : Flags
  owner : NodeId
deriving DecidableEq, Inhabited

/-- What is recorded of a context. -/
structure Binding where
  net : Prefix
  compress : Bool
deriving DecidableEq, Inhabited

/-- A version of the network data. -/
structure NetworkData where
  version : Version
  prefixes : Table Prefix Publication
  contexts : Table ContextId Binding
deriving DecidableEq, Inhabited

namespace NetworkData

def empty : NetworkData := ⟨Version.initial, Table.empty, Table.empty⟩

/-- Publish a prefix, over an earlier entry for it. -/
def insertPrefix (d : NetworkData) (e : PrefixEntry) : NetworkData :=
  { d with prefixes := d.prefixes.insert e.net ⟨e.flags, e.owner⟩ }

/-- Bind a context, over an earlier binding of its id. -/
def insertContext (d : NetworkData) (c : ContextEntry) : NetworkData :=
  { d with contexts := d.contexts.insert c.id ⟨c.net, c.compress⟩ }

def erasePrefixes (d : NetworkData) (ps : List Prefix) : NetworkData :=
  { d with prefixes := d.prefixes.eraseAll ps }

def eraseContexts (d : NetworkData) (ids : List ContextId) : NetworkData :=
  { d with contexts := d.contexts.eraseAll ids }

/-- Publish and bind entries in the order given, so that the last
one for a key wins. -/
def insertEntries (d : NetworkData) (ps : List PrefixEntry)
    (cs : List ContextEntry) : NetworkData :=
  cs.foldl insertContext (ps.foldl insertPrefix d)

def ofParts (version : Version) (ps : List PrefixEntry)
    (cs : List ContextEntry) : NetworkData :=
  insertEntries { empty with version } ps cs

def prefixEntries (d : NetworkData) : List PrefixEntry :=
  d.prefixes.entries.map fun e => ⟨e.1, e.2.flags, e.2.owner⟩

def contextEntries (d : NetworkData) : List ContextEntry :=
  d.contexts.entries.map fun e => ⟨e.1, e.2.net, e.2.compress⟩

def prefixEntry? (d : NetworkData) (p : Prefix) : Option PrefixEntry :=
  (d.prefixes.get? p).map fun e => ⟨p, e.flags, e.owner⟩

def contextEntry? (d : NetworkData) (id : ContextId) : Option ContextEntry :=
  (d.contexts.get? id).map fun c => ⟨id, c.net, c.compress⟩

/-- The context with the lowest id among those that stand for a prefix. -/
def contextFor? (d : NetworkData) (p : Prefix) : Option ContextEntry :=
  d.contextEntries.find? fun c => c.net = p

def isEmpty (d : NetworkData) : Bool := d.prefixes.isEmpty && d.contexts.isEmpty

end NetworkData

end OnMesh
