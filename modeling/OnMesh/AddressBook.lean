import OnMesh.NetworkData
import OnMesh.Slaac

/-!
# Configured addresses

A node configures one address for every context whose prefix is published for
address derivation. `derive` says which addresses follow from the data;
`reconcile` brings those configured in line with it, touching only what differs,
and reports what came and went.
-/

namespace OnMesh

structure AddressBook.Report where
  added : List MeshAddress
  removed : List MeshAddress
deriving DecidableEq, Inhabited

def AddressBook.Report.isEmpty (r : Report) : Bool :=
  r.added.isEmpty && r.removed.isEmpty

/-- The addresses that a node has configured, at most one for a context. -/
structure AddressBook where
  owner : NodeId
  configured : Table ContextId MeshAddress
deriving DecidableEq, Inhabited

namespace AddressBook

def make (owner : NodeId) : AddressBook := ⟨owner, Table.empty⟩

def interfaceId (b : AddressBook) : InterfaceId := InterfaceId.ofNode b.owner

/-- The address of a context, if its prefix is published for derivation. -/
def deriveOne? (b : AddressBook) (data : NetworkData) (c : ContextEntry) :
    Option (ContextId × MeshAddress) :=
  match data.prefixEntry? c.net with
  | none => none
  | some e =>
    if e.isSlaacEligible then
      some (c.id,
        MeshAddress.derive c.net c.id b.interfaceId e.flags.isPreferred)
    else none

/-- The addresses that follow from the data. -/
def derive (b : AddressBook) (data : NetworkData) :
    Table ContextId MeshAddress :=
  Table.ofList (data.contextEntries.filterMap (b.deriveOne? data))

/-- Whether a configured address is still wanted, be it with
another preference. -/
def isWanted (wanted : Table ContextId MeshAddress) (id : ContextId)
    (a : MeshAddress) : Bool :=
  (wanted.get? id).map (·.addr) == some a.addr

/-- Configure a wanted address unless it is there already, and
tell whether it is new. -/
def configureOne (state : Table ContextId MeshAddress × List MeshAddress)
    (e : ContextId × MeshAddress) :
    Table ContextId MeshAddress × List MeshAddress :=
  match state.1.get? e.1 with
  | some existing =>
    (if existing = e.2 then state.1 else state.1.insert e.1 e.2, state.2)
  | none => (state.1.insert e.1 e.2, state.2 ++ [e.2])

/-- Bring the configured addresses in line with the data: drop those that are
not wanted, then configure those that are missing and refresh those whose
preference has changed. -/
def reconcile (b : AddressBook) (data : NetworkData) : Report × AddressBook :=
  let wanted := b.derive data
  let stale := b.configured.filter fun id a => !isWanted wanted id a
  let kept := b.configured.filter (isWanted wanted)
  let (configured, added) := wanted.entries.foldl configureOne (kept, [])
  (⟨added, stale.values⟩, { b with configured })

def clear (b : AddressBook) : Report × AddressBook :=
  (⟨[], b.configured.values⟩, { b with configured := Table.empty })

def addresses (b : AddressBook) : List MeshAddress := b.configured.values

def hasAddress (b : AddressBook) (a : Address) : Bool :=
  b.addresses.any (·.addr == a)

def addressFor? (b : AddressBook) (context : ContextId) : Option MeshAddress :=
  b.configured.get? context

end AddressBook

end OnMesh
