import OnMesh.Delta
import OnMesh.Prefix.Text

/-!
# Replicas

Every node keeps one replica of the network data.  It changes only by an edit of
the authority, by a delta that starts where the replica stands, or by a newer
snapshot; each change leaves a notice and the delta that it amounts to.
-/

namespace OnMesh

inductive Edit where
  /-- Publish a prefix under a context, or widen the flags of a published
  one. -/
  | publish (net : Prefix) (flags : Flags) (context : ContextId)
  /-- Take a prefix back. -/
  | withdraw (net : Prefix)
deriving DecidableEq

/-- The notice of a change: the versions around it, and the
contexts that changed. -/
structure Notice where
  before : Version
  after : Version
  contextsAdded : List ContextEntry
  contextsRemoved : List ContextId
deriving DecidableEq, Inhabited

def Notice.ofDelta (d : Delta) : Notice :=
  ⟨d.base, d.target, d.contextsAdded, d.contextsRemoved⟩

/-- A node's copy of the network data. -/
structure Replica where
  owner : NodeId
  /-- The owner may edit the data. -/
  authority : Bool
  data : NetworkData
  /-- The delta that led to the data held, if they are not initial. -/
  lastDelta : Option Delta
  /-- Notices that nobody has taken yet, oldest first. -/
  notices : List Notice
deriving DecidableEq, Inhabited

namespace Replica

def make (owner : NodeId) (authority : Bool) : Replica :=
  ⟨owner, authority, NetworkData.empty, none, []⟩

def version (r : Replica) : Version := r.data.version

def commit (r : Replica) (data : NetworkData) (d : Delta) : Replica :=
  { r with
    data
    lastDelta := some d
    notices := r.notices ++ [Notice.ofDelta d] }

/-- Publish an entry under a context; other contexts of its prefix go. -/
def rebind (data : NetworkData) (e : PrefixEntry) (context : ContextId) :
    NetworkData :=
  let kept := data.contexts.filter fun id c => c.net != e.net || id == context
  { data with
    prefixes := data.prefixes.insert e.net ⟨e.flags, e.owner⟩
    contexts := kept.insert context ⟨e.net, true⟩ }

def unbind (data : NetworkData) (net : Prefix) : NetworkData :=
  { data with
    prefixes := data.prefixes.erase net
    contexts := data.contexts.filter fun _ c => c.net != net }

def advance (r : Replica) (edited : NetworkData) : Replica :=
  let next := { edited with version := r.version.next }
  r.commit next (Delta.between r.data next)

/-- Carry out an edit and answer the version that holds afterwards.
Only the authority may edit, and an edit that changes nothing leaves
the version as it is. -/
def edit (r : Replica) (e : Edit) : Except Fault Version × Replica :=
  if !r.authority then (.error (.notAuthority r.owner), r)
  else match e with
    | .publish net flags context =>
      let merged := match r.data.prefixEntry? net with
        | some existing => existing.flags.union flags
        | none => flags
      let entry : PrefixEntry := ⟨net, merged, r.owner⟩
      if r.data.prefixEntry? net = some entry ∧
          r.data.contextEntry? context = some ⟨context, net, true⟩ then
        (.ok r.version, r)
      else
        let r := r.advance (rebind r.data entry context)
        (.ok r.version, r)
    | .withdraw net =>
      if r.data.prefixes.contains net then
        let r := r.advance (unbind r.data net)
        (.ok r.version, r)
      else (.error (.unknownPrefix net.text), r)

/-- Take over a snapshot if it is newer, and tell whether it was. -/
def adopt (r : Replica) (incoming : NetworkData) : Bool × Replica :=
  if incoming.version ≤ r.version then (false, r)
  else (true, r.commit incoming (Delta.between r.data incoming))

/-- Apply a delta that starts at the version held; older ones are stale,
others leave a gap. -/
def applyDelta (r : Replica) (d : Delta) : Except Fault Version × Replica :=
  if d.target ≤ r.version then (.error (.staleDelta d.target r.version), r)
  else if d.base ≠ r.version then (.error (.gapDetected d.base r.version), r)
  else
    let r := r.commit (d.apply r.data) d
    (.ok r.version, r)

/-- Forget all data; a notice is left only if there were any. -/
def reset (r : Replica) : Replica :=
  let d := Delta.between r.data NetworkData.empty
  { r with
    data := NetworkData.empty
    lastDelta := none
    notices := if d.isEmpty then r.notices
      else r.notices ++ [Notice.ofDelta d] }

/-- Give or take away the right to edit. -/
def setAuthority (r : Replica) (authority : Bool) : Replica :=
  { r with authority }

def takeNotices (r : Replica) : List Notice × Replica :=
  (r.notices, { r with notices := [] })

end Replica

end OnMesh
