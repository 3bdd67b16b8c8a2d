import OnMesh.AddressBook
import OnMesh.Flooding
import OnMesh.Node.Settings
import OnMesh.Press

/-!
# Nodes

A node is one sequential machine.  Frames come in through a bounded queue and
are handled in order of arrival when the node ticks; what they lead to waits in
a bounded queue until it is popped.  Every change of the data is followed by the
pool of context ids, on the authority, and by the configured addresses.  A node
that is detached holds no data.
-/

namespace OnMesh

open Wire (Frame)

/-- A frame for a direct neighbour. -/
structure Outgoing where
  «to» : NodeId
  frame : Frame
deriving DecidableEq

/-- Counts of what a node did. -/
structure Node.Tally where
  ticks : Nat
  incomingQueued : Nat
  /-- Frames that found the queue full or the node detached. -/
  incomingDropped : Nat
  malformedFrames : Nat
  outgoingQueued : Nat
  outgoingPopped : Nat
  /-- Frames for neighbours that had ceased to be admissible. -/
  outgoingSuppressed : Nat
  addressesAdded : Nat
  addressesRemoved : Nat
deriving DecidableEq, Inhabited

def Node.Tally.zero : Node.Tally := ⟨0, 0, 0, 0, 0, 0, 0, 0, 0⟩

structure Node where
  id : NodeId
  role : Role
  settings : NodeSettings
  /-- The node is attached to the mesh. -/
  started : Bool
  /-- The last tick seen. -/
  now : Nat
  replica : Replica
  pool : ContextPool
  links : Links
  addresses : AddressBook
  flooding : Flooding
  /-- Frames that wait to be handled, oldest first. -/
  incoming : List Frame
  /-- Frames that wait to be sent, oldest first. -/
  outgoing : List Outgoing
  tally : Node.Tally
deriving DecidableEq

namespace Node

def make (id : NodeId) (role : Role) (settings : NodeSettings) : Node where
  id := id
  role := role
  settings := settings
  started := false
  now := 0
  replica := Replica.make id role.canPublish
  pool := settings.pool
  links := Links.make id
  addresses := AddressBook.make id
  flooding := Flooding.make role
  incoming := []
  outgoing := []
  tally := Tally.zero

instance : Inhabited Node := ⟨make NodeId.zero .leaf NodeSettings.usual⟩

/-- A detached node without neighbours, if the settings are acceptable. -/
def build (id : NodeId) (role : Role) (settings : NodeSettings) :
    Except Fault Node := do
  settings.validate
  return make id role settings

def attachment (n : Node) : Attachment := Attachment.ofRole n.role n.started

def version (n : Node) : Version := n.replica.version

def data (n : Node) : NetworkData := n.replica.data

def isAdmissible (n : Node) (neighbour : NodeId) : Bool :=
  n.links.isAdmissible neighbour

def configuredAddresses (n : Node) : List MeshAddress := n.addresses.addresses

def hasAddress (n : Node) (a : Address) : Bool := n.addresses.hasAddress a

/-! ## Queues -/

/-- Put one message into the queue of frames to be sent; a full queue loses
it. -/
def enqueueOne (n : Node) (o : Outbound) : Node :=
  if n.settings.maxOutbound ≤ n.outgoing.length then n
  else
    { n with
      outgoing := n.outgoing ++ [⟨o.to, Frame.make n.id o.message⟩]
      tally := { n.tally with outgoingQueued := n.tally.outgoingQueued + 1 } }

/-- Put messages into the queue of frames to be sent; a detached
node sends nothing. -/
def enqueue (n : Node) (out : List Outbound) : Node :=
  if n.started then out.foldl enqueueOne n else n

/-- Queue a decoded frame, and tell whether it was taken.  A detached node takes
none, a full queue neither. -/
def queueFrame (n : Node) (frame : Frame) : Bool × Node :=
  if !n.started || n.settings.maxInbound ≤ n.incoming.length then
    (false, { n with
      tally := { n.tally with
        incomingDropped := n.tally.incomingDropped + 1 } })
  else
    (true, { n with
      incoming := n.incoming ++ [frame]
      tally := { n.tally with incomingQueued := n.tally.incomingQueued + 1 } })

/-- Queue a frame as it comes from the link, and tell whether it was taken;
bytes that are no frame are only counted. -/
def queueBytes (n : Node) (bytes : List UInt8) : Bool × Node :=
  match Frame.parse bytes with
  | .ok frame => n.queueFrame frame
  | .error _ =>
    (false, { n with
      tally := { n.tally with
        malformedFrames := n.tally.malformedFrames + 1 } })

def countSuppressed (n : Node) : Node :=
  { n with
    tally := { n.tally with
      outgoingSuppressed := n.tally.outgoingSuppressed + 1 } }

/-- Pop the first of the given frames whose neighbour is still admissible; those
before it are lost. -/
def popFrom (n : Node) : List Outgoing → Option Outgoing × Node
  | [] => (none, { n with outgoing := [] })
  | o :: rest =>
    if n.isAdmissible o.to then
      (some o, { n with
        outgoing := rest
        tally :=
          { n.tally with outgoingPopped := n.tally.outgoingPopped + 1 } })
    else popFrom n.countSuppressed rest

/-- Pop the next frame to be sent whose neighbour is still admissible. -/
def pop (n : Node) : Option Outgoing × Node := n.popFrom n.outgoing

/-- Pop frames until none is left; the bound is the number of frames that
wait. -/
def popUpTo : Nat → Node → List Outgoing × Node
  | 0, n => ([], n)
  | bound + 1, n =>
    match n.pop with
    | (none, n) => ([], n)
    | (some o, n) =>
      let (os, n) := popUpTo bound n
      (o :: os, n)

/-- Pop all frames that can be sent. -/
def popAll (n : Node) : List Outgoing × Node :=
  popUpTo (n.outgoing.length + 1) n

/-! ## Following the data -/

/-- Hand all notices to the pool, on the authority, and bring the addresses in
line. -/
def followNotices (n : Node) : Node :=
  let (notices, replica) := n.replica.takeNotices
  let n := { n with replica }
  if notices.isEmpty then n
  else
    let pool := if n.role.canPublish then
        notices.foldl ContextPool.observe n.pool else n.pool
    let (report, addresses) := n.addresses.reconcile n.replica.data
    { n with
      pool
      addresses
      tally := { n.tally with
        addressesAdded := n.tally.addressesAdded + report.added.length
        addressesRemoved := n.tally.addressesRemoved + report.removed.length } }

/-- Free the context ids that were held long enough. -/
def expirePool (n : Node) (now : Nat) : Node :=
  { n with pool := (n.pool.expire now).2 }

/-- Push the latest delta to a neighbour that has become admissible,
or ask it for data. -/
def greet (n : Node) (neighbour : NodeId) : Node :=
  let (out, flooding) := n.flooding.greet neighbour n.replica n.links
  { n with flooding }.enqueue out

/-! ## Calls -/

/-- Attach to the mesh and get in step with every admissible neighbour. -/
def start (n : Node) : Node :=
  if n.started then n
  else n.links.admissible.foldl greet { n with started := true }

/-- Leave the mesh and forget all data, addresses and frames. -/
def detach (n : Node) : Node :=
  let (report, addresses) := n.addresses.clear
  { n with
    started := false
    replica := n.replica.reset.takeNotices.2
    pool := n.pool.reset
    addresses
    incoming := []
    outgoing := []
    tally := { n.tally with
      addressesRemoved := n.tally.addressesRemoved + report.removed.length } }

def press (n : Node) : Press := ⟨n.id, n.role, n.replica, n.pool⟩

/-- Follow an edit, and push it to every admissible neighbour if it
raised the version. -/
def afterEdit (n : Node) (before after : Version) : Node :=
  let n := n.followNotices
  if before < after then
    let (out, flooding) := n.flooding.announce n.replica n.links
    { n with flooding }.enqueue out
  else n

def usePress (n : Node) (act : Press → Except Fault Version × Press) :
    Except Fault Version × Node :=
  let before := n.version
  let n := n.expirePool n.now
  let (answer, press) := act n.press
  let n := { n with replica := press.replica, pool := press.pool }
  match answer with
  | .error fault => (.error fault, n)
  | .ok after => (.ok after, n.afterEdit before after)

/-- Publish a prefix to the whole mesh; only the authority may. -/
def addPrefix (n : Node) (net : Prefix) (flags : Flags) :
    Except Fault Version × Node :=
  n.usePress (·.publish net flags)

/-- Withdraw a prefix from the whole mesh; only the authority may. -/
def removePrefix (n : Node) (net : Prefix) : Except Fault Version × Node :=
  n.usePress (·.withdraw net)

def addNeighbour (n : Node) (neighbour : NodeId) : Node :=
  { n with links := n.links.addNeighbour neighbour }

def removeNeighbour (n : Node) (neighbour : NodeId) : Bool × Node :=
  let (known, links) := n.links.removeNeighbour neighbour
  (known, { n with links })

/-- Change the admissibility of a neighbour; one that is restored is greeted. -/
def setAdmissible (n : Node) (neighbour : NodeId) (admissible : Bool) :
    Transition × Node :=
  let (transition, links) := n.links.setAdmissible neighbour admissible
  let n := { n with links }
  (transition, if transition = .restored ∧ n.started then
    n.greet neighbour else n)

def handle (n : Node) (frame : Frame) : Node :=
  let response := n.flooding.receive frame n.replica n.links
  { n with replica := response.replica, flooding := response.flooding }.enqueue
    response.out

/-- One pass of the node: handle all frames that wait, free context
ids, follow the data. -/
def tick (n : Node) (now : Nat) : Node :=
  let frames := n.incoming
  let n := { n with
    now
    incoming := []
    tally := { n.tally with ticks := n.tally.ticks + 1 } }
  let n := frames.foldl handle n
  let n := if n.role.canPublish then n.expirePool now else n
  n.followNotices

end Node

end OnMesh
