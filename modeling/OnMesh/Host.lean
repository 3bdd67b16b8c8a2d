import OnMesh.Node

/-!
# Hosts

A host runs one node for others.  Everything that touches the node is a command,
and commands are carried out one at a time.  After each of them the frames that
the node has to send go into a channel of bounded capacity; the host never waits
for room in it, so that a frame that finds the channel full is dropped and
counted.  Others see the node through a view that is renewed after each command.
-/

namespace OnMesh

/-- What a host can be told. -/
inductive Command where
  | start
  | detach
  /-- A frame as it comes from the link. -/
  | inbound (bytes : List UInt8)
  | addPrefix (net : Prefix) (flags : Flags)
  | removePrefix (net : Prefix)
  | addNeighbour (neighbour : NodeId)
  | setAdmissible (neighbour : NodeId) (admissible : Bool)
  | tick (now : Nat)
  | shutdown
deriving DecidableEq

structure Departure where
  source : NodeId
  target : NodeId
  bytes : List UInt8
deriving DecidableEq, Inhabited

/-- What others see of a node. -/
structure View where
  id : NodeId
  attachment : Attachment
  version : Version
  addresses : List MeshAddress
  /-- Frames that were dropped because the channel was full. -/
  outboundDropped : Nat
deriving DecidableEq, Inhabited

def View.ofNode (n : Node) (dropped : Nat) : View :=
  ⟨n.id, n.attachment, n.version, n.configuredAddresses, dropped⟩

/-- A node and what is around it. -/
structure Host where
  node : Node
  /-- The tick that was told last. -/
  now : Nat
  /-- The most frames that the channel holds. -/
  capacity : Nat
  /-- The frames that nobody has taken yet, oldest first. -/
  channel : List Departure
  /-- Someone is there to take frames. -/
  listening : Bool
  dropped : Nat
  /-- The host still takes commands. -/
  running : Bool
  view : View

namespace Host

def spawn (node : Node) (capacity : Nat) : Host :=
  ⟨node, 0, capacity, [], true, 0, true, View.ofNode node 0⟩

/-- Put a frame into the channel, without waiting for room. -/
def send (h : Host) (d : Departure) : Host :=
  if !h.listening then h
  else if h.capacity ≤ h.channel.length then { h with dropped := h.dropped + 1 }
  else { h with channel := h.channel ++ [d] }

/-- Put a popped frame into the channel, if it fits a packet. -/
def forward (h : Host) (o : Outgoing) : Host :=
  match o.frame.serialize with
  | .ok bytes => h.send ⟨h.node.id, o.to, bytes⟩
  | .error _ => h

def flush (h : Host) : Host :=
  let (out, node) := h.node.popAll
  out.foldl forward { h with node }

def publishView (h : Host) : Host :=
  { h with view := View.ofNode h.node h.dropped }

/-- Carry out a command on the node.  Edits answer the version that they lead
to. -/
def execute (h : Host) (c : Command) : Except Fault (Option Version) × Host :=
  match c with
  | .start => (.ok none, { h with node := h.node.start })
  | .detach => (.ok none, { h with node := h.node.detach })
  | .inbound bytes =>
    let (taken, node) := h.node.queueBytes bytes
    (.ok none, { h with node := if taken then node.tick h.now else node })
  | .addPrefix net flags =>
    let (answer, node) := h.node.addPrefix net flags
    (answer.map some, { h with node })
  | .removePrefix net =>
    let (answer, node) := h.node.removePrefix net
    (answer.map some, { h with node })
  | .addNeighbour neighbour =>
    (.ok none, { h with node := h.node.addNeighbour neighbour })
  | .setAdmissible neighbour admissible =>
    (.ok none, { h with node := (h.node.setAdmissible neighbour admissible).2 })
  | .tick now => (.ok none, { h with node := h.node.tick now, now })
  | .shutdown => (.ok none, { h with running := false })

/-- Take a command: carry it out, send what the node has to send, renew the
view.  A host that was shut down takes none, and shutting down leaves
everything else as it is. -/
def handle (h : Host) (c : Command) : Except Fault (Option Version) × Host :=
  if !h.running then (.error .hostClosed, h)
  else if c = .shutdown then h.execute c
  else
    let (answer, h) := h.execute c
    (answer, h.flush.publishView)

def receive (h : Host) : Option Departure × Host :=
  match h.channel with
  | [] => (none, h)
  | d :: channel => (some d, { h with channel })

/-- Stop taking frames: those in the channel are lost, and so are all later
ones. -/
def stopListening (h : Host) : Host :=
  { h with listening := false, channel := [] }

end Host

end OnMesh
