import OnMesh.Graph
import OnMesh.Node
import OnMesh.Random.KeyStream

/-!
# Simulated meshes

A set of nodes that run in lockstep.  In every step the frames that are due
reach their nodes in the order in which they were sent, every node ticks, and
what the nodes have to send is put on the wire, to arrive after the latency of
its link.  Hardware addresses are drawn from a seeded stream.
-/

namespace OnMesh

structure Mesh.Settings where
  /-- The seed of the hardware addresses. -/
  seed : UInt64
  /-- The latency of links that ask for none, in ticks; at least one
  tick always passes. -/
  latency : Nat
  /-- What every node is built with. -/
  node : NodeSettings
deriving DecidableEq, Inhabited

def Mesh.Settings.usual : Mesh.Settings := ⟨0x5eed, 1, NodeSettings.usual⟩

/-- A frame on the wire. -/
structure Packet where
  /-- The tick at which it arrives. -/
  due : Nat
  source : Station
  target : Station
  bytes : List UInt8
deriving DecidableEq, Inhabited

/-- Counts of what was on the wire. -/
structure Mesh.Tally where
  framesSent : Nat
  framesDelivered : Nat
  bytesSent : Nat
  /-- Frames for hardware addresses that no station has. -/
  framesUnroutable : Nat
deriving DecidableEq, Inhabited

/-- A simulated mesh. -/
structure Mesh where
  settings : Mesh.Settings
  /-- The source of hardware addresses. -/
  stream : KeyStream
  nodes : Table Station Node
  /-- The stations of the hardware addresses. -/
  stations : Table NodeId Station
  /-- The links that were made, and their latencies. -/
  latencies : Table Arc Nat
  /-- The frames on the wire, in the order in which they were sent. -/
  inFlight : List Packet
  now : Nat
  tally : Mesh.Tally
deriving DecidableEq

namespace Mesh

def make (settings : Settings) : Mesh :=
  ⟨settings, KeyStream.ofSeed settings.seed, Table.empty, Table.empty,
    Table.empty, [], 0, ⟨0, 0, 0, 0⟩⟩

/-! ## Stations -/

def notFound (s : Station) : Fault := .nodeNotFound ⟨s.number.toUInt64⟩

def node (m : Mesh) (s : Station) : Except Fault Node :=
  match m.nodes.get? s with
  | some n => .ok n
  | none => .error (notFound s)

def hardwareId (m : Mesh) (s : Station) : Except Fault NodeId :=
  (m.node s).map (·.id)

def locate? (m : Mesh) (id : NodeId) : Option Station := m.stations.get? id

def setNode (m : Mesh) (s : Station) (n : Node) : Mesh :=
  { m with nodes := m.nodes.insert s n }

def onNode {α : Type} (m : Mesh) (s : Station) (call : Node → α × Node) :
    Except Fault α × Mesh :=
  match m.node s with
  | .error fault => (.error fault, m)
  | .ok n =>
    let (answer, n) := call n
    (.ok answer, m.setNode s n)

/-- Make a call that can be refused on the node at a station. -/
def tryOnNode {α : Type} (m : Mesh) (s : Station)
    (call : Node → Except Fault α × Node) : Except Fault α × Mesh :=
  match m.onNode s call with
  | (.ok answer, m) => (answer, m)
  | (.error fault, m) => (.error fault, m)

def isFresh (m : Mesh) (id : NodeId) : Bool :=
  id != NodeId.zero && (m.locate? id).isNone

/-- The number of draws after which the search for a fresh hardware address is
given up: as many as there are hardware addresses. -/
def mostDraws : Nat := UInt64.size

/-- The first of the drawn hardware addresses that is fresh. -/
def drawFresh? (m : Mesh) : Nat → KeyStream → Option (NodeId × KeyStream)
  | 0, _ => none
  | draws + 1, stream =>
    let (bits, stream) := stream.next
    if m.isFresh ⟨bits⟩ then some (⟨bits⟩, stream)
    else drawFresh? m draws stream

/-- Add a node with a fresh hardware address, and answer the address; a station
that has a node keeps it. -/
def addNode (m : Mesh) (s : Station) (role : Role) :
    Except Fault NodeId × Mesh :=
  match m.nodes.get? s with
  | some n => (.ok n.id, m)
  | none =>
    match m.settings.node.validate with
    | .error fault => (.error fault, m)
    | .ok () =>
      match m.drawFresh? mostDraws m.stream with
      | none => (.error .noHardwareId, m)
      | some (id, stream) =>
        (.ok id, { m with
          stream
          nodes := m.nodes.insert s (Node.make id role m.settings.node)
          stations := m.stations.insert id s })

def start (m : Mesh) (s : Station) : Except Fault Unit × Mesh :=
  m.onNode s fun n => ((), n.start)

def startAll (m : Mesh) : Mesh := { m with nodes := m.nodes.map Node.start }

/-- Detach a node, which forgets all network data. -/
def detach (m : Mesh) (s : Station) : Except Fault Unit × Mesh :=
  m.onNode s fun n => ((), n.detach)

/-! ## Links -/

def setAdmissible (m : Mesh) (a b : Station) (admissible : Bool) :
    Except Fault Transition × Mesh :=
  match m.hardwareId b with
  | .error fault => (.error fault, m)
  | .ok id => m.onNode a fun n => n.setAdmissible id admissible

/-- Change how two stations treat each other, the first one first. -/
def setLinkAdmissible (m : Mesh) (a b : Station) (admissible : Bool) :
    Except Fault Unit × Mesh :=
  match m.setAdmissible a b admissible with
  | (.error fault, m) => (.error fault, m)
  | (.ok _, m) =>
    match m.setAdmissible b a admissible with
    | (.error fault, m) => (.error fault, m)
    | (.ok _, m) => (.ok (), m)

def addNeighbour (m : Mesh) (s : Station) (id : NodeId) :
    Except Fault Unit × Mesh :=
  m.onNode s fun n => ((), n.addNeighbour id)

def join (m : Mesh) (a b : Station) (idA idB : NodeId) (ticks : Nat) : Mesh :=
  let m :=
    { m with latencies := m.latencies.insert (Arc.link a b) (max ticks 1) }
  let m := (m.addNeighbour a idB).2
  let m := (m.addNeighbour b idA).2
  (m.setLinkAdmissible a b true).2

def linkWithLatency (m : Mesh) (a b : Station) (ticks : Nat) :
    Except Fault Unit × Mesh :=
  match m.hardwareId a, m.hardwareId b with
  | .error fault, _ => (.error fault, m)
  | _, .error fault => (.error fault, m)
  | .ok idA, .ok idB => (.ok (), m.join a b idA idB ticks)

/-- Link two stations with the usual latency, and let each admit the other. -/
def link (m : Mesh) (a b : Station) : Except Fault Unit × Mesh :=
  m.linkWithLatency a b m.settings.latency

/-! ## Network data -/

def addPrefix (m : Mesh) (s : Station) (net : Prefix) (flags : Flags) :
    Except Fault Version × Mesh :=
  m.tryOnNode s fun n => n.addPrefix net flags

def removePrefix (m : Mesh) (s : Station) (net : Prefix) :
    Except Fault Version × Mesh :=
  m.tryOnNode s fun n => n.removePrefix net

def version (m : Mesh) (s : Station) : Except Fault Version :=
  (m.node s).map Node.version

def attachment (m : Mesh) (s : Station) : Except Fault Attachment :=
  (m.node s).map Node.attachment

def configuredAddresses (m : Mesh) (s : Station) :
    Except Fault (List MeshAddress) :=
  (m.node s).map Node.configuredAddresses

def attached (m : Mesh) : Table Station Node :=
  m.nodes.filter fun _ n => n.started

def versions (m : Mesh) : List (Station × Version) :=
  m.attached.entries.map fun e => (e.1, e.2.version)

def convergedAt (m : Mesh) (v : Version) : Bool :=
  m.versions.all fun e => e.2 == v

/-! ## Time -/

def deliver (m : Mesh) (p : Packet) : Mesh :=
  match m.nodes.get? p.target with
  | none => m
  | some n =>
    let (taken, n) := n.queueBytes p.bytes
    let m := m.setNode p.target n
    if taken then
      { m with
        tally := { m.tally with
          framesDelivered := m.tally.framesDelivered + 1 } }
    else m

/-- A frame that leaves a node. -/
structure Letter where
  source : Station
  «to» : NodeId
  bytes : List UInt8

/-- The frames that leave a node; those that do not fit a packet are lost. -/
def letters (s : Station) (out : List Outgoing) : List Letter :=
  out.filterMap fun o =>
    match o.frame.serialize with
    | .ok bytes => some ⟨s, o.to, bytes⟩
    | .error _ => none

def latency (m : Mesh) (a b : Station) : Nat :=
  max ((m.latencies.get? (Arc.link a b)).getD m.settings.latency) 1

/-- Put a frame on the wire. -/
def transmit (m : Mesh) (l : Letter) : Mesh :=
  match m.locate? l.to with
  | none =>
    { m with
      tally := { m.tally with
        framesUnroutable := m.tally.framesUnroutable + 1 } }
  | some target =>
    { m with
      inFlight := m.inFlight ++
        [⟨m.now + m.latency l.source target, l.source, target, l.bytes⟩]
      tally := { m.tally with
        framesSent := m.tally.framesSent + 1
        bytesSent := m.tally.bytesSent + l.bytes.length } }

def deliverDue (m : Mesh) : Mesh :=
  let due := m.inFlight.filter fun p => p.due ≤ m.now
  let pending := m.inFlight.filter fun p => !(p.due ≤ m.now)
  due.foldl deliver { m with inFlight := pending }

def tickAll (m : Mesh) : Mesh :=
  { m with nodes := m.nodes.map fun n => n.tick m.now }

def transmitAll (m : Mesh) : Mesh :=
  let popped := m.nodes.map Node.popAll
  let sent := popped.entries.flatMap fun e => letters e.1 e.2.1
  sent.foldl transmit { m with nodes := popped.map (·.2) }

def step (m : Mesh) : Mesh :=
  ({ m with now := m.now + 1 }).deliverDue.tickAll.transmitAll

def advance (m : Mesh) : Nat → Mesh
  | 0 => m
  | ticks + 1 => m.step.advance ticks

/-- Let ticks pass until nothing is in flight, and answer how many it
took beyond those already used; `none` if frames were still in flight
after the last one allowed. -/
def settleFrom (m : Mesh) (used : Nat) : Nat → Option Nat × Mesh
  | 0 => (none, m)
  | allowed + 1 =>
    let m := m.step
    if m.inFlight.isEmpty then (some (used + 1), m)
    else m.settleFrom (used + 1) allowed

/-- Let ticks pass until nothing is in flight, and answer how many it took. -/
def settle (m : Mesh) (mostTicks : Nat) : Option Nat × Mesh :=
  m.settleFrom 0 mostTicks

/-- The pairs of stations between which frames are in flight, in order. -/
def inFlightLinks (m : Mesh) : List Arc :=
  (Table.ofList (m.inFlight.map fun p => (⟨p.source, p.target⟩, ()))).keys

/-! ## Echo -/

/-- Whether a link can be used both ways: both nodes are attached
and admit each other. -/
def isUsable (m : Mesh) (link : Arc) : Bool :=
  match m.nodes.get? link.source, m.nodes.get? link.target with
  | some a, some b =>
    a.started && b.started && a.isAdmissible b.id && b.isAdmissible a.id
  | _, _ => false

def reachability (m : Mesh) : Graph :=
  (m.latencies.keys.filter m.isUsable).foldl
    (fun g link => g.connect link.source link.target)
    Graph.empty

/-- The attached node that has an address. -/
def ownerOf? (m : Mesh) (a : Address) : Option Station :=
  (m.nodes.find? fun _ n => n.started && n.hasAddress a).map (·.1)

def echoDetail (m : Mesh) (start : Station) (a : Address) : Echo :=
  m.reachability.echo start (m.ownerOf? a)

/-- Whether an echo request from an attached station to an
address is answered. -/
def echo (m : Mesh) (start : Station) (a : Address) : Bool :=
  match m.nodes.get? start with
  | some n => n.started && (m.echoDetail start a).isReply
  | none => false

end Mesh

end OnMesh
