import OnMesh.Host

/-!
# Exchange between neighbours

Nodes, or hosts, that stand side by side in a list hand frames to each other: a
frame goes to the first of them that has the address it is for.
-/

namespace OnMesh

/-- What became of a frame on its way to another node. -/
inductive Node.Fate where
  /-- The frame does not fit a packet. -/
  | unfit (fault : Fault)
  /-- No node has the address. -/
  | nobody
  /-- The node with the address took the frame, or refused it. -/
  | offered (taken : Bool)
deriving DecidableEq

namespace Node

/-- Offer a frame to the first node that it is for. -/
def offer (addressee : NodeId) (bytes : List UInt8) : List Node →
    Fate × List Node
  | [] => (.nobody, [])
  | n :: nodes =>
    if n.id = addressee then
      let (taken, n) := n.queueBytes bytes
      (.offered taken, n :: nodes)
    else
      let (fate, nodes) := offer addressee bytes nodes
      (fate, n :: nodes)

def carry (nodes : List Node) (o : Outgoing) : Fate × List Node :=
  match o.frame.serialize with
  | .error fault => (.unfit fault, nodes)
  | .ok bytes => offer o.to bytes nodes

def carryAll (nodes : List Node) : List Outgoing →
    List (Outgoing × Fate) × List Node
  | [] => ([], nodes)
  | o :: rest =>
    let (fate, nodes) := carry nodes o
    let (fates, nodes) := carryAll nodes rest
    ((o, fate) :: fates, nodes)

end Node

namespace Host

/-- Tell the first host with an address about a frame, if there is one. -/
def hand (addressee : NodeId) (bytes : List UInt8) :
    List Host → Option (Except Fault Unit) × List Host
  | [] => (none, [])
  | h :: hosts =>
    if h.node.id = addressee then
      let (answer, h) := h.handle (.inbound bytes)
      (some (answer.map fun _ => ()), h :: hosts)
    else
      let (answer, hosts) := hand addressee bytes hosts
      (answer, h :: hosts)

/-- Take the oldest frame out of the channel of the host at a place. -/
def receiveAt (hosts : List Host) (place : Nat) :
    Option Departure × List Host :=
  match hosts[place]? with
  | none => (none, hosts)
  | some h =>
    let (taken, h) := h.receive
    (taken, hosts.set place h)

/-- Take at most so many frames out of the channel of the host at
a place, one by one. -/
def drain (place : Nat) : Nat → List Host → List Departure × List Host
  | 0, hosts => ([], hosts)
  | most + 1, hosts =>
    match receiveAt hosts place with
    | (none, hosts) => ([], hosts)
    | (some d, hosts) =>
      let (ds, hosts) := drain place most hosts
      (d :: ds, hosts)

/-- Take at most so many frames out of the channel of the host at a place, and
hand each to the host that it is for before the next one is taken. -/
def deliver (place : Nat) :
    Nat → List Host → List (Departure × Option (Except Fault Unit)) × List Host
  | 0, hosts => ([], hosts)
  | most + 1, hosts =>
    match receiveAt hosts place with
    | (none, hosts) => ([], hosts)
    | (some d, hosts) =>
      let (answer, hosts) := hand d.target d.bytes hosts
      let (answers, hosts) := deliver place most hosts
      ((d, answer) :: answers, hosts)

end Host

end OnMesh
