import OnMesh.Links
import OnMesh.Replica
import OnMesh.Role
import OnMesh.Wire.Frame

/-!
# Flooding

How network data spread from neighbour to neighbour.  A delta that starts at the
version held is applied and passed on to every admissible neighbour but its
sender; one that ends at or before the version held is discarded, and a sender
that is behind gets the latest delta back; any other delta shows that a version
was missed, and a snapshot is asked for.  A link that becomes admissible gets
one push of the current version.
-/

namespace OnMesh

open Wire (Frame Message)

/-- A message for a direct neighbour. -/
structure Outbound where
  «to» : NodeId
  message : Message
deriving DecidableEq

/-- Counts of what was sent and of what came in. -/
structure Flooding.Tally where
  deltasSent : Nat
  deltasApplied : Nat
  deltasDiscarded : Nat
  gapsDetected : Nat
  snapshotsRequested : Nat
  snapshotsServed : Nat
  snapshotsAdopted : Nat
  /-- Latest deltas that went back to a sender who was behind. -/
  repairsSent : Nat
  /-- Frames of neighbours that were not admissible. -/
  framesDropped : Nat
deriving DecidableEq, Inhabited

namespace Flooding.Tally

def zero : Tally := ⟨0, 0, 0, 0, 0, 0, 0, 0, 0⟩

def countSent (t : Tally) (o : Outbound) : Tally :=
  match o.message with
  | .delta _ => { t with deltasSent := t.deltasSent + 1 }
  | .snapshotRequest _ =>
    { t with snapshotsRequested := t.snapshotsRequested + 1 }
  | .snapshot _ => { t with snapshotsServed := t.snapshotsServed + 1 }

def countAllSent (t : Tally) (out : List Outbound) : Tally :=
  out.foldl countSent t

end Flooding.Tally

/-- The part of a node that spreads network data. -/
structure Flooding where
  role : Role
  tally : Flooding.Tally
deriving DecidableEq, Inhabited

namespace Flooding

/-- What a frame leads to. -/
structure Response where
  out : List Outbound
  replica : Replica
  flooding : Flooding

def make (role : Role) : Flooding := ⟨role, Tally.zero⟩

def recordSent (f : Flooding) (out : List Outbound) : Flooding :=
  { f with tally := f.tally.countAllSent out }

/-- A delta for every admissible neighbour but one. -/
def fanOut (d : Delta) (links : Links) (skipped : Option NodeId) :
    List Outbound :=
  (links.admissibleExcept skipped).map fun n => ⟨n, .delta d⟩

/-- A delta from a neighbour for all others; leaves keep it to themselves. -/
def passOn (f : Flooding) (d : Delta) (links : Links) (sender : NodeId) :
    List Outbound :=
  if f.role.forwards then fanOut d links (some sender) else []

/-- The data were edited: push the change to every admissible neighbour. -/
def announce (f : Flooding) (replica : Replica) (links : Links) :
    List Outbound × Flooding :=
  match replica.lastDelta with
  | none => ([], f)
  | some d =>
    if d.target ≠ replica.version then ([], f)
    else
      let out := fanOut d links none
      (out, f.recordSent out)

/-- A neighbour has become admissible: push the latest delta, or ask for
data if there is none. -/
def greet (f : Flooding) (n : NodeId) (replica : Replica) (links : Links) :
    List Outbound × Flooding :=
  if !links.isAdmissible n then ([], f)
  else
    let message := match replica.lastDelta with
      | some d => Message.delta d
      | none => Message.snapshotRequest replica.version
    (([⟨n, message⟩] : List Outbound), f.recordSent [⟨n, message⟩])

/-- The latest delta for a sender that is behind. -/
def repair (f : Flooding) (sender : NodeId) (theirs : Version)
    (replica : Replica) : List Outbound × Flooding :=
  if replica.version ≤ theirs then ([], f)
  else match replica.lastDelta with
    | none => ([], f)
    | some d =>
      ([⟨sender, .delta d⟩],
        { f with
          tally := { f.tally with repairsSent := f.tally.repairsSent + 1 } })

def receiveDelta (f : Flooding) (sender : NodeId) (d : Delta)
    (replica : Replica) (links : Links) : Response :=
  let discarded :=
    { f with
      tally := { f.tally with deltasDiscarded := f.tally.deltasDiscarded + 1 } }
  if replica.authority && replica.version < d.target then
    ⟨[], replica, discarded⟩
  else match replica.applyDelta d with
    | (.ok _, replica) =>
      ⟨f.passOn d links sender, replica,
        { f with
          tally := { f.tally with
            deltasApplied := f.tally.deltasApplied + 1 } }⟩
    | (.error (.staleDelta target _), replica) =>
      let (out, f) := discarded.repair sender target replica
      ⟨out, replica, f⟩
    | (.error (.gapDetected _ held), replica) =>
      ⟨[⟨sender, .snapshotRequest held⟩], replica,
        { f with
          tally := { f.tally with gapsDetected := f.tally.gapsDetected + 1 } }⟩
    | (.error _, replica) => ⟨[], replica, f⟩

/-- A snapshot is asked for: serve it if it is newer than what the sender
holds. -/
def receiveRequest (f : Flooding) (sender : NodeId) (held : Version)
    (replica : Replica) : Response :=
  if replica.version ≤ held then ⟨[], replica, f⟩
  else ⟨[⟨sender, .snapshot replica.data⟩], replica, f⟩

/-- A snapshot has come in: the authority ignores it, others take it
over if it is newer. -/
def receiveSnapshot (f : Flooding) (sender : NodeId) (data : NetworkData)
    (replica : Replica) (links : Links) : Response :=
  if replica.authority then ⟨[], replica, f⟩
  else match replica.adopt data with
    | (false, replica) => ⟨[], replica, f⟩
    | (true, replica) =>
      let out := match replica.lastDelta with
        | some d => f.passOn d links sender
        | none => []
      ⟨out, replica,
        { f with
          tally := { f.tally with
            snapshotsAdopted := f.tally.snapshotsAdopted + 1 } }⟩

def receive (f : Flooding) (frame : Frame) (replica : Replica) (links : Links) :
    Response :=
  let sender := frame.sender
  if !links.isAdmissible sender then
    ⟨[], replica, { f with
      tally := { f.tally with framesDropped := f.tally.framesDropped + 1 } }⟩
  else
    let response := match frame.message with
      | .delta d => f.receiveDelta sender d replica links
      | .snapshotRequest held => f.receiveRequest sender held replica
      | .snapshot data => f.receiveSnapshot sender data replica links
    { response with flooding := response.flooding.recordSent response.out }

end Flooding

end OnMesh
