import OnMesh.Ident

/-!
# Links

A node keeps a list of its direct neighbours and of which of them are
admissible.  Only admissible neighbours are sent to and listened to.
-/

namespace OnMesh

/-- What a change of admissibility amounts to. -/
inductive Transition where
  /-- The neighbour has become admissible. -/
  | restored
  /-- The neighbour is admissible no longer. -/
  | suppressed
  | unchanged
deriving DecidableEq, Inhabited

def Transition.text : Transition → String
  | restored => "restored"
  | suppressed => "suppressed"
  | unchanged => "unchanged"

structure Links where
  owner : NodeId
  /-- Whether each neighbour is admissible. -/
  neighbours : Table NodeId Bool
deriving DecidableEq, Inhabited

namespace Links

def make (owner : NodeId) : Links := ⟨owner, Table.empty⟩

def hasNeighbour (l : Links) (n : NodeId) : Bool := l.neighbours.contains n

def isAdmissible (l : Links) (n : NodeId) : Bool :=
  l.neighbours.get? n == some true

/-- Add a neighbour that is not admissible yet.  A node is no neighbour of
itself, and a neighbour that is known stays as it is. -/
def addNeighbour (l : Links) (n : NodeId) : Links :=
  if n = l.owner || l.hasNeighbour n then l
  else { l with neighbours := l.neighbours.insert n false }

/-- Forget a neighbour, and tell whether there was one. -/
def removeNeighbour (l : Links) (n : NodeId) : Bool × Links :=
  (l.hasNeighbour n, { l with neighbours := l.neighbours.erase n })

/-- Change the admissibility of a neighbour; other nodes have none. -/
def setAdmissible (l : Links) (n : NodeId) (admissible : Bool) :
    Transition × Links :=
  match l.neighbours.get? n with
  | none => (.unchanged, l)
  | some before =>
    let transition := match before, admissible with
      | false, true => Transition.restored
      | true, false => Transition.suppressed
      | _, _ => Transition.unchanged
    (transition, { l with neighbours := l.neighbours.insert n admissible })

def admissibleExcept (l : Links) (skipped : Option NodeId) : List NodeId :=
  (l.neighbours.filter fun n admissible => admissible && skipped != some n).keys

def admissible (l : Links) : List NodeId := l.admissibleExcept none

end Links

end OnMesh
