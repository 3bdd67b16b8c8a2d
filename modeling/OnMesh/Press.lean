import OnMesh.ContextPool
import OnMesh.Role

/-!
# Publishing

The press of a node joins its replica with the pool of context ids: publishing a
prefix first finds its context id and then edits the data.
-/

namespace OnMesh

/-- What a node publishes with. -/
structure Press where
  node : NodeId
  role : Role
  replica : Replica
  pool : ContextPool

namespace Press

/-- Publish a prefix under the context id that it has, or under a free one. -/
def publish (p : Press) (net : Prefix) (flags : Flags) :
    Except Fault Version × Press :=
  if !p.role.canPublish then (.error (.notAuthority p.node), p)
  else
    match p.pool.allocate net with
    | (.error fault, pool) => (.error fault, { p with pool })
    | (.ok context, pool) =>
      let (answer, replica) := p.replica.edit (.publish net flags context)
      (answer, { p with replica, pool })

/-- Withdraw a prefix.  Its context id comes back when the pool sees the
notice of the change. -/
def withdraw (p : Press) (net : Prefix) : Except Fault Version × Press :=
  if !p.role.canPublish then (.error (.notAuthority p.node), p)
  else
    let (answer, replica) := p.replica.edit (.withdraw net)
    (answer, { p with replica })

end Press

end OnMesh
