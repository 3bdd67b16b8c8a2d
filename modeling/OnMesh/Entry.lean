import OnMesh.Flags
import OnMesh.Prefix

/-!
# Entries of the network data

A prefix entry publishes a prefix, a context entry binds a context id to one.
-/

namespace OnMesh

structure PrefixEntry where
  net : Prefix
  flags : Flags
  /-- The node that registered the prefix. -/
  owner : NodeId
deriving DecidableEq, Inhabited

/-- Whether addresses may be derived from the prefix, given a context. -/
def PrefixEntry.isSlaacEligible (e : PrefixEntry) : Bool :=
  e.flags.isSlaac && e.net.isSlaacCapable

/-- A compression context and the prefix that it stands for. -/
structure ContextEntry where
  id : ContextId
  net : Prefix
  /-- The context may be used to compress headers. -/
  compress : Bool
deriving DecidableEq, Inhabited

end OnMesh
