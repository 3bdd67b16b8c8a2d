/-!
# Roles

One node of the mesh authors the network data, relays pass them on,
leaves only take them.
-/

namespace OnMesh

/-- What a node does with network data. -/
inductive Role where
  /-- The sole author, which also passes data on. -/
  | authority
  /-- Takes data and passes them on. -/
  | relay
  /-- Takes data. -/
  | leaf
deriving DecidableEq, Inhabited

namespace Role

def canPublish : Role → Bool
  | authority => true
  | relay => false
  | leaf => false

def forwards : Role → Bool
  | authority => true
  | relay => true
  | leaf => false

def text : Role → String
  | authority => "authority"
  | relay => "relay"
  | leaf => "leaf"

def parse? (s : String) : Option Role :=
  [authority, relay, leaf].find? fun r => r.text = s

theorem parse?_text (r : Role) : parse? r.text = some r := by cases r <;> decide

end Role

/-- How a node takes part in the mesh. -/
inductive Attachment where
  | leader
  | router
  | child
  | detached
deriving DecidableEq, Inhabited

namespace Attachment

def ofRole (role : Role) (attached : Bool) : Attachment :=
  if attached then
    match role with
    | .authority => leader
    | .relay => router
    | .leaf => child
  else detached

def text : Attachment → String
  | leader => "leader"
  | router => "router"
  | child => "child"
  | detached => "detached"

end Attachment

end OnMesh
