import OnMesh.Prefix

/-!
# Derived addresses

A node derives an address from a prefix by putting its interface identifier, a
fixed variant of its hardware address, into the low 64 bits.
-/

namespace OnMesh

/-- The low 64 bits of every address of a node. -/
structure InterfaceId where
  bits : UInt64
deriving DecidableEq, Inhabited

namespace InterfaceId

/-- The bit that tells universal from local hardware addresses. -/
def universalLocalBit : UInt64 := 0x0200000000000000

/-- The hardware address with the universal/local bit flipped. -/
def ofNode (node : NodeId) : InterfaceId := ⟨node.bits ^^^ universalLocalBit⟩

/-- Sixteen hexadecimal digits with the kind of value around them. -/
def tagged (i : InterfaceId) : String :=
  "Iid(" ++ String.ofList (Digits.hexFixed 16 i.bits.toNat) ++ ")"

/-- Different nodes have different interface identifiers. -/
theorem ofNode_injective {m n : NodeId} (h : ofNode m = ofNode n) : m = n := by
  cases m; cases n
  have hbits := congrArg (fun i => i.bits ^^^ universalLocalBit) h
  simpa [ofNode, UInt64.xor_assoc] using hbits

end InterfaceId

/-- An address that a node has configured. -/
structure MeshAddress where
  addr : Address
  /-- The context that the address was derived under. -/
  context : ContextId
  net : Prefix
  preferred : Bool
deriving DecidableEq, Inhabited

def MeshAddress.derive (net : Prefix) (context : ContextId) (iid : InterfaceId)
    (preferred : Bool) : MeshAddress :=
  ⟨⟨net.network.bits ||| iid.bits.toBitVec.setWidth 128⟩,
    context, net, preferred⟩

end OnMesh
