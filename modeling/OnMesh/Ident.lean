import OnMesh.Bytes
import OnMesh.Table
import OnMesh.Text.Digits

/-!
# Names of nodes, contexts and versions

Nodes are known by their 64-bit hardware address, compression contexts
by a byte, and each state of the network data by a version number that
the authority counts up.
-/

namespace OnMesh

/-- A node's 64-bit extended hardware address. -/
structure NodeId where
  bits : UInt64
deriving DecidableEq, Inhabited

namespace NodeId

/-- The address that no node has. -/
def zero : NodeId := ⟨0⟩

def text (id : NodeId) : String :=
  String.ofList (Digits.hexFixed 16 id.bits.toNat)

def tagged (id : NodeId) : String := "Node(" ++ id.text ++ ")"

/-- The eight bytes of the address, least significant first. -/
def toBytes (id : NodeId) : List UInt8 := Bytes.toBytes 8 id.bits.toNat

/-- The address with the given bytes, least significant first. -/
def ofBytes (bs : List UInt8) : NodeId := ⟨UInt64.ofNat (Bytes.ofBytes bs)⟩

theorem ofBytes_toBytes (id : NodeId) : ofBytes id.toBytes = id := by
  have h : id.bits.toNat < Bytes.capacity 8 := id.bits.toNat_lt
  rw [ofBytes, toBytes, Bytes.ofBytes_toBytes_of_lt h, UInt64.ofNat_toNat]

instance : Ranked NodeId where
  rank id := id.bits.toNat
  rank_injective := fun {i j} h => by
    cases i; cases j
    exact congrArg _ (UInt64.toNat_inj.1 h)

end NodeId

structure ContextId where
  value : UInt8
deriving DecidableEq, Inhabited

namespace ContextId

def text (id : ContextId) : String := toString id.value.toNat

def tagged (id : ContextId) : String := "Ctx(" ++ id.text ++ ")"

instance : Ranked ContextId where
  rank id := id.value.toNat
  rank_injective := fun {i j} h => by
    cases i; cases j
    exact congrArg _ (UInt8.toNat_inj.1 h)

end ContextId

/-- The version of the network data.  The authority counts it up by
one with each change; a dependent holds the version of the data
that it took over last. -/
structure Version where
  number : UInt64
deriving DecidableEq, Inhabited

namespace Version

def initial : Version := ⟨0⟩

def next (v : Version) : Version := ⟨v.number + 1⟩

instance : LT Version := ⟨fun v w => v.number < w.number⟩

instance : LE Version := ⟨fun v w => v.number ≤ w.number⟩

instance (v w : Version) : Decidable (v < w) :=
  inferInstanceAs (Decidable (v.number < w.number))

instance (v w : Version) : Decidable (v ≤ w) :=
  inferInstanceAs (Decidable (v.number ≤ w.number))

theorem lt_iff {v w : Version} : v < w ↔ v.number.toNat < w.number.toNat :=
  UInt64.lt_iff_toNat_lt

theorem le_iff {v w : Version} : v ≤ w ↔ v.number.toNat ≤ w.number.toNat :=
  UInt64.le_iff_toNat_le

def text (v : Version) : String := toString v.number.toNat

/-- The number behind a letter that marks it as a version. -/
def tagged (v : Version) : String := "v" ++ v.text

end Version

end OnMesh
