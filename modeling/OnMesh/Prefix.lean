import OnMesh.Address
import OnMesh.Fault

/-!
# Prefixes

A prefix is the leading part of an address.  The bits past its length
are zero, which is part of the type: a prefix is determined by its
leading bits and its length.
-/

namespace OnMesh

/-- The first `length` bits of an address; the bits past them are zero. -/
structure Prefix where
  network : Address
  length : Nat
  length_le : length ≤ 128
  masked : network.bits &&& (BitVec.allOnes 128 <<< (128 - length)) =
    network.bits
deriving DecidableEq

namespace Prefix

/-- The prefix length that an address can be derived from. -/
def slaacLength : Nat := 64

theorem slaacLength_le : slaacLength ≤ 128 := by decide

def mask (length : Nat) : BitVec 128 := BitVec.allOnes 128 <<< (128 - length)

def ofAddress (a : Address) (length : Nat) (h : length ≤ 128) : Prefix :=
  ⟨⟨a.bits &&& mask length⟩, length, h, by
    show a.bits &&& mask length &&& mask length = _
    rw [BitVec.and_assoc, BitVec.and_self]⟩

/-- The prefix of an address; a length above 128 is refused. -/
def make (a : Address) (length : Nat) : Except Fault Prefix :=
  if h : length ≤ 128 then .ok (ofAddress a length h)
  else .error (.invalidPrefix (.tooLong length))

def isEmpty (p : Prefix) : Bool := p.length == 0

def contains (p : Prefix) (a : Address) : Bool :=
  a.bits &&& mask p.length == p.network.bits

/-- Only prefixes of 64 bits carry derived addresses. -/
def isSlaacCapable (p : Prefix) : Bool := p.length == slaacLength

instance : Inhabited Prefix := ⟨ofAddress ⟨0⟩ 0 (Nat.zero_le _)⟩

theorem ext {p q : Prefix} (hnetwork : p.network = q.network)
    (hlength : p.length = q.length) : p = q := by
  cases p; cases q
  cases hnetwork; cases hlength
  rfl

/-- A prefix is the prefix of its own network address. -/
theorem ofAddress_network (p : Prefix) :
    ofAddress p.network p.length p.length_le = p := by
  refine ext ?_ rfl
  show (⟨p.network.bits &&& mask p.length⟩ : Address) = p.network
  rw [show p.network.bits &&& mask p.length = p.network.bits from p.masked]

/-- Prefixes are in order of their network address, and of their length
where that is the same. -/
instance : Ranked Prefix where
  rank p := p.network.bits.toNat * 256 + p.length
  rank_injective := fun {p q} h => by
    have hp := p.length_le
    have hq := q.length_le
    have hbits : p.network.bits.toNat = q.network.bits.toNat := by omega
    refine ext ?_ (by omega)
    exact congrArg Address.mk (BitVec.eq_of_toNat_eq hbits)

end Prefix

end OnMesh
