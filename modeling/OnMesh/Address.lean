/-!
# Addresses

An address is 128 bits, read as eight groups of sixteen bits, most
significant group first.
-/

namespace OnMesh

structure Address where
  bits : BitVec 128
deriving DecidableEq, Inhabited

namespace Address

/-- The eight groups of sixteen bits, most significant first. -/
def groups (a : Address) : List Nat :=
  [112, 96, 80, 64, 48, 32, 16, 0].map fun shift =>
    (a.bits.toNat >>> shift) % 65536

def ofGroups (gs : List Nat) : Address :=
  ⟨BitVec.ofNat 128 (gs.foldl (fun n g => n * 65536 + g) 0)⟩

theorem ofGroups_groups (a : Address) : ofGroups a.groups = a := by
  obtain ⟨bits⟩ := a
  have h : bits.toNat < 2 ^ 128 := bits.isLt
  have hfold : (groups ⟨bits⟩).foldl (fun n g => n * 65536 + g) 0 =
      bits.toNat := by
    simp only [groups, List.map, List.foldl, Nat.shiftRight_eq_div_pow]
    omega
  rw [ofGroups, hfold, BitVec.ofNat_toNat, BitVec.setWidth_eq]

@[simp]
theorem length_groups (a : Address) : a.groups.length = 8 := rfl

theorem lt_of_mem_groups {a : Address} {g : Nat} (h : g ∈ a.groups) :
    g < 65536 := by
  obtain ⟨shift, _, rfl⟩ := List.mem_map.1 h
  exact Nat.mod_lt _ (by decide)

end Address

end OnMesh
