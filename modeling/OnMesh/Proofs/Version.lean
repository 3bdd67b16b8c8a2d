import OnMesh.Ident
import Mathlib.Algebra.GroupWithZero.Nat
import Mathlib.Order.Defs.LinearOrder

/-!
# The order of versions

Versions are ordered like the numbers that they stand for, no version comes
before the initial one, and counting up always leads to another version.
-/

namespace OnMesh.Version

instance : LinearOrder Version where
  le_refl v := le_iff.2 (Nat.le_refl _)
  le_trans u v w huv hvw :=
    le_iff.2 (Nat.le_trans (le_iff.1 huv) (le_iff.1 hvw))
  lt_iff_le_not_ge v w := by
    rw [lt_iff, le_iff, le_iff]
    omega
  le_antisymm v w hvw hwv := by
    cases v
    cases w
    exact congrArg _
      (UInt64.toNat_inj.1 (Nat.le_antisymm (le_iff.1 hvw) (le_iff.1 hwv)))
  le_total v w := by
    rw [le_iff, le_iff]
    omega
  toDecidableLE := inferInstance
  toDecidableEq := inferInstance
  toDecidableLT := inferInstance

theorem initial_le (v : Version) : initial ≤ v := le_iff.2 (Nat.zero_le _)

theorem not_lt_initial (v : Version) : ¬ v < initial := not_lt.2 (initial_le v)

theorem number_next (v : Version) :
    v.next.number.toNat = (v.number.toNat + 1) % 2 ^ 64 := UInt64.toNat_add _ _

/-- Short of the last number, the next one is one higher. -/
theorem number_next_of_lt {v : Version} (h : v.number.toNat + 1 < 2 ^ 64) :
    v.next.number.toNat = v.number.toNat + 1 := by
  rw [number_next, Nat.mod_eq_of_lt h]

theorem lt_next {v : Version} (h : v.number.toNat + 1 < 2 ^ 64) :
    v < v.next := by
  rw [lt_iff, number_next_of_lt h]
  exact Nat.lt_succ_self _

theorem next_ne (v : Version) : v.next ≠ v := by
  intro heq
  have hnumber := v.number_next
  have hlt := v.number.toNat_lt
  rw [heq] at hnumber
  omega

end OnMesh.Version
