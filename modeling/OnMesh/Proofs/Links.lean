import OnMesh.Links
import OnMesh.Proofs.Table

/-!
# Who is admissible after a change

Only a known neighbour can become admissible, and a change of one neighbour
leaves all others as they are.  The transition that is reported is `restored`
exactly when a neighbour that was not admissible becomes so.
-/

namespace OnMesh.Links

variable {l : Links} {b c : NodeId}

theorem mem_admissibleExcept_iff {skipped : Option NodeId} :
    b ∈ l.admissibleExcept skipped ↔
    l.isAdmissible b = true ∧ skipped ≠ some b := by
  rw [admissibleExcept, Table.mem_keys_iff, isAdmissible, beq_iff_eq]
  simp only [Table.get?_filter, Option.filter_eq_some_iff,
    Bool.and_eq_true, bne_iff_ne]
  constructor
  · rintro ⟨a, ha, rfl, hne⟩
    exact ⟨ha, hne⟩
  · rintro ⟨ha, hne⟩
    exact ⟨true, ha, rfl, hne⟩

theorem mem_admissible_iff : b ∈ l.admissible ↔ l.isAdmissible b = true := by
  simp [admissible, mem_admissibleExcept_iff]

theorem nodup_admissibleExcept (l : Links) (skipped : Option NodeId) :
    (l.admissibleExcept skipped).Nodup :=
  Table.nodup_keys _

theorem hasNeighbour_iff :
    l.hasNeighbour b = true ↔ ∃ a, l.neighbours.get? b = some a := by
  rw [hasNeighbour, Table.contains, Option.isSome_iff_exists]

theorem hasNeighbour_of_isAdmissible (h : l.isAdmissible b = true) :
    l.hasNeighbour b = true := by
  rw [isAdmissible, beq_iff_eq] at h
  exact hasNeighbour_iff.2 ⟨true, h⟩

theorem hasNeighbour_addNeighbour :
    (l.addNeighbour b).hasNeighbour c = true ↔
      l.hasNeighbour c = true ∨ (c = b ∧ b ≠ l.owner) := by
  rw [addNeighbour]
  split
  · next h =>
      simp only [Bool.or_eq_true, decide_eq_true_eq] at h
      constructor
      · exact Or.inl
      · rintro (hc | ⟨rfl, hne⟩)
        · exact hc
        · exact h.resolve_left hne
  · next h =>
      simp only [Bool.or_eq_true, decide_eq_true_eq, not_or] at h
      by_cases hcb : c = b
      · subst hcb
        simp [hasNeighbour, Table.contains, h.1]
      · simp [hasNeighbour, Table.contains, hcb]

theorem isAdmissible_addNeighbour :
    (l.addNeighbour b).isAdmissible c = l.isAdmissible c := by
  rw [addNeighbour]
  split
  · rfl
  · next h =>
      simp only [Bool.or_eq_true, decide_eq_true_eq, not_or] at h
      by_cases hcb : c = b
      · subst hcb
        have hnone : l.neighbours.get? c = none := by
          simpa [hasNeighbour, Table.contains] using h.2
        simp [isAdmissible, hnone]
      · simp [isAdmissible, hcb]

/-- A neighbour that is added and then treated in some way is treated that
way. -/
theorem setAdmissible_addNeighbour (hne : b ≠ l.owner) (admissible : Bool) :
    ((l.addNeighbour b).setAdmissible b admissible).2 =
      { l with neighbours := l.neighbours.insert b admissible } := by
  cases hb : l.neighbours.get? b with
  | some before =>
      have hknown : l.addNeighbour b = l := by
        rw [addNeighbour, if_pos]
        simp [hasNeighbour, Table.contains, hb]
      rw [hknown, setAdmissible, hb]
  | none =>
      have hadded : l.addNeighbour b =
          { l with neighbours := l.neighbours.insert b false } := by
        rw [addNeighbour, if_neg]
        simp [hasNeighbour, Table.contains, hb, hne]
      rw [hadded, setAdmissible]
      simp only [Table.get?_insert, if_true, Table.insert_insert]

theorem isAdmissible_removeNeighbour :
    (l.removeNeighbour b).2.isAdmissible c = if c = b then false
      else l.isAdmissible c := by
  by_cases hcb : c = b <;> simp [removeNeighbour, isAdmissible, hcb]

theorem hasNeighbour_setAdmissible (admissible : Bool) :
    (l.setAdmissible b admissible).2.hasNeighbour c = l.hasNeighbour c := by
  rw [setAdmissible]
  split
  · rfl
  · next before hb =>
      by_cases hcb : c = b
      · subst hcb
        simp [hasNeighbour, Table.contains, hb]
      · simp [hasNeighbour, Table.contains, hcb]

theorem owner_setAdmissible (admissible : Bool) :
    (l.setAdmissible b admissible).2.owner = l.owner := by
  rw [setAdmissible]
  split <;> rfl

theorem isAdmissible_setAdmissible_of_ne (admissible : Bool) (h : c ≠ b) :
    (l.setAdmissible b admissible).2.isAdmissible c = l.isAdmissible c := by
  rw [setAdmissible]
  split
  · rfl
  · simp [isAdmissible, h]

theorem isAdmissible_setAdmissible_self (admissible : Bool) :
    (l.setAdmissible b admissible).2.isAdmissible b =
      (l.hasNeighbour b && admissible) := by
  rw [setAdmissible]
  split
  · next hb => simp [isAdmissible, hasNeighbour, Table.contains, hb]
  · next before hb => simp [isAdmissible, hasNeighbour, Table.contains, hb]

theorem setAdmissible_restored_iff (admissible : Bool) :
    (l.setAdmissible b admissible).1 = .restored ↔
      l.isAdmissible b = false ∧
      (l.setAdmissible b admissible).2.isAdmissible b = true := by
  rw [isAdmissible_setAdmissible_self, setAdmissible]
  cases hb : l.neighbours.get? b with
  | none => simp [hasNeighbour, Table.contains, hb]
  | some before =>
      cases before <;> cases admissible <;>
        simp [isAdmissible, hasNeighbour, Table.contains, hb]

end OnMesh.Links
