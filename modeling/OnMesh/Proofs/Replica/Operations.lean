import OnMesh.Proofs.Replica

/-!
# Operations on a replica

Edits, snapshots and deltas either leave a replica as it is, or they commit a
delta that starts at its version and ends at another one.  Besides that a
replica can only forget its data, be given or denied the right to edit, and
hand out its notices.  `Performed` says so for one operation, and a replica
stays grounded in all runs.
-/

namespace OnMesh.Replica

inductive Op where
  | edit (e : Edit)
  | adopt (incoming : NetworkData)
  | applyDelta (d : Delta)
  | reset
  | setAuthority (authority : Bool)
  | takeNotices
deriving DecidableEq

def perform (r : Replica) : Op → Replica
  | .edit e => (r.edit e).2
  | .adopt incoming => (r.adopt incoming).2
  | .applyDelta d => (r.applyDelta d).2
  | .reset => r.reset
  | .setAuthority authority => r.setAuthority authority
  | .takeNotices => r.takeNotices.2

/-- The operation is one of the three that can bring new data. -/
def Op.isUpdate : Op → Bool
  | .edit _ => true
  | .adopt _ => true
  | .applyDelta _ => true
  | .reset => false
  | .setAuthority _ => false
  | .takeNotices => false

/-- A replica to which a delta was applied, whichever way it came by it. -/
def committed (r : Replica) (d : Delta) : Replica := r.commit (d.apply r.data) d

/-- A delta that an operation commits starts at the version held and ends at a
later one, or at the next one if it was made by an edit. -/
structure Commits (r : Replica) (op : Op) (d : Delta) : Prop where
  isUpdate : op.isUpdate = true
  base : d.base = r.version
  target : r.version < d.target ∨ (∃ e, op = .edit e) ∧
    d.target = r.version.next

/-- What an operation can come to. -/
inductive Performed (r : Replica) : Op → Replica → Prop
  /-- New data are refused, or are those already held. -/
  | kept {op : Op} : op.isUpdate = true → Performed r op r
  | committed {op : Op} {d : Delta} : r.Commits op d →
      Performed r op (r.committed d)
  | forgotten : Performed r .reset r.reset
  | appointed (authority : Bool) :
      Performed r (.setAuthority authority) (r.setAuthority authority)
  | emptied : Performed r .takeNotices r.takeNotices.2

variable {r r' : Replica} {op : Op} {d : Delta}

/-- Going on from the data held to others is committing the delta between
them. -/
theorem commit_between (r : Replica) (data : NetworkData) :
    r.commit data (Delta.between r.data data) =
      r.committed (Delta.between r.data data) := by
  rw [committed, Delta.apply_between]

theorem performed_edit (r : Replica) (e : Edit) :
    r.Performed (.edit e) (r.edit e).2 := by
  rcases (r.edited_edit e).eq_or_advance
    with ⟨hsame, -⟩ | ⟨edited, hadvance, -, -⟩
  · rw [hsame]
    exact Performed.kept rfl
  · rw [hadvance, advance, commit_between]
    exact Performed.committed ⟨rfl, rfl, Or.inr ⟨⟨e, rfl⟩, rfl⟩⟩

theorem performed_adopt (r : Replica) (incoming : NetworkData) :
    r.Performed (.adopt incoming) (r.adopt incoming).2 := by
  rcases le_or_gt incoming.version r.version with hle | hlt
  · rw [adopt_of_le hle]
    exact Performed.kept rfl
  · rw [adopt_of_lt hlt, commit_between]
    exact Performed.committed ⟨rfl, rfl, Or.inl hlt⟩

theorem performed_applyDelta (r : Replica) (d : Delta) :
    r.Performed (.applyDelta d) (r.applyDelta d).2 := by
  rcases le_or_gt d.target r.version with hle | hlt
  · rw [applyDelta_of_le hle]
    exact Performed.kept rfl
  · by_cases hbase : d.base = r.version
    · rw [applyDelta_of_next hlt hbase]
      exact Performed.committed ⟨rfl, hbase, Or.inl hlt⟩
    · rw [applyDelta_of_gap hlt hbase]
      exact Performed.kept rfl

theorem performed_perform (r : Replica) (op : Op) :
    r.Performed op (r.perform op) := by
  cases op with
  | edit e => exact r.performed_edit e
  | adopt incoming => exact r.performed_adopt incoming
  | applyDelta d => exact r.performed_applyDelta d
  | reset => exact Performed.forgotten
  | setAuthority authority => exact Performed.appointed authority
  | takeNotices => exact Performed.emptied

/-! ## Versions -/

/-- A commit never stays at the version held. -/
theorem Commits.target_ne (h : r.Commits op d) : d.target ≠ r.version := by
  rcases h.target with hlt | ⟨-, hnext⟩
  · exact ne_of_gt hlt
  · rw [hnext]
    exact Version.next_ne _

/-! ## Runs -/

theorem Performed.grounded (h : r.Performed op r') (hgrounded : r.Grounded) :
    r'.Grounded := by
  cases h with
  | kept _ => exact hgrounded
  | committed _ => exact grounded_commit r rfl
  | forgotten => exact grounded_reset r
  | appointed _ => exact hgrounded
  | emptied => exact hgrounded

/-- Whatever is done to a replica, it holds nothing, or its latest delta
ends at its version. -/
theorem Grounded.foldl_perform (h : r.Grounded) (ops : List Op) :
    (ops.foldl perform r).Grounded := by
  induction ops generalizing r with
  | nil => exact h
  | cons op ops ih => exact ih ((performed_perform r op).grounded h)

end OnMesh.Replica
