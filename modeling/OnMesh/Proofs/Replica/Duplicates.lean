import OnMesh.Proofs.Replica.Operations

/-!
# Repeated deltas and snapshots

Unless a replica is reset, or an edit runs out of versions, its version never
falls.  A delta or a snapshot that was taken over once is therefore stale from
then on: wherever it arrives again it is refused, and the run goes on as if it
had not arrived.  Nothing is said of a delta that was refused for a gap, which
may well be taken over later.
-/

namespace OnMesh.Replica

variable {r s : Replica} {op : Op} {ops : List Op}

/-! ## Versions in the course of a run -/

def Op.isEdit : Op → Bool
  | .edit _ => true
  | _ => false

/-- The operation is an edit that changes the last version that there is. -/
def Exhausts (r : Replica) (op : Op) : Prop :=
  op.isEdit = true ∧ r.version.number.toNat + 1 = 2 ^ 64 ∧ r.perform op ≠ r

instance (r : Replica) (op : Op) : Decidable (r.Exhausts op) :=
  inferInstanceAs (Decidable (_ ∧ _))

/-- No edit runs out of versions. -/
def CountsUp : Replica → List Op → Prop
  | _, [] => True
  | r, op :: ops => ¬ r.Exhausts op ∧ (r.perform op).CountsUp ops

instance decidableCountsUp : (r : Replica) → (ops : List Op) →
    Decidable (r.CountsUp ops)
  | _, [] => inferInstanceAs (Decidable True)
  | r, op :: ops =>
    have := decidableCountsUp (r.perform op) ops
    inferInstanceAs (Decidable (_ ∧ _))

/-- A commit leads to a later version, unless an edit runs out of versions. -/
theorem Commits.lt_target {d : Delta} (h : r.Commits op d)
    (hafter : r.perform op = r.committed d) (hcounts : ¬ r.Exhausts op) :
    r.version < d.target := by
  rcases h.target with hlt | ⟨⟨e, rfl⟩, hnext⟩
  · exact hlt
  · have hchanged : r.perform (.edit e) ≠ r := by
      rw [hafter]
      exact fun hsame => h.target_ne (congrArg version hsame)
    have hlast : r.version.number.toNat + 1 ≠ 2 ^ 64 := fun hlast =>
      hcounts ⟨rfl, hlast, hchanged⟩
    have hlt := r.version.number.toNat_lt
    rw [hnext]
    exact Version.lt_next (by omega)

theorem version_le_perform (hreset : op ≠ .reset) (hcounts : ¬ r.Exhausts op) :
    r.version ≤ (r.perform op).version := by
  have hperformed := r.performed_perform op
  generalize hafter : r.perform op = r' at hperformed
  cases hperformed with
  | kept _ => exact le_refl _
  | committed hcommits => exact le_of_lt (hcommits.lt_target hafter hcounts)
  | forgotten => exact absurd rfl hreset
  | appointed _ => exact le_refl _
  | emptied => exact le_refl _

theorem version_le_foldl_perform (hresets : ∀ op ∈ ops, op ≠ .reset)
    (hcounts : r.CountsUp ops) : r.version ≤ (ops.foldl perform r).version := by
  induction ops generalizing r with
  | nil => exact le_refl _
  | cons op ops ih =>
      obtain ⟨hop, hops⟩ := List.forall_mem_cons.1 hresets
      exact le_trans (version_le_perform hop hcounts.1) (ih hops hcounts.2)

theorem countsUp_append {xs ys : List Op} :
    r.CountsUp (xs ++ ys) ↔
    r.CountsUp xs ∧ (xs.foldl perform r).CountsUp ys := by
  induction xs generalizing r with
  | nil => exact (and_iff_right trivial).symm
  | cons op xs ih => exact (and_congr_right fun _ => ih).trans and_assoc.symm

/-! ## What operations answer -/

inductive Answer where
  | edited (answer : Except Fault Version)
  | adopted (taken : Bool)
  | applied (answer : Except Fault Version)
  | handedOut (notices : List Notice)
  | nothing

def answer (r : Replica) : Op → Answer
  | .edit e => .edited (r.edit e).1
  | .adopt incoming => .adopted (r.adopt incoming).1
  | .applyDelta d => .applied (r.applyDelta d).1
  | .reset => .nothing
  | .setAuthority _ => .nothing
  | .takeNotices => .handedOut r.takeNotices.1

def answers : Replica → List Op → List Answer
  | _, [] => []
  | r, op :: ops => r.answer op :: (r.perform op).answers ops

theorem answers_append (r : Replica) (xs ys : List Op) :
    r.answers (xs ++ ys) = r.answers xs ++ (xs.foldl perform r).answers ys := by
  induction xs generalizing r with
  | nil => rfl
  | cons op xs ih => exact congrArg (r.answer op :: ·) (ih (r.perform op))

/-! ## News that arrive again -/

/-- The operation brings a snapshot or a delta, and the replica takes it
over. -/
inductive Takes (r : Replica) : Op → Prop
  | snapshot {incoming : NetworkData} : (r.adopt incoming).1 = true →
      Takes r (.adopt incoming)
  | delta {d : Delta} {v : Version} : (r.applyDelta d).1 = .ok v →
      Takes r (.applyDelta d)

/-- The operation brings a snapshot or a delta that is stale, and nothing
changes. -/
inductive Refuses (r : Replica) : Op → Prop
  | snapshot {incoming : NetworkData} : r.adopt incoming = (false, r) →
      Refuses r (.adopt incoming)
  | delta {d : Delta} :
      r.applyDelta d = (.error (.staleDelta d.target r.version), r) →
      Refuses r (.applyDelta d)

theorem Refuses.perform_eq (h : r.Refuses op) : r.perform op = r := by
  cases h with
  | snapshot heq => exact congrArg Prod.snd heq
  | delta heq => exact congrArg Prod.snd heq

/-- What was taken over once is stale at every version that is not below the
one that it led to. -/
theorem Takes.refuses (h : r.Takes op)
    (hle : (r.perform op).version ≤ s.version) : s.Refuses op := by
  cases h with
  | @snapshot incoming htaken =>
      rcases le_or_gt incoming.version r.version with hstale | hnew
      · rw [adopt_of_le hstale] at htaken
        cases htaken
      · rw [perform, adopt_of_lt hnew] at hle
        exact Refuses.snapshot (adopt_of_le hle)
  | @delta d v hok =>
      rcases le_or_gt d.target r.version with hstale | hnew
      · rw [applyDelta_of_le hstale] at hok
        cases hok
      · by_cases hbase : d.base = r.version
        · rw [perform, applyDelta_of_next hnew hbase] at hle
          exact Refuses.delta (applyDelta_of_le hle)
        · rw [applyDelta_of_gap hnew hbase] at hok
          cases hok

/-- An operation between two parts of a run is refused, and all but its own
answer is as if it had not come. -/
structure Ignores (r : Replica) (first : List Op) (op : Op) (second : List Op) :
    Prop where
  refused : (first.foldl perform r).Refuses op
  answers_with : r.answers (first ++ op :: second) = r.answers first ++
    (first.foldl perform r).answer op :: (first.foldl perform r).answers second
  answers_without : r.answers (first ++ second) = r.answers first ++
    (first.foldl perform r).answers second
  outcome : (first ++ op :: second).foldl perform r =
    (first ++ second).foldl perform r

theorem ignores_of_refuses {first : List Op}
    (h : (first.foldl perform r).Refuses op) (second : List Op) :
    r.Ignores first op second where
  refused := h
  answers_with := by rw [answers_append, answers, h.perform_eq]
  answers_without := r.answers_append first second
  outcome := by
    rw [List.foldl_append, List.foldl_cons, h.perform_eq, List.foldl_append]

/-- What a run makes of versions and of news that arrive again. -/
structure Absorbs (r : Replica) (ops : List Op) : Prop where
  /-- The version never falls. -/
  rising : ∀ before between after, ops = before ++ between ++ after →
    (before.foldl perform r).version ≤
      ((before ++ between).foldl perform r).version
  /-- A snapshot or a delta that was taken over does nothing at any later
  place. -/
  repeated : ∀ before op between after, ops = before ++ op :: between ++ after →
    (before.foldl perform r).Takes op →
    r.Ignores (before ++ op :: between) op after

/-- Whatever replica it is and whatever edits, snapshots and deltas it goes
through, in a run without resets in which no edit runs out of versions nothing
old ever comes back. -/
theorem absorbs_of_countsUp (hresets : ∀ op ∈ ops, op ≠ .reset)
    (hcounts : r.CountsUp ops) : r.Absorbs ops where
  rising := by
    rintro before between after rfl
    rw [List.foldl_append]
    refine version_le_foldl_perform (fun op hop => hresets op ?_)
      (countsUp_append.1 (countsUp_append.1 hcounts).1).2
    exact List.mem_append_left _ (List.mem_append_right _ hop)
  repeated := by
    rintro before op between after rfl htakes
    have hrun : ((before ++ op :: between).foldl perform r) =
        between.foldl perform ((before.foldl perform r).perform op) := by
      rw [List.foldl_append, List.foldl_cons]
    refine ignores_of_refuses ?_ after
    rw [hrun]
    refine htakes.refuses
      (version_le_foldl_perform (fun op' hop => hresets op' ?_)
      (countsUp_append.1 (countsUp_append.1 hcounts).1).2.2)
    exact List.mem_append_left _
      (List.mem_append_right _ (List.mem_cons_of_mem _ hop))

/-- An authority takes over a snapshot and a delta, and edits the data in
between and afterwards. -/
def mingled : List Op :=
  [.adopt { NetworkData.empty with version := ⟨2⟩ },
    .edit (.publish default Flags.none ⟨1⟩), .takeNotices, .applyDelta ⟨⟨3⟩,
      ⟨7⟩, [], [default], [], [⟨1⟩]⟩, .edit (.publish default Flags.none ⟨2⟩)]

theorem absorbs_mingled :
    let r := make ⟨1⟩ true
    (∀ op ∈ mingled, op ≠ .reset) ∧ r.CountsUp mingled ∧
      (mingled.foldl perform r).version = ⟨8⟩ ∧ r.Absorbs mingled := by
  intro r
  have hresets : ∀ op ∈ mingled, op ≠ .reset := by decide
  have hcounts : r.CountsUp mingled := by decide
  exact ⟨hresets, hcounts, by decide, absorbs_of_countsUp hresets hcounts⟩

end OnMesh.Replica
