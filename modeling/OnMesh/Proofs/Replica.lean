import OnMesh.Proofs.Delta
import OnMesh.Proofs.Version
import OnMesh.Replica

/-!
# What a replica can do

A replica changes in three ways only: its owner edits it, it takes over a newer
snapshot, or it applies a delta that starts at its version.  `Edited` lists the
outcomes of an edit.  A replica that is `Grounded` holds either nothing or data
that its latest delta ends at, and every change keeps it so.
-/

namespace OnMesh

namespace Replica

/-! ## Edits -/

/-- The entry under which an edit publishes a prefix: flags are only ever
added. -/
def publishedEntry (r : Replica) (net : Prefix) (flags : Flags) : PrefixEntry :=
  ⟨net, match r.data.prefixEntry? net with
    | some existing => existing.flags.union flags
    | none => flags, r.owner⟩

/-- Whether publishing would change nothing. -/
def IsCurrent (r : Replica) (net : Prefix) (flags : Flags)
    (context : ContextId) : Prop :=
  r.data.prefixEntry? net = some (r.publishedEntry net flags) ∧
    r.data.contextEntry? context = some ⟨context, net, true⟩

/-- The outcomes of an edit: the answer and the replica afterwards. -/
inductive Edited (r : Replica) : Edit → Except Fault Version → Replica → Prop
  | forbidden (e : Edit) : r.authority = false →
      Edited r e (.error (.notAuthority r.owner)) r
  | current {net : Prefix} {flags : Flags} {context : ContextId} :
      r.authority = true →
      r.IsCurrent net flags context →
      Edited r (.publish net flags context) (.ok r.version) r
  | published {net : Prefix} {flags : Flags} {context : ContextId} :
      r.authority = true →
      ¬ r.IsCurrent net flags context →
      Edited r (.publish net flags context) (.ok r.version.next)
        (r.advance (rebind r.data (r.publishedEntry net flags) context))
  | withdrawn {net : Prefix} : r.authority = true →
      r.data.prefixes.contains net = true →
      Edited r (.withdraw net) (.ok r.version.next)
        (r.advance (unbind r.data net))
  | unknown {net : Prefix} : r.authority = true →
      r.data.prefixes.contains net = false →
      Edited r (.withdraw net) (.error (.unknownPrefix net.text)) r

/-- Every edit has one of the outcomes that are listed. -/
theorem edited_edit (r : Replica) (e : Edit) :
    Edited r e (r.edit e).1 (r.edit e).2 := by
  cases hauth : r.authority with
  | false =>
      have hedit : r.edit e = (.error (.notAuthority r.owner), r) := by
        simp [edit, hauth]
      rw [hedit]
      exact Edited.forbidden e hauth
  | true =>
      cases e with
      | publish net flags context =>
          by_cases hcurrent : r.IsCurrent net flags context
          · have hedit : r.edit (.publish net flags context) =
                (.ok r.version, r) := by
              rw [edit, hauth]
              exact if_pos hcurrent
            rw [hedit]
            exact Edited.current hauth hcurrent
          · have hedit : r.edit (.publish net flags context) =
                (.ok r.version.next,
                r.advance
                  (rebind r.data (r.publishedEntry net flags) context)) := by
              rw [edit, hauth]
              exact if_neg hcurrent
            rw [hedit]
            exact Edited.published hauth hcurrent
      | withdraw net =>
          cases hknown : r.data.prefixes.contains net with
          | true =>
              have hedit : r.edit (.withdraw net) = (.ok r.version.next,
                  r.advance (unbind r.data net)) := by
                simp only [edit, hauth, hknown]
                rfl
              rw [hedit]
              exact Edited.withdrawn hauth hknown
          | false =>
              have hedit : r.edit (.withdraw net) =
                  (.error (.unknownPrefix net.text), r) := by
                simp only [edit, hauth, hknown]
                rfl
              rw [hedit]
              exact Edited.unknown hauth hknown

/-- An edit either leaves the replica as it is or goes on to the next
version. -/
theorem Edited.eq_or_advance {r r' : Replica} {e : Edit}
    {answer : Except Fault Version} (h : Edited r e answer r') :
    r' = r ∧ (∀ v, answer = .ok v → v = r.version) ∨
      ∃ edited, r' = r.advance edited ∧ r.authority = true ∧
      answer = .ok r.version.next := by
  cases h with
  | forbidden _ _ => exact Or.inl ⟨rfl, by simp⟩
  | current _ _ => exact Or.inl ⟨rfl, by simp⟩
  | published hauth _ => exact Or.inr ⟨_, rfl, hauth, rfl⟩
  | withdrawn hauth _ => exact Or.inr ⟨_, rfl, hauth, rfl⟩
  | unknown _ _ => exact Or.inl ⟨rfl, by simp⟩

/-! ## Deltas and snapshots -/

theorem adopt_of_le {r : Replica} {incoming : NetworkData}
    (h : incoming.version ≤ r.version) : r.adopt incoming = (false, r) :=
  if_pos h

theorem adopt_of_lt {r : Replica} {incoming : NetworkData}
    (h : r.version < incoming.version) :
    r.adopt incoming =
      (true, r.commit incoming (Delta.between r.data incoming)) :=
  if_neg (not_le.2 h)

theorem applyDelta_of_le {r : Replica} {d : Delta} (h : d.target ≤ r.version) :
    r.applyDelta d = (.error (.staleDelta d.target r.version), r) := if_pos h

theorem applyDelta_of_gap {r : Replica} {d : Delta} (h : r.version < d.target)
    (hbase : d.base ≠ r.version) :
    r.applyDelta d = (.error (.gapDetected d.base r.version), r) := by
  rw [applyDelta, if_neg (not_le.2 h), if_pos hbase]

theorem applyDelta_of_next {r : Replica} {d : Delta} (h : r.version < d.target)
    (hbase : d.base = r.version) :
    r.applyDelta d = (.ok d.target, r.commit (d.apply r.data) d) := by
  rw [applyDelta, if_neg (not_le.2 h), if_neg (not_not.2 hbase)]
  rfl

/-! ## Grounded replicas -/

/-- The data are empty, or the latest delta ends at them. -/
def Grounded (r : Replica) : Prop :=
  match r.lastDelta with
  | none => r.data = NetworkData.empty
  | some d => d.target = r.version

theorem grounded_make (owner : NodeId) (authority : Bool) :
    (make owner authority).Grounded := rfl

theorem grounded_commit (r : Replica) {data : NetworkData} {d : Delta}
    (h : d.target = data.version) : (r.commit data d).Grounded := h

theorem grounded_advance (r : Replica) (edited : NetworkData) :
    (r.advance edited).Grounded := rfl

theorem grounded_reset (r : Replica) : r.reset.Grounded := rfl

theorem Grounded.target_eq {r : Replica} (h : r.Grounded) {d : Delta}
    (hlast : r.lastDelta = some d) : d.target = r.version := by
  rw [Grounded, hlast] at h
  exact h

/-- A replica with a version of its own has a delta that ends there. -/
theorem Grounded.lastDelta_of_lt {r : Replica} (h : r.Grounded) {v : Version}
    (hv : v < r.version) :
    ∃ d, r.lastDelta = some d ∧ d.target = r.version := by
  cases hlast : r.lastDelta with
  | none =>
      rw [Grounded, hlast] at h
      have hempty : r.version = Version.initial := by rw [version, h]; rfl
      rw [hempty] at hv
      exact absurd hv (Version.not_lt_initial v)
  | some d => exact ⟨d, rfl, h.target_eq hlast⟩

end Replica

end OnMesh
