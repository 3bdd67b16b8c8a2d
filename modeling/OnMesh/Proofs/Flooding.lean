import OnMesh.Flooding
import OnMesh.Proofs.Links
import OnMesh.Proofs.Replica

/-!
# What a frame leads to

`Received` lists everything that can happen when a frame comes in: what is sent
and which replica is left.  A frame either carries the replica on and is passed
on, or it leaves the replica alone and at most one message goes back to its
sender.  `greeting` is the message for a neighbour that has become admissible.
-/

namespace OnMesh

open Wire (Frame Message)

namespace Flooding

variable {f : Flooding} {frame : Frame} {r : Replica} {links : Links}

/-! ## Messages that are sent unasked -/

/-- What a neighbour that has become admissible is told: the latest
delta, or a request. -/
def greeting (r : Replica) : Message :=
  match r.lastDelta with
  | some d => .delta d
  | none => .snapshotRequest r.version

theorem greet_of_admissible {n : NodeId} (f : Flooding) (r : Replica)
    (h : links.isAdmissible n = true) :
    f.greet n r links =
      ([⟨n, greeting r⟩], f.recordSent [⟨n, greeting r⟩]) := by
  rw [greet, h]
  cases hlast : r.lastDelta <;> simp [greeting, hlast]

theorem greet_of_not_admissible {n : NodeId} (f : Flooding) (r : Replica)
    (h : links.isAdmissible n = false) : f.greet n r links = ([], f) := by
  rw [greet, h]
  rfl

theorem announce_of_lastDelta {d : Delta} (f : Flooding) (links : Links)
    (hlast : r.lastDelta = some d) (htarget : d.target = r.version) :
    f.announce r links =
      (fanOut d links none, f.recordSent (fanOut d links none)) := by
  rw [announce, hlast]
  exact if_neg (not_not.2 htarget)

theorem mem_fanOut_iff {d : Delta} {skipped : Option NodeId} {o : Outbound} :
    o ∈ fanOut d links skipped ↔
      (links.isAdmissible o.to = true ∧ skipped ≠ some o.to) ∧
      o.message = .delta d := by
  rw [fanOut, List.mem_map]
  constructor
  · rintro ⟨n, hn, rfl⟩
    exact ⟨Links.mem_admissibleExcept_iff.1 hn, rfl⟩
  · obtain ⟨neighbour, message⟩ := o
    rintro ⟨hn, rfl⟩
    exact ⟨neighbour, Links.mem_admissibleExcept_iff.2 hn, rfl⟩

theorem mem_passOn_iff {d : Delta} {sender : NodeId} {o : Outbound} :
    o ∈ f.passOn d links sender ↔ f.role.forwards = true ∧
      (links.isAdmissible o.to = true ∧ sender ≠ o.to) ∧
      o.message = .delta d := by
  rw [passOn]
  split
  · next h => simp [mem_fanOut_iff, h]
  · next h => simp [h]

/-! ## Frames -/

/-- What a frame leads to: the messages that are sent, and the
replica afterwards. -/
inductive Received (f : Flooding) (frame : Frame) (r : Replica)
    (links : Links) :
    List Outbound → Replica → Prop
  /-- The sender is not admissible. -/
  | dropped : links.isAdmissible frame.sender = false →
      Received f frame r links [] r
  /-- A delta that starts at the version held. -/
  | applied {d : Delta} : links.isAdmissible frame.sender = true →
      frame.message = .delta d →
      r.authority = false → r.version < d.target → d.base = r.version →
      Received f frame r links (f.passOn d links frame.sender)
        (r.commit (d.apply r.data) d)
  /-- A delta that shows that a version was missed. -/
  | missed {d : Delta} : links.isAdmissible frame.sender = true →
      frame.message = .delta d →
      r.authority = false → r.version < d.target → d.base ≠ r.version →
      Received f frame r links [⟨frame.sender, .snapshotRequest r.version⟩] r
  /-- A delta from another lineage, at the authority. -/
  | foreign {d : Delta} : links.isAdmissible frame.sender = true →
      frame.message = .delta d →
      r.authority = true → r.version < d.target → Received f frame r links [] r
  /-- A delta from a sender that is behind. -/
  | repaired {d last : Delta} : links.isAdmissible frame.sender = true →
      frame.message = .delta d → d.target < r.version →
      r.lastDelta = some last →
      Received f frame r links [⟨frame.sender, .delta last⟩] r
  /-- A delta from a sender that is behind, with nothing to repair it by. -/
  | unrepaired {d : Delta} : links.isAdmissible frame.sender = true →
      frame.message = .delta d → d.target < r.version → r.lastDelta = none →
      Received f frame r links [] r
  /-- A delta that ends at the version held. -/
  | known {d : Delta} : links.isAdmissible frame.sender = true →
      frame.message = .delta d →
      d.target = r.version → Received f frame r links [] r
  /-- A request of a sender that is behind. -/
  | served {held : Version} : links.isAdmissible frame.sender = true →
      frame.message = .snapshotRequest held → held < r.version →
      Received f frame r links [⟨frame.sender, .snapshot r.data⟩] r
  /-- A request of a sender that has everything. -/
  | unserved {held : Version} : links.isAdmissible frame.sender = true →
      frame.message = .snapshotRequest held → r.version ≤ held →
      Received f frame r links [] r
  /-- A snapshot that is newer. -/
  | adopted {data : NetworkData} : links.isAdmissible frame.sender = true →
      frame.message = .snapshot data → r.authority = false →
      r.version < data.version →
      Received f frame r links
        (f.passOn (Delta.between r.data data) links frame.sender)
        (r.commit data (Delta.between r.data data))
  /-- A snapshot that is not newer, or that comes to the authority. -/
  | ignored {data : NetworkData} : links.isAdmissible frame.sender = true →
      frame.message = .snapshot data →
      r.authority = true ∨ data.version ≤ r.version →
      Received f frame r links [] r

/-- A delta of an admissible neighbour is applied, repaid with a repair, or
answered with a request. -/
theorem received_receiveDelta (f : Flooding) (r : Replica) {d : Delta}
    (hadm : links.isAdmissible frame.sender = true)
    (hmessage : frame.message = .delta d) :
    Received f frame r links (f.receiveDelta frame.sender d r links).out
      (f.receiveDelta frame.sender d r links).replica := by
  rcases lt_trichotomy r.version d.target with hlt | heq | hgt
  · cases hauth : r.authority with
    | true =>
        simp only [receiveDelta, hauth, hlt, decide_true,
          Bool.and_self, if_true]
        exact Received.foreign hadm hmessage hauth hlt
    | false =>
        by_cases hbase : d.base = r.version
        · simp only [receiveDelta, hauth, Bool.false_and, Bool.false_eq_true,
            if_false, Replica.applyDelta_of_next hlt hbase]
          exact Received.applied hadm hmessage hauth hlt hbase
        · simp only [receiveDelta, hauth, Bool.false_and, Bool.false_eq_true,
            if_false, Replica.applyDelta_of_gap hlt hbase]
          exact Received.missed hadm hmessage hauth hlt hbase
  · have hnot : decide (r.version < d.target) = false := by simp [heq]
    simp only [receiveDelta, hnot, Bool.and_false, Bool.false_eq_true, if_false,
      Replica.applyDelta_of_le (le_of_eq heq.symm), repair,
      if_pos (le_of_eq heq)]
    exact Received.known hadm hmessage heq.symm
  · have hnot : decide (r.version < d.target) = false := by simp [le_of_lt hgt]
    simp only [receiveDelta, hnot, Bool.and_false, Bool.false_eq_true, if_false,
      Replica.applyDelta_of_le (le_of_lt hgt), repair, if_neg (not_le.2 hgt)]
    cases hlast : r.lastDelta with
    | none => exact Received.unrepaired hadm hmessage hgt hlast
    | some last => exact Received.repaired hadm hmessage hgt hlast

theorem received_receiveRequest (f : Flooding) (r : Replica) {held : Version}
    (hadm : links.isAdmissible frame.sender = true)
    (hmessage : frame.message = .snapshotRequest held) :
    Received f frame r links (f.receiveRequest frame.sender held r).out
      (f.receiveRequest frame.sender held r).replica := by
  by_cases hle : r.version ≤ held
  · rw [receiveRequest, if_pos hle]
    exact Received.unserved hadm hmessage hle
  · rw [receiveRequest, if_neg hle]
    exact Received.served hadm hmessage (not_le.1 hle)

theorem received_receiveSnapshot (f : Flooding) (r : Replica)
    {data : NetworkData} (hadm : links.isAdmissible frame.sender = true)
    (hmessage : frame.message = .snapshot data) :
    Received f frame r links (f.receiveSnapshot frame.sender data r links).out
      (f.receiveSnapshot frame.sender data r links).replica := by
  cases hauth : r.authority with
  | true =>
      simp only [receiveSnapshot, hauth, if_true]
      exact Received.ignored hadm hmessage (Or.inl hauth)
  | false =>
      by_cases hle : data.version ≤ r.version
      · simp only [receiveSnapshot, hauth, Bool.false_eq_true, if_false,
          Replica.adopt_of_le hle]
        exact Received.ignored hadm hmessage (Or.inr hle)
      · simp only [receiveSnapshot, hauth, Bool.false_eq_true, if_false,
          Replica.adopt_of_lt (not_le.1 hle)]
        exact Received.adopted hadm hmessage hauth (not_le.1 hle)

/-- Every frame leads to one of the outcomes listed. -/
theorem received_receive (f : Flooding) (frame : Frame) (r : Replica)
    (links : Links) :
    Received f frame r links (f.receive frame r links).out
      (f.receive frame r links).replica := by
  cases hadm : links.isAdmissible frame.sender with
  | false =>
      simp only [receive, hadm]
      exact Received.dropped hadm
  | true =>
      simp only [receive, hadm, Bool.not_true, Bool.false_eq_true, if_false]
      cases hmessage : frame.message with
      | delta d => exact received_receiveDelta f r hadm hmessage
      | snapshotRequest held => exact received_receiveRequest f r hadm hmessage
      | snapshot data => exact received_receiveSnapshot f r hadm hmessage

theorem role_receive (f : Flooding) (frame : Frame) (r : Replica)
    (links : Links) : (f.receive frame r links).flooding.role = f.role := by
  rw [receive]
  split
  · rfl
  · cases frame.message with
    | delta d =>
        simp only [recordSent, receiveDelta]
        split
        · rfl
        · split
          · rfl
          · simp only [repair]
            split
            · rfl
            · split <;> rfl
          · rfl
          · rfl
    | snapshotRequest held =>
        simp only [recordSent, receiveRequest]
        split <;> rfl
    | snapshot data =>
        simp only [recordSent, receiveSnapshot]
        split
        · rfl
        · split <;> rfl

end Flooding

end OnMesh
