import OnMesh.Proofs.Flooding
import OnMesh.Proofs.Replica.Operations

/-!
# The law of frames

A frame from an admissible neighbour does one of two things.  It brings the
replica on by a delta, which the node then passes on to each of its other
admissible neighbours once, unless it is a leaf.  Or it leaves the replica as
it is, and then at most one message goes back: a request if a version was
missed, the latest delta to a sender who is behind, and the data to a sender
who asks for newer ones.
-/

namespace OnMesh

open Wire (Frame Message)

namespace Flooding

/-! ## What a message says to a replica -/

/-- The delta by which a message brings a replica on, if it does. -/
def brought? (r : Replica) : Message → Option Delta
  | .delta d => some d
  | .snapshotRequest _ => none
  | .snapshot data => some (Delta.between r.data data)

/-- A message that a replica follows: it leads on from the version held, and the
replica is not that of an authority. -/
def Renews (r : Replica) (m : Message) : Prop :=
  r.authority = false ∧ ∃ d, brought? r m = some d ∧ d.base = r.version ∧
    r.version < d.target

/-- A delta that shows a replica that it has missed a version. -/
def RevealsGap (r : Replica) : Message → Prop
  | .delta d => r.authority = false ∧ r.version < d.target ∧ d.base ≠ r.version
  | .snapshotRequest _ => False
  | .snapshot _ => False

/-- A delta that shows that its sender is behind. -/
def RevealsLag (r : Replica) : Message → Prop
  | .delta d => d.target < r.version
  | .snapshotRequest _ => False
  | .snapshot _ => False

/-- A request of a sender who is behind. -/
def AsksForNews (r : Replica) : Message → Prop
  | .delta _ => False
  | .snapshotRequest held => held < r.version
  | .snapshot _ => False

variable {f : Flooding} {frame : Frame} {r r' : Replica} {links : Links}
  {out : List Outbound}
  {m : Message} {d last : Delta}

theorem renews_delta : Renews r (.delta d) ↔
    r.authority = false ∧ d.base = r.version ∧ r.version < d.target := by
  simp [Renews, brought?]

theorem not_renews_snapshotRequest (held : Version) :
    ¬ Renews r (.snapshotRequest held) := by
  simp [Renews, brought?]

theorem renews_snapshot {data : NetworkData} : Renews r (.snapshot data) ↔
    r.authority = false ∧ r.version < data.version := by
  simp [Renews, brought?, Delta.between, Replica.version]

theorem RevealsGap.not_lag (h : RevealsGap r m) : ¬ RevealsLag r m := by
  cases m with
  | delta d => exact lt_asymm h.2.1
  | snapshotRequest _ => exact h.elim
  | snapshot _ => exact h.elim

theorem RevealsGap.not_news (h : RevealsGap r m) : ¬ AsksForNews r m := by
  cases m with
  | delta d => exact id
  | snapshotRequest _ => exact h.elim
  | snapshot _ => exact h.elim

theorem RevealsLag.not_news (h : RevealsLag r m) : ¬ AsksForNews r m := by
  cases m with
  | delta d => exact id
  | snapshotRequest _ => exact h.elim
  | snapshot _ => exact h.elim

/-! ## What is sent -/

/-- What goes back to the sender of a frame that leaves the replica as it is. -/
structure Replies (frame : Frame) (r : Replica) (out : List Outbound) :
    Prop where
  request_iff : out = [⟨frame.sender, .snapshotRequest r.version⟩] ↔
    RevealsGap r frame.message
  repair_iff : (∃ last, r.lastDelta = some last ∧
    out = [⟨frame.sender, .delta last⟩]) ↔
    RevealsLag r frame.message
  serve_iff : out = [⟨frame.sender, .snapshot r.data⟩] ↔
    AsksForNews r frame.message
  silent_iff : out = [] ↔
    ¬ RevealsGap r frame.message ∧ ¬ RevealsLag r frame.message ∧
    ¬ AsksForNews r frame.message

theorem replies_request (h : RevealsGap r frame.message) :
    Replies frame r [⟨frame.sender, .snapshotRequest r.version⟩] where
  request_iff := by simp [h]
  repair_iff := by simp [h.not_lag]
  serve_iff := by simp [h.not_news]
  silent_iff := by simp [h]

theorem replies_repair (h : RevealsLag r frame.message)
    (hlast : r.lastDelta = some last) :
    Replies frame r [⟨frame.sender, .delta last⟩] where
  request_iff := by simp [mt RevealsGap.not_lag (not_not.2 h)]
  repair_iff := by simp [h, hlast]
  serve_iff := by simp [h.not_news]
  silent_iff := by simp [h]

theorem replies_serve (h : AsksForNews r frame.message) :
    Replies frame r [⟨frame.sender, .snapshot r.data⟩] where
  request_iff := by simp [mt RevealsGap.not_news (not_not.2 h)]
  repair_iff := by simp [mt RevealsLag.not_news (not_not.2 h)]
  serve_iff := by simp [h]
  silent_iff := by simp [h]

theorem replies_silent (hgap : ¬ RevealsGap r frame.message)
    (hlag : ¬ RevealsLag r frame.message)
    (hnews : ¬ AsksForNews r frame.message) : Replies frame r [] where
  request_iff := by simp [hgap]
  repair_iff := by simp [hlag]
  serve_iff := by simp [hnews]
  silent_iff := by simp [hgap, hlag, hnews]

/-- A delta goes once to each admissible neighbour but the sender, if the
role passes data on. -/
structure Spreads (f : Flooding) (links : Links) (sender : NodeId) (d : Delta)
    (out : List Outbound) : Prop where
  once : (out.map (·.to)).Nodup
  mem_iff : ∀ o, o ∈ out ↔ f.role.forwards = true ∧
    (links.isAdmissible o.to = true ∧ sender ≠ o.to) ∧ o.message = .delta d

theorem spreads_passOn (f : Flooding) (links : Links) (sender : NodeId)
    (d : Delta) : Spreads f links sender d (f.passOn d links sender) where
  once := by
    rw [passOn]
    split
    · have hto : (fanOut d links (some sender)).map (·.to) =
          links.admissibleExcept (some sender) := by
        rw [fanOut, List.map_map]
        exact List.map_id' _
      rw [hto]
      exact Links.nodup_admissibleExcept links _
    · exact List.nodup_nil
  mem_iff _ := mem_passOn_iff

/-! ## The law -/

/-- What is sent upon a frame, and what becomes of the replica. -/
structure Lawful (f : Flooding) (frame : Frame) (r : Replica) (links : Links)
    (out : List Outbound) (r' : Replica) : Prop where
  dropped : links.isAdmissible frame.sender = false → out = [] ∧ r' = r
  /-- The version goes up exactly if the frame carries something to follow. -/
  renewed_iff : r.version < r'.version ↔
    links.isAdmissible frame.sender = true ∧ Renews r frame.message
  renewed : links.isAdmissible frame.sender = true → r.version < r'.version →
    ∃ d, brought? r frame.message = some d ∧ r' = r.committed d ∧
      r'.lastDelta = some d ∧ d.target = r'.version ∧
      Spreads f links frame.sender d out
  kept : links.isAdmissible frame.sender = true → ¬ r.version < r'.version →
    r' = r ∧ Replies frame r out

theorem lawful_renewed (hadm : links.isAdmissible frame.sender = true)
    (hauth : r.authority = false) (hbrought : brought? r frame.message = some d)
    (hbase : d.base = r.version) (hlt : r.version < d.target) :
    Lawful f frame r links (f.passOn d links frame.sender) (r.committed d) where
  dropped h := by
    rw [hadm] at h
    cases h
  renewed_iff := ⟨fun _ => ⟨hadm, hauth, d, hbrought, hbase, hlt⟩, fun _ => hlt⟩
  renewed _ _ :=
    ⟨d, hbrought, rfl, rfl, rfl, spreads_passOn f links frame.sender d⟩
  kept _ h := absurd hlt h

theorem lawful_kept (hadm : links.isAdmissible frame.sender = true)
    (hnot : ¬ Renews r frame.message) (hreplies : Replies frame r out) :
    Lawful f frame r links out r where
  dropped h := by
    rw [hadm] at h
    cases h
  renewed_iff := ⟨fun h => absurd h (lt_irrefl _), fun h => absurd h.2 hnot⟩
  renewed _ h := absurd h (lt_irrefl _)
  kept _ _ := ⟨rfl, hreplies⟩

theorem lawful_dropped (hadm : links.isAdmissible frame.sender = false) :
    Lawful f frame r links [] r where
  dropped _ := ⟨rfl, rfl⟩
  renewed_iff := by simp [hadm]
  renewed h := by
    rw [hadm] at h
    cases h
  kept h := by
    rw [hadm] at h
    cases h

/-- Every way to receive a frame is lawful, as long as the
replica is grounded. -/
theorem Received.lawful (h : Received f frame r links out r')
    (hgrounded : r.Grounded) : Lawful f frame r links out r' := by
  cases h with
  | dropped hadm => exact lawful_dropped hadm
  | applied hadm hmessage hauth hlt hbase =>
      exact lawful_renewed hadm hauth (by rw [hmessage]; rfl) hbase hlt
  | adopted hadm hmessage hauth hlt =>
      rw [Replica.commit_between]
      exact lawful_renewed hadm hauth (by rw [hmessage]; rfl) rfl hlt
  | missed hadm hmessage hauth hlt hbase =>
      refine lawful_kept hadm ?_ (replies_request ?_)
      · rw [hmessage, renews_delta]
        exact fun hrenews => hbase hrenews.2.1
      · rw [hmessage]
        exact ⟨hauth, hlt, hbase⟩
  | foreign hadm hmessage hauth hlt =>
      refine lawful_kept hadm ?_ (replies_silent ?_ ?_ ?_) <;> rw [hmessage]
      · simp [renews_delta, hauth]
      · simp [RevealsGap, hauth]
      · exact lt_asymm hlt
      · exact id
  | repaired hadm hmessage hlt hlast =>
      refine lawful_kept hadm ?_ (replies_repair ?_ hlast) <;> rw [hmessage]
      · rw [renews_delta]
        exact fun hrenews => lt_asymm hlt hrenews.2.2
      · exact hlt
  | unrepaired _ _ hlt hlast =>
      -- A replica that somebody lags behind has a latest delta.
      obtain ⟨last, hsome, -⟩ := hgrounded.lastDelta_of_lt hlt
      rw [hlast] at hsome
      cases hsome
  | known hadm hmessage heq =>
      refine lawful_kept hadm ?_ (replies_silent ?_ ?_ ?_) <;> rw [hmessage]
      · simp [renews_delta, heq]
      · exact fun hgap => ne_of_gt hgap.2.1 heq
      · exact not_lt.2 (le_of_eq heq.symm)
      · exact id
  | served hadm hmessage hlt =>
      refine lawful_kept hadm ?_ (replies_serve ?_) <;> rw [hmessage]
      · exact not_renews_snapshotRequest _
      · exact hlt
  | unserved hadm hmessage hle =>
      refine lawful_kept hadm ?_ (replies_silent ?_ ?_ ?_) <;> rw [hmessage]
      · exact not_renews_snapshotRequest _
      · exact id
      · exact id
      · exact not_lt.2 hle
  | ignored hadm hmessage hold =>
      refine lawful_kept hadm ?_ (replies_silent ?_ ?_ ?_) <;> rw [hmessage]
      · rw [renews_snapshot]
        rintro ⟨hauth, hlt⟩
        rcases hold with hnot | hle
        · rw [hauth] at hnot
          cases hnot
        · exact not_lt.2 hle hlt
      · exact id
      · exact id
      · exact id

/-- The law holds of every frame at every node, whatever was done to
its replica before. -/
theorem lawful_receive (f : Flooding) (frame : Frame) (links : Links)
    (owner : NodeId) (authority : Bool) (ops : List Replica.Op) :
    Lawful f frame
      (ops.foldl Replica.perform (Replica.make owner authority)) links
      (f.receive frame
        (ops.foldl Replica.perform (Replica.make owner authority)) links).out
      (f.receive frame
        (ops.foldl Replica.perform (Replica.make owner authority))
        links).replica :=
  (received_receive f frame _ links).lawful
    ((Replica.grounded_make owner authority).foldl_perform ops)

end Flooding

end OnMesh
