import OnMesh.Proofs.Node.News
import OnMesh.Proofs.Replica.Duplicates

/-!
# What a push is worth

Unless an edit runs out of versions, a replica at the initial version holds
nothing, and at any other version its latest delta starts earlier and ends
there. So whatever is pushed to a neighbour unasked leads to the version that
its sender holds: a neighbour that is behind applies the delta, or sees that it
has missed a version and gets the data when it asks for them.
-/

namespace OnMesh

open Wire (Frame Message)

namespace Replica

variable {r t : Replica} {op : Op} {ops : List Op} {d : Delta}

/-! ## The latest delta -/

/-- Nothing is held at the initial version, and at a later one the latest
delta leads up to it. -/
structure Anchored (r : Replica) : Prop where
  initial : r.version = Version.initial → r.data = NetworkData.empty ∧
    r.lastDelta = none
  later : r.version ≠ Version.initial →
    ∃ d, r.lastDelta = some d ∧ d.target = r.version ∧ d.base < r.version

theorem anchored_make (owner : NodeId) (authority : Bool) :
    (make owner authority).Anchored where
  initial _ := ⟨rfl, rfl⟩
  later h := absurd rfl h

/-- Only the data and the latest delta matter. -/
theorem Anchored.of_eq (h : r.Anchored) (hdata : t.data = r.data)
    (hlast : t.lastDelta = r.lastDelta) : t.Anchored := by
  have hversion : t.version = r.version := congrArg NetworkData.version hdata
  refine ⟨fun hinitial => ?_, fun hlater => ?_⟩
  · rw [hdata, hlast]
    exact h.initial (hversion.symm.trans hinitial)
  · rw [hversion, hlast]
    exact h.later (hversion ▸ hlater)

theorem anchored_committed (hbase : d.base = r.version)
    (hlt : r.version < d.target) : (r.committed d).Anchored where
  initial h := by
    have htarget : d.target = Version.initial := h
    rw [htarget] at hlt
    exact absurd hlt (Version.not_lt_initial r.version)
  later _ := ⟨d, rfl, rfl, lt_of_eq_of_lt hbase hlt⟩

theorem Anchored.perform (h : r.Anchored) (hcounts : ¬ r.Exhausts op) :
    (r.perform op).Anchored := by
  have hperformed := r.performed_perform op
  generalize hafter : r.perform op = r' at hperformed
  cases hperformed with
  | kept _ => exact h
  | committed hcommits =>
      exact anchored_committed hcommits.base (hcommits.lt_target hafter hcounts)
  | forgotten => exact (anchored_make r.owner r.authority).of_eq rfl rfl
  | appointed _ => exact h.of_eq rfl rfl
  | emptied => exact h.of_eq rfl rfl

theorem Anchored.foldl_perform (h : r.Anchored) (hcounts : r.CountsUp ops) :
    (ops.foldl Replica.perform r).Anchored := by
  induction ops generalizing r with
  | nil => exact h
  | cons op ops ih => exact ih (h.perform hcounts.1) hcounts.2

/-! ## Taking a push -/

/-- What a delta from a replica comes to at another one. -/
inductive Brings (r : Replica) (d : Delta) (t : Replica) : Prop
  /-- The version is held already, or a later one. -/
  | held : r.version ≤ t.version →
      t.applyDelta d = (.error (.staleDelta r.version t.version), t) →
      Brings r d t
  | applied {t' : Replica} : t.applyDelta d = (.ok r.version, t') →
      t'.version = r.version →
      Brings r d t
  /-- A version was missed, and the data of the sender make up for it. -/
  | gap {t' : Replica} : t.version < r.version →
      t.applyDelta d = (.error (.gapDetected d.base t.version), t) →
      t.adopt r.data = (true, t') → t'.data = r.data → Brings r d t

theorem brings_of_target (htarget : d.target = r.version) (t : Replica) :
    Brings r d t := by
  rcases le_or_gt r.version t.version with hle | hlt
  · refine Brings.held hle ?_
    rw [← htarget] at hle ⊢
    exact applyDelta_of_le hle
  · have hnew : t.version < d.target := htarget.symm ▸ hlt
    by_cases hbase : d.base = t.version
    · have happlied := applyDelta_of_next hnew hbase
      rw [htarget] at happlied
      exact Brings.applied happlied htarget
    · exact Brings.gap hlt (applyDelta_of_gap hnew hbase) (adopt_of_lt hlt) rfl

end Replica

namespace Flooding

open Replica (Anchored Brings)

variable {f g : Flooding} {frame : Frame} {r t : Replica}
  {links here there : Links}
  {d : Delta} {sender receiver : NodeId}

/-! ## Pushes from node to node -/

theorem receive_of_gap (hadm : links.isAdmissible frame.sender = true)
    (hmessage : frame.message = .delta d) (hauth : r.authority = false)
    (hlt : r.version < d.target) (hbase : d.base ≠ r.version) :
    (f.receive frame r links).out =
      [⟨frame.sender, .snapshotRequest r.version⟩] := by
  simp only [receive, hadm, Bool.not_true, Bool.false_eq_true, if_false,
    hmessage, receiveDelta, hauth, Bool.false_and,
    Replica.applyDelta_of_gap hlt hbase]

theorem receive_of_request {held : Version}
    (hadm : links.isAdmissible frame.sender = true)
    (hmessage : frame.message = .snapshotRequest held)
    (hlt : held < r.version) :
    (f.receive frame r links).out = [⟨frame.sender, .snapshot r.data⟩] := by
  simp only [receive, hadm, Bool.not_true, Bool.false_eq_true, if_false,
    hmessage, receiveRequest, if_neg (not_le.2 hlt)]

theorem receive_of_newer {data : NetworkData}
    (hadm : links.isAdmissible frame.sender = true)
    (hmessage : frame.message = .snapshot data) (hauth : r.authority = false)
    (hlt : r.version < data.version) :
    (f.receive frame r links).replica.data = data := by
  simp only [receive, hadm, Bool.not_true, Bool.false_eq_true, if_false,
    hmessage, receiveSnapshot, hauth, Replica.adopt_of_lt hlt]
  rfl

/-- What comes of a delta that one node pushes to another, frame by frame. -/
inductive Heals (r : Replica) (here : Links) (sender : NodeId)
    (d : Delta) (t : Replica)
    (there : Links) (receiver : NodeId) : Prop
  /-- The receiver is not behind. -/
  | held : r.version ≤ t.version → Heals r here sender d t there receiver
  | applied : (∀ g : Flooding,
      (g.receive (Frame.make sender (.delta d)) t there).replica.version =
        r.version) →
      Heals r here sender d t there receiver
  /-- The receiver asks for the data, they are served, and it takes them
  over. -/
  | asked : (∀ g : Flooding,
      (g.receive (Frame.make sender (.delta d)) t there).out =
        [⟨sender, .snapshotRequest t.version⟩]) →
      (∀ f : Flooding,
        (f.receive (Frame.make receiver (.snapshotRequest t.version)) r
          here).out = [⟨receiver, .snapshot r.data⟩]) →
      (∀ g : Flooding,
        (g.receive (Frame.make sender (.snapshot r.data)) t
          there).replica.data = r.data) →
      Heals r here sender d t there receiver

theorem heals_of_target (htarget : d.target = r.version)
    (hauth : t.authority = false) (hthere : there.isAdmissible sender = true)
    (hhere : here.isAdmissible receiver = true) :
    Heals r here sender d t there receiver := by
  rcases le_or_gt r.version t.version with hle | hlt
  · exact Heals.held hle
  · have hnew : t.version < d.target := htarget.symm ▸ hlt
    by_cases hbase : d.base = t.version
    · refine Heals.applied fun g => ?_
      rw [receive_of_next hthere rfl hauth hnew hbase]
      exact htarget
    · exact Heals.asked (fun g => receive_of_gap hthere rfl hauth hnew hbase)
        (fun f => receive_of_request hhere rfl hlt)
          (fun g => receive_of_newer hthere rfl hauth hlt)

/-- A delta that leads to the version of a replica, wherever it gets. -/
structure Leads (r : Replica) (d : Delta) : Prop where
  target : d.target = r.version
  base : d.base < r.version
  brings : ∀ t : Replica, Brings r d t
  /-- Nodes that may edit follow nobody; any other one is healed over an open
  link. -/
  heals : ∀ (here : Links) (sender : NodeId) (t : Replica) (there :
    Links) (receiver : NodeId),
    t.authority = false → there.isAdmissible sender = true →
    here.isAdmissible receiver = true →
    Heals r here sender d t there receiver

/-- A message that is sent unasked: a request at the initial version, and a
delta that leads to the version held at any other one. -/
inductive Pushes (r : Replica) : Message → Prop
  | request : r.version = Version.initial →
      Pushes r (.snapshotRequest r.version)
  | push {d : Delta} : r.version ≠ Version.initial →
      r.lastDelta = some d → Leads r d →
      Pushes r (.delta d)

theorem leads_of_lastDelta (h : r.Anchored) (hlast : r.lastDelta = some d) :
    Leads r d := by
  have hlater : r.version ≠ Version.initial := by
    intro hinitial
    rw [(h.initial hinitial).2] at hlast
    cases hlast
  obtain ⟨e, he, htarget, hbase⟩ := h.later hlater
  obtain rfl : d = e := Option.some.inj (hlast.symm.trans he)
  exact ⟨htarget, hbase, Replica.brings_of_target htarget,
    fun _ _ _ _ _ => heals_of_target htarget⟩

theorem pushes_greeting (h : r.Anchored) : Pushes r (greeting r) := by
  rw [greeting]
  by_cases hinitial : r.version = Version.initial
  · rw [(h.initial hinitial).2]
    exact Pushes.request hinitial
  · obtain ⟨d, hlast, -, -⟩ := h.later hinitial
    rw [hlast]
    exact Pushes.push hinitial hlast (leads_of_lastDelta h hlast)

/-! ## What a replica pushes -/

/-- The latest delta of a replica always leads up to its version, and all that
is sent because of it does. -/
structure LeadsOn (r : Replica) : Prop where
  anchored : r.Anchored
  /-- A neighbour that becomes admissible is asked for its data or
  pushed the latest delta. -/
  greets : ∀ (f : Flooding) (links : Links) (b : NodeId),
    links.isAdmissible b = true →
    ∃ message, (f.greet b r links).1 = [⟨b, message⟩] ∧ Pushes r message
  /-- It is asked exactly at the initial version. -/
  asks_iff : ∀ (f : Flooding) (links : Links) (b : NodeId),
    links.isAdmissible b = true →
    ((∃ held, (⟨b, .snapshotRequest held⟩ : Outbound) ∈ (f.greet b r links).1) ↔
      r.version = Version.initial)
  /-- A node that attaches sends the same to its admissible neighbours, as
  far as there is room. -/
  starts : ∀ n : Node, n.replica = r → ∀ o ∈ n.start.outgoing, o ∈ n.outgoing ∨
    n.isAdmissible o.to = true ∧ ∃ message, o.frame = Frame.make n.id message ∧
    Pushes r message
  /-- A sender that is behind is always repaired. -/
  repairs : ∀ (f : Flooding) (sender : NodeId) (theirs : Version),
    theirs < r.version →
    ∃ d, (f.repair sender theirs r).1 = [⟨sender, .delta d⟩] ∧ Leads r d
  /-- An edit is pushed to all admissible neighbours: its delta never ends
  at another version. -/
  announces : ∀ (f : Flooding) (links : Links) (d : Delta),
    r.lastDelta = some d →
    (f.announce r links).1 = fanOut d links none

theorem asks_iff_of_anchored (h : r.Anchored) (f : Flooding) {b : NodeId}
    (hadm : links.isAdmissible b = true) :
    (∃ held, (⟨b, .snapshotRequest held⟩ : Outbound) ∈ (f.greet b r links).1) ↔
      r.version = Version.initial := by
  simp only [greet_of_admissible f r hadm, List.mem_singleton,
    Outbound.mk.injEq, true_and]
  have hpushes := pushes_greeting h
  constructor
  · rintro ⟨held, hgreeting⟩
    rw [← hgreeting] at hpushes
    cases hpushes with
    | request hinitial => exact hinitial
  · intro hinitial
    refine ⟨r.version, ?_⟩
    rw [greeting, (h.initial hinitial).2]

theorem starts_of_anchored {n : Node} (h : n.replica.Anchored) {o : Outgoing}
    (ho : o ∈ n.start.outgoing) :
    o ∈ n.outgoing ∨ n.isAdmissible o.to = true ∧ ∃ message,
      o.frame = Frame.make n.id message ∧ Pushes n.replica message := by
  cases hstarted : n.started with
  | true =>
      rw [Node.start_of_started hstarted] at ho
      exact Or.inl ho
  | false =>
      obtain ⟨kept, flooding, tally, henq, -, heq⟩ := Node.start_spec hstarted
      rw [heq] at ho
      refine (List.mem_append.1 ho).imp_right fun hnew => ?_
      obtain ⟨p, hp, rfl⟩ := List.mem_map.1 hnew
      obtain ⟨b, hb, rfl⟩ := List.mem_map.1 (henq.sublist.subset hp)
      exact ⟨(List.mem_filter.1 hb).2, greeting n.replica, rfl,
        pushes_greeting h⟩

theorem repairs_of_anchored (h : r.Anchored) (f : Flooding) (sender : NodeId)
    {theirs : Version} (hlt : theirs < r.version) :
    ∃ d, (f.repair sender theirs r).1 = [⟨sender, .delta d⟩] ∧ Leads r d := by
  have hlater : r.version ≠ Version.initial := fun hinitial =>
    Version.not_lt_initial theirs (hinitial ▸ hlt)
  obtain ⟨d, hlast, -, -⟩ := h.later hlater
  refine ⟨d, ?_, leads_of_lastDelta h hlast⟩
  rw [repair, if_neg (not_le.2 hlt), hlast]

/-- Whatever is done to a replica, unless an edit runs out of versions, it leads
all neighbours on to its version. -/
theorem leadsOn_of_countsUp {owner : NodeId} {authority : Bool}
    {ops : List Replica.Op}
    (hcounts : (Replica.make owner authority).CountsUp ops) :
    LeadsOn (ops.foldl Replica.perform (Replica.make owner authority)) := by
  have h :
      (ops.foldl Replica.perform (Replica.make owner authority)).Anchored :=
    (Replica.anchored_make owner authority).foldl_perform hcounts
  refine ⟨h, fun f links b hadm => ?_,
    fun f links b hadm => asks_iff_of_anchored h f hadm, fun n hn o ho => ?_,
    fun f sender theirs hlt => repairs_of_anchored h f sender hlt,
    fun f links d hlast => ?_⟩
  · rw [greet_of_admissible _ _ hadm]
    exact ⟨_, rfl, pushes_greeting h⟩
  · rw [← hn] at h ⊢
    exact starts_of_anchored h ho
  · rw [announce_of_lastDelta f links hlast (leads_of_lastDelta h hlast).target]

/-- A replica adopts a snapshot, forgets it, applies a delta, is refused one
with a gap and an edit, and is then appointed and edited. -/
def unsettled : List Replica.Op :=
  [.adopt { NetworkData.empty with version := ⟨2⟩ }, .reset,
    .applyDelta ⟨⟨0⟩, ⟨3⟩, [], [default], [], [⟨1⟩]⟩,
    .applyDelta ⟨⟨5⟩, ⟨6⟩, [], [], [], []⟩, .edit (.withdraw default),
    .setAuthority true, .edit (.publish default Flags.none ⟨1⟩)]

theorem leadsOn_unsettled :
    (Replica.make ⟨1⟩ false).CountsUp unsettled ∧
      (unsettled.foldl Replica.perform (Replica.make ⟨1⟩ false)).version = ⟨4⟩ ∧
      LeadsOn (unsettled.foldl Replica.perform (Replica.make ⟨1⟩ false)) := by
  have hcounts : (Replica.make ⟨1⟩ false).CountsUp unsettled := by decide
  exact ⟨hcounts, by decide, leadsOn_of_countsUp hcounts⟩

end Flooding

end OnMesh
