import OnMesh.Proofs.Node.Accounts
import OnMesh.Proofs.Wire.RoundTrip

/-!
# Frames that are handed to a node

A frame that is handed to a node is taken, or it is counted as dropped or as
malformed, and nothing else moves these counts.  Malformed are only frames that
cannot be read; a node whose latest delta advances sends no such frame, and
whatever frames it is handed, its latest delta goes on to advance.
-/

namespace OnMesh

open Wire (Frame Message)

namespace Node

variable {n : Node}

/-! ## What is counted of frames that are not taken -/

/-- The frames that were dropped, and those that were malformed. -/
def refusals (n : Node) : Nat × Nat :=
  (n.tally.incomingDropped, n.tally.malformedFrames)

/-- The number of frames that were handed to the node and that it did not
take. -/
def refused (n : Node) : Nat :=
  n.tally.incomingDropped + n.tally.malformedFrames

theorem refused_of_refusals {m : Node} (h : m.refusals = n.refusals) :
    m.refused = n.refused := by
  obtain ⟨hdropped, hmalformed⟩ := Prod.mk.inj h
  rw [refused, refused, hdropped, hmalformed]

theorem inward_refusals : Inward refusals :=
  ⟨fun _ _ _ => rfl, fun _ _ _ => rfl, fun _ => rfl, fun _ _ _ _ _ => rfl⟩

theorem refusals_followNotices (n : Node) :
    n.followNotices.refusals = n.refusals := by
  rw [followNotices]
  dsimp only
  split <;> rfl

theorem refusals_tick (n : Node) (now : Nat) :
    (n.tick now).refusals = n.refusals := by
  have hhandled : (n.handled now).refusals = n.refusals := by
    rw [handled_eq]
    exact foldl_same inward_refusals.handle _ (n.begun now)
  rw [tick_eq, refusals_followNotices]
  split
  · exact hhandled
  · exact hhandled

theorem refusals_usePress (n : Node)
    (act : Press → Except Fault Version × Press) :
    (n.usePress act).2.refusals = n.refusals :=
  usePress_keeps (P := fun m => m.refusals = n.refusals) (fun _ _ => rfl)
    (fun m hm => (refusals_followNotices m).trans hm)
    (fun m hm => (inward_refusals.announced m).trans hm) act

def Call.handsOver : Call → Bool
  | .queueFrame _ => true
  | .queueBytes _ => true
  | _ => false

theorem Call.handsOver_of_isSetup {c : Call} (h : c.isSetup = true) :
    c.handsOver = false := by
  cases c <;> first | rfl | cases h

/-- Only a frame that is handed to a node can be refused by it. -/
theorem refusals_after (n : Node) {c : Call} (hc : c.handsOver = false) :
    (n.after c).refusals = n.refusals := by
  cases c with
  | start => exact inward_refusals.start n
  | detach => rfl
  | addNeighbour b => rfl
  | removeNeighbour b => rfl
  | setAdmissible b admissible =>
      exact inward_refusals.setAdmissible n b admissible
  | tick now => exact refusals_tick n now
  | pop => exact inward_refusals.popFrom n n.outgoing
  | addPrefix net flags => exact refusals_usePress n _
  | removePrefix net => exact refusals_usePress n _
  | queueFrame frame => cases hc
  | queueBytes bytes => cases hc

theorem refusals_popAll (n : Node) : n.popAll.2.refusals = n.refusals :=
  popAll_keeps (P := fun m => m.refusals = n.refusals)
    (fun m hm => (m.refusals_after rfl).trans hm) rfl

/-- A frame that is handed to a node is taken or refused. -/
theorem refused_queueBytes (n : Node) (bytes : List UInt8) :
    (n.queueBytes bytes).2.refused = n.refused + if (n.queueBytes bytes).1 then
        0 else 1 := by
  rw [queueBytes]
  split
  · unfold queueFrame
    split
    · exact Nat.add_right_comm _ 1 _
    · rfl
  · rfl

/-- A frame that can be read is not malformed. -/
theorem malformed_queueBytes {bytes : List UInt8}
    (h : ∃ frame, Frame.parse bytes = .ok frame) :
    (n.queueBytes bytes).2.tally.malformedFrames = n.tally.malformedFrames := by
  obtain ⟨frame, hparse⟩ := h
  rw [queueBytes, hparse]
  dsimp only
  rw [queueFrame]
  split <;> rfl

/-! ## Deltas that advance -/

/-- The latest delta of a node ends later than it starts, and so does every
delta that waits to be sent. -/
structure Advancing (n : Node) : Prop where
  lastDelta : ∀ d, n.replica.lastDelta = some d → d.base < d.target
  outgoing : ∀ o ∈ n.outgoing, o.frame.message.Advances

end Node

theorem Flooding.advances_greeting {r : Replica}
    (h : ∀ d, r.lastDelta = some d → d.base < d.target) :
    (greeting r).Advances := by
  rw [greeting]
  cases hlast : r.lastDelta with
  | none => trivial
  | some d => exact h d hlast

/-- A delta or a snapshot is only followed to a later version. -/
theorem Flooding.Received.advances {f : Flooding} {frame : Frame}
    {r r' : Replica} {links : Links} {out : List Outbound}
    (h : Received f frame r links out r')
    (hr : ∀ d, r.lastDelta = some d → d.base < d.target) :
    (∀ d, r'.lastDelta = some d → d.base < d.target) ∧
    ∀ o ∈ out, o.message.Advances := by
  have hcommit : ∀ (data : NetworkData) (d : Delta), d.base < d.target →
      (∀ e, (r.commit data d).lastDelta = some e → e.base < e.target) ∧
        ∀ o ∈ f.passOn d links frame.sender, o.message.Advances := by
    intro data d hd
    refine ⟨fun e he => ?_, fun o ho => ?_⟩
    · cases he
      exact hd
    · rw [(mem_passOn_iff.1 ho).2.2]
      exact hd
  cases h with
  | applied _ _ _ hlt hbase => exact hcommit _ _ (hbase ▸ hlt)
  | adopted _ _ _ hlt => exact hcommit _ _ hlt
  | repaired _ _ _ hlast =>
      refine ⟨hr, fun o ho => ?_⟩
      rw [List.mem_singleton.1 ho]
      exact hr _ hlast
  | missed _ _ _ _ _ => exact ⟨hr, by simp [Message.Advances]⟩
  | served _ _ _ => exact ⟨hr, by simp [Message.Advances]⟩
  | _ => exact ⟨hr, by simp⟩

namespace Node

variable {n : Node}

theorem advancing_make (id : NodeId) (role : Role) (settings : NodeSettings) :
    (make id role settings).Advancing :=
  ⟨fun _ hd => (by cases hd), fun _ ho => (by cases ho)⟩

/-- Only the latest delta and the queue of frames to be sent matter. -/
theorem Advancing.of_eq {m : Node} (h : n.Advancing)
    (hlast : m.replica.lastDelta = n.replica.lastDelta)
    (houtgoing : m.outgoing = n.outgoing) : m.Advancing :=
  ⟨hlast ▸ h.lastDelta, houtgoing ▸ h.outgoing⟩

theorem Advancing.queued (h : n.Advancing) {out kept : List Outbound}
    (henq : Enqueued n out kept) (hout : ∀ o ∈ out, o.message.Advances)
    (flooding : Flooding) (tally : Tally) :
    (n.queued kept flooding tally).Advancing where
  lastDelta := h.lastDelta
  outgoing := by
    intro o ho
    rcases List.mem_append.1 ho with ho | ho
    · exact h.outgoing o ho
    · obtain ⟨p, hp, rfl⟩ := List.mem_map.1 ho
      exact hout p (henq.sublist.subset hp)

theorem Advancing.handle (h : n.Advancing) (frame : Frame) :
    (n.handle frame).Advancing := by
  obtain ⟨out, replica, kept, flooding, tally, hreceived, henq, -, heq⟩ :=
    handle_spec n frame
  obtain ⟨hreplica, hout⟩ := hreceived.advances h.lastDelta
  have hn : Advancing { n with replica } := ⟨hreplica, h.outgoing⟩
  rw [heq]
  exact hn.queued ⟨henq.sublist, henq.detached, henq.whole⟩ hout flooding tally

theorem Advancing.followNotices (h : n.Advancing) :
    n.followNotices.Advancing := by
  obtain ⟨hreplica, -, -, -, -, houtgoing⟩ := followed_fields n
  exact h.of_eq (by rw [hreplica]; rfl) houtgoing

theorem Advancing.tick (h : n.Advancing) (now : Nat) :
    (n.tick now).Advancing := by
  have hfold : ∀ (frames : List Frame) (m : Node), m.Advancing →
      (frames.foldl Node.handle m).Advancing := by
    intro frames
    induction frames with
    | nil => exact fun _ hm => hm
    | cons frame frames ih => exact fun m hm => ih _ (hm.handle frame)
  have hhandled : (n.handled now).Advancing :=
    hfold n.incoming _ (h.of_eq rfl rfl)
  rw [tick_eq]
  apply Advancing.followNotices
  split
  · exact hhandled.of_eq rfl rfl
  · exact hhandled

/-- An edit advances if there is a version left to count up to. -/
theorem Advancing.used {n' : Node} {p : Press} (h : n.Advancing)
    (hused : Used n p n')
    (hnext : n.role.canPublish = true → n.version < n.version.next) :
    n'.Advancing := by
  cases hused with
  | refused _ => exact h.of_eq rfl rfl
  | unchanged _ =>
      exact (h.of_eq (m := { n with pool := p.pool }) rfl rfl).followNotices
  | @advanced edited kept flooding tally hrole _ hreplica henq _ =>
      have hlt := hnext hrole
      have hn : Advancing { n with replica := p.replica, pool := p.pool } := by
        refine ⟨fun d hd => ?_, h.outgoing⟩
        rw [hreplica] at hd
        cases hd
        exact hlt
      refine hn.followNotices.queued henq (fun o ho => ?_) flooding tally
      rw [if_pos hlt] at ho
      rw [(Flooding.mem_fanOut_iff.1 ho).2]
      exact hlt

/-- Whatever is asked of a node, its deltas advance as long as it has
versions to count up to. -/
theorem Advancing.after (h : n.Advancing) {c : Call}
    (hnext : c.isEdit = true → n.role.canPublish = true →
      n.version < n.version.next) : (n.after c).Advancing := by
  cases c with
  | start =>
      cases hstarted : n.started with
      | true => rw [Node.after, start_of_started hstarted]; exact h
      | false =>
          obtain ⟨kept, flooding, tally, henq, -, heq⟩ := start_spec hstarted
          have hn : Advancing { n with started := true } := h.of_eq rfl rfl
          rw [Node.after, heq]
          refine hn.queued henq (fun o ho => ?_) flooding tally
          obtain ⟨b, -, rfl⟩ := List.mem_map.1 ho
          exact Flooding.advances_greeting h.lastDelta
  | detach => exact ⟨fun _ hd => (by cases hd), fun _ ho => (by cases ho)⟩
  | addNeighbour b => exact h.of_eq rfl rfl
  | removeNeighbour b => exact h.of_eq rfl rfl
  | setAdmissible b admissible =>
      obtain ⟨kept, flooding, tally, henq, -, heq⟩ :=
        setAdmissible_spec n b admissible
      have hn : Advancing
          { n with links := (n.links.setAdmissible b admissible).2 } :=
        h.of_eq rfl rfl
      rw [Node.after, heq]
      refine hn.queued henq (fun o ho => ?_) flooding tally
      split at ho
      · rw [List.mem_singleton.1 ho]
        exact Flooding.advances_greeting h.lastDelta
      · cases ho
  | tick now => exact h.tick now
  | pop =>
      refine ⟨?_, fun o ho => h.outgoing o ((pop_sublist n).1.subset ho)⟩
      rw [(untouched_after n (c := .pop) rfl (by simp) (by simp)).replica]
      exact h.lastDelta
  | addPrefix net flags => exact h.used (used_addPrefix n net flags) (hnext rfl)
  | removePrefix net => exact h.used (used_removePrefix n net) (hnext rfl)
  | queueFrame frame =>
      refine h.of_eq ?_ (outgoing_queueFrame n frame)
      exact congrArg Replica.lastDelta
        (untouched_after n (c := .queueFrame frame) rfl (by simp)
        (by simp)).replica
  | queueBytes bytes =>
      refine h.of_eq ?_ (outgoing_queueBytes n bytes)
      exact congrArg Replica.lastDelta
        (untouched_after n (c := .queueBytes bytes) rfl (by simp)
        (by simp)).replica

/-- What a node has to send can be read if it goes over a link at all. -/
theorem Advancing.readable (h : n.Advancing) (hsigned : n.Signed) {o : Outgoing}
    (ho : o ∈ n.outgoing) {bytes : List UInt8}
    (hbytes : o.frame.serialize = .ok bytes) :
    ∃ frame, Frame.parse bytes = .ok frame := by
  obtain ⟨message, hmade⟩ := hsigned o ho
  have hversion : o.frame.header.version = Wire.Header.currentVersion := by
    rw [hmade]
    rfl
  exact ⟨_, Frame.parse_serialize hversion (h.outgoing o ho) hbytes⟩

/-- A node that sends what can be read, and has only been handed
what could be read. -/
structure Tidy (n : Node) : Prop where
  advancing : n.Advancing
  signed : n.Signed
  malformed : n.tally.malformedFrames = 0

theorem tidy_make (id : NodeId) (role : Role) (settings : NodeSettings) :
    (make id role settings).Tidy :=
  ⟨advancing_make id role settings, signed_make id role settings, rfl⟩

theorem Tidy.after (h : n.Tidy) {c : Call} (hc : c.handsOver = false)
    (hnext : c.isEdit = true → n.role.canPublish = true →
      n.version < n.version.next) : (n.after c).Tidy :=
  ⟨h.advancing.after hnext, h.signed.after c,
    (congrArg Prod.snd (n.refusals_after hc)).trans h.malformed⟩

theorem Tidy.queueBytes (h : n.Tidy) {bytes : List UInt8}
    (hread : ∃ frame, Frame.parse bytes = .ok frame) :
    (n.after (.queueBytes bytes)).Tidy :=
  ⟨h.advancing.after (by simp [Call.isEdit]), h.signed.after _,
    (malformed_queueBytes hread).trans h.malformed⟩

end Node

end OnMesh
