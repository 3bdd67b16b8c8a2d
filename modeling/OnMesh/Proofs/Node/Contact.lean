import OnMesh.Proofs.Answers
import OnMesh.Proofs.Node.Upkeep

/-!
# A node and one of its neighbours

Of the messages between a node and a neighbour some wait at the node itself, the
others are beyond it.  `Node.InTouch` says that the node and the side that the
neighbour shows are tied by all of them together.  Whatever happens at the node
keeps this, as long as its queue of frames to be sent does not fill up.
-/

namespace OnMesh

open Wire (Frame Message)
open Channel (Side Tied)

namespace Node

variable {n : Node} {b : NodeId} {other : Side} {there back : List Message}

/-- The side that a node shows to another one. -/
def side (n : Node) (b : NodeId) : Side :=
  ⟨n.started && n.isAdmissible b, n.version, n.role.forwards⟩

/-- The messages for a neighbour among frames to be sent. -/
def sentTo (b : NodeId) (os : List Outgoing) : List Message :=
  (os.filter fun o => o.to = b).map (·.frame.message)

/-- The messages that wait to be sent to a neighbour. -/
def outbox (n : Node) (b : NodeId) : List Message := sentTo b n.outgoing

def sentBy (b : NodeId) (frames : List Frame) : List Message :=
  (frames.filter fun f => f.sender = b).map (·.message)

def inbox (n : Node) (b : NodeId) : List Message := sentBy b n.incoming

/-- A node and the side of a neighbour are tied by the messages at the
node and those beyond. -/
def InTouch (n : Node) (b : NodeId) (other : Side) (there back : List Message) :
    Prop :=
  Tied (n.side b) other (there ++ n.outbox b) (n.inbox b ++ back)

/-- Neither queue is full. -/
structure HasRoom (n : Node) : Prop where
  incoming : n.incoming.length < n.settings.maxInbound
  outgoing : n.outgoing.length < n.settings.maxOutbound

instance (n : Node) : Decidable n.HasRoom :=
  decidable_of_iff (_ ∧ _)
    ⟨fun h => ⟨h.1, h.2⟩, fun h => ⟨h.incoming, h.outgoing⟩⟩

theorem isOpen_side_iff :
    (n.side b).isOpen = true ↔ n.started = true ∧ n.isAdmissible b = true := by
  simp [side]

theorem sentBy_cons_self {frame : Frame} {frames : List Frame}
    (h : frame.sender = b) :
    sentBy b (frame :: frames) = frame.message :: sentBy b frames := by
  simp [sentBy, h]

theorem sentBy_cons_of_ne {frame : Frame} {frames : List Frame}
    (h : frame.sender ≠ b) : sentBy b (frame :: frames) = sentBy b frames := by
  simp [sentBy, h]

theorem sentBy_append (b : NodeId) (frames more : List Frame) :
    sentBy b (frames ++ more) = sentBy b frames ++ sentBy b more := by
  simp [sentBy]

theorem outbox_queued (n : Node) (kept : List Outbound) (flooding : Flooding)
    (tally : Tally) (b : NodeId) :
    (n.queued kept flooding tally).outbox b =
      n.outbox b ++ Flooding.toward b kept := by
  rw [outbox, queued, sentTo, List.filter_append, List.map_append,
    List.filter_map, List.map_map]
  rfl

theorem Enqueued.eq_of_room {out kept : List Outbound} (h : Enqueued n out kept)
    (hstarted : n.started = true) {flooding : Flooding} {tally : Tally}
    (hroom : (n.queued kept flooding tally).outgoing.length <
      n.settings.maxOutbound) : kept = out := by
  apply h.whole hstarted
  rw [queued, List.length_append, List.length_map] at hroom
  exact hroom

/-- A neighbour that is greeted once hears one message. -/
theorem toward_greetings {neighbours : List NodeId} (hnodup : neighbours.Nodup)
    (hb : b ∈ neighbours) (hadm : n.isAdmissible b = true) :
    Flooding.toward b (n.greetings neighbours) =
      [Flooding.greeting n.replica] := by
  have honly : ((neighbours.filter n.isAdmissible).filter fun c =>
      c = b) = [b] := by
    have hmem : b ∈ neighbours.filter n.isAdmissible :=
      List.mem_filter.2 ⟨hb, hadm⟩
    have hcount := List.count_eq_one_of_mem (hnodup.filter n.isAdmissible) hmem
    rw [← List.replicate_one, ← hcount, ← List.filter_beq]
    rfl
  rw [Flooding.toward, greetings, List.filter_map, List.map_map]
  exact congrArg (List.map _) honly

/-! ## Ticks -/

/-- One frame keeps a node tied to a neighbour, whoever has sent it. -/
theorem tied_handle {frame : Frame} {frames : List Frame} (hformed : n.Formed)
    (hgrounded : n.replica.Grounded)
    (hbounded : n.role.canPublish = true → frame.message.Bounded n.version)
    (hroom : (n.handle frame).outgoing.length < n.settings.maxOutbound)
    (h : Tied (n.side b) other (there ++ n.outbox b)
      (sentBy b (frame :: frames) ++ back)) :
    Tied ((n.handle frame).side b) other (there ++ (n.handle frame).outbox b)
      (sentBy b frames ++ back) := by
  obtain ⟨out, replica, kept, flooding, tally, hreceived, henq, hrole, heq⟩ :=
    handle_spec n frame
  rw [heq] at hroom ⊢
  have hside : (({ n with replica } : Node).queued kept flooding tally).side b =
      ⟨n.started && n.isAdmissible b, replica.version,
        n.flooding.role.forwards⟩ := by
    rw [hformed.flooding]
    rfl
  have hold : n.side b = ⟨n.started && n.isAdmissible b, n.replica.version,
      n.flooding.role.forwards⟩ := by
    rw [hformed.flooding]
    rfl
  have houtbox :
      (({ n with replica } : Node).queued kept flooding tally).outbox b =
      n.outbox b ++ Flooding.toward b kept :=
    outbox_queued { n with replica } _ _ _ _
  rw [hside, houtbox, ← List.append_assoc]
  rw [hold] at h
  by_cases hopen : (n.started && n.isAdmissible b) = true
  · obtain ⟨hstarted, hadm⟩ := Bool.and_eq_true_iff.1 hopen
    have hwhole : Enqueued { n with replica } out kept :=
      ⟨henq.sublist, henq.detached, henq.whole⟩
    rw [hwhole.eq_of_room hstarted hroom]
    rw [hopen] at h ⊢
    by_cases hb : frame.sender = b
    · rw [sentBy_cons_self hb, List.cons_append] at h
      subst hb
      exact hreceived.tied hgrounded
        (fun hauth => hbounded (hformed.authority.symm.trans hauth))
        hadm h
    · rw [sentBy_cons_of_ne hb] at h
      exact hreceived.tied_past hb hadm h
  · apply h.closed (Bool.not_eq_true _ ▸ hopen)
    by_cases hb : frame.sender = b
    · rw [sentBy_cons_self hb]
      exact List.suffix_cons _ _
    · have hsame : sentBy b frames ++ back =
          sentBy b (frame :: frames) ++ back := by
        rw [sentBy_cons_of_ne hb]
      exact hsame ▸ List.suffix_refl _

theorem length_outgoing_handle (n : Node) (frame : Frame) :
    n.outgoing.length ≤ (n.handle frame).outgoing.length := by
  obtain ⟨out, replica, kept, flooding, tally, -, -, -, heq⟩ :=
    handle_spec n frame
  rw [heq, queued, List.length_append]
  exact Nat.le_add_right _ _

theorem length_outgoing_foldl_handle (n : Node) (frames : List Frame) :
    n.outgoing.length ≤ (frames.foldl handle n).outgoing.length := by
  induction frames generalizing n with
  | nil => exact Nat.le_refl _
  | cons frame frames ih =>
      exact Nat.le_trans (length_outgoing_handle n frame) (ih (n.handle frame))

/-- Two nodes stay tied when one of them handles the frames that came in. -/
theorem tied_foldl_handle {frames : List Frame} (hformed : n.Formed)
    (hgrounded : n.replica.Grounded)
    (hbounded : n.role.canPublish = true →
      ∀ f ∈ frames, f.message.Bounded n.version)
    (hroom : (frames.foldl handle n).outgoing.length < n.settings.maxOutbound)
    (h : Tied (n.side b) other (there ++ n.outbox b)
      (sentBy b frames ++ back)) :
    Tied ((frames.foldl handle n).side b) other
      (there ++ (frames.foldl handle n).outbox b)
      back := by
  induction frames generalizing n with
  | nil => exact h
  | cons frame frames ih =>
      have halike := alike_handle n frame
      apply ih (hformed.of_alike halike) (grounded_handle hgrounded frame)
      · intro hrole f hf
        rw [halike.role] at hrole
        rw [version, replica_handle_of_authority
          (hformed.authority.trans hrole)]
        exact hbounded hrole f (List.mem_cons_of_mem _ hf)
      · rw [halike.settings]
        exact hroom
      · refine tied_handle hformed hgrounded
          (fun hrole => hbounded hrole _ List.mem_cons_self) ?_ h
        exact Nat.lt_of_le_of_lt (length_outgoing_foldl_handle _ frames) hroom

namespace InTouch

/-- Only what the node shows and the queues matter. -/
theorem of_eq {m : Node} (h : n.InTouch b other there back)
    (hside : m.side b = n.side b) (hincoming : m.incoming = n.incoming)
    (houtgoing : m.outgoing = n.outgoing) : m.InTouch b other there back := by
  rw [InTouch, hside, outbox, houtgoing, inbox, hincoming]
  exact h

/-- A node that shows itself closed may lose its queues. -/
theorem closed {m : Node} (h : n.InTouch b other there back)
    (hclosed : (m.side b).isOpen = false)
    (hincoming : m.incoming = n.incoming ∨ m.incoming = []) :
    m.InTouch b other there back := by
  apply Tied.closed h hclosed
  rcases hincoming with heq | heq
  · rw [inbox, heq]
    exact List.suffix_refl _
  · rw [inbox, heq]
    exact List.suffix_append _ _

theorem followNotices (h : n.InTouch b other there back) :
    n.followNotices.InTouch b other there back := by
  obtain ⟨addresses, tally, hfollow, -, -⟩ := followNotices_spec n
  rw [hfollow]
  exact h.of_eq rfl rfl rfl

theorem tick (h : n.InTouch b other there back) (hformed : n.Formed)
    (hgrounded : n.replica.Grounded)
    (hbounded : n.role.canPublish = true →
      ∀ f ∈ n.incoming, f.message.Bounded n.version) {now : Nat}
    (hroom : (n.tick now).outgoing.length < n.settings.maxOutbound) :
    (n.tick now).InTouch b other there back := by
  have hhandled : (n.handled now).InTouch b other there back := by
    rw [(tick_fields n now).2.1] at hroom
    have htied := tied_foldl_handle (n := { n with
      now, incoming := []
      tally := { n.tally with ticks := n.tally.ticks + 1 } })
      ⟨hformed.owner, hformed.authority, hformed.links, hformed.addresses,
        hformed.flooding⟩
      hgrounded hbounded hroom h
    rw [InTouch, inbox, handled, incoming_foldl_handle]
    exact htied
  rw [tick_eq]
  apply followNotices
  split
  · exact hhandled.of_eq rfl rfl rfl
  · exact hhandled

/-- A detached node that starts says to its admissible neighbours where it
stands. -/
theorem start (h : n.InTouch b other there back)
    (hgrounded : n.replica.Grounded)
    (hroom : n.start.outgoing.length < n.settings.maxOutbound) :
    n.start.InTouch b other there back := by
  cases hstarted : n.started with
  | true =>
      rw [start_of_started hstarted]
      exact h
  | false =>
      obtain ⟨kept, flooding, tally, henq, -, heq⟩ := start_spec hstarted
      rw [heq] at hroom ⊢
      cases hadm : n.isAdmissible b with
      | false => exact h.closed hadm (Or.inl rfl)
      | true =>
          have hkept : kept = n.greetings n.links.admissible :=
            henq.eq_of_room rfl hroom
          have hone : Flooding.toward b kept =
              [Flooding.greeting n.replica] := by
            rw [hkept]
            exact toward_greetings (Links.nodup_admissibleExcept _ _)
              (Links.mem_admissible_iff.2 hadm) hadm
          rw [InTouch, outbox_queued, ← List.append_assoc, hone]
          exact Tied.greeted h (Flooding.bounded_greeting hgrounded)
            (Flooding.asked_greeting hgrounded) (le_refl _)
            fun hlt => Flooding.reaches_greeting hgrounded hlt

/-- A change of admissibility closes the node to a neighbour, or greets
it, or means another. -/
theorem setAdmissible (h : n.InTouch b other there back)
    (hgrounded : n.replica.Grounded) (c : NodeId) (admissible : Bool)
    (hroom : (n.setAdmissible c admissible).2.outgoing.length <
      n.settings.maxOutbound) :
    (n.setAdmissible c admissible).2.InTouch b other there back := by
  obtain ⟨kept, flooding, tally, henq, -, heq⟩ :=
    setAdmissible_spec n c admissible
  rw [heq] at hroom ⊢
  generalize hlinks : (n.links.setAdmissible c admissible).2 = links at *
  by_cases hopen : n.started = true ∧ links.isAdmissible b = true
  · have hkept := henq.eq_of_room hopen.1 hroom
    rw [InTouch, outbox_queued, ← List.append_assoc, hkept]
    by_cases hbefore : n.isAdmissible b = true
    · have hside : ({ n with links } : Node).side b = n.side b := by
        rw [side, side, hbefore]
        exact congrArg (fun a =>
          (⟨n.started && a, n.version, n.role.forwards⟩ : Side)) hopen.2
      have hnone : Flooding.toward b
          (if n.started = true ∧ n.isAdmissible c = false ∧
          links.isAdmissible c = true then [⟨c, Flooding.greeting n.replica⟩]
            else []) = [] := by
        apply Flooding.toward_eq_nil
        intro o ho heq
        split at ho
        · next hgreet =>
            rw [List.mem_singleton.1 ho] at heq
            rw [← heq, hgreet.2.1] at hbefore
            cases hbefore
        · cases ho
      rw [hnone, List.append_nil]
      show Tied (({ n with links } : Node).side b) other _ _
      rw [hside]
      exact h
    · have hc : b = c := by
        by_contra hne
        rw [← hlinks, Links.isAdmissible_setAdmissible_of_ne admissible hne]
          at hopen
        exact hbefore hopen.2
      subst hc
      rw [if_pos ⟨hopen.1, Bool.not_eq_true _ ▸ hbefore, hopen.2⟩,
        Flooding.toward_self]
      exact Tied.greeted h (Flooding.bounded_greeting hgrounded)
        (Flooding.asked_greeting hgrounded) (le_refl _)
        fun hlt => Flooding.reaches_greeting hgrounded hlt
  · exact h.closed (Bool.not_eq_true _ ▸ fun hside =>
      hopen (isOpen_side_iff.1 hside)) (Or.inl rfl)

/-- An edit is told to every admissible neighbour. -/
theorem used {n' : Node} {p : Press} (h : n.InTouch b other there back)
    (hused : Used n p n')
    (hnext : n.role.canPublish = true → n.version < n.version.next)
    (hroom : n'.outgoing.length < n.settings.maxOutbound) :
    n'.InTouch b other there back := by
  cases hused with
  | refused => exact h.of_eq rfl rfl rfl
  | unchanged =>
      apply followNotices
      exact h.of_eq rfl rfl rfl
  | @advanced edited kept flooding tally hrole _ hreplica henq _ =>
      have hlt := hnext hrole
      rw [if_pos hlt] at henq
      obtain ⟨addresses, tallied, hfollow, -, -⟩ :=
        followNotices_spec { n with replica := p.replica, pool := p.pool }
      rw [hfollow] at henq hroom ⊢
      rw [hreplica] at henq hroom ⊢
      by_cases hopen : n.started = true ∧ n.isAdmissible b = true
      · rw [InTouch, outbox_queued, ← List.append_assoc,
          henq.eq_of_room hopen.1 hroom]
        refine Tied.advanced h rfl rfl (le_of_lt hlt) ?_ ?_
        · intro m hm
          have hmessage :=
            (Flooding.mem_fanOut_iff.1 (Flooding.mem_toward_iff.1 hm)).2
          have hdelta : m = .delta (Delta.between n.data
            { edited with version := n.version.next }) := hmessage
          rw [hdelta]
          exact Message.bounded_delta.2 (le_refl _)
        · intro _ _ _
          refine ⟨.delta (Delta.between n.data { edited with
            version := n.version.next }), Flooding.mem_toward_iff.2
            (Flooding.mem_fanOut_iff.2 ⟨⟨hopen.2, by simp⟩, rfl⟩), ?_⟩
          exact Message.reaches_delta.2 (le_refl _)
      · exact h.closed
          (Bool.not_eq_true _ ▸ fun hside => hopen (isOpen_side_iff.1 hside))
          (Or.inl rfl)

end InTouch

/-! ## Every call -/

/-- The call moves no frames between the node and its links. -/
def Call.isLocal : Call → Bool
  | .pop => false
  | .queueFrame _ => false
  | .queueBytes _ => false
  | _ => true

/-- Whatever is asked of a node, it stays in touch. -/
theorem InTouch.after {c : Call} (h : n.InTouch b other there back)
    (hlocal : c.isLocal = true) (hformed : n.Formed)
    (hgrounded : n.replica.Grounded)
    (hbounded : n.role.canPublish = true →
      ∀ f ∈ n.incoming, f.message.Bounded n.version)
    (hnext : c.isEdit = true → n.role.canPublish = true →
      n.version < n.version.next)
    (hroom : (n.after c).outgoing.length < n.settings.maxOutbound) :
    (n.after c).InTouch b other there back := by
  cases c with
  | start => exact h.start hgrounded hroom
  | detach => exact h.closed rfl (Or.inr rfl)
  | addNeighbour c =>
      refine h.of_eq ?_ rfl rfl
      exact congrArg
        (fun a => (⟨n.started && a, n.version, n.role.forwards⟩ : Side))
        Links.isAdmissible_addNeighbour
  | removeNeighbour c =>
      have hadm : (n.removeNeighbour c).2.isAdmissible b =
          if b = c then false else n.isAdmissible b :=
        Links.isAdmissible_removeNeighbour
      by_cases hc : b = c
      · rw [if_pos hc] at hadm
        refine h.closed ?_ (Or.inl rfl)
        show (n.started && (n.removeNeighbour c).2.isAdmissible b) = false
        rw [hadm, Bool.and_false]
      · rw [if_neg hc] at hadm
        refine h.of_eq ?_ rfl rfl
        exact congrArg
          (fun a => (⟨n.started && a, n.version, n.role.forwards⟩ : Side)) hadm
  | setAdmissible c admissible =>
      exact h.setAdmissible hgrounded c admissible hroom
  | tick now => exact h.tick hformed hgrounded hbounded hroom
  | pop => cases hlocal
  | addPrefix net flags =>
      exact h.used (used_addPrefix n net flags) (hnext rfl) hroom
  | removePrefix net => exact h.used (used_removePrefix n net) (hnext rfl) hroom
  | queueFrame frame => cases hlocal
  | queueBytes bytes => cases hlocal

/-! ## Frames that come and go -/

namespace InTouch

/-- A message that arrives goes from the link into the queue; a
detached node drops it. -/
theorem queueFrame {frame : Frame}
    (h : n.InTouch b other there (frame.message :: back))
    (hsender : frame.sender = b) (hvacant : n.Vacant)
    (hroom : n.incoming.length < n.settings.maxInbound) :
    (n.queueFrame frame).2.InTouch b other there back := by
  cases hstarted : n.started with
  | false =>
      rw [Node.queueFrame, if_pos (by simp [hstarted])]
      have hinbox : n.inbox b = [] := by
        rw [inbox, hvacant hstarted]
        rfl
      rw [InTouch, hinbox] at h
      apply Tied.closed h (by simp [side, hstarted])
      show n.inbox b ++ back <:+ _
      rw [hinbox]
      exact List.suffix_cons _ _
  | true =>
      rw [Node.queueFrame, if_neg (by simp [hstarted, hroom])]
      have hinbox : sentBy b (n.incoming ++ [frame]) =
          n.inbox b ++ [frame.message] := by
        rw [sentBy_append, sentBy_cons_self hsender]
        rfl
      show Tied _ _ _ (sentBy b (n.incoming ++ [frame]) ++ back)
      rw [hinbox, List.append_assoc]
      exact h

/-- A message of another neighbour is no concern. -/
theorem queueFrame_past {frame : Frame} (h : n.InTouch b other there back)
    (hsender : frame.sender ≠ b) :
    (n.queueFrame frame).2.InTouch b other there back := by
  rw [Node.queueFrame]
  split
  · exact h
  · have hinbox : sentBy b (n.incoming ++ [frame]) = n.inbox b := by
      rw [sentBy_append, sentBy_cons_of_ne hsender]
      exact List.append_nil _
    show Tied _ _ _ (sentBy b (n.incoming ++ [frame]) ++ back)
    rw [hinbox]
    exact h

/-- What is popped goes on its way; what is lost was for a neighbour that the
node has closed itself to. -/
theorem popAll (h : n.InTouch b other there back) :
    n.popAll.2.InTouch b other (there ++ sentTo b n.popAll.1) back := by
  obtain ⟨tally, hpop⟩ := n.popAll_spec
  rw [hpop]
  cases hadm : n.isAdmissible b with
  | true =>
      have hall : sentTo b n.sendable = n.outbox b := by
        rw [sentTo, sendable, List.filter_filter]
        refine congrArg (List.map _) (List.filter_congr fun o _ => ?_)
        by_cases hto : o.to = b
        · simp [hto, hadm]
        · simp [hto]
      rw [InTouch, hall]
      show Tied _ _ (there ++ n.outbox b ++ []) _
      rw [List.append_nil]
      exact h
  | false =>
      refine Tied.closed h ?_ (List.suffix_refl _)
      show (n.started && n.isAdmissible b) = false
      rw [hadm, Bool.and_false]

end InTouch

end Node

end OnMesh
