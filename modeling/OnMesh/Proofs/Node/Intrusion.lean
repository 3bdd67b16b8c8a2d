import OnMesh.Proofs.Node.Lending
import OnMesh.Proofs.Node.News

/-!
# Frames of neighbours that are not admissible

A frame whose sender is not admissible is dropped when it is handled, and not
when it comes in.  Two runs of a node are compared here, one of which is handed
such frames in addition.  As long as these frames do not crowd out others from
the queue, the two nodes differ in nothing but that queue and their counts.
-/

namespace OnMesh

open Wire (Frame Message)

namespace Node

variable {n m : Node}

/-! ## Nodes that differ in frames and counts -/

/-- The node with other frames to handle and other counts. -/
def recounted (n : Node) (incoming : List Frame) (tally : Tally)
    (counts : Flooding.Tally) : Node :=
  { n with incoming, tally, flooding := { n.flooding with tally := counts } }

/-- What becomes of a node does not depend on the frames that wait to be handled
nor on any count, and these frames stay. -/
def Heedless (f : Node → Node) : Prop :=
  ∀ n incoming tally counts, ∃ tally' counts',
    f (n.recounted incoming tally counts) =
      (f n).recounted incoming tally' counts'

theorem Heedless.comp {f g : Node → Node} (hg : Heedless g) (hf : Heedless f) :
    Heedless fun n => g (f n) := by
  intro n incoming tally counts
  obtain ⟨tally, counts, hfirst⟩ := hf n incoming tally counts
  obtain ⟨tally, counts, hrest⟩ := hg (f n) incoming tally counts
  refine ⟨tally, counts, ?_⟩
  beta_reduce
  rw [hfirst, hrest]

theorem heedless_foldl {α : Type} {f : Node → α → Node}
    (h : ∀ a, Heedless fun n => f n a) (as : List α) :
    Heedless fun n => as.foldl f n := by
  induction as with
  | nil => exact fun _ _ tally counts => ⟨tally, counts, rfl⟩
  | cons a as ih => exact ih.comp (h a)

/-- The frames that wait stay where they are. -/
theorem Heedless.incoming_eq {f : Node → Node} (h : Heedless f) (n : Node) :
    (f n).incoming = n.incoming := by
  obtain ⟨tally, counts, heq⟩ := h n n.incoming n.tally n.flooding.tally
  have hself : n.recounted n.incoming n.tally n.flooding.tally = n := rfl
  rw [hself] at heq
  rw [heq]
  rfl

/-! ## Sending -/

theorem heedless_enqueueOne (o : Outbound) :
    Heedless fun n => n.enqueueOne o := by
  intro n incoming tally counts
  beta_reduce
  by_cases hfull : n.settings.maxOutbound ≤ n.outgoing.length
  · refine ⟨tally, counts, ?_⟩
    have hsame : n.enqueueOne o = n := if_pos hfull
    rw [hsame]
    exact if_pos hfull
  · refine ⟨{ tally with outgoingQueued := tally.outgoingQueued + 1 },
      counts, ?_⟩
    have hmore : n.enqueueOne o = { n with
        outgoing := n.outgoing ++ [⟨o.to, Frame.make n.id o.message⟩]
        tally := { n.tally with
          outgoingQueued := n.tally.outgoingQueued + 1 } } := if_neg hfull
    rw [hmore]
    exact if_neg hfull

theorem heedless_enqueue (out : List Outbound) :
    Heedless fun n => n.enqueue out := by
  intro n incoming tally counts
  beta_reduce
  cases hstarted : n.started with
  | true =>
      obtain ⟨tally, counts, heq⟩ :=
        heedless_foldl heedless_enqueueOne out n incoming tally counts
      refine ⟨tally, counts, ?_⟩
      rw [enqueue, enqueue, if_pos hstarted]
      exact (if_pos hstarted).trans heq
  | false =>
      have hnot : ¬ n.started = true := by rw [hstarted]; simp
      refine ⟨tally, counts, ?_⟩
      rw [enqueue, enqueue, if_neg hnot]
      exact if_neg hnot

theorem heedless_id : Heedless fun n => n :=
  fun _ _ tally counts => ⟨tally, counts, rfl⟩

/-- Messages that do not depend on counts may come with new counts. -/
theorem heedless_send {f : Node → Node} (hf : Heedless f)
    (out : Node → List Outbound) {count : Node → Flooding.Tally}
    (hout : ∀ n incoming tally counts,
      out (n.recounted incoming tally counts) = out n) :
    Heedless fun n =>
      { f n with flooding := { (f n).flooding with tally := count n } }.enqueue
        (out n) := by
  intro n incoming tally counts
  beta_reduce
  obtain ⟨tally', counts', hfirst⟩ := hf n incoming tally counts
  rw [hout, hfirst]
  exact heedless_enqueue (out n)
    { f n with flooding := { (f n).flooding with tally := count n } }
    incoming tally' (count (n.recounted incoming tally counts))

theorem heedless_greet (b : NodeId) : Heedless fun n => n.greet b := by
  have hgreet : (fun n : Node => n.greet b) = fun n =>
      { n with flooding := { n.flooding with
          tally := (n.flooding.greet b n.replica n.links).2.tally } }.enqueue
        (n.greetings [b]) := by
    funext n
    rw [greet]
    cases hadm : n.links.isAdmissible b with
    | true =>
        rw [Flooding.greet_of_admissible _ _ hadm]
        simp [greetings, isAdmissible, hadm, Flooding.recordSent]
    | false =>
        rw [Flooding.greet_of_not_admissible _ _ hadm]
        simp [greetings, isAdmissible, hadm]
  rw [hgreet]
  exact heedless_send heedless_id (fun n => n.greetings [b]) fun _ _ _ _ => rfl

theorem heedless_start : Heedless start := by
  intro n incoming tally counts
  cases hstarted : n.started with
  | true =>
      refine ⟨tally, counts, ?_⟩
      rw [start_of_started hstarted]
      exact start_of_started hstarted
  | false =>
      have hstart : ∀ k : Node, k.started = false →
          k.start =
            k.links.admissible.foldl greet { k with started := true } := by
        intro k hk
        rw [start, hk]
        rfl
      rw [hstart n hstarted,
        hstart (n.recounted incoming tally counts) hstarted]
      exact heedless_foldl heedless_greet n.links.admissible
        { n with started := true } incoming
        tally counts

theorem heedless_setAdmissible (b : NodeId) (admissible : Bool) :
    Heedless fun n => (n.setAdmissible b admissible).2 := by
  intro n incoming tally counts
  beta_reduce
  by_cases hgreet : (n.links.setAdmissible b admissible).1 = .restored ∧
    n.started = true
  · obtain ⟨tally', counts', heq⟩ := heedless_greet b
      { n with links := (n.links.setAdmissible b admissible).2 }
        incoming tally counts
    refine ⟨tally', counts', ?_⟩
    have hcall : (n.setAdmissible b admissible).2 =
        ({ n with links := (n.links.setAdmissible b admissible).2 }).greet b :=
      if_pos hgreet
    rw [hcall]
    exact (if_pos hgreet).trans heq
  · refine ⟨tally, counts, ?_⟩
    have hcall : (n.setAdmissible b admissible).2 =
        { n with links := (n.links.setAdmissible b admissible).2 } :=
      if_neg hgreet
    rw [hcall]
    exact if_neg hgreet

theorem heedless_pop : Heedless fun n => n.pop.2 := by
  have hfrom :
      ∀ (os : List Outgoing) (n : Node) (incoming : List Frame) (tally : Tally)
      (counts : Flooding.Tally), ∃ tally' counts',
        ((n.recounted incoming tally counts).popFrom os).2 =
          (n.popFrom os).2.recounted incoming tally' counts' := by
    intro os
    induction os with
    | nil => exact fun n incoming tally counts => ⟨tally, counts, rfl⟩
    | cons o os ih =>
        intro n incoming tally counts
        cases hadm : n.isAdmissible o.to with
        | true =>
            refine ⟨{ tally with outgoingPopped := tally.outgoingPopped + 1 },
              counts, ?_⟩
            have hpop : n.popFrom (o :: os) = (some o, { n with
                outgoing := os
                tally := { n.tally with
                  outgoingPopped := n.tally.outgoingPopped + 1 } }) :=
              if_pos hadm
            rw [hpop]
            exact congrArg Prod.snd (if_pos hadm)
        | false =>
            have hskip : ∀ k : Node, k.isAdmissible o.to = false →
                k.popFrom (o :: os) = k.countSuppressed.popFrom os := by
              intro k hk
              rw [popFrom, hk]
              rfl
            rw [hskip n hadm, hskip (n.recounted incoming tally counts) hadm]
            exact ih n.countSuppressed incoming _ counts
  exact fun n => hfrom n.outgoing n

/-! ## Following the data -/

theorem heedless_followNotices : Heedless followNotices := by
  intro n incoming tally counts
  cases hnotices : n.replica.notices with
  | nil =>
      refine ⟨tally, counts, ?_⟩
      rw [followNotices_of_nil hnotices]
      exact followNotices_of_nil hnotices
  | cons notice notices =>
      let report := (n.addresses.reconcile n.data).1
      refine ⟨{ tally with
        addressesAdded := tally.addressesAdded + report.added.length
        addressesRemoved := tally.addressesRemoved + report.removed.length },
        counts, ?_⟩
      simp only [followNotices, Replica.takeNotices, recounted, hnotices,
        List.isEmpty_cons, Bool.false_eq_true, if_false]
      rfl

theorem heedless_announced : Heedless announced := by
  have hannounced : announced = fun n : Node =>
      { n with flooding := { n.flooding with
          tally := (n.flooding.announce n.replica n.links).2.tally } }.enqueue
        ((Flooding.make n.role).announce n.replica n.links).1 := by
    funext n
    rw [announced, Flooding.announce, Flooding.announce]
    cases n.replica.lastDelta with
    | none => rfl
    | some d =>
        simp only
        split <;> rfl
  rw [hannounced]
  exact heedless_send heedless_id
    (fun n => ((Flooding.make n.role).announce n.replica n.links).1)
      fun _ _ _ _ => rfl

theorem heedless_afterEdit (before after : Version) :
    Heedless fun n => n.afterEdit before after := by
  by_cases hlt : before < after
  · simp only [afterEdit_eq, if_pos hlt]
    exact heedless_announced.comp heedless_followNotices
  · simp only [afterEdit_eq, if_neg hlt]
    exact heedless_followNotices

theorem heedless_usePress (act : Press → Except Fault Version × Press) :
    Heedless fun n => (n.usePress act).2 := by
  intro n incoming tally counts
  beta_reduce
  rcases hact : act (n.expirePool n.now).press with ⟨fault | after, p⟩
  · refine ⟨tally, counts, ?_⟩
    have huse : ∀ k : Node,
        (k.expirePool k.now).press = (n.expirePool n.now).press →
        (k.usePress act).2 =
          { k with replica := p.replica, pool := p.pool } := by
      intro k hk
      simp only [usePress, hk, hact]
      rfl
    rw [huse n rfl, huse (n.recounted incoming tally counts) rfl]
    rfl
  · have huse : ∀ k : Node,
        (k.expirePool k.now).press = (n.expirePool n.now).press →
        (k.usePress act).2 =
          ({ k with replica := p.replica, pool := p.pool }).afterEdit
            k.version after := by
      intro k hk
      simp only [usePress, hk, hact]
      rfl
    rw [huse n rfl, huse (n.recounted incoming tally counts) rfl]
    exact heedless_afterEdit n.version after
      { n with replica := p.replica, pool := p.pool } incoming
      tally counts

/-! ## Handling frames -/

/-- Two responses that send the same and leave the same replica. -/
structure SameResponse (a b : Flooding.Response) : Prop where
  out : b.out = a.out
  replica : b.replica = a.replica

section Responses

variable (f : Flooding) (r : Replica) (links : Links) (counts : Flooding.Tally)

theorem sameResponse_receiveDelta (sender : NodeId) (d : Delta) :
    SameResponse (f.receiveDelta sender d r links)
      (Flooding.receiveDelta { f with tally := counts } sender d r links) := by
  simp only [Flooding.receiveDelta]
  split
  · exact ⟨rfl, rfl⟩
  · rcases r.applyDelta d with ⟨fault | version, r'⟩
    · cases fault with
      | staleDelta target held =>
          simp only [Flooding.repair]
          split
          · exact ⟨rfl, rfl⟩
          · cases r'.lastDelta <;> exact ⟨rfl, rfl⟩
      | _ => exact ⟨rfl, rfl⟩
    · exact ⟨rfl, rfl⟩

theorem sameResponse_receiveRequest (sender : NodeId) (held : Version) :
    SameResponse (f.receiveRequest sender held r)
      (Flooding.receiveRequest { f with tally := counts } sender held r) := by
  simp only [Flooding.receiveRequest]
  split <;> exact ⟨rfl, rfl⟩

theorem sameResponse_receiveSnapshot (sender : NodeId) (data : NetworkData) :
    SameResponse (f.receiveSnapshot sender data r links)
      (Flooding.receiveSnapshot
        { f with tally := counts } sender data r links) := by
  simp only [Flooding.receiveSnapshot]
  split
  · exact ⟨rfl, rfl⟩
  · rcases r.adopt data with ⟨_ | _, r'⟩ <;> exact ⟨rfl, rfl⟩

/-- What a frame leads to does not depend on counts. -/
theorem sameResponse_receive (frame : Frame) :
    SameResponse (f.receive frame r links)
      (Flooding.receive { f with tally := counts } frame r links) := by
  have hrecord : ∀ {a b : Flooding.Response}, SameResponse a b →
      SameResponse { a with flooding := a.flooding.recordSent a.out }
        { b with flooding := b.flooding.recordSent b.out } :=
    fun h => ⟨h.out, h.replica⟩
  simp only [Flooding.receive]
  split
  · exact ⟨rfl, rfl⟩
  · cases frame.message with
    | delta d =>
        exact hrecord
          (sameResponse_receiveDelta f r links counts frame.sender d)
    | snapshotRequest held =>
        exact hrecord (sameResponse_receiveRequest f r counts frame.sender held)
    | snapshot data =>
        exact hrecord
          (sameResponse_receiveSnapshot f r links counts frame.sender data)

end Responses

/-- Handling a frame looks at no other frame, and at no count. -/
theorem heedless_handle (frame : Frame) : Heedless fun n => n.handle frame := by
  let response (n : Node) :=
    Flooding.receive
      ⟨n.flooding.role, Flooding.Tally.zero⟩ frame n.replica n.links
  have hhandle : (fun n : Node => n.handle frame) = fun n : Node =>
      { { n with replica := (response n).replica } with
        flooding := { n.flooding with
          tally := (n.flooding.receive frame n.replica
            n.links).flooding.tally } }.enqueue
        (response n).out := by
    funext n
    obtain ⟨hout, hreplica⟩ :=
      sameResponse_receive n.flooding n.replica n.links
        Flooding.Tally.zero frame
    have hcounts : ∀ g : Flooding, g.role = n.flooding.role →
        g = { n.flooding with tally := g.tally } := by
      rintro ⟨role, tally⟩ hrole
      cases hrole
      rfl
    rw [handle, hout, hreplica]
    exact congrArg (fun flooding => enqueue { n with
      replica := (n.flooding.receive frame n.replica n.links).replica
      flooding } _) (hcounts _
        (Flooding.role_receive n.flooding frame n.replica n.links))
  rw [hhandle]
  exact heedless_send (f := fun n => { n with replica := (response n).replica })
    (fun _ _ tally counts => ⟨tally, counts, rfl⟩) (fun n => (response n).out)
    fun _ _ _ _ => rfl

/-- A frame of a neighbour that is not admissible is only counted. -/
theorem handle_of_not_admissible {frame : Frame}
    (h : n.isAdmissible frame.sender = false) :
    ∃ counts, n.handle frame = n.recounted n.incoming n.tally counts := by
  refine ⟨{ n.flooding.tally with
    framesDropped := n.flooding.tally.framesDropped + 1 }, ?_⟩
  rw [handle, Flooding.receive_of_not_admissible h]
  simp [enqueue, recounted]

/-- The first list of frames is the second one without some of the frames
of the given senders. -/
inductive Thinned (senders : List NodeId) : List Frame → List Frame → Prop
  | nil : Thinned senders [] []
  | keep (frame : Frame) {few many : List Frame} : Thinned senders few many →
      Thinned senders (frame :: few) (frame :: many)
  | drop {frame : Frame} {few many : List Frame} : frame.sender ∈ senders →
      Thinned senders few many → Thinned senders few (frame :: many)

namespace Thinned

variable {senders : List NodeId} {few many : List Frame}

theorem refl (senders : List NodeId) (frames : List Frame) :
    Thinned senders frames frames := by
  induction frames with
  | nil => exact .nil
  | cons frame frames ih => exact ih.keep frame

theorem mono {more : List NodeId} (h : Thinned senders few many)
    (hsub : senders ⊆ more) : Thinned more few many := by
  induction h with
  | nil => exact .nil
  | keep frame _ ih => exact ih.keep frame
  | drop hmem _ ih => exact ih.drop (hsub hmem)

theorem append {fewMore manyMore : List Frame} (h : Thinned senders few many)
    (hmore : Thinned senders fewMore manyMore) :
    Thinned senders (few ++ fewMore) (many ++ manyMore) := by
  induction h with
  | nil => exact hmore
  | keep frame _ ih => exact ih.keep frame
  | drop hmem _ ih => exact ih.drop hmem

end Thinned

theorem isAdmissible_handle (n : Node) (frame : Frame) (b : NodeId) :
    (n.handle frame).isAdmissible b = n.isAdmissible b := by
  rw [isAdmissible, isAdmissible, links_handle]

/-- Frames of senders that are not admissible make no difference among
others. -/
theorem foldl_handle_thinned {senders : List NodeId} {few many : List Frame}
    (h : Thinned senders few many)
    (hblocked : ∀ b ∈ senders, n.isAdmissible b = false) (incoming : List Frame)
    (tally : Tally) (counts : Flooding.Tally) :
    ∃ tally' counts', many.foldl handle (n.recounted incoming tally counts) =
      (few.foldl handle n).recounted incoming tally' counts' := by
  induction h generalizing n tally counts with
  | nil => exact ⟨tally, counts, rfl⟩
  | keep frame _ ih =>
      obtain ⟨tally', counts', heq⟩ : ∃ tally' counts',
          (n.recounted incoming tally counts).handle frame =
            (n.handle frame).recounted incoming tally' counts' :=
        heedless_handle frame n incoming tally counts
      rw [List.foldl_cons, List.foldl_cons, heq]
      exact ih (fun b hb => by rw [isAdmissible_handle]; exact hblocked b hb)
        tally' counts'
  | drop hmem _ ih =>
      obtain ⟨counts', heq⟩ := handle_of_not_admissible
        (n := n.recounted incoming tally counts) (hblocked _ hmem)
      rw [List.foldl_cons, heq]
      exact ih hblocked tally counts'

/-- What a tick does once the frames have been handled. -/
theorem heedless_upkeep (now : Nat) :
    Heedless fun n =>
      (if n.role.canPublish then n.expirePool now else n).followNotices := by
  apply heedless_followNotices.comp
  intro n incoming tally counts
  refine ⟨tally, counts, ?_⟩
  beta_reduce
  by_cases hrole : n.role.canPublish = true
  · rw [if_pos hrole, if_pos
      (show (n.recounted incoming tally counts).role.canPublish = true from
      hrole)]
    rfl
  · rw [if_neg hrole, if_neg
      (show ¬ (n.recounted incoming tally counts).role.canPublish = true from
      hrole)]

theorem tick_thinned {senders : List NodeId} {incoming : List Frame}
    (h : Thinned senders n.incoming incoming)
    (hblocked : ∀ b ∈ senders, n.isAdmissible b = false) (now : Nat)
    (tally : Tally) (counts : Flooding.Tally) :
    ∃ tally' counts', (n.recounted incoming tally counts).tick now =
      (n.tick now).recounted [] tally' counts' := by
  obtain ⟨tally', counts', hhandled⟩ :=
    foldl_handle_thinned (n := n.begun now) h hblocked []
    { tally with ticks := tally.ticks + 1 } counts
  have hsame : (n.recounted incoming tally counts).handled now =
      (n.handled now).recounted [] tally' counts' := hhandled
  rw [tick_eq, tick_eq, hsame]
  exact heedless_upkeep now (n.handled now) [] tally' counts'

/-! ## Frames that are handed in -/

def Call.frame? : Call → Option Frame
  | .queueFrame frame => some frame
  | .queueBytes bytes => (Frame.parse bytes).toOption
  | _ => none

/-- Whether the node takes the frame that a call hands to it. -/
def takes (n : Node) : Call → Bool
  | .queueFrame frame => (n.queueFrame frame).1
  | .queueBytes bytes => (n.queueBytes bytes).1
  | _ => false

theorem queueFrame_spec (n : Node) (frame : Frame) :
    ∃ tally, (n.queueFrame frame).2 =
    { n with
      incoming := if (n.queueFrame frame).1 then n.incoming ++ [frame]
        else n.incoming
      tally } := by
  rw [queueFrame]
  split
  · exact ⟨{ n.tally with incomingDropped := n.tally.incomingDropped + 1 }, rfl⟩
  · exact ⟨{ n.tally with incomingQueued := n.tally.incomingQueued + 1 }, rfl⟩

/-- A frame that is taken waits behind the others. -/
theorem after_of_frame? {c : Call} {frame : Frame} (h : c.frame? = some frame)
    (n : Node) :
    ∃ tally, n.after c = { n with
      incoming := if n.takes c then n.incoming ++ [frame] else n.incoming
      tally } := by
  cases c with
  | queueFrame received =>
      cases h
      exact queueFrame_spec n frame
  | queueBytes bytes =>
      rw [Call.frame?] at h
      rw [after, takes, queueBytes]
      cases hparse : Frame.parse bytes with
      | error fault => rw [hparse] at h; cases h
      | ok received =>
          rw [hparse] at h
          cases h
          exact queueFrame_spec n frame
  | _ => cases h

/-- Bytes that are no frame are only counted. -/
theorem after_queueBytes_of_unreadable {bytes : List UInt8}
    (h : (Call.queueBytes bytes).frame? = none) (n : Node) :
    ∃ tally, n.after (.queueBytes bytes) = { n with tally } := by
  rw [Call.frame?] at h
  rw [after, queueBytes]
  cases hparse : Frame.parse bytes with
  | error fault =>
      exact ⟨{ n.tally with malformedFrames := n.tally.malformedFrames + 1 },
        rfl⟩
  | ok received => rw [hparse] at h; cases h

/-! ## Two runs -/

/-- What happens to a node in the longer one of two runs. -/
inductive Happening where
  /-- A call that both runs make. -/
  | shared (c : Call)
  /-- A call that only the longer run makes, to hand over a frame. -/
  | extra (c : Call) (frame : Frame)

/-- The node of the shorter run. -/
def undisturbed (n : Node) : Happening → Node
  | .shared c => n.after c
  | .extra .. => n

/-- The node of the longer run. -/
def disturbed (n : Node) : Happening → Node
  | .shared c => n.after c
  | .extra c _ => n.after c

/-- The senders of frames that wait for the next tick. -/
def Call.pending (senders : List NodeId) : Call → List NodeId
  | .tick _ => []
  | _ => senders

/-- All that the longer run adds to the shorter one are frames whose sender is
not admissible from when the frame is handed in until the next tick is over;
some such frames may wait already. -/
def Shielded (n : Node) (waiting : List NodeId) : List Happening → Prop
  | [] => True
  | .shared c :: rest =>
    (∀ b ∈ waiting, (n.after c).isAdmissible b = false) ∧
      Shielded (n.after c) (c.pending waiting) rest
  | .extra c frame :: rest =>
    c.frame? = some frame ∧ n.isAdmissible frame.sender = false ∧
      Shielded (n.after c) (frame.sender :: waiting) rest

instance decidableShielded :
    (n : Node) → (waiting : List NodeId) → (happenings : List Happening) →
      Decidable (Shielded n waiting happenings)
  | _, _, [] => .isTrue trivial
  | n, waiting, .shared c :: rest =>
    have := decidableShielded (n.after c) (c.pending waiting) rest
    inferInstanceAs (Decidable (_ ∧ _))
  | n, waiting, .extra c frame :: rest =>
    have := decidableShielded (n.after c) (frame.sender :: waiting) rest
    inferInstanceAs (Decidable (_ ∧ _ ∧ _))

/-- Every frame that both runs hand in is taken in both or refused in both. -/
def TakenAlike (n m : Node) : List Happening → Prop
  | [] => True
  | .shared c :: rest =>
    m.takes c = n.takes c ∧ TakenAlike (n.after c) (m.after c) rest
  | .extra c _ :: rest => TakenAlike n (m.after c) rest

instance decidableTakenAlike :
    (n m : Node) → (happenings : List Happening) →
      Decidable (TakenAlike n m happenings)
  | _, _, [] => .isTrue trivial
  | n, m, .shared c :: rest =>
    have := decidableTakenAlike (n.after c) (m.after c) rest
    inferInstanceAs (Decidable (_ ∧ _))
  | n, m, .extra c _ :: rest => decidableTakenAlike n (m.after c) rest

/-- The second node differs from the first in counts, and in frames of
some senders that wait. -/
def Shadows (waiting : List NodeId) (n m : Node) : Prop :=
  ∃ incoming tally counts, m = n.recounted incoming tally counts ∧
    Thinned waiting n.incoming incoming

theorem Shadows.refl (n : Node) : Shadows [] n n :=
  ⟨n.incoming, n.tally, n.flooding.tally, rfl, Thinned.refl [] n.incoming⟩

/-- A change that has nothing to do with frames or counts keeps the two
alike. -/
theorem Shadows.of_heedless {waiting : List NodeId} (h : Shadows waiting n m)
    {f : Node → Node} (hf : Heedless f) : Shadows waiting (f n) (f m) := by
  obtain ⟨incoming, tally, counts, rfl, hthin⟩ := h
  obtain ⟨tally', counts', heq⟩ := hf n incoming tally counts
  refine ⟨incoming, tally', counts', heq, ?_⟩
  rw [hf.incoming_eq]
  exact hthin

theorem Shadows.inbound {waiting : List NodeId} (h : Shadows waiting n m)
    {c : Call} {frame : Frame} (hc : c.frame? = some frame)
    (htaken : m.takes c = n.takes c) :
    Shadows waiting (n.after c) (m.after c) := by
  obtain ⟨incoming, tally, counts, rfl, hthin⟩ := h
  obtain ⟨tallyLeft, hleft⟩ := after_of_frame? hc n
  obtain ⟨tallyRight, hright⟩ :=
    after_of_frame? hc (n.recounted incoming tally counts)
  rw [hleft, hright, htaken]
  refine ⟨_, tallyRight, counts, rfl, ?_⟩
  show Thinned waiting (if n.takes c then n.incoming ++ [frame] else n.incoming)
    (if n.takes c then incoming ++ [frame] else incoming)
  split
  · exact hthin.append (Thinned.refl waiting [frame])
  · exact hthin

theorem Shadows.tick {waiting : List NodeId} (h : Shadows waiting n m)
    {now : Nat}
    (hblocked : ∀ b ∈ waiting, (m.tick now).isAdmissible b = false) :
    Shadows [] (n.tick now) (m.tick now) := by
  obtain ⟨incoming, tally, counts, rfl, hthin⟩ := h
  have hlinks : ∀ b,
      ((n.recounted incoming tally counts).tick now).isAdmissible b =
      n.isAdmissible b := by
    intro b
    rw [isAdmissible, links_tick]
    rfl
  obtain ⟨tally', counts', htick⟩ :=
    tick_thinned hthin
      (fun b hb => (hlinks b).symm.trans (hblocked b hb)) now tally counts
  refine ⟨[], tally', counts', htick, ?_⟩
  rw [(tick_fields n now).1]
  exact .nil

/-- A call that both runs make keeps the two alike, and no frame is
left over after a tick. -/
theorem Shadows.shared {waiting : List NodeId} (h : Shadows waiting n m)
    {c : Call} (hblocked : ∀ b ∈ waiting, (m.after c).isAdmissible b = false)
    (htaken : m.takes c = n.takes c) :
    Shadows (c.pending waiting) (n.after c) (m.after c) := by
  cases c with
  | start => exact h.of_heedless heedless_start
  | detach =>
      obtain ⟨incoming, tally, counts, rfl, -⟩ := h
      exact ⟨[], _, counts, rfl, .nil⟩
  | addNeighbour b =>
      exact h.of_heedless (f := (·.addNeighbour b)) fun _ _ tally counts =>
        ⟨tally, counts, rfl⟩
  | removeNeighbour b =>
      exact h.of_heedless (f := fun k => (k.removeNeighbour b).2)
        fun _ _ tally counts => ⟨tally, counts, rfl⟩
  | setAdmissible b admissible =>
      exact h.of_heedless (heedless_setAdmissible b admissible)
  | tick now => exact h.tick hblocked
  | pop => exact h.of_heedless heedless_pop
  | addPrefix net flags =>
      exact h.of_heedless (heedless_usePress (·.publish net flags))
  | removePrefix net => exact h.of_heedless (heedless_usePress (·.withdraw net))
  | queueFrame frame => exact h.inbound rfl htaken
  | queueBytes bytes =>
      cases hframe : (Call.queueBytes bytes).frame? with
      | some frame => exact h.inbound hframe htaken
      | none =>
          obtain ⟨incoming, tally, counts, rfl, hthin⟩ := h
          obtain ⟨tallyLeft, hleft⟩ := after_queueBytes_of_unreadable hframe n
          obtain ⟨tallyRight, hright⟩ :=
            after_queueBytes_of_unreadable hframe
              (n.recounted incoming tally counts)
          rw [hleft, hright]
          exact ⟨incoming, tallyRight, counts, rfl, hthin⟩

/-- A frame that only the longer run is handed waits there, if it is taken. -/
theorem Shadows.extra {waiting : List NodeId} (h : Shadows waiting n m)
    {c : Call} {frame : Frame} (hc : c.frame? = some frame) :
    Shadows (frame.sender :: waiting) n (m.after c) := by
  obtain ⟨incoming, tally, counts, rfl, hthin⟩ := h
  obtain ⟨tally', hafter⟩ :=
    after_of_frame? hc (n.recounted incoming tally counts)
  have hmore : Thinned (frame.sender :: waiting) n.incoming incoming :=
    hthin.mono (List.subset_cons_self _ _)
  rw [hafter]
  refine ⟨_, tally', counts, rfl, ?_⟩
  show Thinned (frame.sender :: waiting) n.incoming
    (if (n.recounted incoming tally counts).takes c then incoming ++ [frame]
      else incoming)
  split
  · have hone : Thinned (frame.sender :: waiting) [] [frame] :=
      .drop (List.mem_cons_self ..) .nil
    have hboth := hmore.append hone
    rwa [List.append_nil] at hboth
  · exact hmore

theorem Shadows.foldl {waiting : List NodeId} {happenings : List Happening}
    (h : Shadows waiting n m) (hshielded : Shielded m waiting happenings)
    (htaken : TakenAlike n m happenings) :
    ∃ left, Shadows left (happenings.foldl undisturbed n)
      (happenings.foldl disturbed m) := by
  induction happenings generalizing n m waiting with
  | nil => exact ⟨waiting, h⟩
  | cons happening rest ih =>
      cases happening with
      | shared c =>
          exact ih (h.shared hshielded.1 htaken.1) hshielded.2 htaken.2
      | extra c frame =>
          obtain ⟨hc, -, hrest⟩ := hshielded
          exact ih (h.extra hc) hrest htaken

/-- A node in any state may be handed frames of neighbours that are not
admissible at any time: as long as they make no difference to which other frames
are taken, it makes no difference to the data, the addresses, the pool of
context ids and the frames that wait to be sent. -/
theorem undisturbed_by_shielded (n : Node) {happenings : List Happening}
    (hshielded : Shielded n [] happenings)
    (htaken : TakenAlike n n happenings) :
    let plain := happenings.foldl undisturbed n
    let mixed := happenings.foldl disturbed n
    mixed.replica = plain.replica ∧ mixed.addresses = plain.addresses ∧
      mixed.pool = plain.pool ∧ mixed.outgoing = plain.outgoing := by
  intro plain mixed
  obtain ⟨left, incoming, tally, counts, heq, -⟩ :=
    (Shadows.refl n).foldl hshielded htaken
  have hmixed : mixed = plain.recounted incoming tally counts := heq
  rw [hmixed]
  exact ⟨rfl, rfl, rfl, rfl⟩

def strangersFrame : Frame := Frame.make ⟨3⟩ (.snapshotRequest ⟨0⟩)

/-- A leaf gets to know a neighbour, and is handed a frame of a stranger before
the first delta of the neighbour. -/
def strangerFirst : List Happening :=
  [.shared .start, .shared (.addNeighbour ⟨1⟩),
    .shared (.setAdmissible ⟨1⟩ true),
    .extra (.queueFrame strangersFrame) strangersFrame,
    .shared (.queueFrame (Frame.make ⟨1⟩
      (.delta ⟨⟨0⟩, ⟨1⟩, [⟨default, Flags.none, ⟨1⟩⟩], [],
        [⟨⟨1⟩, default, true⟩], []⟩))),
    .shared (.tick 1)]

theorem undisturbed_by_shielded_strangerFirst :
    let n := make ⟨2⟩ .leaf NodeSettings.usual
    (strangerFirst.foldl undisturbed n).version = ⟨1⟩ ∧
      (strangerFirst.foldl disturbed n).replica =
        (strangerFirst.foldl undisturbed n).replica := by
  intro n
  have hsame := @undisturbed_by_shielded n strangerFirst (by decide +kernel)
    (by decide +kernel)
  exact ⟨by decide +kernel, hsame.1⟩

/-- Where there is room for one frame only, the stranger's takes it. -/
theorem not_undisturbed_of_full_queue :
    ¬ ∀ (n : Node) (happenings : List Happening), Shielded n [] happenings →
      (happenings.foldl disturbed n).data =
        (happenings.foldl undisturbed n).data := by
  intro h
  have hsame :=
    h (make ⟨2⟩ .leaf { NodeSettings.usual with maxInbound := 1 })
      strangerFirst (by decide +kernel)
  revert hsame
  decide +kernel

end Node

end OnMesh
