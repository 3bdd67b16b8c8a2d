import OnMesh.Proofs.Node.Lending

/-!
# What frames cannot do to an authority

The data of an authority change only by its own edits.  Whatever frames come in,
from whatever lineage, the authority learns nothing from them: it keeps its
data, its addresses and its loans, and all that a frame can lead to is an answer
to its sender that brings the sender to the data of the authority.
-/

namespace OnMesh

open Wire (Frame Message)

/-! ## What is counted -/

namespace Flooding

variable {f g : Flooding} {frame : Frame} {r : Replica} {links : Links}

/-- In between, no delta was applied, no snapshot was adopted and no gap was
found. -/
structure Untaught (f g : Flooding) : Prop where
  applied : g.tally.deltasApplied = f.tally.deltasApplied
  adopted : g.tally.snapshotsAdopted = f.tally.snapshotsAdopted
  gaps : g.tally.gapsDetected = f.tally.gapsDetected

theorem Untaught.refl (f : Flooding) : Untaught f f := ⟨rfl, rfl, rfl⟩

theorem Untaught.trans {h : Flooding} (hfg : Untaught f g)
    (hgh : Untaught g h) : Untaught f h :=
  ⟨hgh.applied.trans hfg.applied, hgh.adopted.trans hfg.adopted,
    hgh.gaps.trans hfg.gaps⟩

/-- Counting what is sent counts nothing that is learnt. -/
theorem untaught_recordSent (f : Flooding) (out : List Outbound) :
    Untaught f (f.recordSent out) := by
  have hcount : ∀ (t : Tally),
      (t.countAllSent out).deltasApplied = t.deltasApplied ∧
      (t.countAllSent out).snapshotsAdopted = t.snapshotsAdopted ∧
      (t.countAllSent out).gapsDetected = t.gapsDetected := by
    induction out with
    | nil => exact fun t => ⟨rfl, rfl, rfl⟩
    | cons o out ih =>
        intro t
        have hone : (t.countSent o).deltasApplied = t.deltasApplied ∧
            (t.countSent o).snapshotsAdopted = t.snapshotsAdopted ∧
            (t.countSent o).gapsDetected = t.gapsDetected := by
          rw [Tally.countSent]
          cases o.message <;> exact ⟨rfl, rfl, rfl⟩
        obtain ⟨happlied, hadopted, hgaps⟩ := ih (t.countSent o)
        exact ⟨happlied.trans hone.1, hadopted.trans hone.2.1,
          hgaps.trans hone.2.2⟩
  exact ⟨(hcount f.tally).1, (hcount f.tally).2.1, (hcount f.tally).2.2⟩

theorem untaught_greet (f : Flooding) (b : NodeId) (r : Replica)
    (links : Links) : Untaught f (f.greet b r links).2 := by
  cases hadm : links.isAdmissible b with
  | true =>
      rw [greet_of_admissible f r hadm]
      exact untaught_recordSent f _
  | false =>
      rw [greet_of_not_admissible f r hadm]
      exact Untaught.refl f

/-- An authority discards every delta; at most its sender is repaired. -/
theorem untaught_receiveDelta (f : Flooding) (sender : NodeId) (d : Delta)
    (links : Links) (hauth : r.authority = true) :
    Untaught f (f.receiveDelta sender d r links).flooding := by
  rw [receiveDelta, hauth, Bool.true_and]
  split
  · exact ⟨rfl, rfl, rfl⟩
  · next hnewer =>
      rw [Replica.applyDelta_of_le
        (not_lt.1 fun hlt => hnewer (decide_eq_true hlt))]
      simp only [repair]
      split
      · exact ⟨rfl, rfl, rfl⟩
      · split <;> exact ⟨rfl, rfl, rfl⟩

/-- An authority learns nothing from a frame. -/
theorem untaught_receive (f : Flooding) (frame : Frame) (links : Links)
    (hauth : r.authority = true) :
    Untaught f (f.receive frame r links).flooding := by
  rw [receive]
  split
  · exact ⟨rfl, rfl, rfl⟩
  · apply Untaught.trans _ (untaught_recordSent _ _)
    cases frame.message with
    | delta d => exact untaught_receiveDelta f frame.sender d links hauth
    | snapshotRequest held =>
        simp only [receiveRequest]
        split <;> exact Untaught.refl f
    | snapshot data =>
        simp only [receiveSnapshot, hauth, if_true]
        exact Untaught.refl f

end Flooding

namespace Node

variable {n m : Node} {frame : Frame}

/-- Nothing that an authority stands for differs: not the data with their
version and the latest delta, not the addresses, not the ids on loan, and
nothing was learnt. -/
structure Unmoved (n m : Node) : Prop where
  replica : m.replica = n.replica
  addresses : m.addresses = n.addresses
  live : m.pool.live = n.pool.live
  untaught : Flooding.Untaught n.flooding m.flooding

theorem Unmoved.refl (n : Node) : Unmoved n n :=
  ⟨rfl, rfl, rfl, Flooding.Untaught.refl _⟩

theorem Unmoved.trans {l : Node} (hlm : Unmoved l m) (hmn : Unmoved m n) :
    Unmoved l n :=
  ⟨hmn.replica.trans hlm.replica, hmn.addresses.trans hlm.addresses,
    hmn.live.trans hlm.live, hlm.untaught.trans hmn.untaught⟩

/-- What a node sends to the sender of a frame that is behind: the latest delta,
which ends at the version held, or a snapshot of the data held. -/
inductive Answers (n : Node) (frame : Frame) : Outgoing → Prop
  | repair {d last : Delta} : frame.message = .delta d → d.target < n.version →
      n.replica.lastDelta = some last → last.target = n.version →
      Answers n frame ⟨frame.sender, Frame.make n.id (.delta last)⟩
  | snapshot {held : Version} : frame.message = .snapshotRequest held →
      held < n.version →
      Answers n frame ⟨frame.sender, Frame.make n.id (.snapshot n.data)⟩

/-- The answers depend on the name and the data of a node only. -/
theorem Answers.of_eq {o : Outgoing} (h : Answers n frame o) (hid : m.id = n.id)
    (hreplica : m.replica = n.replica) : Answers m frame o := by
  have hversion : m.version = n.version := congrArg Replica.version hreplica
  have hdata : m.data = n.data := congrArg Replica.data hreplica
  cases h with
  | repair hmessage hbehind hlast htarget =>
      rw [← hid]
      exact Answers.repair hmessage (hversion ▸ hbehind) (hreplica ▸ hlast)
        (htarget.trans hversion.symm)
  | snapshot hmessage hbehind =>
      rw [← hid, ← hdata]
      exact Answers.snapshot hmessage (hversion ▸ hbehind)

/-- Each answer is one to a frame, and frames are answered in the order
in which they came. -/
def Answered (n : Node) (frames : List Frame) (answers : List Outgoing) :
    Prop :=
  ∃ asking : List Frame, asking.Sublist frames ∧
    List.Forall₂ (Answers n) asking answers

theorem Answered.nil (n : Node) : Answered n [] [] :=
  ⟨[], List.Sublist.refl _, .nil⟩

theorem Answered.cons {frames : List Frame} {answers : List Outgoing}
    {os : List Outgoing} (hone : os = [] ∨ ∃ o, os = [o] ∧ Answers n frame o)
    (h : Answered n frames answers) :
    Answered n (frame :: frames) (os ++ answers) := by
  obtain ⟨asking, hsub, hforall⟩ := h
  rcases hone with rfl | ⟨o, rfl, ho⟩
  · exact ⟨asking, hsub.cons frame, hforall⟩
  · exact ⟨frame :: asking, hsub.cons_cons frame, .cons ho hforall⟩

theorem Answered.of_eq {frames : List Frame} {answers : List Outgoing}
    (h : Answered n frames answers) (hid : m.id = n.id)
    (hreplica : m.replica = n.replica) : Answered m frames answers := by
  obtain ⟨asking, hsub, hforall⟩ := h
  exact ⟨asking, hsub, hforall.imp fun _ _ ho => ho.of_eq hid hreplica⟩

/-! ## Frames -/

theorem flooding_enqueue (n : Node) (out : List Outbound) :
    (n.enqueue out).flooding = n.flooding := by
  obtain ⟨kept, tally, -, heq⟩ := enqueue_spec n out
  rw [heq]
  rfl

/-- One frame moves nothing at the authority, and leads to one answer at
most. -/
theorem handle_of_authority (hauth : n.replica.authority = true)
    (hgrounded : n.replica.Grounded) (frame : Frame) :
    Unmoved n (n.handle frame) ∧
    ∃ os, (n.handle frame).outgoing = n.outgoing ++ os ∧
      (os = [] ∨ ∃ o, os = [o] ∧ Answers n frame o) := by
  have hreplica := replica_handle_of_authority hauth frame
  obtain ⟨hpool, haddresses⟩ := handle_fields n frame
  have hflooding : Flooding.Untaught n.flooding (n.handle frame).flooding := by
    rw [handle, flooding_enqueue]
    exact Flooding.untaught_receive n.flooding frame n.links hauth
  refine ⟨⟨hreplica, haddresses, congrArg ContextPool.live hpool, hflooding⟩,
    ?_⟩
  obtain ⟨out, replica, kept, flooding, tally, hreceived, henq, -, heq⟩ :=
    handle_spec n frame
  refine ⟨kept.map (Outgoing.ofOutbound n.id), by rw [heq]; rfl, ?_⟩
  have hanswer : ∀ o : Outbound, out = [o] →
      Answers n frame (Outgoing.ofOutbound n.id o) →
      kept.map (Outgoing.ofOutbound n.id) = [] ∨
        ∃ o, kept.map (Outgoing.ofOutbound n.id) = [o] ∧ Answers n frame o := by
    rintro o rfl ho
    rcases List.sublist_singleton.1 henq.sublist with rfl | rfl
    · exact Or.inl rfl
    · exact Or.inr ⟨_, rfl, ho⟩
  have hsilent : out = [] → kept.map (Outgoing.ofOutbound n.id) = [] := by
    rintro rfl
    rw [List.sublist_nil.1 henq.sublist, List.map_nil]
  cases hreceived with
  | applied _ _ hnot => rw [hauth] at hnot; cases hnot
  | missed _ _ hnot => rw [hauth] at hnot; cases hnot
  | adopted _ _ hnot => rw [hauth] at hnot; cases hnot
  | repaired _ hmessage hbehind hlast =>
      exact hanswer _ rfl
        (Answers.repair hmessage hbehind hlast (hgrounded.target_eq hlast))
  | served _ hmessage hbehind =>
      exact hanswer _ rfl (Answers.snapshot hmessage hbehind)
  | _ => exact Or.inl (hsilent rfl)

/-- Any number of frames move nothing, and each leads to one answer at most. -/
theorem foldl_handle_of_authority (hauth : n.replica.authority = true)
    (hgrounded : n.replica.Grounded) (frames : List Frame) :
    Unmoved n (frames.foldl handle n) ∧ ∃ answers,
      (frames.foldl handle n).outgoing = n.outgoing ++ answers ∧
      Answered n frames answers := by
  induction frames generalizing n with
  | nil => exact ⟨Unmoved.refl n, [], (List.append_nil _).symm, Answered.nil n⟩
  | cons frame frames ih =>
      obtain ⟨hfirst, os, hos, hone⟩ :=
        handle_of_authority hauth hgrounded frame
      obtain ⟨hrest, answers, hanswers, hanswered⟩ := ih (n := n.handle frame)
        (by rw [hfirst.replica]; exact hauth)
          (by rw [hfirst.replica]; exact hgrounded)
      refine ⟨hfirst.trans hrest, os ++ answers, ?_, ?_⟩
      · rw [List.foldl_cons, hanswers, hos, List.append_assoc]
      · exact (hanswered.of_eq
          (alike_handle n frame).id.symm hfirst.replica.symm).cons hone

/-! ## Calls -/

/-- An authority that has seen all its notices. -/
structure Sovereign (n : Node) : Prop where
  role : n.role.canPublish = true
  authority : n.replica.authority = true
  grounded : n.replica.Grounded
  notices : n.replica.notices = []

theorem Sovereign.of_unmoved (h : n.Sovereign) (halike : Alike n m)
    (hunmoved : Unmoved n m) : m.Sovereign where
  role := by rw [halike.role]; exact h.role
  authority := by rw [hunmoved.replica]; exact h.authority
  grounded := by rw [hunmoved.replica]; exact h.grounded
  notices := by rw [hunmoved.replica]; exact h.notices

/-- Whatever was asked of an authority, it has seen all its notices. -/
theorem sovereign_foldl_after (id : NodeId) (settings : NodeSettings)
    (calls : List Call) :
    (calls.foldl after (make id .authority settings)).Sovereign := by
  have hkept : ∀ m c, (m : Node).Formed ∧ m.role = .authority ∧
      m.replica.Grounded ∧ m.Configured →
      (m.after c).Formed ∧ (m.after c).role = .authority ∧
      (m.after c).replica.Grounded ∧
        (m.after c).Configured :=
    fun m c h => ⟨h.1.of_alike (alike_after m c),
      (alike_after m c).role.trans h.2.1, grounded_after h.2.2.1 c,
      h.2.2.2.after c⟩
  obtain ⟨hformed, hrole, hgrounded, hconfigured⟩ := foldl_after
    (P := fun m => m.Formed ∧ m.role = .authority ∧
      m.replica.Grounded ∧ m.Configured)
    ⟨formed_make id .authority settings, rfl, Replica.grounded_make id true,
      configured_make id .authority settings⟩ hkept calls
  have hpublish := Role.canPublish_eq_true_iff.2 hrole
  exact ⟨hpublish, hformed.authority.trans hpublish, hgrounded,
    hconfigured.notices⟩

/-- A tick of an authority answers the frames that wait, and moves nothing. -/
theorem Sovereign.tick (h : n.Sovereign) (now : Nat) :
    Unmoved n (n.tick now) ∧
    ∃ answers, (n.tick now).outgoing = n.outgoing ++ answers ∧
      Answered n n.incoming answers := by
  obtain ⟨hunmoved, answers, hanswers, hanswered⟩ :=
    foldl_handle_of_authority
      (n := n.begun now) h.authority h.grounded n.incoming
  have hrole : (n.handled now).role.canPublish = true := by
    rw [handled_eq, (alike_foldl_handle _ _).role]
    exact h.role
  have htick : n.tick now = (n.handled now).expirePool now := by
    rw [tick_eq, if_pos hrole]
    apply followNotices_of_nil
    show (n.handled now).replica.notices = []
    rw [handled_eq, hunmoved.replica]
    exact h.notices
  have hsame : Answered n n.incoming answers := hanswered.of_eq rfl rfl
  rw [htick]
  exact ⟨⟨hunmoved.replica, hunmoved.addresses, hunmoved.live,
    hunmoved.untaught⟩, answers, hanswers, hsame⟩

theorem untaught_greet (n : Node) (b : NodeId) :
    Flooding.Untaught n.flooding (n.greet b).flooding := by
  rw [greet, flooding_enqueue]
  exact Flooding.untaught_greet n.flooding b n.replica n.links

theorem untaught_foldl_greet (n : Node) (neighbours : List NodeId) :
    Flooding.Untaught n.flooding (neighbours.foldl greet n).flooding := by
  induction neighbours generalizing n with
  | nil => exact Flooding.Untaught.refl _
  | cons b neighbours ih => exact (untaught_greet n b).trans (ih _)

/-- What is asked of a node between ticks teaches it nothing. -/
theorem untaught_after {c : Call} (hedit : c.isEdit = false)
    (htick : ∀ now, c ≠ .tick now) :
    Flooding.Untaught n.flooding (n.after c).flooding := by
  cases c with
  | start =>
      rw [after, start]
      split
      · exact Flooding.Untaught.refl _
      · exact untaught_foldl_greet { n with started := true } _
  | tick now => exact absurd rfl (htick now)
  | addPrefix net flags => cases hedit
  | removePrefix net => cases hedit
  | setAdmissible b admissible =>
      rw [after, setAdmissible]
      simp only
      split
      · exact untaught_greet
          { n with links := (n.links.setAdmissible b admissible).2 } b
      · exact Flooding.Untaught.refl _
  | pop =>
      rcases popFrom_spec n n.outgoing with
        ⟨tally, hpop, -⟩ | ⟨lost, o, rest, tally, hpop, -⟩ <;>
      · rw [after, pop, hpop]
        exact Flooding.Untaught.refl _
  | queueFrame frame =>
      rw [after, queueFrame]
      split <;> exact Flooding.Untaught.refl _
  | queueBytes bytes =>
      rw [after, queueBytes]
      split
      · rw [queueFrame]
        split <;> exact Flooding.Untaught.refl _
      · exact Flooding.Untaught.refl _
  | _ => exact Flooding.Untaught.refl _

/-- Nothing but an edit or detaching moves an authority. -/
theorem Sovereign.after (h : n.Sovereign) {c : Call} (hedit : c.isEdit = false)
    (hdetach : c ≠ .detach) :
    Unmoved n (n.after c) ∧ (n.after c).Sovereign := by
  have hunmoved : Unmoved n (n.after c) := by
    by_cases htick : ∃ now, c = .tick now
    · obtain ⟨now, rfl⟩ := htick
      exact (h.tick now).1
    · have hne : ∀ now, c ≠ .tick now := fun now hc => htick ⟨now, hc⟩
      have hsame := untouched_after n hedit hdetach hne
      exact ⟨hsame.replica, hsame.addresses,
        congrArg ContextPool.live hsame.pool, untaught_after hedit hne⟩
  exact ⟨hunmoved, h.of_unmoved (alike_after n c) hunmoved⟩

theorem Sovereign.foldl_after (h : n.Sovereign) {calls : List Call}
    (hcalls : ∀ c ∈ calls, c.isEdit = false ∧ c ≠ .detach) :
    Unmoved n (calls.foldl Node.after n) ∧
    (calls.foldl Node.after n).Sovereign := by
  induction calls generalizing n with
  | nil => exact ⟨Unmoved.refl n, h⟩
  | cons c calls ih =>
      obtain ⟨hedit, hdetach⟩ := hcalls c (List.mem_cons_self ..)
      obtain ⟨hfirst, hnext⟩ := h.after hedit hdetach
      obtain ⟨hrest, hlast⟩ :=
        ih hnext fun d hd => hcalls d (List.mem_cons_of_mem _ hd)
      exact ⟨hfirst.trans hrest, hlast⟩

/-- An authority in any state that calls lead to, asked anything from then on
but to edit its data or to detach, stays as it is: its data, addresses and loans
do not change, and it learns nothing. Frames that are handed to it make it send
nothing until it ticks, and then only answers to their senders, out of the data
that it held from the start. -/
theorem keeps_own_data (id : NodeId) (settings : NodeSettings)
    (earlier calls : List Call)
    (hcalls : ∀ c ∈ calls, c.isEdit = false ∧ c ≠ .detach) :
    let n := earlier.foldl after (make id .authority settings)
    let m := calls.foldl after n
    Unmoved n m ∧
      (∀ frame, (m.queueFrame frame).2.outgoing = m.outgoing) ∧
      (∀ bytes, (m.queueBytes bytes).2.outgoing = m.outgoing) ∧
      ∀ now, ∃ answers, (m.tick now).outgoing = m.outgoing ++ answers ∧
        Answered n m.incoming answers := by
  intro n m
  obtain ⟨hunmoved, hsovereign⟩ :=
    (sovereign_foldl_after id settings earlier).foldl_after hcalls
  refine ⟨hunmoved, outgoing_queueFrame m, outgoing_queueBytes m, fun now => ?_⟩
  obtain ⟨-, answers, hanswers, hanswered⟩ := hsovereign.tick now
  have hid : m.id = n.id :=
    (Node.foldl_after (P := Alike n) (Alike.refl n)
      (fun k c hk => hk.trans (alike_after k c)) calls).id
  exact ⟨answers, hanswers, hanswered.of_eq hid.symm hunmoved.replica.symm⟩

/-- Calls that make an authority publish a prefix and admit a neighbour. -/
def admittingOne : List Call :=
  [.start, .addNeighbour ⟨2⟩, .setAdmissible ⟨2⟩ true,
    .addPrefix default Flags.none]

/-- Frames of the neighbour: a delta of another lineage, and a request for
data. -/
def foreignAndAsking : List Call :=
  [.queueFrame (Frame.make ⟨2⟩ (.delta ⟨⟨1⟩, ⟨9⟩, [], [default], [], [⟨1⟩]⟩)),
    .queueFrame (Frame.make ⟨2⟩ (.snapshotRequest ⟨0⟩))]

theorem keeps_own_data_foreignAndAsking :
    let n := admittingOne.foldl after (make ⟨1⟩ .authority NodeSettings.usual)
    let m := foreignAndAsking.foldl after n
    Unmoved n m ∧ n.version = ⟨1⟩ ∧
      (m.tick 1).outgoing.length = m.outgoing.length + 1 ∧
      ∃ answers, (m.tick 1).outgoing = m.outgoing ++ answers ∧
        Answered n m.incoming answers := by
  intro n m
  obtain ⟨hunmoved, -, -, htick⟩ :=
    keeps_own_data ⟨1⟩ NodeSettings.usual admittingOne
    foreignAndAsking (by simp [foreignAndAsking, Call.isEdit])
  exact ⟨hunmoved, by decide +kernel, by decide +kernel, htick 1⟩

end Node

end OnMesh
