import OnMesh.Proofs.Node.Upkeep

/-!
# One delta at one node

A node that hears of one and the same delta from any number of neighbours learns
it once: the first frame of an admissible neighbour carries the node on and is
passed on to all others, and every further frame is discarded.  `Calm` is a node
that has learnt nothing, `Learns` one that has.
-/

namespace OnMesh

open Wire (Frame Message)

/-! ## What is counted -/

namespace Flooding

/-- In between, nothing was asked for, served or repaired. -/
structure Plain (f g : Flooding) : Prop where
  requested : g.tally.snapshotsRequested = f.tally.snapshotsRequested
  served : g.tally.snapshotsServed = f.tally.snapshotsServed
  repairs : g.tally.repairsSent = f.tally.repairsSent

theorem Plain.refl (f : Flooding) : Plain f f := ⟨rfl, rfl, rfl⟩

theorem Plain.trans {f g h : Flooding} (hfg : Plain f g) (hgh : Plain g h) :
    Plain f h :=
  ⟨hgh.requested.trans hfg.requested, hgh.served.trans hfg.served,
    hgh.repairs.trans hfg.repairs⟩

variable {f : Flooding} {frame : Frame} {r : Replica}
  {links : Links} {d : Delta}

/-- Counting deltas that are sent counts nothing else. -/
theorem plain_recordSent {out : List Outbound}
    (h : ∀ o ∈ out, o.message = .delta d) :
    Plain f (f.recordSent out) ∧
      (f.recordSent out).tally.deltasApplied = f.tally.deltasApplied := by
  induction out generalizing f with
  | nil => exact ⟨Plain.refl f, rfl⟩
  | cons o out ih =>
      obtain ⟨hmessage, hrest⟩ := List.forall_mem_cons.1 h
      have hone : f.tally.countSent o =
          { f.tally with deltasSent := f.tally.deltasSent + 1 } := by
        rw [Tally.countSent, hmessage]
      have hsplit : f.recordSent (o :: out) =
          ({ f with tally := f.tally.countSent o } : Flooding).recordSent out :=
        rfl
      rw [hsplit, hone]
      obtain ⟨hplain, happlied⟩ :=
        ih (f := { f with
          tally := { f.tally with deltasSent := f.tally.deltasSent + 1 } })
          hrest
      exact ⟨⟨hplain.requested, hplain.served, hplain.repairs⟩, happlied⟩

theorem message_of_mem_fanOut (d : Delta) (links : Links)
    (skipped : Option NodeId) :
    ∀ o ∈ fanOut d links skipped, o.message = .delta d :=
  fun _ ho => (mem_fanOut_iff.1 ho).2

theorem message_of_mem_passOn (f : Flooding) (d : Delta) (links : Links)
    (sender : NodeId) : ∀ o ∈ f.passOn d links sender, o.message = .delta d :=
  fun _ ho => (mem_passOn_iff.1 ho).2.2

/-- No more neighbours are told than there are. -/
theorem length_fanOut_le (d : Delta) (links : Links) (skipped : Option NodeId) :
    (fanOut d links skipped).length ≤ links.neighbours.size := by
  have hsplit := links.neighbours.size_filter_add
    fun n admissible => admissible && skipped != some n
  rw [fanOut, List.length_map, Links.admissibleExcept, Table.length_keys]
  omega

theorem length_passOn_le (f : Flooding) (d : Delta) (links : Links)
    (sender : NodeId) :
    (f.passOn d links sender).length ≤ links.neighbours.size := by
  rw [passOn]
  split
  · exact length_fanOut_le d links (some sender)
  · exact Nat.zero_le _

/-! ## Frames about one delta -/

theorem receive_of_not_admissible
    (hadm : links.isAdmissible frame.sender = false) :
    f.receive frame r links = ⟨[], r,
      { f with
        tally := { f.tally with
          framesDropped := f.tally.framesDropped + 1 } }⟩ := by
  rw [receive, hadm]
  rfl

theorem receive_of_known (hadm : links.isAdmissible frame.sender = true)
    (hmessage : frame.message = .delta d) (htarget : d.target = r.version) :
    f.receive frame r links = ⟨[], r,
      { f with
        tally := { f.tally with
          deltasDiscarded := f.tally.deltasDiscarded + 1 } }⟩ := by
  have hnot : decide (r.version < d.target) = false := by simp [htarget]
  simp only [receive, hadm, hmessage, receiveDelta, hnot, Bool.and_false,
    Bool.false_eq_true, if_false, Replica.applyDelta_of_le (le_of_eq htarget),
    repair, if_pos (ge_of_eq htarget)]
  rfl

theorem receive_of_next (hadm : links.isAdmissible frame.sender = true)
    (hmessage : frame.message = .delta d) (hauth : r.authority = false)
    (hlt : r.version < d.target) (hbase : d.base = r.version) :
    f.receive frame r links =
      ⟨f.passOn d links frame.sender, r.commit (d.apply r.data) d,
      ({ f with tally := { f.tally with
          deltasApplied := f.tally.deltasApplied + 1 } } : Flooding).recordSent
        (f.passOn d links frame.sender)⟩ := by
  simp only [receive, hadm, hmessage, receiveDelta, hauth, Bool.false_and,
    Bool.false_eq_true, if_false, Replica.applyDelta_of_next hlt hbase]
  rfl

/-- A sender that is behind gets the latest delta back. -/
theorem receive_of_behind {last : Delta}
    (hadm : links.isAdmissible frame.sender = true)
    (hmessage : frame.message = .delta d) (hlt : d.target < r.version)
    (hlast : r.lastDelta = some last) :
    (f.receive frame r links).out = [⟨frame.sender, .delta last⟩] ∧
      (f.receive frame r links).replica = r := by
  have hold : ¬ r.version < d.target := not_lt_of_gt hlt
  have hahead : ¬ r.version ≤ d.target := not_le_of_gt hlt
  simp [receive, hadm, hmessage, receiveDelta, hold,
    Replica.applyDelta_of_le (le_of_lt hlt), repair, hahead, hlast]

end Flooding

namespace Node

variable {n k : Node} {d : Delta}

/-! ## Room -/

/-- A queue with room for all messages takes all of them. -/
theorem enqueue_of_room (out : List Outbound) (hstarted : n.started = true)
    (hroom : n.outgoing.length + out.length ≤ n.settings.maxOutbound) :
    ∃ tally, n.enqueue out = n.queued out n.flooding tally := by
  have hfold : ∃ tally,
      out.foldl enqueueOne n = n.queued out n.flooding tally := by
    clear hstarted
    induction out generalizing n with
    | nil => exact ⟨n.tally, (queued_nil n).symm⟩
    | cons o out ih =>
        rw [List.length_cons] at hroom
        have hone : n.enqueueOne o = n.queued [o] n.flooding
            { n.tally with outgoingQueued := n.tally.outgoingQueued + 1 } :=
          if_neg (by omega)
        obtain ⟨tally, hrest⟩ := ih (n := n.enqueueOne o) (by
          rw [hone]
          simp only [queued, List.length_append, List.length_map,
            List.length_singleton]
          omega)
        refine ⟨tally, ?_⟩
        rw [List.foldl_cons, hrest, hone, queued_queued]
        rfl
  obtain ⟨tally, hqueue⟩ := hfold
  refine ⟨tally, ?_⟩
  rw [enqueue, hstarted]
  exact hqueue

/-! ## Calm nodes -/

def applied (n : Node) : Nat := n.flooding.tally.deltasApplied

/-- Nothing but deltas has come or gone, over the same links. -/
structure Still (n n' : Node) : Prop where
  alike : Alike n n'
  links : n'.links = n.links
  started : n'.started = n.started
  plain : Flooding.Plain n.flooding n'.flooding

theorem Still.refl (n : Node) : Still n n :=
  ⟨Alike.refl n, rfl, rfl, Flooding.Plain.refl _⟩

theorem Still.trans {l m n : Node} (hlm : Still l m) (hmn : Still m n) :
    Still l n :=
  ⟨hlm.alike.trans hmn.alike, hmn.links.trans hlm.links,
    hmn.started.trans hlm.started, hlm.plain.trans hmn.plain⟩

/-- The node has learnt nothing and has nothing more to send. -/
structure Calm (n n' : Node) : Prop extends Still n n' where
  version : n'.version = n.version
  applied : n'.applied = n.applied
  outgoing : n'.outgoing = n.outgoing

theorem Calm.refl (n : Node) : Calm n n := ⟨Still.refl n, rfl, rfl, rfl⟩

theorem Calm.trans {l m n : Node} (hlm : Calm l m) (hmn : Calm m n) :
    Calm l n :=
  ⟨hlm.toStill.trans hmn.toStill, hmn.version.trans hlm.version,
    hmn.applied.trans hlm.applied, hmn.outgoing.trans hlm.outgoing⟩

/-- What a node keeps to itself does not matter. -/
theorem calm_of_private (n : Node) (now : Nat) (pool : ContextPool)
    (incoming : List Frame) (tally : Tally) :
    Calm n { n with now, pool, incoming, tally } :=
  ⟨⟨⟨rfl, rfl, rfl, rfl, rfl, rfl, rfl, rfl⟩, rfl, rfl, Flooding.Plain.refl _⟩,
    rfl, rfl, rfl⟩

/-- The node has applied the delta once and passes it on to all but one
neighbour. -/
structure Learns (d : Delta) (skipped : NodeId) (n n' : Node) :
    Prop extends Still n n' where
  version : n'.version = d.target
  applied : n'.applied = n.applied + 1
  outgoing : n'.outgoing = n.outgoing ++
    (n.flooding.passOn d n.links skipped).map (Outgoing.ofOutbound n.id)

theorem Learns.calm {skipped : NodeId} (h : Learns d skipped n k) {k' : Node}
    (hcalm : Calm k k') : Learns d skipped n k' :=
  ⟨h.toStill.trans hcalm.toStill, hcalm.version.trans h.version,
    hcalm.applied.trans h.applied, hcalm.outgoing.trans h.outgoing⟩

theorem Calm.learns {skipped : NodeId} (h : Calm n k) {k' : Node}
    (hlearns : Learns d skipped k k') : Learns d skipped n k' := by
  refine ⟨h.toStill.trans hlearns.toStill, hlearns.version, ?_, ?_⟩
  · rw [hlearns.applied, h.applied]
  · rw [hlearns.outgoing, h.outgoing, h.links, h.alike.id, Flooding.passOn,
      Flooding.passOn, h.alike.flooding]

/-! ## Frames that come in -/

/-- A frame about the delta is nothing new to a node that holds it, and nothing
at all if its sender is not admissible. -/
theorem calm_handle {frame : Frame} (hmessage : frame.message = .delta d)
    (hknown : n.isAdmissible frame.sender = true → n.version = d.target) :
    Calm n (n.handle frame) := by
  have hcounted : ∀ tally, n.flooding.receive frame n.replica n.links =
      ⟨[], n.replica, { n.flooding with tally }⟩ →
      Flooding.Plain n.flooding { n.flooding with tally } →
      tally.deltasApplied = n.flooding.tally.deltasApplied →
      Calm n (n.handle frame) := by
    intro tally hreceive hplain happlied
    have hhandle : n.handle frame =
        { n with flooding := { n.flooding with tally } } := by
      rw [handle, hreceive]
      simp [enqueue]
    rw [hhandle]
    exact ⟨⟨⟨rfl, rfl, rfl, rfl, rfl, rfl, rfl, rfl⟩, rfl, rfl, hplain⟩,
      rfl, happlied, rfl⟩
  cases hadm : n.links.isAdmissible frame.sender with
  | false =>
      exact hcounted _ (Flooding.receive_of_not_admissible hadm)
        ⟨rfl, rfl, rfl⟩ rfl
  | true =>
      exact hcounted _ (Flooding.receive_of_known hadm hmessage
        (hknown hadm).symm) ⟨rfl, rfl, rfl⟩
        rfl

theorem calm_foldl_handle {frames : List Frame}
    (hmessage : ∀ frame ∈ frames, frame.message = .delta d)
    (hknown : ∀ frame ∈ frames, n.isAdmissible frame.sender = true →
      n.version = d.target) : Calm n (frames.foldl handle n) := by
  induction frames generalizing n with
  | nil => exact Calm.refl n
  | cons frame frames ih =>
      obtain ⟨hfirst, hrest⟩ := List.forall_mem_cons.1 hmessage
      have hone := calm_handle hfirst (hknown frame List.mem_cons_self)
      refine hone.trans (ih hrest fun next hnext hadm => ?_)
      rw [hone.version]
      rw [isAdmissible, hone.links] at hadm
      exact hknown next (List.mem_cons_of_mem _ hnext) hadm

/-- A node for which the delta is the next one, with room to pass it on. -/
structure Awaits (n : Node) (d : Delta) : Prop where
  started : n.started = true
  authority : n.replica.authority = false
  base : d.base = n.version
  advances : d.base < d.target
  room : n.outgoing.length + n.links.neighbours.size ≤ n.settings.maxOutbound

theorem Awaits.of_calm (h : n.Awaits d) (hcalm : Calm n k) : k.Awaits d where
  started := hcalm.started.trans h.started
  authority := hcalm.alike.authority.trans h.authority
  base := h.base.trans hcalm.version.symm
  advances := h.advances
  room := by
    rw [hcalm.outgoing, hcalm.links, hcalm.alike.settings]
    exact h.room

theorem Awaits.learns_handle (h : n.Awaits d) {frame : Frame}
    (hmessage : frame.message = .delta d)
    (hadm : n.isAdmissible frame.sender = true) :
    Learns d frame.sender n (n.handle frame) := by
  have hlt : n.replica.version < d.target :=
    lt_of_eq_of_lt h.base.symm h.advances
  have hout := Flooding.length_passOn_le n.flooding d n.links frame.sender
  have hroom := h.room
  obtain ⟨hplain, happlied⟩ := Flooding.plain_recordSent
    (f := { n.flooding with tally := { n.flooding.tally with
      deltasApplied := n.flooding.tally.deltasApplied + 1 } })
    (Flooding.message_of_mem_passOn n.flooding d n.links frame.sender)
  obtain ⟨tally, hqueue⟩ := enqueue_of_room
    (n := { n with
      replica := n.replica.commit (d.apply n.replica.data) d
      flooding := ({ n.flooding with tally := { n.flooding.tally with
        deltasApplied := n.flooding.tally.deltasApplied + 1 } } :
          Flooding).recordSent
          (n.flooding.passOn d n.links frame.sender) })
    (n.flooding.passOn d n.links frame.sender) h.started
    (show n.outgoing.length + _ ≤ n.settings.maxOutbound by omega)
  rw [handle,
    Flooding.receive_of_next hadm hmessage h.authority hlt h.base, hqueue]
  exact ⟨⟨⟨rfl, rfl, rfl, rfl, rfl, rfl, rfl, rfl⟩, rfl, rfl,
    ⟨hplain.requested, hplain.served, hplain.repairs⟩⟩, rfl, happlied, rfl⟩

/-- Of several frames about the delta the first one of an admissible
neighbour is applied. -/
theorem Awaits.learns_foldl_handle (h : n.Awaits d) {frames : List Frame}
    (hmessage : ∀ frame ∈ frames, frame.message = .delta d)
    (hheard : ∃ frame ∈ frames, n.isAdmissible frame.sender = true) :
    ∃ frame ∈ frames, n.isAdmissible frame.sender = true ∧
      Learns d frame.sender n (frames.foldl handle n) := by
  induction frames generalizing n with
  | nil =>
      obtain ⟨frame, hframe, -⟩ := hheard
      cases hframe
  | cons frame frames ih =>
      obtain ⟨hfirst, hrest⟩ := List.forall_mem_cons.1 hmessage
      cases hadm : n.isAdmissible frame.sender with
      | true =>
          have hlearns := h.learns_handle hfirst hadm
          refine ⟨frame, List.mem_cons_self, hadm, hlearns.calm ?_⟩
          exact calm_foldl_handle hrest fun _ _ _ => hlearns.version
      | false =>
          have hcalm : Calm n (n.handle frame) :=
            calm_handle hfirst fun hyes =>
              absurd (hadm.symm.trans hyes) (by simp)
          have hsame : ∀ b,
              (n.handle frame).isAdmissible b = n.isAdmissible b := fun b => by
            rw [isAdmissible, hcalm.links]
            rfl
          obtain ⟨next, hnext, hadmNext⟩ := hheard
          have hlater : next ∈ frames := by
            rcases List.mem_cons.1 hnext with rfl | hlater
            · rw [hadm] at hadmNext
              cases hadmNext
            · exact hlater
          obtain ⟨first, hmem, hadmFirst, hlearns⟩ := ih (h.of_calm hcalm) hrest
            ⟨next, hlater, (hsame _).trans hadmNext⟩
          exact ⟨first, List.mem_cons_of_mem _ hmem,
            (hsame _).symm.trans hadmFirst, hcalm.learns hlearns⟩

/-! ## Ticks -/

theorem calm_begun (n : Node) (now : Nat) : Calm n (n.begun now) :=
  n.calm_of_private now n.pool [] _

theorem incoming_followNotices (n : Node) :
    n.followNotices.incoming = n.incoming := by
  obtain ⟨addresses, tally, hfollow, -, -⟩ := followNotices_spec n
  rw [hfollow]
  rfl

theorem calm_followNotices (n : Node) : Calm n n.followNotices := by
  obtain ⟨addresses, tally, hfollow, -, -⟩ := followNotices_spec n
  refine ⟨⟨alike_followNotices n, ?_, ?_, ?_⟩, ?_, ?_, ?_⟩ <;> rw [hfollow]
  exacts [rfl, rfl, Flooding.Plain.refl _, rfl, rfl, rfl]

/-- What a tick does after the frames have been handled, nobody else hears
of. -/
theorem calm_handled_tick (n : Node) (now : Nat) :
    Calm (n.handled now) (n.tick now) := by
  rw [tick_eq]
  refine Calm.trans ?_ (calm_followNotices _)
  split
  · exact calm_of_private _ _ _ _ _
  · exact Calm.refl _

/-- A node to which the delta is nothing new stays calm. -/
theorem calm_tick (now : Nat)
    (hmessage : ∀ frame ∈ n.incoming, frame.message = .delta d)
    (hknown : ∀ frame ∈ n.incoming, n.isAdmissible frame.sender = true →
      n.version = d.target) : Calm n (n.tick now) :=
  ((calm_begun n now).trans
    (calm_foldl_handle (n := n.begun now) hmessage hknown)).trans
    (calm_handled_tick n now)

/-- A node that awaits the delta learns it in the tick after it came in. -/
theorem Awaits.learns_tick (h : n.Awaits d) (now : Nat)
    (hmessage : ∀ frame ∈ n.incoming, frame.message = .delta d)
    (hheard : ∃ frame ∈ n.incoming, n.isAdmissible frame.sender = true) :
    ∃ frame ∈ n.incoming, n.isAdmissible frame.sender = true ∧
      Learns d frame.sender n (n.tick now) := by
  have hbegun := calm_begun n now
  obtain ⟨frame, hmem, hadm, hlearns⟩ :=
    (h.of_calm hbegun).learns_foldl_handle hmessage hheard
  exact ⟨frame, hmem, hadm,
    (hbegun.learns hlearns).calm (calm_handled_tick n now)⟩

/-! ## Frames that are queued -/

/-- The frames among bytes that have come in. -/
def readable (bss : List (List UInt8)) : List Frame :=
  bss.filterMap fun bytes => (Frame.parse bytes).toOption

def receivedAll (n : Node) (bss : List (List UInt8)) : Node :=
  bss.foldl (fun n bytes => n.after (.queueBytes bytes)) n

theorem calm_queueFrame (n : Node) (frame : Frame) :
    Calm n (n.queueFrame frame).2 := by
  rw [queueFrame]
  split
  · exact n.calm_of_private n.now n.pool n.incoming _
  · exact n.calm_of_private n.now n.pool _ _

theorem calm_queueBytes (n : Node) (bytes : List UInt8) :
    Calm n (n.queueBytes bytes).2 := by
  rw [queueBytes]
  split
  · exact n.calm_queueFrame _
  · exact n.calm_of_private n.now n.pool n.incoming _

theorem calm_receivedAll (n : Node) (bss : List (List UInt8)) :
    Calm n (n.receivedAll bss) := by
  induction bss generalizing n with
  | nil => exact Calm.refl n
  | cons bytes bss ih => exact (calm_queueBytes n bytes).trans (ih _)

theorem incoming_receivedAll_of_detached {bss : List (List UInt8)}
    (hstarted : n.started = false) :
    (n.receivedAll bss).incoming = n.incoming := by
  induction bss generalizing n with
  | nil => rfl
  | cons bytes bss ih =>
      have hone : (n.after (.queueBytes bytes)).incoming = n.incoming := by
        rw [after, queueBytes]
        split
        · rw [queueFrame, if_pos (by simp [hstarted])]
        · rfl
      refine (ih (n := n.after (.queueBytes bytes)) ?_).trans hone
      exact (calm_queueBytes n bytes).started.trans hstarted

/-- A queue with room for all frames takes all of them. -/
theorem incoming_receivedAll {bss : List (List UInt8)}
    (hstarted : n.started = true)
    (hroom : n.incoming.length + bss.length ≤ n.settings.maxInbound) :
    (n.receivedAll bss).incoming = n.incoming ++ readable bss := by
  induction bss generalizing n with
  | nil => exact (List.append_nil _).symm
  | cons bytes bss ih =>
      rw [List.length_cons] at hroom
      have hcalm : Calm n (n.after (.queueBytes bytes)) :=
        calm_queueBytes n bytes
      have hone : (n.after (.queueBytes bytes)).incoming =
          n.incoming ++ readable [bytes] := by
        rw [after, queueBytes, readable, List.filterMap_cons,
          List.filterMap_nil]
        cases Frame.parse bytes with
        | ok frame =>
            simp only [Except.toOption, queueFrame]
            rw [if_neg (by simp [hstarted]; omega)]
        | error fault => exact (List.append_nil _).symm
      have hlength : (readable [bytes]).length ≤ 1 :=
        List.length_filterMap_le _ _
      have hrest := ih (n := n.after (.queueBytes bytes))
        (hcalm.started.trans hstarted) (by
        rw [hone, List.length_append, hcalm.alike.settings]
        omega)
      refine hrest.trans ?_
      rw [hone, List.append_assoc, readable, readable, readable,
        ← List.filterMap_append]
      rfl

/-! ## The edit -/

/-- An edit that raises the version is pushed to every admissible neighbour. -/
structure Breaks (n n' : Node) : Prop extends Still n n' where
  applied : n'.applied = n.applied
  incoming : n'.incoming = n.incoming
  outgoing : n'.outgoing = n.outgoing ++
    (Flooding.fanOut (Delta.between n.data n'.data) n.links none).map
      (Outgoing.ofOutbound n.id)

theorem announced_of_room (hlast : n.replica.lastDelta = some d)
    (htarget : d.target = n.version) (hstarted : n.started = true)
    (hroom : n.outgoing.length + n.links.neighbours.size ≤
      n.settings.maxOutbound) :
    ∃ tally, n.announced = n.queued (Flooding.fanOut d n.links none)
      (n.flooding.recordSent (Flooding.fanOut d n.links none)) tally := by
  have hout := Flooding.length_fanOut_le d n.links none
  rw [announced,
    Flooding.announce_of_lastDelta n.flooding n.links hlast htarget]
  exact enqueue_of_room
    (n := { n with
      flooding := n.flooding.recordSent (Flooding.fanOut d n.links none) })
    (Flooding.fanOut d n.links none) hstarted
    (show n.outgoing.length + _ ≤ n.settings.maxOutbound by omega)

/-- An edit that counts up starts a push, if the queue has room for all
neighbours. -/
theorem breaks_usePress {act : Press → Except Fault Version × Press}
    (hturn : ∀ p, Press.Turned p (act p).1 (act p).2)
    (hlt : n.version < (n.usePress act).2.version) (hstarted : n.started = true)
    (hroom : n.outgoing.length + n.links.neighbours.size ≤
      n.settings.maxOutbound) : Breaks n (n.usePress act).2 := by
  rcases hp : act (n.expirePool n.now).press with ⟨answer, p⟩
  rcases n.usePress_cases act hturn (congrArg Prod.snd hp) with
    ⟨-, heq | heq⟩ | ⟨edited, hadvance, -, -, heq⟩
  · rw [heq] at hlt
    exact absurd hlt (lt_irrefl _)
  · rw [heq, (calm_followNotices _).version] at hlt
    exact absurd hlt (lt_irrefl _)
  · have hadvance : p.replica = n.replica.advance edited := hadvance
    let x :=
      ({ n with replica := p.replica, pool := p.pool } : Node).followNotices
    let d := Delta.between n.data { edited with version := n.version.next }
    have hreplica : x.replica = p.replica.takeNotices.2 := (followed_fields _).1
    have hcalm : Calm { n with replica := p.replica, pool := p.pool } x :=
      calm_followNotices _
    have hdata : x.data = { edited with version := n.version.next } := by
      rw [data, hreplica, hadvance]
      rfl
    have hrises : n.version < n.version.next := by
      by_contra hnot
      rw [heq, if_neg hnot] at hlt
      exact hnot (lt_of_lt_of_eq hlt (congrArg NetworkData.version hdata))
    obtain ⟨tally, hqueue⟩ := announced_of_room (n := x) (d := d)
      (by rw [hreplica, hadvance]; rfl)
        (congrArg NetworkData.version hdata).symm
      (hcalm.started.trans hstarted)
      (by rw [hcalm.outgoing, hcalm.links, hcalm.alike.settings]; exact hroom)
    obtain ⟨hplain, happlied⟩ := Flooding.plain_recordSent (f := x.flooding)
      (Flooding.message_of_mem_fanOut d x.links none)
    rw [if_pos hrises, hqueue] at heq
    have hbetween : Delta.between n.data (n.usePress act).2.data = d := by
      rw [heq]
      exact congrArg (Delta.between n.data) hdata
    have hused := used_usePress n act hturn
    refine ⟨⟨alike_used hused, links_used hused, ?_, ?_⟩, ?_, ?_, ?_⟩
    · rw [heq]
      exact hcalm.started
    · rw [heq]
      exact hcalm.plain.trans hplain
    · rw [heq]
      exact happlied.trans hcalm.applied
    · rw [heq]
      exact incoming_followNotices _
    · rw [hbetween, heq, queued, hcalm.outgoing, hcalm.links, hcalm.alike.id]

/-- An edit of an attached node that raises the version reaches all its
admissible neighbours. -/
theorem breaks_after {c : Call} (hedit : c.isEdit = true)
    (hlt : n.version < (n.after c).version) (hstarted : n.started = true)
    (hroom : n.outgoing.length + n.links.neighbours.size ≤
      n.settings.maxOutbound) : Breaks n (n.after c) := by
  cases c with
  | addPrefix net flags =>
      exact breaks_usePress
        (fun p => Press.turned_publish p net flags) hlt hstarted hroom
  | removePrefix net =>
      exact breaks_usePress
        (fun p => Press.turned_withdraw p net) hlt hstarted hroom
  | _ => cases hedit

end Node

end OnMesh
