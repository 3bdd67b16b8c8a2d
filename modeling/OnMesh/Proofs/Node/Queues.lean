import OnMesh.Node
import OnMesh.Proofs.Flooding

/-!
# The queues of a node

What is put into the queue of frames to be sent is, in order, a part of what was
to be sent: all of it as long as the queue does not fill up, and nothing while
the node is detached.  `Enqueued` says so once for every call; it composes.
Popping takes frames from the front and loses those whose neighbour is no longer
admissible.
-/

namespace OnMesh

open Wire (Frame Message)

/-- A message as a node puts it on the link. -/
def Outgoing.ofOutbound (sender : NodeId) (o : Outbound) : Outgoing :=
  ⟨o.to, Frame.make sender o.message⟩

namespace Node

/-- The part of the messages to be sent that finds its way into the queue. -/
structure Enqueued (n : Node) (out kept : List Outbound) : Prop where
  sublist : kept.Sublist out
  detached : n.started = false → kept = []
  whole : n.started = true →
    n.outgoing.length + kept.length < n.settings.maxOutbound → kept = out

theorem Enqueued.nil (n : Node) : Enqueued n [] [] :=
  ⟨List.Sublist.refl _, fun _ => rfl, fun _ _ => rfl⟩

/-- A queue with room for all messages takes all of them. -/
theorem Enqueued.of_room {n : Node} {out kept : List Outbound}
    (h : Enqueued n out kept) (hstarted : n.started = true)
    (hroom : n.outgoing.length + out.length ≤ n.settings.maxOutbound) :
    kept = out := by
  rcases Nat.lt_or_eq_of_le h.sublist.length_le with hlt | heq
  · exact h.whole hstarted (by omega)
  · exact h.sublist.eq_of_length heq

/-- The node with more messages in its queue. -/
def queued (n : Node) (kept : List Outbound) (flooding : Flooding)
    (tally : Tally) : Node :=
  { n with
    flooding
    outgoing := n.outgoing ++ kept.map (Outgoing.ofOutbound n.id)
    tally }

theorem queued_nil (n : Node) : n.queued [] n.flooding n.tally = n := by
  simp [queued]

theorem queued_queued (n : Node) (first second : List Outbound) (f g : Flooding)
    (t u : Tally) :
    (n.queued first f t).queued second g u =
      n.queued (first ++ second) g u := by
  simp [queued]

theorem Enqueued.append {n : Node} {out kept more keptMore : List Outbound}
    {f : Flooding} {t : Tally} (h : Enqueued n out kept)
    (hmore : Enqueued (n.queued kept f t) more keptMore) :
    Enqueued n (out ++ more) (kept ++ keptMore) := by
  refine ⟨h.sublist.append hmore.sublist, fun hdetached => ?_,
    fun hstarted hroom => ?_⟩
  · rw [h.detached hdetached, hmore.detached hdetached, List.append_nil]
  · have hlength : (n.queued kept f t).outgoing.length =
        n.outgoing.length + kept.length := by
      simp [queued]
    rw [List.length_append] at hroom
    rw [h.whole hstarted (by omega), hmore.whole hstarted (by
      rw [hlength]
      show _ < n.settings.maxOutbound
      omega)]

/-- The length of the queue tells whether something was lost. -/
theorem enqueueOne_spec (n : Node) (o : Outbound)
    (hstarted : n.started = true) :
    ∃ kept tally, Enqueued n [o] kept ∧
    n.enqueueOne o = n.queued kept n.flooding tally := by
  by_cases hfull : n.settings.maxOutbound ≤ n.outgoing.length
  · refine ⟨[], n.tally,
      ⟨List.nil_sublist _, fun _ => rfl, fun _ hroom => ?_⟩, ?_⟩
    · rw [List.length_nil] at hroom
      omega
    · rw [enqueueOne, if_pos hfull, queued_nil]
  · refine ⟨[o], _, ⟨List.Sublist.refl _, fun hdetached => ?_, fun _ _ => rfl⟩,
      if_neg hfull⟩
    rw [hstarted] at hdetached
    cases hdetached

theorem foldl_enqueueOne_spec (n : Node) (out : List Outbound)
    (hstarted : n.started = true) :
    ∃ kept tally, Enqueued n out kept ∧
      out.foldl enqueueOne n = n.queued kept n.flooding tally := by
  induction out generalizing n with
  | nil => exact ⟨[], n.tally, Enqueued.nil n, (queued_nil n).symm⟩
  | cons o out ih =>
      obtain ⟨kept, tally, henq, hone⟩ := enqueueOne_spec n o hstarted
      obtain ⟨keptMore, tallyMore, hmore, hrest⟩ :=
        ih (n.queued kept n.flooding tally) hstarted
      refine ⟨kept ++ keptMore, tallyMore, henq.append hmore, ?_⟩
      rw [List.foldl_cons, hone, hrest, queued_queued]
      rfl

theorem enqueue_spec (n : Node) (out : List Outbound) :
    ∃ kept tally, Enqueued n out kept ∧
    n.enqueue out = n.queued kept n.flooding tally := by
  cases hstarted : n.started with
  | true =>
      obtain ⟨kept, tally, henq, hfold⟩ := foldl_enqueueOne_spec n out hstarted
      refine ⟨kept, tally, henq, ?_⟩
      rw [enqueue, hstarted]
      exact hfold
  | false =>
      refine ⟨[], n.tally, ⟨List.nil_sublist _, fun _ => rfl, ?_⟩, ?_⟩
      · rw [hstarted]
        intro h
        cases h
      · rw [enqueue, hstarted, queued_nil]
        rfl

/-! ## Popping -/

/-- The frames that can be sent, in order: their neighbours are still
admissible. -/
def sendable (n : Node) : List Outgoing :=
  n.outgoing.filter fun o => n.isAdmissible o.to

def left (n : Node) (rest : List Outgoing) (tally : Tally) : Node :=
  { n with outgoing := rest, tally }

/-- Popping skips the frames for inadmissible neighbours in front of the first
other one. -/
theorem popFrom_spec (n : Node) (os : List Outgoing) :
    (∃ tally, n.popFrom os = (none, n.left [] tally) ∧
      ∀ o ∈ os, n.isAdmissible o.to = false) ∨
    ∃ lost o rest tally, n.popFrom os = (some o, n.left rest tally) ∧
    os = lost ++ o :: rest ∧
      n.isAdmissible o.to = true ∧ ∀ o ∈ lost, n.isAdmissible o.to = false := by
  induction os generalizing n with
  | nil => exact Or.inl ⟨n.tally, rfl, by simp⟩
  | cons o os ih =>
      cases hadm : n.isAdmissible o.to with
      | true =>
          right
          refine ⟨[], o, os,
            { n.tally with outgoingPopped := n.tally.outgoingPopped + 1 }, ?_,
            rfl, hadm, by simp⟩
          rw [popFrom, if_pos hadm]
          rfl
      | false =>
          have hskip : n.popFrom (o :: os) = n.countSuppressed.popFrom os := by
            rw [popFrom, hadm]
            rfl
          rw [hskip]
          rcases ih n.countSuppressed with
            ⟨tally, hpop, hlost⟩ | ⟨lost, p, rest, tally, hpop,
              hsplit, hp, hlost⟩
          · exact Or.inl ⟨tally, hpop, List.forall_mem_cons.2 ⟨hadm, hlost⟩⟩
          · right
            refine ⟨o :: lost, p, rest, tally, hpop, ?_, hp,
              List.forall_mem_cons.2 ⟨hadm, hlost⟩⟩
            rw [hsplit, List.cons_append]

/-- With a bound above the length of the queue, everything that can be sent is
popped. -/
theorem popUpTo_spec (bound : Nat) (n : Node)
    (hbound : n.outgoing.length < bound) :
    ∃ tally, popUpTo bound n = (n.sendable, n.left [] tally) := by
  induction bound generalizing n with
  | zero => omega
  | succ bound ih =>
      rcases popFrom_spec n n.outgoing with
        ⟨tally, hpop, hlost⟩ | ⟨lost, o, rest, tally, hpop, hsplit, ho, hlost⟩
      · refine ⟨tally, ?_⟩
        have hnone : n.sendable = [] := by
          rw [sendable, List.filter_eq_nil_iff]
          intro o ho
          simp [hlost o ho]
        rw [popUpTo, pop, hpop, hnone]
      · have hlength : (n.left rest tally).outgoing.length < bound := by
          rw [hsplit, List.length_append, List.length_cons] at hbound
          show rest.length < bound
          omega
        obtain ⟨tallyRest, hrest⟩ := ih (n.left rest tally) hlength
        refine ⟨tallyRest, ?_⟩
        have hlostNil : (lost.filter fun o => n.isAdmissible o.to) = [] := by
          rw [List.filter_eq_nil_iff]
          intro p hp
          simp [hlost p hp]
        have hsome : n.sendable = o :: (n.left rest tally).sendable := by
          rw [sendable, hsplit, List.filter_append, hlostNil, List.nil_append]
          exact List.filter_cons_of_pos ho
        rw [popUpTo, pop, hpop]
        simp only [hrest]
        rw [hsome]
        rfl

/-- Popping everything hands out all frames that can be sent and empties the
queue. -/
theorem popAll_spec (n : Node) :
    ∃ tally, n.popAll = (n.sendable, n.left [] tally) :=
  popUpTo_spec _ n (Nat.lt_succ_self _)

end Node

end OnMesh
