import OnMesh.Proofs.Node.Queues
import OnMesh.Proofs.Press

/-!
# Calls on a node

`Node.Call` lists what can be asked of a node, and each call has one lemma that
says what it does to the node.  Frames and greetings only ever add to the queue
of frames to be sent, and following the notices touches neither the data nor the
queues.
-/

namespace OnMesh

open Wire (Frame Message)

namespace Node

inductive Call where
  | start
  | detach
  | addNeighbour (neighbour : NodeId)
  | removeNeighbour (neighbour : NodeId)
  | setAdmissible (neighbour : NodeId) (admissible : Bool)
  | tick (now : Nat)
  | pop
  | addPrefix (net : Prefix) (flags : Flags)
  | removePrefix (net : Prefix)
  | queueFrame (frame : Frame)
  | queueBytes (bytes : List UInt8)

def after (n : Node) : Call → Node
  | .start => n.start
  | .detach => n.detach
  | .addNeighbour neighbour => n.addNeighbour neighbour
  | .removeNeighbour neighbour => (n.removeNeighbour neighbour).2
  | .setAdmissible neighbour admissible =>
    (n.setAdmissible neighbour admissible).2
  | .tick now => n.tick now
  | .pop => n.pop.2
  | .addPrefix net flags => (n.addPrefix net flags).2
  | .removePrefix net => (n.removePrefix net).2
  | .queueFrame frame => (n.queueFrame frame).2
  | .queueBytes bytes => (n.queueBytes bytes).2

/-- The call attaches the node, or changes what it knows of a
neighbour that it keeps. -/
def Call.isSetup : Call → Bool
  | .start => true
  | .addNeighbour _ => true
  | .setAdmissible .. => true
  | _ => false

def emitted (n : Node) : Call → Option Outgoing
  | .pop => n.pop.1
  | _ => none

/-- What every call keeps is kept by any number of calls. -/
theorem foldl_after {P : Node → Prop} {n : Node} (h : P n)
    (hafter : ∀ m c, P m → P (m.after c)) (calls : List Call) :
    P (calls.foldl after n) := by
  induction calls generalizing n with
  | nil => exact h
  | cons c calls ih => exact ih (hafter n c h)

/-- A quantity that no step of a fold changes is the same after it. -/
theorem foldl_same {α β : Type} {f : Node → α} {g : Node → β → Node}
    (h : ∀ n b, f (g n b) = f n) (bs : List β) (n : Node) :
    f (bs.foldl g n) = f n := by
  induction bs generalizing n with
  | nil => rfl
  | cons b bs ih => exact (ih (g n b)).trans (h n b)

/-- Popping all frames is popping one after the other. -/
theorem popAll_keeps {P : Node → Prop} (hpop : ∀ m, P m → P (m.after .pop))
    {n : Node} (h : P n) : P n.popAll.2 := by
  have hbound : ∀ (bound : Nat) (n : Node), P n → P (popUpTo bound n).2 := by
    intro bound
    induction bound with
    | zero => exact fun _ h => h
    | succ bound ih =>
        intro n h
        have hone := hpop n h
        rw [after] at hone
        rw [popUpTo]
        rcases hn : n.pop with ⟨_ | o, n'⟩
        · rw [hn] at hone
          exact hone
        · rw [hn] at hone
          exact ih n' hone
  exact hbound _ n h

/-! ## Frames and greetings -/

/-- The messages for those of the given neighbours that are admissible. -/
def greetings (n : Node) (neighbours : List NodeId) : List Outbound :=
  (neighbours.filter n.isAdmissible).map fun b =>
    ⟨b, Flooding.greeting n.replica⟩

/-- Greeting a neighbour queues messages for it, as many as there is room
for. -/
theorem greet_spec (n : Node) (neighbour : NodeId) :
    ∃ kept flooding tally, Enqueued n (n.greetings [neighbour]) kept ∧
      flooding.role = n.flooding.role ∧
      n.greet neighbour = n.queued kept flooding tally := by
  cases hadm : n.links.isAdmissible neighbour with
  | true =>
      have hgreetings : n.greetings [neighbour] =
          [⟨neighbour, Flooding.greeting n.replica⟩] := by
        simp [greetings, isAdmissible, hadm]
      obtain ⟨kept, tally, henq, hqueue⟩ :=
        enqueue_spec { n with flooding :=
          n.flooding.recordSent [⟨neighbour, Flooding.greeting n.replica⟩] }
          [⟨neighbour, Flooding.greeting n.replica⟩]
      refine ⟨kept, n.flooding.recordSent
        [⟨neighbour, Flooding.greeting n.replica⟩], tally, ?_, rfl, ?_⟩
      · rw [hgreetings]
        exact ⟨henq.sublist, henq.detached, henq.whole⟩
      · rw [greet, Flooding.greet_of_admissible _ _ hadm]
        exact hqueue
  | false =>
      have hgreetings : n.greetings [neighbour] = [] := by
        simp [greetings, isAdmissible, hadm]
      refine ⟨[], n.flooding, n.tally, ?_, rfl, ?_⟩
      · rw [hgreetings]
        exact Enqueued.nil n
      · rw [greet, Flooding.greet_of_not_admissible _ _ hadm, queued_nil]
        simp [enqueue]

theorem foldl_greet_spec (n : Node) (neighbours : List NodeId) :
    ∃ kept flooding tally, Enqueued n (n.greetings neighbours) kept ∧
      flooding.role = n.flooding.role ∧
      neighbours.foldl greet n = n.queued kept flooding tally := by
  induction neighbours generalizing n with
  | nil =>
      exact ⟨[], n.flooding, n.tally, Enqueued.nil n, rfl, (queued_nil n).symm⟩
  | cons b neighbours ih =>
      obtain ⟨kept, flooding, tally, henq, hrole, hgreet⟩ := greet_spec n b
      obtain ⟨keptMore, floodingMore, tallyMore, hmore, hroleMore, hrest⟩ :=
        ih (n.queued kept flooding tally)
      refine ⟨kept ++ keptMore, floodingMore, tallyMore, ?_,
        hroleMore.trans hrole, ?_⟩
      · have hsplit : n.greetings (b :: neighbours) =
            n.greetings [b] ++ n.greetings neighbours := by
          rw [greetings, greetings, greetings, ← List.map_append,
            ← List.filter_append]
          rfl
        rw [hsplit]
        exact henq.append hmore
      · rw [List.foldl_cons, hgreet, hrest, queued_queued]

theorem start_of_started {n : Node} (h : n.started = true) : n.start = n := by
  rw [start, h]
  rfl

/-- A detached node that starts greets every admissible neighbour. -/
theorem start_spec {n : Node} (h : n.started = false) :
    ∃ kept flooding tally,
      Enqueued { n with
        started := true } (n.greetings n.links.admissible) kept ∧
      flooding.role = n.flooding.role ∧
      n.start = ({ n with started := true }).queued kept flooding tally := by
  have hstart : n.start =
      n.links.admissible.foldl greet { n with started := true } := by
    rw [start, h]
    rfl
  rw [hstart]
  exact foldl_greet_spec _ _

/-- One frame adds what it leads to. -/
theorem handle_spec (n : Node) (frame : Frame) :
    ∃ out replica kept flooding tally,
      Flooding.Received n.flooding frame n.replica n.links out replica ∧
      Enqueued n out kept ∧ flooding.role = n.flooding.role ∧
      n.handle frame = ({ n with replica }).queued kept flooding tally := by
  obtain ⟨kept, tally, henq, hqueue⟩ :=
    enqueue_spec { n with
      replica := (n.flooding.receive frame n.replica n.links).replica
      flooding := (n.flooding.receive frame n.replica n.links).flooding }
      (n.flooding.receive frame n.replica n.links).out
  exact ⟨_, _, kept, _, tally,
    Flooding.received_receive n.flooding frame n.replica n.links,
    ⟨henq.sublist, henq.detached, henq.whole⟩,
    Flooding.role_receive _ _ _ _, hqueue⟩

/-! ## Following the data -/

/-- The node after the notices have been handed on. -/
def followed (n : Node) (addresses : AddressBook) (tally : Tally) : Node :=
  { n with
    replica := n.replica.takeNotices.2
    pool := if n.role.canPublish then
      n.replica.notices.foldl ContextPool.observe n.pool
      else n.pool
    addresses
    tally }

theorem followNotices_spec (n : Node) :
    ∃ addresses tally, n.followNotices = n.followed addresses tally ∧
      (n.replica.notices = [] → addresses = n.addresses) ∧
      (n.replica.notices ≠ [] →
        addresses = (n.addresses.reconcile n.data).2) := by
  cases hnotices : n.replica.notices with
  | nil =>
      refine ⟨n.addresses, n.tally, ?_, fun _ => rfl, fun h => absurd rfl h⟩
      rw [followNotices, followed]
      simp [Replica.takeNotices, hnotices]
  | cons notice notices =>
      let report := (n.addresses.reconcile n.data).1
      refine ⟨(n.addresses.reconcile n.data).2, { n.tally with
          addressesAdded := n.tally.addressesAdded + report.added.length
          addressesRemoved :=
            n.tally.addressesRemoved + report.removed.length }, ?_,
        fun h => (by cases h), fun _ => rfl⟩
      rw [followNotices, followed]
      simp only [Replica.takeNotices, hnotices, List.isEmpty_cons,
        Bool.false_eq_true, if_false]
      rfl

theorem followed_fields (n : Node) :
    n.followNotices.replica = n.replica.takeNotices.2 ∧
    n.followNotices.links = n.links ∧
      n.followNotices.flooding = n.flooding ∧
      n.followNotices.started = n.started ∧
      n.followNotices.settings = n.settings ∧
      n.followNotices.outgoing = n.outgoing := by
  obtain ⟨addresses, tally, hfollow, -, -⟩ := followNotices_spec n
  rw [hfollow]
  exact ⟨rfl, rfl, rfl, rfl, rfl, rfl⟩

/-- The node once the frames that wait have been handled. -/
def handled (n : Node) (now : Nat) : Node :=
  n.incoming.foldl handle { n with
    now
    incoming := []
    tally := { n.tally with ticks := n.tally.ticks + 1 } }

/-- The node at the start of a tick, when it has taken the frames out of its
queue. -/
def begun (n : Node) (now : Nat) : Node :=
  { n with
    now
    incoming := []
    tally := { n.tally with ticks := n.tally.ticks + 1 } }

theorem handled_eq (n : Node) (now : Nat) :
    n.handled now = n.incoming.foldl handle (n.begun now) := rfl

theorem tick_eq (n : Node) (now : Nat) :
    n.tick now = (if (n.handled now).role.canPublish then
      (n.handled now).expirePool now
      else n.handled now).followNotices :=
  rfl

theorem incoming_handle (n : Node) (frame : Frame) :
    (n.handle frame).incoming = n.incoming := by
  obtain ⟨out, replica, kept, flooding, tally, -, -, -, heq⟩ :=
    handle_spec n frame
  rw [heq]
  rfl

theorem incoming_foldl_handle (n : Node) (frames : List Frame) :
    (frames.foldl handle n).incoming = n.incoming :=
  foldl_same incoming_handle frames n

/-- A tick handles all frames that wait. -/
theorem tick_fields (n : Node) (now : Nat) :
    (n.tick now).incoming = [] ∧
    (n.tick now).outgoing = (n.handled now).outgoing ∧
      (n.tick now).version = (n.handled now).version := by
  have hincoming : (n.handled now).incoming = [] := by
    rw [handled, incoming_foldl_handle]
  rw [tick_eq, version, (followed_fields _).1, (followed_fields _).2.2.2.2.2]
  obtain ⟨addresses, tally, hfollow, -, -⟩ := followNotices_spec
    (if (n.handled now).role.canPublish then (n.handled now).expirePool now
      else n.handled now)
  rw [hfollow]
  split
  · exact ⟨hincoming, rfl, rfl⟩
  · exact ⟨hincoming, rfl, rfl⟩

/-! ## Links -/

/-- A neighbour that becomes admissible is greeted, if the node is attached. -/
theorem setAdmissible_spec (n : Node) (b : NodeId) (admissible : Bool) :
    ∃ kept flooding tally,
      Enqueued { n with links := (n.links.setAdmissible b admissible).2 }
        (if n.started = true ∧ n.isAdmissible b = false ∧
            (n.links.setAdmissible b admissible).2.isAdmissible b = true then
          [⟨b, Flooding.greeting n.replica⟩] else []) kept ∧
      flooding.role = n.flooding.role ∧
      (n.setAdmissible b admissible).2 =
        ({ n with links := (n.links.setAdmissible b admissible).2 }).queued kept
          flooding tally := by
  have hiff := Links.setAdmissible_restored_iff (l := n.links)
    (b := b) admissible
  by_cases hgreet : n.started = true ∧ n.isAdmissible b = false ∧
      (n.links.setAdmissible b admissible).2.isAdmissible b = true
  · have hcall : (n.setAdmissible b admissible).2 =
        ({ n with links := (n.links.setAdmissible b admissible).2 }).greet b :=
      if_pos ⟨hiff.2 hgreet.2, hgreet.1⟩
    obtain ⟨kept, flooding, tally, henq, hrole, hqueue⟩ :=
      greet_spec { n with links := (n.links.setAdmissible b admissible).2 } b
    refine ⟨kept, flooding, tally, ?_, hrole, hcall.trans hqueue⟩
    have hgreetings : greetings { n with
        links := (n.links.setAdmissible b admissible).2 } [b] =
        [⟨b, Flooding.greeting n.replica⟩] := by
      simp [greetings, isAdmissible, hgreet.2.2]
    rw [if_pos hgreet, ← hgreetings]
    exact henq
  · refine ⟨[], n.flooding, n.tally, ?_, rfl, ?_⟩
    · rw [if_neg hgreet]
      exact Enqueued.nil _
    · refine (if_neg ?_).trans (queued_nil _).symm
      intro h
      exact hgreet ⟨h.2, hiff.1 h.1⟩

/-! ## Edits -/

/-- What an edit makes of a node: it is refused, it changes nothing, or the node
goes on to the next version, follows the change and pushes it to every
admissible neighbour. -/
inductive Used (n : Node) (p : Press) : Node → Prop
  | refused : p.replica = n.replica → Used n p { n with pool := p.pool }
  | unchanged : p.replica = n.replica →
      Used n p ({ n with pool := p.pool }).followNotices
  | advanced {edited : NetworkData} {kept : List Outbound} {flooding : Flooding}
      {tally : Tally} :
      n.role.canPublish = true → n.replica.authority = true →
      p.replica = n.replica.advance edited →
      Enqueued ({ n with replica := p.replica, pool := p.pool }).followNotices
        (if n.version < n.version.next then
          Flooding.fanOut
            (Delta.between n.data { edited with version := n.version.next })
            n.links none
        else []) kept →
      flooding.role = n.flooding.role →
      Used n p (({ n with
        replica := p.replica, pool := p.pool }).followNotices.queued kept
        flooding tally)

/-- The node once it has pushed its latest delta. -/
def announced (n : Node) : Node :=
  ({ n with flooding := (n.flooding.announce n.replica n.links).2 }).enqueue
    (n.flooding.announce n.replica n.links).1

theorem afterEdit_eq (n : Node) (before after : Version) :
    n.afterEdit before after =
      if before < after then n.followNotices.announced else n.followNotices :=
  rfl

/-- What holds whatever becomes of the replica and the pool, and is kept by
following the notices and by announcing, holds after the press has been used. -/
theorem usePress_keeps {P : Node → Prop} {n : Node}
    (h : ∀ replica pool, P { n with replica, pool })
    (hfollow : ∀ m, P m → P m.followNotices)
    (hannounce : ∀ m, P m → P m.announced)
    (act : Press → Except Fault Version × Press) : P (n.usePress act).2 := by
  rcases hact : act (n.expirePool n.now).press with ⟨fault | version, p⟩
  · simp only [usePress, hact]
    exact h p.replica p.pool
  · have hfollowed := hfollow _ (h p.replica p.pool)
    simp only [usePress, hact]
    show P (afterEdit
      { n with replica := p.replica, pool := p.pool } n.version version)
    rw [afterEdit_eq]
    split
    · exact hannounce _ hfollowed
    · exact hfollowed

theorem replica_announced (n : Node) : n.announced.replica = n.replica := by
  obtain ⟨kept, tally, -, hqueue⟩ := enqueue_spec
    { n with flooding := (n.flooding.announce n.replica n.links).2 }
    (n.flooding.announce n.replica n.links).1
  rw [announced, hqueue]
  rfl

/-- Pushing the latest delta reaches every admissible neighbour. -/
theorem announced_spec {n : Node} {d : Delta}
    (hlast : n.replica.lastDelta = some d)
    (htarget : d.target = n.replica.version) :
    ∃ kept flooding tally, Enqueued n (Flooding.fanOut d n.links none) kept ∧
      flooding.role = n.flooding.role ∧
      n.announced = n.queued kept flooding tally := by
  rw [announced,
    Flooding.announce_of_lastDelta n.flooding n.links hlast htarget]
  obtain ⟨kept, tally, henq, hqueue⟩ := enqueue_spec
    { n with
      flooding := n.flooding.recordSent (Flooding.fanOut d n.links none) }
    (Flooding.fanOut d n.links none)
  exact ⟨kept, n.flooding.recordSent (Flooding.fanOut d n.links none), tally,
    ⟨henq.sublist, henq.detached, henq.whole⟩, rfl, hqueue⟩

/-- Using the press is refused, changes nothing, or goes on to the next version;
that is followed, and pushed if the version rose. -/
theorem usePress_cases (n : Node) (act : Press → Except Fault Version × Press)
    (hturn : ∀ p, Press.Turned p (act p).1 (act p).2) {p : Press}
    (hp : (act (n.expirePool n.now).press).2 = p) :
    p.replica = n.replica ∧ ((n.usePress act).2 = { n with pool := p.pool } ∨
      (n.usePress act).2 = ({ n with pool := p.pool }).followNotices) ∨
    ∃ edited, p.replica = n.replica.advance edited ∧ n.role.canPublish = true ∧
      n.replica.authority = true ∧ (n.usePress act).2 =
        if n.version < n.version.next then
          ({ n with
            replica := p.replica, pool := p.pool }).followNotices.announced
        else
          ({ n with replica := p.replica, pool := p.pool }).followNotices := by
  have hturned := hturn (n.expirePool n.now).press
  rw [hp] at hturned
  rcases hact : act (n.expirePool n.now).press with ⟨fault | after, p'⟩
  · rw [hact] at hp hturned
    cases hp
    have huse : (n.usePress act).2 =
        { n with replica := p'.replica, pool := p'.pool } := by
      simp only [usePress, hact]
      rfl
    rcases hturned.cases with ⟨hreplica, -⟩ | ⟨edited, -, -, -, hanswer⟩
    · have hsame : p'.replica = n.replica := hreplica
      rw [huse, hsame]
      exact Or.inl ⟨rfl, Or.inl rfl⟩
    · cases hanswer
  · rw [hact] at hp hturned
    cases hp
    have huse : (n.usePress act).2 =
        ({ n with replica := p'.replica, pool := p'.pool }).afterEdit
          n.version after := by
      simp only [usePress, hact]
      rfl
    rw [huse, afterEdit_eq]
    rcases hturned.cases
      with ⟨hreplica, hanswer⟩ | ⟨edited, hreplica, hrole, hauth, hanswer⟩
    · have hsame : p'.replica = n.replica := hreplica
      have hversion : after = n.version := hanswer after rfl
      rw [hversion, if_neg (lt_irrefl n.version), hsame]
      exact Or.inl ⟨rfl, Or.inr rfl⟩
    · have hversion : after = n.version.next := Except.ok.inj hanswer
      rw [hversion]
      exact Or.inr ⟨edited, hreplica, hrole, hauth, rfl⟩

/-- What a node makes of a press depends on the outcome of the edit alone. -/
theorem used_usePress (n : Node) (act : Press → Except Fault Version × Press)
    (hturn : ∀ p, Press.Turned p (act p).1 (act p).2) :
    Used n (act (n.expirePool n.now).press).2 (n.usePress act).2 := by
  rcases hp : act (n.expirePool n.now).press with ⟨answer, p⟩
  rcases n.usePress_cases act hturn (congrArg Prod.snd hp) with
    ⟨hsame, heq | heq⟩ | ⟨edited, hadvance, hrole, hauth, heq⟩
  · rw [heq]
    exact Used.refused hsame
  · rw [heq]
    exact Used.unchanged hsame
  · have hadvance : p.replica = n.replica.advance edited := hadvance
    obtain ⟨hfreplica, hflinks, hfflooding, -⟩ :=
      followed_fields { n with replica := p.replica, pool := p.pool }
    rw [heq]
    by_cases hlt : n.version < n.version.next
    · obtain ⟨kept, flooding, tally, henq, hroleEq, hqueue⟩ := announced_spec
        (n := ({ n with replica := p.replica, pool := p.pool }).followNotices)
        (d := Delta.between n.data { edited with version := n.version.next })
        (by rw [hfreplica, hadvance]; rfl) (by rw [hfreplica, hadvance]; rfl)
      rw [if_pos hlt, hqueue]
      refine Used.advanced hrole hauth hadvance ?_
        (hroleEq.trans (by rw [hfflooding]))
      rw [if_pos hlt]
      rw [hflinks] at henq
      exact henq
    · rw [if_neg hlt, ← queued_nil (followNotices _)]
      refine Used.advanced hrole hauth hadvance ?_ (by rw [hfflooding])
      rw [if_neg hlt]
      exact Enqueued.nil _

theorem used_addPrefix (n : Node) (net : Prefix) (flags : Flags) :
    Used n ((n.expirePool n.now).press.publish net flags).2
      (n.addPrefix net flags).2 :=
  used_usePress n _ fun p => Press.turned_publish p net flags

theorem used_removePrefix (n : Node) (net : Prefix) :
    Used n ((n.expirePool n.now).press.withdraw net).2 (n.removePrefix net).2 :=
  used_usePress n _ fun p => Press.turned_withdraw p net

end Node

end OnMesh
