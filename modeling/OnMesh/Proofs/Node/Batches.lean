import OnMesh.Proofs.Node.Intrusion
import OnMesh.Proofs.Node.Receipts

/-!
# Frames in one pass or in many

A node may be handed many frames before it takes a pass, or take a pass after
each of them.  Handling a frame does not look at notices, addresses or context
ids, which are brought in line at the end of a pass.  So the number of passes at
one tick shows in nothing but the counts of the node.
-/

namespace OnMesh

open Wire (Frame Message)

/-! ## What frames do not look at -/

namespace Flooding

/-- Two responses that are the same but for the notices. -/
structure Matches (a b : Response) : Prop where
  out : b.out = a.out
  flooding : b.flooding = a.flooding
  replica : b.replica.takeNotices.2 = a.replica.takeNotices.2

variable (f : Flooding) (r : Replica) (links : Links)

/-- Whether notices wait makes no difference to a delta. -/
theorem matches_receiveDelta (sender : NodeId) (d : Delta) :
    Matches (f.receiveDelta sender d r links)
      (f.receiveDelta sender d r.takeNotices.2 links) := by
  have hversion : r.takeNotices.2.version = r.version := rfl
  have hauthority : r.takeNotices.2.authority = r.authority := rfl
  simp only [receiveDelta, Replica.applyDelta, hversion, hauthority]
  split
  · exact ⟨rfl, rfl, rfl⟩
  · by_cases hstale : d.target ≤ r.version
    · have hlast : r.takeNotices.2.lastDelta = r.lastDelta := rfl
      simp only [if_pos hstale, repair, hversion, hlast]
      split
      · exact ⟨rfl, rfl, rfl⟩
      · cases r.lastDelta <;> exact ⟨rfl, rfl, rfl⟩
    · by_cases hgap : d.base ≠ r.version
      · simp only [if_neg hstale, if_pos hgap]
        exact ⟨rfl, rfl, rfl⟩
      · simp only [if_neg hstale, if_neg hgap]
        exact ⟨rfl, rfl, rfl⟩

theorem matches_receiveSnapshot (sender : NodeId) (data : NetworkData) :
    Matches (f.receiveSnapshot sender data r links)
      (f.receiveSnapshot sender data r.takeNotices.2 links) := by
  have hversion : r.takeNotices.2.version = r.version := rfl
  have hauthority : r.takeNotices.2.authority = r.authority := rfl
  simp only [receiveSnapshot, Replica.adopt, hversion, hauthority]
  split
  · exact ⟨rfl, rfl, rfl⟩
  · by_cases hold : data.version ≤ r.version
    · simp only [if_pos hold]
      exact ⟨rfl, rfl, rfl⟩
    · simp only [if_neg hold]
      exact ⟨rfl, rfl, rfl⟩

/-- What a frame leads to does not depend on notices that wait. -/
theorem matches_receive (frame : Frame) :
    Matches (f.receive frame r links)
      (f.receive frame r.takeNotices.2 links) := by
  have hrecord : ∀ {a b : Response}, Matches a b →
      Matches { a with flooding := a.flooding.recordSent a.out }
        { b with flooding := b.flooding.recordSent b.out } := fun h =>
    ⟨h.out, by rw [h.flooding, h.out], h.replica⟩
  simp only [receive]
  split
  · exact ⟨rfl, rfl, rfl⟩
  · cases frame.message with
    | delta d => exact hrecord (f.matches_receiveDelta r links frame.sender d)
    | snapshotRequest held =>
        refine hrecord ?_
        have hversion : r.takeNotices.2.version = r.version := rfl
        simp only [receiveRequest, hversion]
        split <;> exact ⟨rfl, rfl, rfl⟩
    | snapshot data =>
        exact hrecord (f.matches_receiveSnapshot r links frame.sender data)

end Flooding

namespace ContextPool

/-- To free ids twice at one tick is to free them once. -/
theorem expire_expire (p : ContextPool) (now : Nat) :
    ((p.expire now).2.expire now).2 = (p.expire now).2 := by
  have hretiring :
      ((p.retiring.filter fun _ released => !p.isDue now released).filter
      fun _ released => !p.isDue now released) =
      p.retiring.filter fun _ released => !p.isDue now released := by
    apply Table.ext_get?
    intro id
    rw [Table.get?_filter, Table.get?_filter, Option.filter_filter]
    simp only [Bool.and_self]
  exact congrArg (fun retiring => { p with retiring, now }) hretiring

end ContextPool

namespace Node

variable {n m k : Node} {frames more : List Frame} {cs : List Call} {now : Nat}

/-- Two nodes that differ in nothing that frames look at. -/
structure SameToFrames (n m : Node) : Prop where
  id : m.id = n.id
  role : m.role = n.role
  settings : m.settings = n.settings
  started : m.started = n.started
  replica : m.replica.takeNotices.2 = n.replica.takeNotices.2
  links : m.links = n.links
  flooding : m.flooding = n.flooding
  outgoing : m.outgoing = n.outgoing

theorem SameToFrames.symm (h : SameToFrames n m) : SameToFrames m n :=
  ⟨h.id.symm, h.role.symm, h.settings.symm, h.started.symm, h.replica.symm,
    h.links.symm, h.flooding.symm, h.outgoing.symm⟩

theorem SameToFrames.trans (h : SameToFrames n m) (h' : SameToFrames m k) :
    SameToFrames n k :=
  ⟨h'.id.trans h.id, h'.role.trans h.role, h'.settings.trans h.settings,
    h'.started.trans h.started, h'.replica.trans h.replica, h'.links.trans
      h.links, h'.flooding.trans h.flooding, h'.outgoing.trans h.outgoing⟩

theorem SameToFrames.enqueueOne (h : SameToFrames n m) (o : Outbound) :
    SameToFrames (n.enqueueOne o) (m.enqueueOne o) := by
  rw [Node.enqueueOne, Node.enqueueOne, h.settings, h.outgoing, h.id]
  split
  · exact h
  · exact ⟨rfl, h.role, rfl, h.started, h.replica, h.links, h.flooding, rfl⟩

theorem SameToFrames.enqueue (h : SameToFrames n m) (out : List Outbound) :
    SameToFrames (n.enqueue out) (m.enqueue out) := by
  have hfold : SameToFrames (out.foldl Node.enqueueOne n)
      (out.foldl Node.enqueueOne m) := by
    induction out generalizing n m with
    | nil => exact h
    | cons o out ih => exact ih (h.enqueueOne o)
  rw [Node.enqueue, Node.enqueue, h.started]
  split
  · exact hfold
  · exact h

theorem SameToFrames.handle (h : SameToFrames n m) (frame : Frame) :
    SameToFrames (n.handle frame) (m.handle frame) := by
  let response (k : Node) := k.flooding.receive frame k.replica k.links
  have hsame : Flooding.Matches (response n) (response m) := by
    have hm := m.flooding.matches_receive m.replica m.links frame
    have hn := n.flooding.matches_receive n.replica n.links frame
    rw [h.replica, h.links, h.flooding] at hm
    simp only [response, h.links, h.flooding]
    exact ⟨hm.out.symm.trans hn.out, hm.flooding.symm.trans hn.flooding,
      hm.replica.symm.trans hn.replica⟩
  have hsent : SameToFrames
      { n with
        replica := (response n).replica
        flooding := (response n).flooding }
      { m with
        replica := (response m).replica
        flooding := (response m).flooding } :=
    ⟨h.id, h.role, h.settings, h.started, hsame.replica, h.links,
      hsame.flooding, h.outgoing⟩
  show SameToFrames (Node.enqueue _ (response n).out)
    (Node.enqueue _ (response m).out)
  rw [hsame.out]
  exact hsent.enqueue _

theorem SameToFrames.foldl_handle (h : SameToFrames n m) (frames : List Frame) :
    SameToFrames (frames.foldl Node.handle n) (frames.foldl Node.handle m) := by
  induction frames generalizing n m with
  | nil => exact h
  | cons frame frames ih => exact ih (h.handle frame)

theorem sameToFrames_followNotices (n : Node) :
    SameToFrames n n.followNotices := by
  obtain ⟨addresses, tally, hfollow, -, -⟩ := followNotices_spec n
  rw [hfollow]
  exact ⟨rfl, rfl, rfl, rfl, rfl, rfl, rfl, rfl⟩

/-- A pass is handling the frames that wait, as far as frames are concerned. -/
theorem sameToFrames_tick (n : Node) (now : Nat) :
    SameToFrames (n.incoming.foldl Node.handle n) (n.tick now) := by
  have hbegun : SameToFrames n (n.begun now) :=
    ⟨rfl, rfl, rfl, rfl, rfl, rfl, rfl, rfl⟩
  have hhandled :
      SameToFrames (n.incoming.foldl Node.handle n) (n.handled now) :=
    hbegun.foldl_handle n.incoming
  rw [tick_eq]
  refine SameToFrames.trans ?_ (sameToFrames_followNotices _)
  split
  · exact hhandled.trans ⟨rfl, rfl, rfl, rfl, rfl, rfl, rfl, rfl⟩
  · exact hhandled

/-! ## One pass -/

/-- The frames that are handed to a node and can be read. -/
def framesOf (cs : List Call) : List Frame := cs.filterMap Call.frame?

/-- An attached node takes a frame that it has room for. -/
theorem takes_of_room {c : Call} {frame : Frame}
    (hframe : c.frame? = some frame) (hstarted : n.started = true)
    (hroom : n.incoming.length < n.settings.maxInbound) : n.takes c = true := by
  have htaken : (n.queueFrame frame).1 = true := by
    rw [queueFrame, if_neg (by simp [hstarted, hroom])]
  cases c with
  | queueFrame received =>
      cases hframe
      exact htaken
  | queueBytes bytes =>
      rw [Call.frame?] at hframe
      rw [takes, queueBytes]
      cases hparse : Frame.parse bytes with
      | error fault => rw [hparse] at hframe; cases hframe
      | ok received =>
          rw [hparse] at hframe
          cases hframe
          exact htaken
  | _ => cases hframe

/-- A node with room for all frames takes all that can be read. -/
theorem foldl_after_of_room (hstarted : n.started = true)
    (hcs : ∀ c ∈ cs, c.handsOver = true)
    (hroom : n.incoming.length + (framesOf cs).length ≤ n.settings.maxInbound) :
    ∃ tally, cs.foldl after n =
      { n with incoming := n.incoming ++ framesOf cs, tally } := by
  induction cs generalizing n with
  | nil =>
      exact ⟨n.tally, by
        rw [framesOf, List.filterMap_nil, List.append_nil]; rfl⟩
  | cons c cs ih =>
      obtain ⟨hc, hcs⟩ := List.forall_mem_cons.1 hcs
      cases hframe : c.frame? with
      | none =>
          have hframes : framesOf (c :: cs) = framesOf cs :=
            List.filterMap_cons_none hframe
          have hcount : ∃ tally, n.after c = { n with tally } := by
            cases c with
            | queueFrame frame => cases hframe
            | queueBytes bytes => exact after_queueBytes_of_unreadable hframe n
            | _ => cases hc
          obtain ⟨counted, hone⟩ := hcount
          rw [hframes] at hroom ⊢
          rw [List.foldl_cons, hone]
          exact ih (n := { n with tally := counted }) hstarted hcs hroom
      | some frame =>
          have hframes : framesOf (c :: cs) = frame :: framesOf cs :=
            List.filterMap_cons_some hframe
          rw [hframes, List.length_cons] at hroom
          obtain ⟨counted, hone⟩ := after_of_frame? hframe n
          rw [takes_of_room hframe hstarted (by omega), if_pos rfl] at hone
          obtain ⟨tally, hrest⟩ := ih
            (n := { n with incoming := n.incoming ++ [frame],
                           tally := counted }) hstarted hcs (by
              rw [List.length_append, List.length_singleton]
              show _ ≤ n.settings.maxInbound
              omega)
          refine ⟨tally, ?_⟩
          rw [List.foldl_cons, hone, hrest, hframes]
          simp only [List.append_assoc, List.singleton_append]

theorem started_handle (n : Node) (frame : Frame) :
    (n.handle frame).started = n.started := by
  obtain ⟨out, replica, kept, flooding, tally, -, -, -, heq⟩ :=
    handle_spec n frame
  rw [heq]
  rfl

def aged (n : Node) (now : Nat) : ContextPool :=
  if n.role.canPublish then (n.pool.expire now).2 else n.pool

theorem pool_tick (hstocked : n.Stocked) (hnotices : n.replica.notices = [])
    (now : Nat) : (n.tick now).pool = n.aged now := by
  rw [aged]
  split
  · next hrole => exact (tick_of_stocked hstocked hrole hnotices now).1
  · next hrole =>
      have hpool : (n.handled now).pool = n.pool := pool_foldl_handle _ _
      have hrole : ¬ (n.handled now).role.canPublish = true := by
        rw [handled_eq, (alike_foldl_handle _ _).role]
        exact hrole
      obtain ⟨addresses, tally, hfollow, -, -⟩ :=
        followNotices_spec (n.handled now)
      rw [tick_eq, if_neg hrole, hfollow, followed, if_neg hrole]
      exact hpool

/-- An attached node that has handled everything and brought
everything in line. -/
structure Resting (n : Node) : Prop where
  started : n.started = true
  incoming : n.incoming = []
  configured : n.Configured
  stocked : n.Stocked

/-- A node that rested has handled some frames and rests again. -/
structure Served (n : Node) (frames : List Frame) (now : Nat) (m : Node) :
    Prop where
  resting : m.Resting
  alike : Alike n m
  same : SameToFrames (frames.foldl handle n) m
  pool : m.pool = n.aged now
  now : m.now = now

theorem Served.trans (h : n.Served frames now m) (h' : m.Served more now k) :
    n.Served (frames ++ more) now k := by
  refine ⟨h'.resting, h.alike.trans h'.alike, ?_, ?_, h'.now⟩
  · rw [List.foldl_append]
    exact (h.same.foldl_handle more).trans h'.same
  · rw [h'.pool, aged, h.pool, h.alike.role, aged]
    split
    · exact ContextPool.expire_expire n.pool now
    · rfl

/-- Which frames were handled at which tick says all about a node but its
counts. -/
theorem Served.eq (h : n.Served frames now m) (h' : n.Served frames now k) :
    k = { m with tally := k.tally } := by
  have hsame : SameToFrames m k := h.same.symm.trans h'.same
  have hreplica : k.replica = m.replica := by
    have hkept : ∀ l : Node, l.replica.notices = [] →
        l.replica.takeNotices.2 = l.replica := by
      intro l hnotices
      rw [Replica.takeNotices, ← hnotices]
    rw [← hkept k h'.resting.configured.notices,
      ← hkept m h.resting.configured.notices, hsame.replica]
  have howner : k.addresses.owner = m.addresses.owner :=
    h'.alike.addresses.trans h.alike.addresses.symm
  have haddresses : k.addresses = m.addresses := by
    have hconfigured : k.addresses.configured = m.addresses.configured := by
      rw [h'.resting.configured.addresses, h.resting.configured.addresses,
        data, data, hreplica]
      exact AddressBook.derive_congr howner _
    calc
      k.addresses = ⟨k.addresses.owner, k.addresses.configured⟩ := rfl
      _ = ⟨m.addresses.owner, m.addresses.configured⟩ := by
        rw [howner, hconfigured]
      _ = m.addresses := rfl
  have hpool : k.pool = m.pool := h'.pool.trans h.pool.symm
  have hnow : k.now = m.now := h'.now.trans h.now.symm
  have hincoming : k.incoming = m.incoming :=
    h'.resting.incoming.trans h.resting.incoming.symm
  obtain ⟨hid, hrole, hsettings, hstarted, -, hlinks, hflooding, houtgoing⟩ :=
    hsame
  rw [← hid, ← hrole, ← hsettings, ← hstarted, ← hnow, ← hreplica, ← hpool,
    ← hlinks, ← haddresses, ← hflooding, ← hincoming, ← houtgoing]

/-- The frames are handed to the node, and then it takes a pass. -/
def tickAfterAll (n : Node) (cs : List Call) (now : Nat) : Node :=
  (cs.foldl after n).tick now

/-- The frames are handed to the node, and it takes a pass after each of
them. -/
def tickAfterEach (n : Node) (cs : List Call) (now : Nat) : Node :=
  cs.foldl (fun n c => (n.after c).tick now) n

theorem Resting.served_tickAfterAll (h : n.Resting)
    (hcs : ∀ c ∈ cs, c.handsOver = true)
    (hroom : (framesOf cs).length ≤ n.settings.maxInbound) (now : Nat) :
    n.Served (framesOf cs) now (n.tickAfterAll cs now) := by
  obtain ⟨tally, hqueued⟩ := foldl_after_of_room h.started hcs
    (by rw [h.incoming, List.length_nil, Nat.zero_add]; exact hroom)
  rw [h.incoming, List.nil_append] at hqueued
  let waiting : Node := { n with incoming := framesOf cs, tally }
  have hwaiting : SameToFrames n waiting :=
    ⟨rfl, rfl, rfl, rfl, rfl, rfl, rfl, rfl⟩
  have hsame : SameToFrames ((framesOf cs).foldl handle n) (waiting.tick now) :=
    (hwaiting.foldl_handle _).trans (sameToFrames_tick waiting now)
  have hconfigured : waiting.Configured :=
    ⟨h.configured.notices, h.configured.addresses⟩
  have hstocked : waiting.Stocked := h.stocked.of_eq rfl rfl rfl rfl
  have halike : Alike n waiting := ⟨rfl, rfl, rfl, rfl, rfl, rfl, rfl, rfl⟩
  have hstarted : (waiting.tick now).started = true := by
    rw [hsame.started, foldl_same started_handle, h.started]
  rw [tickAfterAll, hqueued]
  exact ⟨⟨hstarted, (tick_fields waiting now).1, hconfigured.tick now,
    hstocked.tick now⟩, halike.trans (alike_tick waiting now), hsame,
    pool_tick hstocked h.configured.notices now, now_tick waiting now⟩

theorem Resting.served_tickAfterEach (h : n.Resting) (hne : cs ≠ [])
    (hcs : ∀ c ∈ cs, c.handsOver = true)
    (hroom : (framesOf cs).length ≤ n.settings.maxInbound) (now : Nat) :
    n.Served (framesOf cs) now (n.tickAfterEach cs now) := by
  induction cs generalizing n with
  | nil => exact absurd rfl hne
  | cons c cs ih =>
      obtain ⟨hc, hcs⟩ := List.forall_mem_cons.1 hcs
      have hsplit : framesOf (c :: cs) = framesOf [c] ++ framesOf cs :=
        List.filterMap_append (l := [c])
      rw [hsplit, List.length_append] at hroom
      have hone : n.Served (framesOf [c]) now (n.tickAfterAll [c] now) :=
        h.served_tickAfterAll (by simpa using hc) (by omega) now
      by_cases hlast : cs = []
      · rw [hlast]
        exact hone
      · rw [hsplit]
        exact hone.trans
          (ih hone.resting hlast hcs (by rw [hone.alike.settings]; omega))

/-- An attached node that has handled everything and is handed frames,
with room for all of them: how many passes it takes at one tick shows in
nothing but its counts. -/
theorem tickAfterEach_eq (id : NodeId) (role : Role) (settings : NodeSettings)
    (calls cs : List Call) (now : Nat) :
    let n := calls.foldl after (make id role settings)
    n.started = true → n.incoming = [] → cs ≠ [] →
    (∀ c ∈ cs, c.handsOver = true) →
    (framesOf cs).length ≤ n.settings.maxInbound →
    ∃ tally, n.tickAfterEach cs now = { n.tickAfterAll cs now with tally } := by
  intro n hstarted hincoming hne hcs hroom
  have hresting : n.Resting := by
    refine ⟨hstarted, hincoming, ?_, ?_⟩
    · exact foldl_after (configured_make id role settings)
        (fun _ c h => h.after c) calls
    · exact foldl_after (stocked_make id role settings)
        (fun _ c h => h.after c) calls
  have hall := hresting.served_tickAfterAll hcs hroom now
  have heach := hresting.served_tickAfterEach hne hcs hroom now
  exact ⟨_, hall.eq heach⟩

def relaying : List Call :=
  [.addNeighbour ⟨1⟩, .addNeighbour ⟨3⟩, .setAdmissible ⟨1⟩ true,
    .setAdmissible ⟨3⟩ true, .start, .pop, .pop]

/-- A prefix is published and taken back, and the first delta
comes in once more. -/
def passing : List Call :=
  let net := Prefix.ofAddress ⟨0xfd00 <<< 112⟩ _ Prefix.slaacLength_le
  let published : Delta :=
    ⟨⟨0⟩, ⟨1⟩, [⟨net, ⟨Flags.slaacBit⟩, ⟨1⟩⟩], [], [⟨⟨1⟩, net, true⟩], []⟩
  [.queueFrame (Frame.make ⟨1⟩ (.delta published)),
    .queueFrame (Frame.make ⟨1⟩ (.delta ⟨⟨1⟩, ⟨2⟩, [], [net], [], [⟨1⟩]⟩)),
    .queueFrame (Frame.make ⟨3⟩ (.delta published))]

theorem tickAfterEach_eq_passing :
    let n := relaying.foldl after (make ⟨2⟩ .relay NodeSettings.usual)
    n.started = true ∧ n.incoming = [] ∧ passing ≠ [] ∧
      (∀ c ∈ passing, c.handsOver = true) ∧
      (framesOf passing).length ≤ n.settings.maxInbound ∧
      (∃ tally, n.tickAfterEach passing 5 =
        { n.tickAfterAll passing 5 with tally }) ∧
      (n.tickAfterAll passing 5).version = ⟨2⟩ ∧
      (n.tickAfterAll passing 5).outgoing.map (·.to) = [⟨3⟩, ⟨3⟩, ⟨3⟩] ∧
      (n.tickAfterAll passing 5).tally.addressesAdded = 0 ∧
      (n.tickAfterEach passing 5).tally.addressesAdded = 1 := by
  intro n
  have hstarted : n.started = true := by decide +kernel
  have hincoming : n.incoming = [] := by decide +kernel
  have hne : passing ≠ [] := List.cons_ne_nil _ _
  have hcs : ∀ c ∈ passing, c.handsOver = true := by decide +kernel
  have hroom : (framesOf passing).length ≤ n.settings.maxInbound := by
    decide +kernel
  have heq := tickAfterEach_eq
    ⟨2⟩ .relay NodeSettings.usual relaying passing 5 hstarted hincoming
    hne hcs hroom
  exact ⟨hstarted, hincoming, hne, hcs, hroom, heq, by decide +kernel, by
    decide +kernel, by decide +kernel, by decide +kernel⟩

end Node

end OnMesh
