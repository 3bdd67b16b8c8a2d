import OnMesh.Proofs.Mesh.Mail
import OnMesh.Proofs.Mesh.Runs
import OnMesh.Proofs.Node.Receipts

/-!
# How frames are carried

A mesh is watched while it runs: what its nodes hand out, what of it is on the
wire, and what was handed to a node.  Each frame on the wire is handed over
once, when it is due.  Frames that go from one station to another over a link
whose latency stays what it is are due in the order in which they were handed
out, so they arrive in that order.
-/

namespace OnMesh

open Wire (Frame Message)

namespace Mesh

variable {m m' : Mesh} {s t : Station} {ps : List Packet} {settings : Settings}

/-! ## Watching a mesh -/

/-- A frame that a node has handed out, and the packet that it has
become; there is none if the frame does not fit a packet or no station
has its hardware address. -/
structure Popped where
  tick : Nat
  source : Station
  outgoing : Outgoing
  packet : Option Packet

/-- A packet that was put on the wire. -/
structure Sending where
  sentAt : Nat
  packet : Packet

/-- The packet that was put on the wire when a frame was handed out. -/
def Popped.sending? (p : Popped) : Option Sending :=
  p.packet.map fun q => ⟨p.tick, q⟩

/-- What was seen of a mesh, oldest first. -/
structure Watch where
  popped : List Popped
  /-- What is on the wire. -/
  flying : List Sending
  /-- What was handed to a node, and when. -/
  handed : List (Nat × Sending)

def Watch.nothing : Watch := ⟨[], [], []⟩

/-- What was put on the wire, oldest first. -/
def Watch.sent (w : Watch) : List Sending := w.popped.filterMap Popped.sending?

def packetOf (m : Mesh) (s : Station) (o : Outgoing) : Option Packet :=
  match o.frame.serialize with
  | .ok bytes =>
    (m.locate? o.to).map fun t => ⟨m.now + m.latency s t, s, t, bytes⟩
  | .error _ => none

/-- What the nodes hand out when all of them are popped, in the
order of their stations. -/
def pops (m : Mesh) : List Popped :=
  m.nodes.entries.flatMap fun e =>
    e.2.popAll.1.map fun o => ⟨m.now, e.1, o, m.popped.packetOf e.1 o⟩

/-- What is on the wire and will be due in the next step. -/
def Watch.due (w : Watch) (m : Mesh) : List Sending :=
  w.flying.filter fun x => x.packet.due ≤ m.later.now

/-- What is seen of an operation.  In a step, what is due leaves the wire before
the nodes are popped. -/
def Watch.after (w : Watch) (m : Mesh) : Op → Watch
  | .step =>
    let pops := m.later.deliverDue.tickAll.pops
    { popped := w.popped ++ pops
      flying := (w.flying.filter fun x => !(x.packet.due ≤ m.later.now)) ++
        pops.filterMap Popped.sending?
      handed := w.handed ++ (w.due m).map fun x => (m.later.now, x) }
  | _ => w

def watch (x : Mesh × Watch) (ops : List Op) : Mesh × Watch :=
  ops.foldl (fun x op => (x.1.perform op, x.2.after x.1 op)) x

theorem fst_watch (x : Mesh × Watch) (ops : List Op) :
    (watch x ops).1 = ops.foldl perform x.1 := by
  induction ops generalizing x with
  | nil => rfl
  | cons op ops ih => exact ih _

theorem Watch.after_of_ne_step {op : Op} (hop : op ≠ .step) (w : Watch)
    (m : Mesh) : w.after m op = w := by
  cases op with
  | step => exact absurd rfl hop
  | _ => rfl

/-- What is seen to go on the wire is what the mesh puts there. -/
theorem packets_pops (m : Mesh) :
    (m.pops.filterMap Popped.sending?).map (·.packet) =
      m.popped.arrivals m.posted := by
  have hone : ∀ e : Station × Node,
      ((e.2.popAll.1.map fun o =>
        (⟨m.now, e.1, o, m.popped.packetOf e.1 o⟩ : Popped)).filterMap
        Popped.sending?).map (·.packet) =
          m.popped.arrivals (letters e.1 e.2.popAll.1) := by
    intro e
    rw [List.filterMap_map, List.map_filterMap, arrivals, letters,
      List.filterMap_filterMap]
    congr 1
    funext o
    simp only [Function.comp_apply, Popped.sending?, packetOf]
    cases o.frame.serialize with
    | error fault => rfl
    | ok bytes =>
        cases hlocate : m.popped.locate? o.to with
        | none => simp [hlocate]
        | some target => simp [hlocate]
  rw [pops, posted, List.filterMap_flatMap, List.map_flatMap]
  simp only [hone]
  rw [arrivals, List.filterMap_flatMap]
  rfl

theorem mem_pops {x : Sending} (hx : x ∈ m.pops.filterMap Popped.sending?) :
    x.sentAt = m.now ∧
    x.packet.due = m.now + m.latency x.packet.source x.packet.target := by
  obtain ⟨p, hp, hsending⟩ := List.mem_filterMap.1 hx
  obtain ⟨e, -, hp⟩ := List.mem_flatMap.1 hp
  obtain ⟨o, -, rfl⟩ := List.mem_map.1 hp
  obtain ⟨q, hpacket, rfl⟩ := Option.map_eq_some_iff.1 hsending
  refine ⟨rfl, ?_⟩
  change m.popped.packetOf e.1 o = some q at hpacket
  rw [packetOf] at hpacket
  split at hpacket
  · obtain ⟨target, -, rfl⟩ := Option.map_eq_some_iff.1 hpacket
    rfl
  · cases hpacket

/-- A packet carries the frame that was handed out, from the station
that handed it out. -/
theorem packet_of_mem_pops {p : Popped} (hp : p ∈ m.pops) {q : Packet}
    (hq : p.packet = some q) :
    q.source = p.source ∧ p.outgoing.frame.serialize = .ok q.bytes := by
  obtain ⟨e, -, hp⟩ := List.mem_flatMap.1 hp
  obtain ⟨o, -, rfl⟩ := List.mem_map.1 hp
  change m.popped.packetOf e.1 o = some q at hq
  rw [packetOf] at hq
  split at hq
  · next bytes hbytes =>
      obtain ⟨target, -, rfl⟩ := Option.map_eq_some_iff.1 hq
      exact ⟨rfl, hbytes⟩
  · cases hq

/-! ## What is counted -/

/-- The frames that were handed to nodes: those that were taken and
those that were not. -/
def handedOver (m : Mesh) : Nat :=
  m.tally.framesDelivered + m.nodes.total Node.refused

theorem counts_deliver {p : Packet} (h : m.nodes.contains p.target = true) :
    (m.deliver p).handedOver = m.handedOver + 1 ∧
      (m.deliver p).tally.framesSent = m.tally.framesSent := by
  cases hn : m.nodes.get? p.target with
  | none =>
      rw [Table.contains, hn] at h
      cases h
  | some n =>
      have htotal := Table.total_insert Node.refused hn (n.queueBytes p.bytes).2
      have hrefused := n.refused_queueBytes p.bytes
      rw [handedOver, handedOver, deliver, hn]
      cases htaken : (n.queueBytes p.bytes).1 with
      | true =>
          rw [htaken, if_pos rfl] at hrefused
          simp only [htaken, if_true, setNode, and_true]
          omega
      | false =>
          rw [htaken, if_neg Bool.false_ne_true] at hrefused
          simp only [htaken, Bool.false_eq_true, if_false, setNode, and_true]
          omega

theorem contains_deliver (m : Mesh) (p : Packet) (s : Station) :
    (m.deliver p).nodes.contains s = m.nodes.contains s := by
  rw [Table.contains, Table.contains, get?_deliver, Option.isSome_map]

/-- Every packet that is delivered is counted, whether its node takes it or
not. -/
theorem counts_foldl_deliver (h : ∀ p ∈ ps, m.nodes.contains p.target = true) :
    (ps.foldl deliver m).handedOver = m.handedOver + ps.length ∧
      (ps.foldl deliver m).tally.framesSent = m.tally.framesSent := by
  induction ps generalizing m with
  | nil => exact ⟨rfl, rfl⟩
  | cons p ps ih =>
      obtain ⟨hp, hps⟩ := List.forall_mem_cons.1 h
      obtain ⟨hone, hsent⟩ := counts_deliver hp
      obtain ⟨hrest, hsentRest⟩ :=
        ih fun q hq => (contains_deliver m p q.target).trans (hps q hq)
      refine ⟨?_, hsentRest.trans hsent⟩
      rw [List.foldl_cons, hrest, hone, List.length_cons]
      omega

theorem arrivals_transmit (m : Mesh) (l : Letter) (ls : List Letter) :
    (m.transmit l).arrivals ls = m.arrivals ls := by
  rw [transmit]
  split <;> rfl

theorem counts_foldl_transmit (m : Mesh) (ls : List Letter) :
    (ls.foldl transmit m).handedOver = m.handedOver ∧
      (ls.foldl transmit m).tally.framesSent =
        m.tally.framesSent + (m.arrivals ls).length := by
  induction ls generalizing m with
  | nil => exact ⟨rfl, rfl⟩
  | cons l ls ih =>
      obtain ⟨hhanded, hsent⟩ := ih (m.transmit l)
      rw [List.foldl_cons, hhanded, hsent, arrivals_transmit, arrivals,
        arrivals, List.filterMap_cons]
      cases hlocate : m.locate? l.to with
      | none =>
          rw [transmit, hlocate]
          exact ⟨rfl, rfl⟩
      | some target =>
          rw [transmit, hlocate]
          refine ⟨rfl, ?_⟩
          simp only [Option.map_some, List.length_cons]
          omega

/-- A step counts what it hands over and what it puts on the wire. -/
theorem counts_step (h : ∀ p ∈ m.inFlight, m.nodes.contains p.target = true) :
    m.step.handedOver = m.handedOver + m.later.due.length ∧
      m.step.tally.framesSent = m.tally.framesSent +
        (m.later.deliverDue.tickAll.pops.filterMap Popped.sending?).length := by
  have hdelivered :
      m.later.deliverDue.handedOver = m.handedOver + m.later.due.length ∧
      m.later.deliverDue.tally.framesSent = m.tally.framesSent :=
    counts_foldl_deliver
      (m := { m.later with
        inFlight := m.later.inFlight.filter fun p => !(p.due ≤ m.later.now) })
      fun p hp => h p (List.mem_of_mem_filter hp)
  have hticked : m.later.deliverDue.tickAll.handedOver =
      m.later.deliverDue.handedOver := by
    refine congrArg (m.later.deliverDue.tally.framesDelivered + ·) ?_
    exact (Table.total_map ..).trans
      (congrArg (Table.total · _)
        (funext fun n => Node.refused_of_refusals (n.refusals_tick _)))
  have hpopped : m.later.deliverDue.tickAll.popped.handedOver =
      m.later.deliverDue.tickAll.handedOver := by
    refine congrArg (m.later.deliverDue.tickAll.tally.framesDelivered + ·) ?_
    exact (Table.total_map ..).trans
      (congrArg (Table.total · _)
        (funext fun n => Node.refused_of_refusals n.refusals_popAll))
  have hlength :
      (m.later.deliverDue.tickAll.pops.filterMap Popped.sending?).length =
      (m.later.deliverDue.tickAll.popped.arrivals
        m.later.deliverDue.tickAll.posted).length := by
    rw [← packets_pops, List.length_map]
  obtain ⟨hhanded, hsent⟩ :=
    counts_foldl_transmit m.later.deliverDue.tickAll.popped
      m.later.deliverDue.tickAll.posted
  rw [step_eq, transmitAll_eq, hlength, hhanded, hsent, hpopped,
    hticked, hdelivered.1]
  exact ⟨rfl, congrArg (· + _) hdelivered.2⟩

/-! ## What is seen is what happens -/

/-- What was seen of a mesh, and what the mesh itself knows of it. -/
structure Faithful (m : Mesh) (w : Watch) : Prop where
  /-- The wire is seen as it is. -/
  wire : w.flying.map (·.packet) = m.inFlight
  /-- What was put on the wire was counted. -/
  sent : m.tally.framesSent = w.sent.length
  /-- What was handed to nodes was counted, by the mesh or by the node
  that did not take it. -/
  handed : m.handedOver = w.handed.length
  /-- What was put on the wire is there or was handed over, and all of it
  once. -/
  once : w.sent.Perm (w.handed.map (·.2) ++ w.flying)
  /-- What was handed out went on the wire as it was. -/
  packed : ∀ p ∈ w.popped, ∀ q, p.packet = some q →
    q.source = p.source ∧ p.outgoing.frame.serialize = .ok q.bytes
  /-- It takes at least one tick until a packet is due. -/
  lasting : ∀ x ∈ w.sent, x.sentAt ≤ m.now ∧ x.sentAt < x.packet.due
  /-- What is on the wire was put there in turn. -/
  inTurn : w.sent.Pairwise fun x y => x.sentAt ≤ y.sentAt
  /-- A packet is handed over when it is due. -/
  onTime : ∀ x ∈ w.handed, x.1 = x.2.packet.due
  pending : ∀ x ∈ w.flying, m.now < x.packet.due
  /-- Packets go to nodes. -/
  targets : ∀ p ∈ m.inFlight, m.nodes.contains p.target = true
  located : m.Located

theorem faithful_make (settings : Settings) :
    (make settings).Faithful .nothing where
  wire := rfl
  sent := rfl
  handed := rfl
  once := List.Perm.refl _
  packed := fun _ h => nomatch h
  lasting := fun _ h => nomatch h
  inTurn := List.Pairwise.nil
  onTime := fun _ h => nomatch h
  pending := fun _ h => nomatch h
  targets := fun _ h => nomatch h
  located := located_make settings

/-- Only the wire, the clock and what is counted matter, and that there are
nodes. -/
theorem Faithful.of_wire {w : Watch} (h : m.Faithful w)
    (hwire : m'.inFlight = m.inFlight) (hnow : m'.now = m.now)
    (hsent : m'.tally.framesSent = m.tally.framesSent)
    (hhanded : m'.handedOver = m.handedOver)
    (hnodes : ∀ s, m.nodes.contains s = true → m'.nodes.contains s = true)
    (hlocated : m'.Located) : m'.Faithful w where
  wire := h.wire.trans hwire.symm
  sent := hsent.trans h.sent
  handed := hhanded.trans h.handed
  once := h.once
  packed := h.packed
  lasting := fun x hx => hnow ▸ h.lasting x hx
  inTurn := h.inTurn
  onTime := h.onTime
  pending := fun x hx => hnow ▸ h.pending x hx
  targets := fun p hp => hnodes _ (h.targets p (hwire ▸ hp))
  located := hlocated

theorem Watch.sent_step (w : Watch) (m : Mesh) : (w.after m .step).sent =
    w.sent ++ m.later.deliverDue.tickAll.pops.filterMap Popped.sending? :=
  List.filterMap_append

theorem contains_popped (m : Mesh) (s : Station) :
    m.later.deliverDue.tickAll.popped.nodes.contains s =
      m.nodes.contains s := by
  rw [popped, Table.contains, Table.get?_map, Option.isSome_map,
    get?_tickAll_deliverDue, Option.isSome_map]
  rfl

/-- The packets that are seen to be handed over in a step are those
that the mesh delivers. -/
theorem Faithful.map_due {w : Watch} (h : m.Faithful w) :
    (w.due m).map (·.packet) = m.later.due := by
  rw [due, show m.later.inFlight = _ from h.wire.symm, List.filter_map]
  rfl

/-- A step is seen as it happens. -/
theorem Faithful.step {w : Watch} (h : m.Faithful w) :
    m.step.Faithful (w.after m .step) := by
  have hflight : m.step.inFlight =
      (m.inFlight.filter fun p => !(p.due ≤ m.later.now)) ++
      m.later.deliverDue.tickAll.popped.arrivals
        m.later.deliverDue.tickAll.posted := by
    obtain ⟨tally, heq⟩ := m.later.deliverDue.tickAll.transmitAll_spec
    rw [step_eq, heq]
    exact congrArg (· ++ _) m.later.deliverDue_fields.1
  have hnow : m.later.deliverDue.tickAll.now = m.now + 1 :=
    m.later.deliverDue_fields.2
  have hnew : ∀ x ∈ m.later.deliverDue.tickAll.pops.filterMap Popped.sending?,
      x.sentAt = m.now + 1 ∧ m.now + 1 < x.packet.due := by
    intro x hx
    obtain ⟨hsent, hdue⟩ := mem_pops hx
    have hlatency : 0 <
        m.later.deliverDue.tickAll.latency x.packet.source x.packet.target :=
      m.later.deliverDue.tickAll.latency_pos _ _
    omega
  obtain ⟨hhanded, hsent⟩ := counts_step h.targets
  refine ⟨?_, ?_, ?_, ?_, ?_, ?_, ?_, ?_, ?_, ?_, h.located.stay m.stays_step⟩
  · rw [hflight, ← h.wire, List.filter_map, ← packets_pops, ← List.map_append]
    rfl
  · rw [hsent, h.sent, Watch.sent_step, List.length_append]
  · rw [hhanded, h.handed, ← h.map_due, List.length_map]
    show _ = (w.handed ++ List.map _ _).length
    rw [List.length_append, List.length_map]
  · have hsplit := List.filter_append_perm
      (fun x : Sending => x.packet.due ≤ m.later.now) w.flying
    rw [Watch.sent_step]
    simp only [Watch.after, List.map_append, List.map_map,
      Function.comp_def, List.map_id']
    rw [← List.append_assoc]
    refine List.Perm.append_right _ (h.once.trans ?_)
    rw [List.append_assoc]
    exact (hsplit.symm).append_left _
  · intro p hp
    rcases List.mem_append.1 hp with hp | hp
    · exact h.packed p hp
    · exact fun q hq => packet_of_mem_pops hp hq
  · intro x hx
    rw [now_step]
    rw [Watch.sent_step] at hx
    rcases List.mem_append.1 hx with hx | hx
    · have := h.lasting x hx
      omega
    · have := hnew x hx
      omega
  · rw [Watch.sent_step]
    refine List.pairwise_append.2 ⟨h.inTurn, ?_, ?_⟩
    · refine List.pairwise_of_forall_mem_list fun x hx y hy => ?_
      rw [(hnew x hx).1, (hnew y hy).1]
    · intro x hx y hy
      have := h.lasting x hx
      have := hnew y hy
      omega
  · intro x hx
    rcases List.mem_append.1 hx with hx | hx
    · exact h.onTime x hx
    · obtain ⟨y, hy, rfl⟩ := List.mem_map.1 hx
      obtain ⟨hflying, hdue⟩ := List.mem_filter.1 hy
      have hlater := h.pending y hflying
      have hdue : y.packet.due ≤ m.now + 1 := of_decide_eq_true hdue
      show m.now + 1 = y.packet.due
      omega
  · intro x hx
    rw [now_step]
    rcases List.mem_append.1 hx with hx | hx
    · have hlate := (List.mem_filter.1 hx).2
      rw [Bool.not_eq_true'] at hlate
      have hdue : ¬ x.packet.due ≤ m.now + 1 := of_decide_eq_false hlate
      omega
    · exact (hnew x hx).2
  · intro p hp
    rw [step_eq, nodes_transmitAll]
    refine (contains_popped m p.target).trans ?_
    rw [hflight] at hp
    rcases List.mem_append.1 hp with hp | hp
    · exact h.targets p (List.mem_of_mem_filter hp)
    · obtain ⟨l, -, hlocate, -⟩ := mem_arrivals_iff.1 hp
      have hlocated :=
        h.located.stay (m.stays_tickAll_deliverDue.trans (stays_popped _))
      obtain ⟨n, hn, -⟩ := (hlocated l.to p.target).1 hlocate
      rw [← contains_popped m p.target, Table.contains, hn]
      rfl

/-- The operation hands a frame to a node that did not come over the wire. -/
def Op.injects : Op → Bool
  | .call _ c => c.handsOver
  | _ => false

/-- Setting up a mesh is nothing to be seen, and neither are calls that
hand over no frame. -/
theorem Faithful.perform {w : Watch} (h : m.Faithful w) {op : Op}
    (hop : op.injects = false) : (m.perform op).Faithful (w.after m op) := by
  -- what is left to show if the wire and the counts of the mesh stay as they
  -- are
  have hsame : op ≠ .step →
      (m.perform op).nodes.total Node.refused = m.nodes.total Node.refused →
      (m.perform op).Faithful (w.after m op) := by
    intro hne htotal
    have hnodes := fun s => m.hasNode_perform (s := s) op
    have hlocated := h.located.perform op
    obtain ⟨stream, nodes, stations, latencies, heq⟩ := m.perform_of_ne_step hne
    rw [Watch.after_of_ne_step hne]
    rw [heq] at htotal hnodes hlocated ⊢
    exact h.of_wire rfl rfl rfl
      (congrArg (m.tally.framesDelivered + ·) htotal) hnodes hlocated
  have hsetup : op.isSetup = true →
      (m.perform op).nodes.total Node.refused = m.nodes.total Node.refused :=
    fun hsetup => Table.total_congr
      ((m.callsTo_perform hsetup).map_eq fun n c hc =>
      Node.refused_of_refusals
        (n.refusals_after (Node.Call.handsOver_of_isSetup hc)))
  cases op with
  | step => exact h.step
  | addNode s role =>
      refine hsame (by simp) ?_
      rcases m.addNode_snd s role with heq | ⟨id, stream, hnone, -, -, heq⟩
      · rw [Mesh.perform, heq]
      · rw [Mesh.perform, heq]
        exact Table.total_insert_of_none Node.refused hnone _
  | call s c =>
      refine hsame (by simp) (Table.total_congr fun t => ?_)
      rw [Mesh.perform, get?_call, Option.map_map]
      congr 1
      funext n
      simp only [Function.comp_apply]
      split
      · exact Node.refused_of_refusals (n.refusals_after hop)
      · rfl
  | _ => exact hsame (by simp) (hsetup rfl)

theorem Faithful.watch {x : Mesh × Watch} (h : x.1.Faithful x.2) {ops : List Op}
    (hops : ∀ op ∈ ops, op.injects = false) :
    (watch x ops).1.Faithful (watch x ops).2 := by
  induction ops generalizing x with
  | nil => exact h
  | cons op ops ih =>
      obtain ⟨hop, hops⟩ := List.forall_mem_cons.1 hops
      exact ih (h.perform hop) hops

/-! ## Frames of one link -/

/-- The packet went from one station to another, and after some tick. -/
def Sending.along (a b : Station) (start : Nat) (x : Sending) : Bool :=
  x.packet.source = a ∧ x.packet.target = b ∧ start < x.sentAt

/-- What went from one station to another after some tick is handed over in the
order in which it was put on the wire, and always takes the same time. -/
structure Ferries (a b : Station) (start ticks : Nat) (w : Watch) : Prop where
  order : w.sent.filter (Sending.along a b start) =
    (w.handed.map (·.2)).filter (Sending.along a b start) ++
      w.flying.filter (Sending.along a b start)
  delay : ∀ x ∈ w.sent, x.along a b start = true →
    x.packet.due = x.sentAt + ticks

section Ferries

variable {w : Watch} {a b : Station} {start ticks : Nat}

/-- Nothing was put on the wire yet after the present tick. -/
theorem Faithful.ferries (h : m.Faithful w) : Ferries a b m.now ticks w := by
  have hnone : ∀ x ∈ w.sent, ¬ x.along a b m.now = true := by
    intro x hx halong
    have hlater := (of_decide_eq_true halong).2.2
    have := h.lasting x hx
    omega
  have hseen : ∀ x ∈ w.handed.map (·.2) ++ w.flying,
      ¬ x.along a b m.now = true :=
    fun x hx => hnone x (h.once.mem_iff.2 hx)
  refine ⟨?_, fun x hx halong => absurd halong (hnone x hx)⟩
  rw [← List.filter_append, List.filter_eq_nil_iff.2 hnone,
    List.filter_eq_nil_iff.2 hseen]

/-- The frames of one link that are due are the first of those on the wire. -/
theorem Ferries.filter_flying (h : Ferries a b start ticks w)
    (hseen : m.Faithful w) (now : Nat) :
    (w.flying.filter fun x => x.packet.due ≤
      now).filter (Sending.along a b start) ++
      (w.flying.filter fun x =>
        !(x.packet.due ≤ now)).filter (Sending.along a b start) =
      w.flying.filter (Sending.along a b start) := by
  have hsublist :
      (w.flying.filter (Sending.along a b start)).Sublist w.sent := by
    refine List.Sublist.trans ?_
      (List.filter_sublist (p := Sending.along a b start))
    rw [h.order]
    exact List.sublist_append_right _ _
  have hsorted : (w.flying.filter (Sending.along a b start)).Pairwise
      fun x y => x.packet.due ≤ y.packet.due := by
    refine (hseen.inTurn.sublist hsublist).imp_of_mem fun {x y} hx hy hle => ?_
    have hdueX := h.delay x (hsublist.subset hx) (List.mem_filter.1 hx).2
    have hdueY := h.delay y (hsublist.subset hy) (List.mem_filter.1 hy).2
    omega
  have hsplit := filter_due_append (fun x : Sending => x.packet.due) hsorted now
  rw [List.filter_filter, List.filter_filter] at hsplit ⊢
  simp only [Bool.and_comm] at hsplit ⊢
  exact hsplit

/-- A step takes those frames off a link that were put on it first. -/
theorem Ferries.step (h : Ferries a b start ticks w) (hseen : m.Faithful w)
    (hlatency : m.latency a b = ticks) :
    Ferries a b start ticks (w.after m .step) := by
  refine ⟨?_, fun x hx halong => ?_⟩
  · rw [Watch.sent_step]
    simp only [Watch.after, Watch.due, List.map_append, List.map_map,
      Function.comp_def, List.map_id', List.filter_append]
    rw [h.order, ← h.filter_flying hseen m.later.now]
    simp only [List.append_assoc]
  · rw [Watch.sent_step] at hx
    rcases List.mem_append.1 hx with hx | hx
    · exact h.delay x hx halong
    · obtain ⟨hsent, hdue⟩ := mem_pops hx
      obtain ⟨hsource, htarget, -⟩ := of_decide_eq_true halong
      obtain ⟨hsettings, -, hlatencies, -, -⟩ := m.fields_tickAll_deliverDue
      rw [hdue, hsent, hsource, htarget, latency, hlatencies, hsettings]
      exact congrArg (_ + ·) hlatency

/-- The latency of a link is the same before and after each of the
operations. -/
def LatencyStays (a b : Station) (ticks : Nat) : Mesh → List Op → Prop
  | m, [] => m.latency a b = ticks
  | m, op :: ops =>
    m.latency a b = ticks ∧ LatencyStays a b ticks (m.perform op) ops

instance decidableLatencyStays (a b : Station) (ticks : Nat) :
    (m : Mesh) → (ops : List Op) → Decidable (LatencyStays a b ticks m ops)
  | m, [] => inferInstanceAs (Decidable (m.latency a b = ticks))
  | m, op :: ops =>
    have := decidableLatencyStays a b ticks (m.perform op) ops
    inferInstanceAs (Decidable (_ ∧ _))

theorem LatencyStays.latency_eq {ops : List Op}
    (h : LatencyStays a b ticks m ops) : m.latency a b = ticks := by
  cases ops with
  | nil => exact h
  | cons op ops => exact h.1

/-- As long as its latency stays what it is, a link goes on to
keep frames in order. -/
theorem Ferries.watch {x : Mesh × Watch} (h : Ferries a b start ticks x.2)
    (hseen : x.1.Faithful x.2) {ops : List Op}
    (hops : ∀ op ∈ ops, op.injects = false)
    (hstays : LatencyStays a b ticks x.1 ops) :
    Ferries a b start ticks (watch x ops).2 := by
  induction ops generalizing x with
  | nil => exact h
  | cons op ops ih =>
      obtain ⟨hop, hops⟩ := List.forall_mem_cons.1 hops
      have hone : Ferries a b start ticks (x.2.after x.1 op) := by
        by_cases hstep : op = .step
        · rw [hstep]
          exact h.step hseen hstays.1
        · rw [Watch.after_of_ne_step hstep]
          exact h
      exact ih hone (hseen.perform hop) hops hstays.2

end Ferries

end Mesh

end OnMesh
