import OnMesh.Proofs.Mesh.Mail
import OnMesh.Proofs.Mesh.Stations
import OnMesh.Proofs.Node.Turns
import Mathlib.Order.Interval.Set.Defs

/-!
# Nodes in a row

A chain leads from a leader over relays to a leaf, and all of its links take the
same time.  `Scene` says where on the chain what is held, whether the last link
is open on either side, and what waits to be sent; `Shows` says that a mesh is
just such a chain.  A tick takes a mesh from one scene to another if every node
has its turn, sending puts what waits on the wire, and a call changes the scene
at one position.
-/

namespace OnMesh

open Wire (Frame Message)

/-- Nodes in a row: the leader first, then relays, a leaf last. -/
structure Chain where
  /-- The position of the leaf. -/
  last : Nat
  post : Nat → Station
  id : Nat → NodeId
  settings : NodeSettings
  /-- The latency of every link. -/
  ticks : Nat
  last_pos : 0 < last
  post_inj : Set.InjOn post (Set.Iic last)
  id_inj : Set.InjOn id (Set.Iic last)
  valid : settings.validate = .ok ()
  inbound_pos : 0 < settings.maxInbound
  outbound_pos : 0 < settings.maxOutbound
  ticks_pos : 0 < ticks

/-- The data at some position, and the delta that led to them. -/
structure Edition where
  data : NetworkData
  lastDelta : Option Delta

/-- Nothing is held yet. -/
def Edition.initial : Edition := ⟨NetworkData.empty, none⟩

/-- What is seen of a chain. -/
structure Scene where
  held : Nat → Edition
  /-- The node before the leaf admits the leaf. -/
  up : Bool
  /-- The leaf admits the node before it. -/
  down : Bool
  /-- What waits to be sent. -/
  out : Nat → List Outbound

/-- The scene in which nothing waits to be sent. -/
def Scene.quiet (sc : Scene) : Scene := { sc with out := fun _ => [] }

/-- What holds of every node once it was built. -/
structure Node.Proper (n : Node) : Prop where
  upright : Mesh.Upright n
  configured : n.Configured

theorem Node.Proper.after {n : Node} (h : n.Proper) (c : Node.Call) :
    (n.after c).Proper :=
  ⟨h.upright.after c, h.configured.after c⟩

namespace Chain

variable {c : Chain} {i j k : Nat}

/-- The role of the node at a position. -/
def roleAt (last i : Nat) : Role :=
  if i = 0 then .authority else if i = last then .leaf else .relay

def role (c : Chain) (i : Nat) : Role := roleAt c.last i

/-- The replica of the node at a position that holds an edition. -/
def replica (c : Chain) (i : Nat) (e : Edition) : Replica :=
  ⟨c.id i, (c.role i).canPublish, e.data, e.lastDelta, []⟩

theorem eq_replica (c : Chain) {r : Replica} (howner : r.owner = c.id i)
    (hauthority : r.authority = (c.role i).canPublish)
    (hnotices : r.notices = []) : r = c.replica i ⟨r.data, r.lastDelta⟩ := by
  rw [replica, ← howner, ← hauthority, ← hnotices]

def Adjacent (c : Chain) (i j : Nat) : Prop :=
  j ≤ c.last ∧ (j = i + 1 ∨ i = j + 1)

/-- The nodes at two positions are neighbours, and the first one admits the
other. -/
def Admits (c : Chain) (sc : Scene) (i j : Nat) : Prop :=
  c.Adjacent i j ∧ (j = i + 1 → j = c.last → sc.up = true) ∧
    (i = j + 1 → i = c.last → sc.down = true)

theorem role_zero : c.role 0 = .authority := rfl

theorem role_last : c.role c.last = .leaf := by
  rw [role, roleAt, if_neg (Nat.ne_of_gt c.last_pos), if_pos rfl]

theorem canPublish_role_iff : (c.role i).canPublish = true ↔ i = 0 := by
  rw [role, roleAt]
  split
  · next h => simp [h, Role.canPublish]
  · next h => split <;> simp [h, Role.canPublish]

theorem forwards_role_iff (hi : i ≠ 0) :
    (c.role i).forwards = true ↔ i ≠ c.last := by
  rw [role, roleAt, if_neg hi]
  split
  · next h => simp [h, Role.forwards]
  · next h => simp [h, Role.forwards]

/-- What holds of the node at a position. -/
structure Sits (c : Chain) (sc : Scene) (i : Nat) (n : Node) : Prop where
  id : n.id = c.id i
  role : n.role = c.role i
  settings : n.settings = c.settings
  started : n.started = true
  knows : ∀ j, c.Adjacent i j → n.links.hasNeighbour (c.id j) = true
  admits : ∀ b, n.isAdmissible b = true ↔ ∃ j, c.Admits sc i j ∧ b = c.id j
  replica : n.replica = c.replica i (sc.held i)
  retiring : n.pool.retiring = Table.empty
  incoming : n.incoming = []
  outgoing : n.outgoing = (sc.out i).map (Outgoing.ofOutbound n.id)

/-- The mesh is the chain, as it is seen. -/
structure Shows (c : Chain) (sc : Scene) (m : Mesh) : Prop where
  node : ∀ i ≤ c.last, ∃ n, m.nodes.get? (c.post i) = some n ∧ c.Sits sc i n
  only : m.Each fun s _ => ∃ i ≤ c.last, s = c.post i
  linked : ∀ i < c.last,
    m.latencies.contains (Arc.link (c.post i) (c.post (i + 1))) = true
  latency : ∀ s t, m.latency s t = c.ticks
  located : m.Located
  proper : m.Each fun _ n => n.Proper

variable {sc sc' : Scene} {m m' : Mesh} {n : Node}

theorem Sits.isAdmissible_iff (h : c.Sits sc i n) (hj : j ≤ c.last) :
    n.isAdmissible (c.id j) = true ↔ c.Admits sc i j := by
  rw [h.admits]
  constructor
  · rintro ⟨k, hadm, hid⟩
    rwa [c.id_inj hj hadm.1.1 hid]
  · exact fun hadm => ⟨j, hadm, rfl⟩

theorem Sits.notices (h : c.Sits sc i n) : n.replica.notices = [] := by
  rw [h.replica]
  rfl

theorem Sits.data (h : c.Sits sc i n) : n.data = (sc.held i).data := by
  rw [Node.data, h.replica]
  rfl

theorem Shows.sits (h : c.Shows sc m) (hi : i ≤ c.last)
    (hn : m.nodes.get? (c.post i) = some n) : c.Sits sc i n := by
  obtain ⟨k, hk, hsits⟩ := h.node i hi
  cases hn.symm.trans hk
  exact hsits

theorem Shows.locate?_id (h : c.Shows sc m) (hi : i ≤ c.last) :
    m.locate? (c.id i) = some (c.post i) := by
  obtain ⟨n, hn, hsits⟩ := h.node i hi
  exact (h.located.locate?_eq_some_iff hn).2 hsits.id.symm

theorem Shows.attachment (h : c.Shows sc m) (hi : i ≤ c.last) :
    m.attachment (c.post i) = .ok (Attachment.ofRole (c.role i) true) := by
  obtain ⟨n, hn, hsits⟩ := h.node i hi
  rw [Mesh.attachment, Mesh.node, hn, ← hsits.role, ← hsits.started]
  rfl

/-- Nothing is seen but nodes and links. -/
theorem Shows.of_nodes (h : c.Shows sc m) (hnodes : m'.nodes = m.nodes)
    (hstations : m'.stations = m.stations)
    (hlatencies : m'.latencies = m.latencies)
    (hsettings : m'.settings = m.settings) : c.Shows sc m' where
  node := by
    rw [hnodes]
    exact h.node
  only := h.only.of_nodes hnodes
  linked := by
    rw [hlatencies]
    exact h.linked
  latency := by
    intro s t
    rw [← h.latency s t, Mesh.latency, Mesh.latency, hlatencies, hsettings]
  located := h.located.of_tables hnodes hstations
  proper := h.proper.of_nodes hnodes

/-- If every node goes over into one that sits in another scene, the
mesh goes over to it. -/
theorem Shows.map (h : c.Shows sc m) {f : Station → Node → Node}
    (hnodes : ∀ s, m'.nodes.get? s = (m.nodes.get? s).map (f s))
    (hstations : m'.stations = m.stations)
    (hlatencies : m'.latencies = m.latencies)
    (hsettings : m'.settings = m.settings)
    (hproper : m'.Each fun _ n => n.Proper)
    (hf : ∀ i ≤ c.last, ∀ n, m.nodes.get? (c.post i) = some n → c.Sits sc i n →
      c.Sits sc' i (f (c.post i) n)) : c.Shows sc' m' where
  node := by
    intro i hi
    obtain ⟨n, hn, hsits⟩ := h.node i hi
    refine ⟨f (c.post i) n, ?_, hf i hi n hn hsits⟩
    rw [hnodes, hn]
    rfl
  only := by
    intro s n' hn'
    rw [hnodes, Option.map_eq_some_iff] at hn'
    obtain ⟨n, hn, -⟩ := hn'
    exact h.only s n hn
  linked := by
    rw [hlatencies]
    exact h.linked
  latency := by
    intro s t
    rw [← h.latency s t, Mesh.latency, Mesh.latency, hlatencies, hsettings]
  located := by
    refine h.located.stay
      (Mesh.stays_of_map hnodes (fun s n hn => ?_) hstations)
    obtain ⟨i, hi, rfl⟩ := h.only s n hn
    have hsits := h.sits hi hn
    exact (hf i hi n hn hsits).id.trans hsits.id.symm
  proper := hproper

/-! ## Ticks -/

/-- A node that has had its turn sits where it sat. -/
theorem Sits.of_turns {out : List Outbound} {r : Replica} {k : Node}
    (h : c.Sits sc i n) (hturns : Node.Turns n out r k) {e : Edition}
    (hr : r.takeNotices.2 = c.replica i e) (hheld : sc'.held i = e)
    (hout : sc'.out i = sc.out i ++ out) (hup : sc'.up = sc.up)
    (hdown : sc'.down = sc.down) : c.Sits sc' i k where
  id := hturns.alike.id.trans h.id
  role := hturns.alike.role.trans h.role
  settings := hturns.alike.settings.trans h.settings
  started := hturns.started.trans h.started
  knows := by
    rw [hturns.links]
    exact h.knows
  admits := by
    intro b
    rw [Node.isAdmissible, hturns.links]
    simp only [Admits, hup, hdown]
    exact h.admits b
  replica := by rw [hturns.replica, hr, hheld]
  retiring := hturns.retiring h.retiring
  incoming := hturns.incoming
  outgoing := by
    rw [hturns.outgoing, hturns.alike.id, h.outgoing, hout, List.map_append]

/-- If every node has its turn, what they have learnt and what they
have to send is seen. -/
theorem Shows.ticked (h : c.Shows sc m) (held : Nat → Edition)
    (out : Nat → List Outbound)
    (hturns : ∀ i ≤ c.last, ∀ n, m.nodes.get? (c.post i) = some n →
      c.Sits sc i n → ∃ r,
        Node.Turns n (out i) r
          ((n.receivedAll (m.arriving (c.post i))).tick (m.now + 1)) ∧
        r.takeNotices.2 = c.replica i (held i)) :
    c.Shows ⟨held, sc.up, sc.down, fun i => sc.out i ++ out i⟩
      m.later.deliverDue.tickAll := by
  obtain ⟨hsettings, hstations, hlatencies, -, -⟩ := m.fields_tickAll_deliverDue
  refine h.map m.get?_tickAll_deliverDue hstations hlatencies hsettings ?_
    fun i hi n hn hsits => ?_
  · have hdelivered : m.later.deliverDue.Each fun _ n => n.Proper :=
      Mesh.Each.deliverDue (fun _ _ c hn => hn.after c) (h.proper.of_nodes rfl)
    exact hdelivered.map fun _ _ hn => hn.after (.tick _)
  · obtain ⟨r, hturn, hr⟩ := hturns i hi n hn hsits
    exact hsits.of_turns hturn hr rfl rfl rfl rfl

/-- Nothing changes at a node to which nothing that comes in means anything. -/
theorem Sits.turns_of_overhears (h : c.Sits sc i n) {bss : List (List UInt8)}
    (hover : ∀ frame ∈ Node.readable bss, n.Overhears frame) (now : Nat) :
    ∃ r, Node.Turns n [] r ((n.receivedAll bss).tick now) ∧
      r.takeNotices.2 = c.replica i (sc.held i) := by
  refine ⟨n.replica, Node.turns_of_overhears h.incoming h.notices hover now, ?_⟩
  rw [h.replica]
  rfl

/-! ## Sending -/

theorem Shows.popped (h : c.Shows sc m) : c.Shows sc.quiet m.popped := by
  refine h.map (fun s => Table.get?_map _ _ s) rfl rfl rfl ?_
    fun i hi n hn hsits => ?_
  · exact h.proper.map fun s n hn =>
      Mesh.each_popAll (P := fun _ n => n.Proper) (s := s)
      (fun _ _ c hn => hn.after c) hn
  · obtain ⟨tally, hpop⟩ := n.popAll_spec
    rw [hpop]
    exact ⟨hsits.id, hsits.role, hsits.settings, hsits.started, hsits.knows,
      hsits.admits, hsits.replica, hsits.retiring, hsits.incoming, rfl⟩

theorem Shows.transmitted (h : c.Shows sc m) :
    c.Shows sc.quiet m.transmitAll := by
  obtain ⟨tally, heq⟩ := m.transmitAll_spec
  rw [heq]
  exact h.popped.of_nodes rfl rfl rfl rfl

/-- What waits at one position only. -/
def solely (i : Nat) (out : List Outbound) : Nat → List Outbound :=
  fun k => if k = i then out else []

theorem solely_self (i : Nat) (out : List Outbound) : solely i out i = out :=
  if_pos rfl

theorem solely_of_ne (out : List Outbound) (h : k ≠ i) : solely i out k = [] :=
  if_neg h

theorem solely_nil (i : Nat) : solely i [] = fun _ => [] := by
  funext k
  exact ite_self _

theorem Sits.letters_of_nil (h : c.Sits sc i n) (hout : sc.out i = [])
    (s : Station) : Mesh.letters s n.popAll.1 = [] := by
  obtain ⟨tally, hpop⟩ := n.popAll_spec
  rw [hpop, Node.sendable, h.outgoing, hout]
  rfl

/-- A frame that can be written leaves for a neighbour that is admitted. -/
theorem Sits.letters_of_one (h : c.Sits sc i n) {message : Message}
    (hout : sc.out i = [⟨c.id j, message⟩]) (hadm : c.Admits sc i j)
    {bytes : List UInt8}
    (hbytes : (Frame.make (c.id i) message).serialize = .ok bytes)
    (s : Station) : Mesh.letters s n.popAll.1 = [⟨s, c.id j, bytes⟩] := by
  obtain ⟨tally, hpop⟩ := n.popAll_spec
  have hadmits : n.isAdmissible (c.id j) = true :=
    (h.isAdmissible_iff hadm.1.1).2 hadm
  have hsendable : n.sendable =
      [Outgoing.ofOutbound n.id ⟨c.id j, message⟩] := by
    rw [Node.sendable, h.outgoing, hout]
    exact List.filter_cons_of_pos hadmits
  rw [hpop, hsendable, h.id]
  simp [Mesh.letters, Outgoing.ofOutbound, hbytes]

/-- Every letter is a message that waits somewhere. -/
theorem Shows.of_mem_posted (h : c.Shows sc m) {l : Mesh.Letter}
    (hl : l ∈ m.posted) :
    ∃ i ≤ c.last, ∃ o ∈ sc.out i,
      (Frame.make (c.id i) o.message).serialize = .ok l.bytes := by
  obtain ⟨n, hn, hl⟩ := Mesh.mem_posted_iff.1 hl
  obtain ⟨i, hi, hpost⟩ := h.only _ _ hn
  rw [hpost] at hn
  have hsits := h.sits hi hn
  obtain ⟨tally, hpop⟩ := n.popAll_spec
  rw [hpop, Mesh.letters, List.mem_filterMap] at hl
  obtain ⟨frame, hframe, hl⟩ := hl
  have hwaits := List.mem_of_mem_filter hframe
  rw [hsits.outgoing, List.mem_map] at hwaits
  obtain ⟨o, ho, rfl⟩ := hwaits
  rw [Outgoing.ofOutbound, hsits.id] at hl
  refine ⟨i, hi, o, ho, ?_⟩
  cases hbytes : (Frame.make (c.id i) o.message).serialize with
  | ok bytes =>
      simp only [hbytes, Option.some.injEq] at hl
      rw [← hl]
  | error fault =>
      simp only [hbytes] at hl
      cases hl

/-- If nothing waits, nothing is put on the wire. -/
theorem Shows.inFlight_of_quiet (h : c.Shows sc m)
    (hout : ∀ i ≤ c.last, sc.out i = []) :
    m.transmitAll.inFlight = m.inFlight := by
  have hposted : m.posted = [] := by
    rw [Mesh.posted, List.flatMap_eq_nil_iff]
    intro e he
    have hget := Table.get?_of_mem he
    obtain ⟨i, hi, hpost⟩ := h.only _ _ hget
    rw [hpost] at hget
    exact (h.sits hi hget).letters_of_nil (hout i hi) _
  obtain ⟨tally, heq⟩ := m.transmitAll_spec
  rw [heq, hposted]
  exact List.append_nil _

/-- A message that waits at one position becomes a packet. -/
theorem Shows.inFlight_of_solely (h : c.Shows sc m) (hi : i ≤ c.last)
    {message : Message} (hout : sc.out = solely i [⟨c.id j, message⟩])
    (hadm : c.Admits sc i j) {bytes : List UInt8}
    (hbytes : (Frame.make (c.id i) message).serialize = .ok bytes) :
    m.transmitAll.inFlight =
      m.inFlight ++ [⟨m.now + c.ticks, c.post i, c.post j, bytes⟩] := by
  obtain ⟨n, hn, hsits⟩ := h.node i hi
  have hposted : m.posted = [⟨c.post i, c.id j, bytes⟩] := by
    rw [Mesh.posted, Table.flatMap_entries_eq hn fun e he hne => ?_]
    · exact hsits.letters_of_one (by rw [hout, solely_self]) hadm hbytes _
    · have hget := Table.get?_of_mem he
      obtain ⟨k, hk, hpost⟩ := h.only _ _ hget
      rw [hpost] at hget
      refine (h.sits hk hget).letters_of_nil ?_ _
      rw [hout, solely_of_ne _ fun hki => hne (by rw [hpost, hki])]
  have hlocate : m.popped.locate? (c.id j) = some (c.post j) :=
    h.popped.locate?_id hadm.1.1
  obtain ⟨tally, heq⟩ := m.transmitAll_spec
  rw [heq, hposted]
  show m.inFlight ++ m.popped.arrivals [⟨c.post i, c.id j, bytes⟩] = _
  rw [Mesh.arrivals, List.filterMap_cons, hlocate, Option.map_some,
    h.popped.latency]
  rfl

end Chain

end OnMesh
