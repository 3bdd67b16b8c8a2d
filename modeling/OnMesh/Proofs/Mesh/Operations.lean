import OnMesh.Mesh
import OnMesh.Proofs.Node.Calls

/-!
# Operations on a mesh

Whatever is asked of a mesh comes down to calls on its nodes.  `Mesh.call` is
one such call, and the operations on one node are equal to it; a step of the
mesh hands bytes to nodes, ticks all of them, and pops what they have to send.
What every call on a node keeps is therefore kept by every operation.
-/

namespace OnMesh

namespace Mesh

variable {m : Mesh} {s : Station}

/-- The mesh after a call on the node at a station, if there is one. -/
def call (m : Mesh) (s : Station) (c : Node.Call) : Mesh :=
  match m.nodes.get? s with
  | some n => m.setNode s (n.after c)
  | none => m

theorem call_of_some {n : Node} (h : m.nodes.get? s = some n) (c : Node.Call) :
    m.call s c = m.setNode s (n.after c) := by
  rw [call, h]

theorem call_of_none (h : m.nodes.get? s = none) (c : Node.Call) :
    m.call s c = m := by
  rw [call, h]

/-- A call on a node changes nothing but nodes. -/
theorem call_eq (m : Mesh) (s : Station) (c : Node.Call) :
    m.call s c = { m with nodes := (m.call s c).nodes } := by
  rw [call]
  split
  · rfl
  · rfl

theorem get?_call (m : Mesh) (s : Station) (c : Node.Call) (t : Station) :
    (m.call s c).nodes.get? t =
      (m.nodes.get? t).map fun n => if t = s then n.after c else n := by
  cases hs : m.nodes.get? s with
  | none =>
      rw [call_of_none hs]
      by_cases hts : t = s
      · rw [hts, hs]
        rfl
      · simp [hts]
  | some n =>
      rw [call_of_some hs, setNode, Table.get?_insert]
      by_cases hts : t = s
      · rw [if_pos hts, hts, hs]
        simp
      · simp [hts]

theorem onNode_snd {α : Type} {f : Node → α × Node} {c : Node.Call}
    (hf : ∀ n, (f n).2 = n.after c) : (m.onNode s f).2 = m.call s c := by
  rw [onNode, node]
  cases h : m.nodes.get? s with
  | none => rw [call_of_none h]
  | some n =>
      rw [call_of_some h, ← hf n]

theorem tryOnNode_snd {α : Type} {f : Node → Except Fault α × Node}
    {c : Node.Call} (hf : ∀ n, (f n).2 = n.after c) :
    (m.tryOnNode s f).2 = m.call s c := by
  have hcall : (m.onNode s f).2 = m.call s c := onNode_snd hf
  rw [tryOnNode]
  split
  · next h => rw [← hcall, h]
  · next h => rw [← hcall, h]

theorem tryOnNode_fst {α : Type} {f : Node → Except Fault α × Node} {n : Node}
    (hn : m.nodes.get? s = some n) : (m.tryOnNode s f).1 = (f n).1 := by
  rw [tryOnNode, onNode, node, hn]

theorem addNeighbour_snd (m : Mesh) (s : Station) (id : NodeId) :
    (m.addNeighbour s id).2 = m.call s (.addNeighbour id) :=
  onNode_snd fun _ => rfl

theorem addPrefix_snd (m : Mesh) (s : Station) (net : Prefix) (flags : Flags) :
    (m.addPrefix s net flags).2 = m.call s (.addPrefix net flags) :=
  tryOnNode_snd fun _ => rfl

theorem setAdmissible_of_some {a b : Station} {n : Node}
    (h : m.nodes.get? b = some n) (admissible : Bool) :
    (m.setAdmissible a b admissible).2 =
      m.call a (.setAdmissible n.id admissible) := by
  rw [setAdmissible, hardwareId, node, h]
  exact onNode_snd fun _ => rfl

theorem setAdmissible_of_none {a b : Station} (h : m.nodes.get? b = none)
    (admissible : Bool) : (m.setAdmissible a b admissible).2 = m := by
  rw [setAdmissible, hardwareId, node, h]
  rfl

/-- If both stations have a node, a change of admissibility is not refused. -/
theorem setAdmissible_eq {a b : Station} {x y : Node}
    (hx : m.nodes.get? a = some x) (hy : m.nodes.get? b = some y)
    (admissible : Bool) :
    ∃ transition, m.setAdmissible a b admissible =
      (.ok transition, m.call a (.setAdmissible y.id admissible)) := by
  refine ⟨(x.setAdmissible y.id admissible).1,
    Prod.ext ?_ (setAdmissible_of_some hy admissible)⟩
  rw [setAdmissible, hardwareId, node, hy]
  simp only [Except.map]
  rw [onNode, node, hx]

/-- A change of admissibility is a call on a node, or nothing. -/
theorem setAdmissible_snd (m : Mesh) (a b : Station) (admissible : Bool) :
    (∃ n, m.nodes.get? b = some n ∧
      (m.setAdmissible a b admissible).2 =
        m.call a (.setAdmissible n.id admissible)) ∨
    (m.setAdmissible a b admissible).2 = m := by
  cases h : m.nodes.get? b with
  | some n => exact Or.inl ⟨n, rfl, setAdmissible_of_some h admissible⟩
  | none => exact Or.inr (setAdmissible_of_none h admissible)

theorem setLinkAdmissible_snd (m : Mesh) (a b : Station) (admissible : Bool) :
    (m.setLinkAdmissible a b admissible).2 =
      (m.setAdmissible a b admissible).2 ∨
    (m.setLinkAdmissible a b admissible).2 =
      ((m.setAdmissible a b admissible).2.setAdmissible b a admissible).2 := by
  rw [setLinkAdmissible]
  rcases m.setAdmissible a b admissible with ⟨fault | transition, m'⟩
  · exact Or.inl rfl
  · right
    rcases hback : m'.setAdmissible b a admissible
      with ⟨fault | transition, m''⟩
    · simp only [hback]
    · simp only [hback]

/-! ## Operations that change nodes only -/

/-- The second mesh differs from the first one in its nodes at most. -/
def NodesOnly (m m' : Mesh) : Prop := ∃ nodes, m' = { m with nodes }

theorem NodesOnly.refl (m : Mesh) : m.NodesOnly m := ⟨m.nodes, rfl⟩

theorem NodesOnly.trans {m' m'' : Mesh} (h : m.NodesOnly m')
    (h' : m'.NodesOnly m'') : m.NodesOnly m'' := by
  obtain ⟨nodes, rfl⟩ := h
  obtain ⟨nodes', rfl⟩ := h'
  exact ⟨nodes', rfl⟩

/-- What is under way is not at a node. -/
theorem NodesOnly.inFlight_eq {m' : Mesh} (h : m.NodesOnly m') :
    m'.inFlight = m.inFlight := by
  obtain ⟨nodes, rfl⟩ := h
  rfl

theorem NodesOnly.latencies_eq {m' : Mesh} (h : m.NodesOnly m') :
    m'.latencies = m.latencies := by
  obtain ⟨nodes, rfl⟩ := h
  rfl

theorem nodesOnly_call (m : Mesh) (s : Station) (c : Node.Call) :
    m.NodesOnly (m.call s c) :=
  ⟨_, m.call_eq s c⟩

theorem inFlight_call (m : Mesh) (s : Station) (c : Node.Call) :
    (m.call s c).inFlight = m.inFlight := (m.nodesOnly_call s c).inFlight_eq

theorem nodesOnly_setAdmissible (m : Mesh) (a b : Station) (admissible : Bool) :
    m.NodesOnly (m.setAdmissible a b admissible).2 := by
  rcases m.setAdmissible_snd a b admissible with ⟨n, -, heq⟩ | heq
  · rw [heq]
    exact m.nodesOnly_call a _
  · rw [heq]
    exact NodesOnly.refl m

theorem nodesOnly_setLinkAdmissible (m : Mesh) (a b : Station)
    (admissible : Bool) :
    m.NodesOnly (m.setLinkAdmissible a b admissible).2 := by
  have hforth := m.nodesOnly_setAdmissible a b admissible
  rcases m.setLinkAdmissible_snd a b admissible with heq | heq
  · exact heq ▸ hforth
  · exact heq ▸ hforth.trans (nodesOnly_setAdmissible _ b a admissible)

/-- Two stations that both have a node are linked; otherwise nothing happens. -/
theorem linkWithLatency_cases (m : Mesh) (a b : Station) (ticks : Nat) :
    (m.nodes.contains a = true ∧ m.nodes.contains b = true ∧
      ({ m with latencies := m.latencies.insert (Arc.link a b) (max ticks 1) } :
        Mesh).NodesOnly
        (m.linkWithLatency a b ticks).2) ∨
    (¬ (m.nodes.contains a = true ∧ m.nodes.contains b = true) ∧
      (m.linkWithLatency a b ticks).2 = m) := by
  rw [Table.contains, Table.contains, linkWithLatency, hardwareId,
    hardwareId, node, node]
  cases hx : m.nodes.get? a with
  | none => exact Or.inr ⟨by simp, rfl⟩
  | some x =>
      cases hy : m.nodes.get? b with
      | none => exact Or.inr ⟨by simp, rfl⟩
      | some y =>
          refine Or.inl ⟨rfl, rfl, ?_⟩
          show NodesOnly _ (m.join a b x.id y.id ticks)
          rw [join, addNeighbour_snd, addNeighbour_snd]
          exact ((nodesOnly_call _ a _).trans (nodesOnly_call _ b _)).trans
            (nodesOnly_setLinkAdmissible _ a b true)

/-! ## New nodes -/

theorem isFresh_of_drawFresh? {draws : Nat} {stream rest : KeyStream}
    {id : NodeId} (h : m.drawFresh? draws stream = some (id, rest)) :
    m.isFresh id = true := by
  induction draws generalizing stream with
  | zero => cases h
  | succ draws ih =>
      rw [drawFresh?] at h
      by_cases hfresh : m.isFresh ⟨stream.next.1⟩ = true
      · simp only [hfresh, if_true] at h
        cases h
        exact hfresh
      · simp only [hfresh] at h
        exact ih h

/-- A fresh hardware address is not zero, and no node has it. -/
theorem isFresh_iff {id : NodeId} :
    m.isFresh id = true ↔ id ≠ NodeId.zero ∧ m.locate? id = none := by
  rw [isFresh, Bool.and_eq_true, bne_iff_ne, Option.isNone_iff_eq_none]

/-- A node is added with a fresh hardware address, or nothing happens. -/
theorem addNode_cases (m : Mesh) (s : Station) (role : Role) :
    (m.addNode s role).2 = m ∨ ∃ id stream, m.nodes.get? s = none ∧
      m.settings.node.validate = .ok () ∧ m.isFresh id = true ∧
      (m.addNode s role).2 = { m with
        stream
        nodes := m.nodes.insert s (Node.make id role m.settings.node)
        stations := m.stations.insert id s } := by
  rw [addNode]
  cases hs : m.nodes.get? s with
  | some n => exact Or.inl rfl
  | none =>
      cases hvalid : m.settings.node.validate with
      | error fault => exact Or.inl rfl
      | ok _ =>
          cases hdraw : m.drawFresh? mostDraws m.stream with
          | none => exact Or.inl rfl
          | some drawn =>
              obtain ⟨id, stream⟩ := drawn
              exact Or.inr ⟨id, stream, rfl, rfl,
                isFresh_of_drawFresh? hdraw, rfl⟩

/-- A node is added with a hardware address that no other node has,
or nothing happens. -/
theorem addNode_snd (m : Mesh) (s : Station) (role : Role) :
    (m.addNode s role).2 = m ∨ ∃ id stream, m.nodes.get? s = none ∧
      m.settings.node.validate = .ok () ∧ m.locate? id = none ∧
      (m.addNode s role).2 = { m with
        stream
        nodes := m.nodes.insert s (Node.make id role m.settings.node)
        stations := m.stations.insert id s } := by
  rcases m.addNode_cases s role
    with heq | ⟨id, stream, hnone, hvalid, hfresh, heq⟩
  · exact Or.inl heq
  · exact Or.inr ⟨id, stream, hnone, hvalid, (isFresh_iff.1 hfresh).2, heq⟩

/-! ## Steps -/

theorem deliver_of_some {p : Packet} {n : Node}
    (h : m.nodes.get? p.target = some n) :
    ∃ tally, m.deliver p = { m with
      nodes := m.nodes.insert p.target (n.after (.queueBytes p.bytes)),
      tally } := by
  rw [deliver, h]
  refine ⟨if (n.queueBytes p.bytes).1 then
    { m.tally with framesDelivered := m.tally.framesDelivered + 1 }
      else m.tally, ?_⟩
  show (if (n.queueBytes p.bytes).1 = true then _ else _) = _
  split <;> rfl

theorem deliver_of_none {p : Packet} (h : m.nodes.get? p.target = none) :
    m.deliver p = m := by
  rw [deliver, h]

def due (m : Mesh) : List Packet := m.inFlight.filter fun p => p.due ≤ m.now

/-- Delivering changes nothing but nodes, and what is counted. -/
theorem foldl_deliver_spec (m : Mesh) (ps : List Packet) :
    ∃ nodes tally, ps.foldl deliver m = { m with nodes, tally } := by
  induction ps generalizing m with
  | nil => exact ⟨m.nodes, m.tally, rfl⟩
  | cons p ps ih =>
      rw [List.foldl_cons]
      cases hp : m.nodes.get? p.target with
      | none =>
          rw [deliver_of_none hp]
          exact ih m
      | some n =>
          obtain ⟨tally, heq⟩ := deliver_of_some hp
          rw [heq]
          exact ih _

/-- Delivering takes nothing else off the wire and takes no time. -/
theorem foldl_deliver_fields (m : Mesh) (ps : List Packet) :
    (ps.foldl deliver m).inFlight = m.inFlight ∧
    (ps.foldl deliver m).now = m.now := by
  obtain ⟨nodes, tally, heq⟩ := foldl_deliver_spec m ps
  rw [heq]
  exact ⟨rfl, rfl⟩

theorem deliverDue_fields (m : Mesh) :
    m.deliverDue.inFlight = m.inFlight.filter (fun p => !(p.due ≤ m.now)) ∧
      m.deliverDue.now = m.now :=
  foldl_deliver_fields _ m.due

/-- The packets that frames become; those without an addressee become none. -/
def arrivals (m : Mesh) (ls : List Letter) : List Packet :=
  ls.filterMap fun l => (m.locate? l.to).map fun target =>
    ⟨m.now + m.latency l.source target, l.source, target, l.bytes⟩

/-- Letters become packets at the end of the wire; besides, only counts
change. -/
theorem foldl_transmit_spec (m : Mesh) (ls : List Letter) :
    ∃ tally, ls.foldl transmit m =
      { m with inFlight := m.inFlight ++ m.arrivals ls, tally } := by
  induction ls generalizing m with
  | nil => exact ⟨m.tally, by simp [arrivals]⟩
  | cons l ls ih =>
      rw [List.foldl_cons, transmit]
      cases hlocate : m.locate? l.to with
      | none =>
          obtain ⟨tally, heq⟩ := ih { m with tally := { m.tally with
            framesUnroutable := m.tally.framesUnroutable + 1 } }
          refine ⟨tally, heq.trans ?_⟩
          rw [arrivals, arrivals, List.filterMap_cons, hlocate]
          rfl
      | some target =>
          obtain ⟨tally, heq⟩ := ih { m with
            inFlight := m.inFlight ++
              [⟨m.now + m.latency l.source target, l.source, target, l.bytes⟩]
            tally := { m.tally with
              framesSent := m.tally.framesSent + 1
              bytesSent := m.tally.bytesSent + l.bytes.length } }
          refine ⟨tally, heq.trans ?_⟩
          rw [arrivals, arrivals, List.filterMap_cons, hlocate,
            List.append_assoc]
          rfl

/-- What the nodes have to send, in the order of their stations. -/
def posted (m : Mesh) : List Letter :=
  m.nodes.entries.flatMap fun e => letters e.1 e.2.popAll.1

/-- The mesh once the nodes have handed out what they have to send. -/
def popped (m : Mesh) : Mesh :=
  { m with nodes := m.nodes.map fun n => n.popAll.2 }

theorem transmitAll_eq (m : Mesh) :
    m.transmitAll = m.posted.foldl transmit m.popped := by
  have hnodes : (m.nodes.map Node.popAll).map (·.2) = m.nodes.map fun n =>
      n.popAll.2 := by
    apply Table.ext_get?
    intro k
    simp only [Table.get?_map, Option.map_map]
    rfl
  have hposted :
      ((m.nodes.map Node.popAll).entries.flatMap fun e => letters e.1 e.2.1) =
      m.posted := by
    rw [posted, Table.map, List.flatMap_map]
  rw [transmitAll]
  simp only [hnodes, hposted]
  rfl

theorem transmitAll_spec (m : Mesh) :
    ∃ tally, m.transmitAll = { m.popped with
      inFlight := m.inFlight ++ m.popped.arrivals m.posted, tally } := by
  rw [transmitAll_eq]
  exact foldl_transmit_spec m.popped m.posted

theorem nodes_transmitAll (m : Mesh) :
    m.transmitAll.nodes = m.nodes.map fun n => n.popAll.2 := by
  obtain ⟨tally, heq⟩ := m.transmitAll_spec
  rw [heq]
  rfl

theorem now_transmitAll (m : Mesh) : m.transmitAll.now = m.now := by
  obtain ⟨tally, heq⟩ := m.transmitAll_spec
  rw [heq]
  rfl

/-- The mesh at the next tick, before anything has happened. -/
def later (m : Mesh) : Mesh := { m with now := m.now + 1 }

theorem step_eq (m : Mesh) : m.step = m.later.deliverDue.tickAll.transmitAll :=
  rfl

theorem now_step (m : Mesh) : m.step.now = m.now + 1 := by
  rw [step_eq, now_transmitAll]
  exact m.later.deliverDue_fields.2

/-- A step leaves the links and what the mesh is made with alone. -/
theorem step_spec (m : Mesh) : ∃ nodes inFlight tally,
    m.step = { m with nodes, inFlight, now := m.now + 1, tally } := by
  obtain ⟨nodes, tally, hdeliver⟩ := foldl_deliver_spec
    { m.later with
      inFlight := m.later.inFlight.filter fun p => !(p.due ≤ m.later.now) }
      m.later.due
  obtain ⟨tally', htransmit⟩ := m.later.deliverDue.tickAll.transmitAll_spec
  have hdue : m.later.deliverDue = _ := hdeliver
  rw [step_eq, htransmit, popped, tickAll, hdue]
  exact ⟨_, _, _, rfl⟩

/-! ## What every operation keeps -/

/-- What can be asked of a mesh.  Any call can be made on any node, so frames
can come in that no node of the mesh has sent. -/
inductive Op where
  | addNode (s : Station) (role : Role)
  | startAll
  | call (s : Station) (c : Node.Call)
  | setAdmissible (a b : Station) (admissible : Bool)
  | setLinkAdmissible (a b : Station) (admissible : Bool)
  | linkWithLatency (a b : Station) (ticks : Nat)
  | link (a b : Station)
  | step

def perform (m : Mesh) : Op → Mesh
  | .addNode s role => (m.addNode s role).2
  | .startAll => m.startAll
  | .call s c => m.call s c
  | .setAdmissible a b admissible => (m.setAdmissible a b admissible).2
  | .setLinkAdmissible a b admissible => (m.setLinkAdmissible a b admissible).2
  | .linkWithLatency a b ticks => (m.linkWithLatency a b ticks).2
  | .link a b => (m.link a b).2
  | .step => m.step

/-- Only a step puts frames on the wire or takes them from it. -/
theorem perform_of_ne_step (m : Mesh) {op : Op} (hop : op ≠ .step) :
    ∃ stream nodes stations latencies,
      m.perform op = { m with stream, nodes, stations, latencies } := by
  have hnodes : ∀ {m' : Mesh}, m.NodesOnly m' →
      ∃ stream nodes stations latencies,
        m' = { m with stream, nodes, stations, latencies } := by
    rintro _ ⟨nodes, rfl⟩
    exact ⟨m.stream, nodes, m.stations, m.latencies, rfl⟩
  have hlink : ∀ a b ticks, ∃ stream nodes stations latencies,
      (m.linkWithLatency a b ticks).2 =
        { m with stream, nodes, stations, latencies } := by
    intro a b ticks
    rcases m.linkWithLatency_cases a b ticks with ⟨-, -, nodes, heq⟩ | ⟨-, heq⟩
    · exact ⟨m.stream, nodes, m.stations, _, heq⟩
    · exact ⟨m.stream, m.nodes, m.stations, m.latencies, heq⟩
  cases op with
  | addNode s role =>
      rcases m.addNode_snd s role with heq | ⟨id, stream, -, -, -, heq⟩
      · exact ⟨m.stream, m.nodes, m.stations, m.latencies, heq⟩
      · exact ⟨stream, _, _, m.latencies, heq⟩
  | startAll => exact ⟨m.stream, _, m.stations, m.latencies, rfl⟩
  | call s c => exact hnodes (m.nodesOnly_call s c)
  | setAdmissible a b admissible =>
      exact hnodes (m.nodesOnly_setAdmissible a b admissible)
  | setLinkAdmissible a b admissible =>
      exact hnodes (m.nodesOnly_setLinkAdmissible a b admissible)
  | linkWithLatency a b ticks => exact hlink a b ticks
  | link a b => exact hlink a b m.settings.latency
  | step => exact absurd rfl hop

/-! ## Operations as calls -/

/-- The stations of two meshes are the same, and each node of the second one
comes from the node of the first by calls of some kind. -/
def CallsTo (kind : Node.Call → Bool) (m m' : Mesh) : Prop :=
  ∀ s, ∃ cs : List Node.Call, (∀ c ∈ cs, kind c = true) ∧
    m'.nodes.get? s = (m.nodes.get? s).map fun n => cs.foldl Node.after n

section CallsTo

variable {kind : Node.Call → Bool} {m' m'' : Mesh}

theorem CallsTo.of_nodes (h : m'.nodes = m.nodes) : m.CallsTo kind m' :=
  fun s => ⟨[], by simp, by simp [h]⟩

theorem CallsTo.trans (h : m.CallsTo kind m') (h' : m'.CallsTo kind m'') :
    m.CallsTo kind m'' := by
  intro s
  obtain ⟨cs, hcs, hnode⟩ := h s
  obtain ⟨more, hmore, hnode'⟩ := h' s
  refine ⟨cs ++ more, fun c hc => ?_, ?_⟩
  · exact (List.mem_append.1 hc).elim (hcs c) (hmore c)
  · rw [hnode', hnode, Option.map_map]
    simp only [Function.comp_def, List.foldl_append]

theorem callsTo_call {c : Node.Call} (hc : kind c = true) (s : Station) :
    m.CallsTo kind (m.call s c) := by
  intro t
  by_cases hts : t = s
  · exact ⟨[c], by simp [hc], by simp [get?_call, hts]⟩
  · exact ⟨[], by simp, by simp [get?_call, hts]⟩

theorem callsTo_setAdmissible (m : Mesh) (a b : Station) (admissible : Bool) :
    m.CallsTo Node.Call.isSetup (m.setAdmissible a b admissible).2 := by
  rcases m.setAdmissible_snd a b admissible with ⟨n, -, heq⟩ | heq
  · exact heq ▸ callsTo_call rfl a
  · exact .of_nodes (by rw [heq])

theorem callsTo_setLinkAdmissible (m : Mesh) (a b : Station)
    (admissible : Bool) :
    m.CallsTo Node.Call.isSetup (m.setLinkAdmissible a b admissible).2 := by
  have hforth := m.callsTo_setAdmissible a b admissible
  rcases m.setLinkAdmissible_snd a b admissible with heq | heq
  · exact heq ▸ hforth
  · exact heq ▸ hforth.trans (callsTo_setAdmissible _ b a admissible)

theorem callsTo_linkWithLatency (m : Mesh) (a b : Station) (ticks : Nat) :
    m.CallsTo Node.Call.isSetup (m.linkWithLatency a b ticks).2 := by
  rw [linkWithLatency]
  cases m.hardwareId a with
  | error fault => exact .of_nodes rfl
  | ok idA =>
      cases m.hardwareId b with
      | error fault => exact .of_nodes rfl
      | ok idB =>
          have hlatency : m.CallsTo Node.Call.isSetup
              { m with
                latencies := m.latencies.insert (Arc.link a b)
                  (max ticks 1) } :=
            .of_nodes rfl
          show m.CallsTo _ (m.join a b idA idB ticks)
          rw [join, addNeighbour_snd, addNeighbour_snd]
          exact ((hlatency.trans (callsTo_call rfl a)).trans
            (callsTo_call rfl b)).trans
            (callsTo_setLinkAdmissible _ a b true)

/-- The operation attaches nodes or links them. -/
def Op.isSetup : Op → Bool
  | .startAll => true
  | .setAdmissible .. => true
  | .setLinkAdmissible .. => true
  | .linkWithLatency .. => true
  | .link .. => true
  | _ => false

/-- Attaching nodes and linking them comes down to calls on them. -/
theorem callsTo_perform (m : Mesh) {op : Op} (hop : op.isSetup = true) :
    m.CallsTo Node.Call.isSetup (m.perform op) := by
  cases op with
  | startAll =>
      intro s
      exact ⟨[.start], by simp [Node.Call.isSetup],
        Table.get?_map m.nodes Node.start s⟩
  | setAdmissible a b admissible => exact m.callsTo_setAdmissible a b admissible
  | setLinkAdmissible a b admissible =>
      exact m.callsTo_setLinkAdmissible a b admissible
  | linkWithLatency a b ticks => exact m.callsTo_linkWithLatency a b ticks
  | link a b => exact m.callsTo_linkWithLatency a b m.settings.latency
  | _ => cases hop

/-- What calls leave alone is the same at every station afterwards. -/
theorem CallsTo.map_eq {α : Type} {f : Node → α} (h : m.CallsTo kind m')
    (hf : ∀ n c, kind c = true → f (n.after c) = f n) (s : Station) :
    (m'.nodes.get? s).map f = (m.nodes.get? s).map f := by
  obtain ⟨cs, hcs, hnode⟩ := h s
  have hfold : ∀ (cs : List Node.Call) (n : Node), (∀ c ∈ cs, kind c = true) →
      f (cs.foldl Node.after n) = f n := by
    intro cs
    induction cs with
    | nil => exact fun _ _ => rfl
    | cons c cs ih =>
        intro n hcs
        obtain ⟨hc, hcs⟩ := List.forall_mem_cons.1 hcs
        exact (ih _ hcs).trans (hf n c hc)
  rw [hnode, Option.map_map]
  congr 1
  funext n
  exact hfold cs n hcs

end CallsTo

def Each (P : Station → Node → Prop) (m : Mesh) : Prop :=
  ∀ s n, m.nodes.get? s = some n → P s n

instance (P : Station → Node → Prop) [∀ s n, Decidable (P s n)] :
    Decidable (m.Each P) :=
  decidable_of_iff (∀ e ∈ m.nodes.entries, P e.1 e.2)
    ⟨fun h s n hn => h (s, n) (Table.get?_eq_some_iff.1 hn),
      fun h e he => h e.1 e.2 (Table.get?_of_mem he)⟩

def Holds (P : Node → Prop) (m : Mesh) : Prop :=
  ∀ s n, m.nodes.get? s = some n → P n

instance (P : Node → Prop) [DecidablePred P] : Decidable (m.Holds P) :=
  inferInstanceAs (Decidable (m.Each fun _ => P))

section Each

variable {P : Station → Node → Prop}

theorem Each.insert (h : m.Each P) {n : Node} (hn : P s n) :
    ({ m with nodes := m.nodes.insert s n } : Mesh).Each P := by
  intro t k hk
  rw [Table.get?_insert] at hk
  split at hk
  · next hts =>
      cases hk
      rw [hts]
      exact hn
  · exact h t k hk

theorem Each.map {f : Node → Node} (h : m.Each P)
    (hf : ∀ s n, P s n → P s (f n)) :
    ({ m with nodes := m.nodes.map f } : Mesh).Each P := by
  intro s k hk
  obtain ⟨n, hn, rfl⟩ := Table.get?_map_eq_some_iff.1 hk
  exact hf s n (h s n hn)

theorem Each.of_nodes {m' : Mesh} (h : m.Each P) (heq : m'.nodes = m.nodes) :
    m'.Each P := by
  intro s n hn
  rw [heq] at hn
  exact h s n hn

/-- What calls keep holds at every station afterwards. -/
theorem Each.of_callsTo {kind : Node.Call → Bool} {m' : Mesh} (h : m.Each P)
    (hcalls : m.CallsTo kind m')
    (hkind : ∀ s n c, kind c = true → P s n → P s (n.after c)) : m'.Each P := by
  intro s k hk
  obtain ⟨cs, hcs, hnode⟩ := hcalls s
  obtain ⟨n, hn, rfl⟩ := Option.map_eq_some_iff.1 (hnode.symm.trans hk)
  have hfold : ∀ (cs : List Node.Call) (n : Node),
      (∀ c ∈ cs, kind c = true) → P s n →
      P s (cs.foldl Node.after n) := by
    intro cs
    induction cs with
    | nil => exact fun _ _ hn => hn
    | cons c cs ih =>
        intro n hcs hn
        obtain ⟨hc, hcs⟩ := List.forall_mem_cons.1 hcs
        exact ih _ hcs (hkind s n c hc hn)
  exact hfold cs n hcs (h s n hn)

/-- An operation other than a step keeps what a new node has, what setting up a
node keeps, and what the one call that it makes keeps. -/
theorem Each.perform_of_ne_step (h : m.Each P) {op : Op} (hop : op ≠ .step)
    (hsetup : ∀ s n c, Node.Call.isSetup c = true → P s n → P s (n.after c))
    (hcall : ∀ s n c, op = .call s c → m.nodes.get? s = some n →
      P s (n.after c))
    (hmake : ∀ s id role, m.nodes.get? s = none →
      P s (Node.make id role m.settings.node)) : (m.perform op).Each P := by
  cases op with
  | step => exact absurd rfl hop
  | addNode s role =>
      rcases m.addNode_snd s role with heq | ⟨id, stream, hnone, -, -, heq⟩
      · exact h.of_nodes (by rw [perform, heq])
      · rw [perform, heq]
        exact Each.of_nodes (h.insert (hmake s id role hnone)) rfl
  | call s c =>
      rw [perform]
      cases hs : m.nodes.get? s with
      | none =>
          rw [call_of_none hs]
          exact h
      | some n =>
          rw [call_of_some hs]
          exact h.insert (hcall s n c rfl hs)
  | _ => exact h.of_callsTo (m.callsTo_perform rfl) hsetup

/-- Delivering keeps what nodes keep when they are handed the bytes. -/
theorem Each.foldl_deliver (h : m.Each P) {ps : List Packet}
    (hps : ∀ p ∈ ps, ∀ s n, P s n → P s (n.after (.queueBytes p.bytes))) :
    (ps.foldl deliver m).Each P := by
  induction ps generalizing m with
  | nil => exact h
  | cons p ps ih =>
      obtain ⟨hp, hps⟩ := List.forall_mem_cons.1 hps
      apply ih _ hps
      cases hn : m.nodes.get? p.target with
      | none => rw [deliver_of_none hn]; exact h
      | some n =>
          obtain ⟨tally, heq⟩ := deliver_of_some hn
          rw [heq]
          exact Each.of_nodes (h.insert (hp p.target n (h p.target n hn))) rfl

variable (hafter : ∀ s n c, P s n → P s (n.after c))

include hafter

theorem Each.call (h : m.Each P) (s : Station) (c : Node.Call) :
    (m.call s c).Each P := by
  cases hs : m.nodes.get? s with
  | none => rw [call_of_none hs]; exact h
  | some n =>
      rw [call_of_some hs]
      exact h.insert (hafter s n c (h s n hs))

theorem Each.setAdmissible (h : m.Each P) (a b : Station) (admissible : Bool) :
    (m.setAdmissible a b admissible).2.Each P := by
  rcases m.setAdmissible_snd a b admissible with ⟨n, -, heq⟩ | heq
  · rw [heq]
    exact h.call hafter a _
  · rw [heq]
    exact h

theorem Each.setLinkAdmissible (h : m.Each P) (a b : Station)
    (admissible : Bool) : (m.setLinkAdmissible a b admissible).2.Each P := by
  have hfirst := h.setAdmissible hafter a b admissible
  rcases m.setLinkAdmissible_snd a b admissible with heq | heq
  · rw [heq]
    exact hfirst
  · rw [heq]
    exact hfirst.setAdmissible hafter b a admissible

theorem Each.linkWithLatency (h : m.Each P) (a b : Station) (ticks : Nat) :
    (m.linkWithLatency a b ticks).2.Each P := by
  rw [Mesh.linkWithLatency]
  cases m.hardwareId a with
  | error fault => exact h
  | ok idA =>
      cases m.hardwareId b with
      | error fault => exact h
      | ok idB =>
          have hlinked : ({ m with
              latencies := m.latencies.insert (Arc.link a b) (max ticks 1) } :
            Mesh).Each P := h
          apply Each.setLinkAdmissible hafter
          rw [addNeighbour_snd, addNeighbour_snd]
          exact (hlinked.call hafter a _).call hafter b _

theorem Each.deliverDue (h : m.Each P) : m.deliverDue.Each P :=
  Each.foldl_deliver
    (m := { m with inFlight := m.inFlight.filter fun p => !(p.due ≤ m.now) })
    h fun p _ s n => hafter s n (.queueBytes p.bytes)

theorem each_popAll {n : Node} (h : P s n) : P s n.popAll.2 :=
  Node.popAll_keeps (fun m hm => hafter s m .pop hm) h

theorem Each.step (h : m.Each P) : m.step.Each P := by
  have hdelivered : ({ m with now := m.now + 1 } : Mesh).deliverDue.Each P :=
    Each.deliverDue hafter h
  have hticked :
      ({ m with now := m.now + 1 } : Mesh).deliverDue.tickAll.Each P :=
    hdelivered.map fun s n hn => hafter s n (.tick _) hn
  intro s n hn
  rw [Mesh.step, nodes_transmitAll] at hn
  obtain ⟨k, hk, rfl⟩ := Table.get?_map_eq_some_iff.1 hn
  exact each_popAll hafter (hticked s k hk)

/-- Every operation keeps what a node has when it is added and what every
call on a node keeps. -/
theorem Each.perform (h : m.Each P) {op : Op}
    (hadd : ∀ s role, op = .addNode s role → (m.addNode s role).2.Each P) :
    (m.perform op).Each P := by
  cases op with
  | addNode s role => exact hadd s role rfl
  | startAll => exact h.map fun s n hn => hafter s n .start hn
  | call s c => exact h.call hafter s c
  | setAdmissible a b admissible => exact h.setAdmissible hafter a b admissible
  | setLinkAdmissible a b admissible =>
      exact h.setLinkAdmissible hafter a b admissible
  | linkWithLatency a b ticks => exact h.linkWithLatency hafter a b ticks
  | link a b => exact h.linkWithLatency hafter a b m.settings.latency
  | step => exact h.step hafter

end Each

section Holds

variable {P : Node → Prop}

theorem Holds.map {f : Node → Node} (h : m.Holds P) (hf : ∀ n, P n → P (f n)) :
    ({ m with nodes := m.nodes.map f } : Mesh).Holds P :=
  Each.map h fun _ => hf

variable (hafter : ∀ n c, P n → P (n.after c))

include hafter

theorem Holds.deliverDue (h : m.Holds P) : m.deliverDue.Holds P :=
  Each.deliverDue (fun _ => hafter) h

theorem Holds.step (h : m.Holds P) : m.step.Holds P :=
  Each.step (fun _ => hafter) h

/-- Every operation keeps what a new node has and what every call on a node
keeps. -/
theorem Holds.perform
    (hmake : ∀ id role settings, P (Node.make id role settings)) (h : m.Holds P)
    (op : Op) : (m.perform op).Holds P := by
  refine Each.perform (fun _ => hafter) h fun s role _ => ?_
  rcases m.addNode_snd s role with heq | ⟨id, stream, -, -, -, heq⟩
  · rw [heq]
    exact h
  · rw [heq]
    exact Each.of_nodes (Each.insert h (hmake id role m.settings.node)) rfl

theorem holds_foldl_perform
    (hmake : ∀ id role settings, P (Node.make id role settings))
    (settings : Settings) (ops : List Op) :
    (ops.foldl Mesh.perform (make settings)).Holds P := by
  have hfold : ∀ (ops : List Op) (m : Mesh), m.Holds P →
      (ops.foldl Mesh.perform m).Holds P := by
    intro ops
    induction ops with
    | nil => exact fun _ h => h
    | cons op ops ih => exact fun m h => ih _ (h.perform hafter hmake op)
  apply hfold ops _
  intro s n hn
  cases hn

end Holds

end Mesh

end OnMesh
