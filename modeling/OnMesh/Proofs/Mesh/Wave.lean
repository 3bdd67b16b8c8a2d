import OnMesh.Proofs.Mesh.Mail
import OnMesh.Proofs.Mesh.Routes
import OnMesh.Proofs.Mesh.Stations

/-!
# The wave of one delta

A delta that breaks out at the leader of a quiet mesh runs over it like a wave.
`Wave` describes the mesh some ticks later, by comparison with the quiet mesh:
the stations that have applied the delta are those that can be reached in that
time, and each of them that passes it on has written once to every neighbour
that it admits, but for the one from which it had the delta.  `Ticked` is a wave
whose front still waits to be sent, `Sent` one whose front is on the wire.
-/

namespace OnMesh

open Wire (Frame Message)

namespace Mesh

variable {g m : Mesh} {leader s t : Station} {d : Delta} {i sent : Nat}
  {n k : Node} {p : Packet}

/-! ## Before the wave -/

def knownBy (g : Mesh) (b : NodeId) : Nat :=
  (g.nodes.filter fun _ x => x.links.hasNeighbour b).size

/-- All attached nodes stand where a delta starts that can be written, and there
is room for it: to be sent to all neighbours, and to come in from all nodes that
have the node as a neighbour. -/
structure Poised (g : Mesh) (leader : Station) (d : Delta) : Prop where
  registered : g.Registered
  formed : g.Holds Node.Formed
  role : ∀ s n, g.nodes.get? s = some n → (n.role = .authority ↔ s = leader)
  lead : ∃ a, g.nodes.get? leader = some a ∧ a.started = true
  level : g.Holds fun n => n.started = true → n.version = d.base
  advances : d.base < d.target
  outbound : g.Holds fun n => n.links.neighbours.size ≤ n.settings.maxOutbound
  inbound : g.Holds fun n => g.knownBy n.id ≤ n.settings.maxInbound
  writable : ∀ sender, ∃ bytes header,
    (Frame.make sender (.delta d)).serialize = .ok bytes ∧
    Frame.parse bytes = .ok ⟨header, .delta d⟩ ∧ header.sender = sender

theorem Poised.forwards_iff (h : g.Poised leader d)
    (hn : g.nodes.get? s = some n) :
    n.flooding.role.forwards = true ↔ g.PassesOn leader s := by
  rw [(h.formed s n hn).flooding, PassesOn, ← h.role s n hn]
  constructor
  · intro hforwards
    cases hrole : n.role with
    | authority => exact Or.inl rfl
    | relay => exact Or.inr ⟨n, hn, hrole⟩
    | leaf =>
        rw [hrole] at hforwards
        cases hforwards
  · rintro (hrole | ⟨n', hn', hrole⟩)
    · rw [hrole]
      rfl
    · rw [hn] at hn'
      cases hn'
      rw [hrole]
      rfl

theorem Poised.authority_eq_false (h : g.Poised leader d)
    (hn : g.nodes.get? s = some n) (hs : s ≠ leader) :
    n.replica.authority = false := by
  rw [(h.formed s n hn).authority, Role.canPublish_eq_false_iff,
    ne_eq, h.role s n hn]
  exact hs

theorem Poised.started (h : g.Poised leader d) {ticks : Nat}
    (hroute : g.Route leader s ticks) (hn : g.nodes.get? s = some n) :
    n.started = true := by
  obtain ⟨a, ha, hstarted⟩ := h.lead
  exact hroute.started ha hstarted hn

/-! ## The wave -/

/-- How far a node has got after so many ticks: it has applied the delta
if it can be reached. -/
structure Abreast (g : Mesh) (leader : Station) (d : Delta) (i : Nat)
    (s : Station) (n k : Node) : Prop where
  still : Node.Still n k
  reached : g.Reached leader i s →
    k.version = d.target ∧ (s ≠ leader → k.applied = n.applied + 1)
  waiting : ¬ g.Reached leader i s → k.version = n.version
  unmoved : (g.Reached leader i s → s = leader) → k.applied = n.applied

def Tells (d : Delta) (sender : NodeId) (bytes : List UInt8) : Prop :=
  ∃ frame, Frame.parse bytes = .ok frame ∧ frame.message = .delta d ∧
    frame.sender = sender

/-- A packet takes the delta from a station that passes it on to one that the
node there admits, from the tick on at which the delta was applied there. -/
structure Bears (g : Mesh) (leader : Station) (d : Delta) (p : Packet)
    (ticks : Nat) : Prop where
  distance : g.Distance leader p.source ticks
  passesOn : g.PassesOn leader p.source
  due : p.due = g.now + 1 + ticks + g.latency p.source p.target
  ends : ∃ x y, g.nodes.get? p.source = some x ∧
    g.nodes.get? p.target = some y ∧
    x.isAdmissible y.id = true ∧ Tells d x.id p.bytes

/-- The mesh so many ticks after the delta has broken out, when the stations
nearer than `sent` have passed it on. -/
structure Wave (g : Mesh) (leader : Station) (d : Delta) (i sent : Nat)
    (m : Mesh) : Prop where
  settings : m.settings = g.settings
  stations : m.stations = g.stations
  latencies : m.latencies = g.latencies
  now : m.now = g.now + 1 + i
  each : m.Each fun s k => ∃ n, g.nodes.get? s = some n ∧
    g.Abreast leader d i s n k
  kept : ∀ s n, g.nodes.get? s = some n → ∃ k, m.nodes.get? s = some k
  /-- Whatever is on the wire is the delta. -/
  bears : ∀ p ∈ m.inFlight, m.now < p.due ∧ ∃ ticks < sent,
    g.Bears leader d p ticks
  /-- No two packets join the same stations. -/
  distinct : (m.inFlight.map fun p => (p.source, p.target)).Nodup
  /-- Wherever the delta has to go, it has been or is on its way. -/
  complete : ∀ s t ticks, g.Distance leader s ticks → ticks < sent →
    g.PassesOn leader s →
    g.isUsable ⟨s, t⟩ = true →
    g.Reached leader i t ∨ ∃ p ∈ m.inFlight, p.source = s ∧ p.target = t

/-- What a node has to send: the delta, if its station is just at
the front of the wave. -/
structure Posts (g : Mesh) (leader : Station) (d : Delta) (i : Nat)
    (s : Station) (k : Node) : Prop where
  fires : g.Distance leader s i → g.PassesOn leader s → ∃ skipped,
    k.outgoing = (Flooding.fanOut d k.links skipped).map
      (Outgoing.ofOutbound k.id) ∧
    ∀ t y, g.nodes.get? t = some y → skipped = some y.id →
      g.Reached leader i t
  silent : ¬ (g.Distance leader s i ∧ g.PassesOn leader s) → k.outgoing = []

/-- The front of the wave waits to be sent. -/
structure Ticked (g : Mesh) (leader : Station) (d : Delta) (i : Nat)
    (m : Mesh) : Prop where
  wave : Wave g leader d i i m
  handled : m.Holds fun k => k.incoming = []
  posts : m.Each (g.Posts leader d i)

/-- The front of the wave is on the wire. -/
structure Sent (g : Mesh) (leader : Station) (d : Delta) (i : Nat) (m : Mesh) :
    Prop where
  wave : Wave g leader d i (i + 1) m
  idle : m.Idle

theorem Abreast.of_still {k' : Node} (h : g.Abreast leader d i s n k)
    (hstill : Node.Still k k') (hversion : k'.version = k.version)
    (happlied : k'.applied = k.applied) : g.Abreast leader d i s n k' where
  still := h.still.trans hstill
  reached := by rw [hversion, happlied]; exact h.reached
  waiting := by rw [hversion]; exact h.waiting
  unmoved := by rw [happlied]; exact h.unmoved

theorem Wave.abreast (h : Wave g leader d i sent m)
    (hn : g.nodes.get? s = some n) (hk : m.nodes.get? s = some k) :
    g.Abreast leader d i s n k := by
  obtain ⟨n', hn', habreast⟩ := h.each s k hk
  rw [hn] at hn'
  cases hn'
  exact habreast

theorem Wave.latency_eq (h : Wave g leader d i sent m) (s t : Station) :
    m.latency s t = g.latency s t := by
  rw [latency, latency, h.settings, h.latencies]

/-! ## Letters -/

/-- A fan-out becomes one letter for each neighbour that is told. -/
theorem letters_fanOut {links : Links} {skipped : Option NodeId}
    {sender : NodeId} {bytes : List UInt8}
    (hbytes : (Frame.make sender (.delta d)).serialize = .ok bytes) :
    letters s ((Flooding.fanOut d links skipped).map
      (Outgoing.ofOutbound sender)) =
      (links.admissibleExcept skipped).map fun b => ⟨s, b, bytes⟩ := by
  rw [letters, Flooding.fanOut, List.map_map, List.filterMap_map,
    ← List.filterMap_eq_map]
  refine List.filterMap_congr fun b _ => ?_
  simp only [Function.comp_apply, Outgoing.ofOutbound, hbytes]

/-- What a node at the front writes. -/
theorem Posts.letters_of_fires (h : g.Posts leader d i s k)
    (hdistance : g.Distance leader s i) (hpasses : g.PassesOn leader s)
    {bytes : List UInt8}
    (hbytes : (Frame.make k.id (.delta d)).serialize = .ok bytes) :
    ∃ skipped, (letters s k.popAll.1 =
        (k.links.admissibleExcept skipped).map fun b => ⟨s, b, bytes⟩) ∧
      ∀ t y, g.nodes.get? t = some y → skipped = some y.id →
      g.Reached leader i t := by
  obtain ⟨skipped, houtgoing, hskipped⟩ := h.fires hdistance hpasses
  refine ⟨skipped, ?_, hskipped⟩
  obtain ⟨tally, hpop⟩ := k.popAll_spec
  have hall : k.sendable = k.outgoing := by
    rw [Node.sendable, List.filter_eq_self, houtgoing]
    intro o ho
    obtain ⟨out, hout, rfl⟩ := List.mem_map.1 ho
    exact (Flooding.mem_fanOut_iff.1 hout).1.1
  rw [hpop, hall, houtgoing]
  exact letters_fanOut hbytes

theorem Posts.letters_of_silent (h : g.Posts leader d i s k)
    (hnot : ¬ (g.Distance leader s i ∧ g.PassesOn leader s)) :
    letters s k.popAll.1 = [] := by
  obtain ⟨tally, hpop⟩ := k.popAll_spec
  rw [hpop, Node.sendable, h.silent hnot]
  rfl

/-- Every letter takes the delta from the front of the wave to a
neighbour that is admitted. -/
theorem Ticked.of_mem_posted (hg : g.Poised leader d)
    (h : Ticked g leader d i m) {l : Letter} (hl : l ∈ m.posted) :
    ∃ n, g.nodes.get? l.source = some n ∧ g.Distance leader l.source i ∧
    g.PassesOn leader l.source ∧ n.isAdmissible l.to = true ∧
    Tells d n.id l.bytes := by
  obtain ⟨k, hk, hletter⟩ := mem_posted_iff.1 hl
  obtain ⟨n, hn, habreast⟩ := h.wave.each l.source k hk
  have hposts := h.posts l.source k hk
  by_cases hfires : g.Distance leader l.source i ∧ g.PassesOn leader l.source
  · obtain ⟨bytes, header, hbytes, hparse, hsender⟩ := hg.writable k.id
    obtain ⟨skipped, hletters, -⟩ :=
      hposts.letters_of_fires hfires.1 hfires.2 hbytes
    rw [hletters] at hletter
    obtain ⟨b, hb, heq⟩ := List.mem_map.1 hletter
    have hadm := (Links.mem_admissibleExcept_iff.1 hb).1
    rw [habreast.still.links] at hadm
    refine ⟨n, hn, hfires.1, hfires.2, ?_, ?_⟩
    · rw [← heq]
      exact hadm
    · rw [← heq]
      exact ⟨_, hparse, rfl, hsender.trans habreast.still.alike.id⟩
  · rw [hposts.letters_of_silent hfires] at hletter
    cases hletter

/-- A node at the front writes to every neighbour over a usable link that the
wave has not reached. -/
theorem Ticked.mem_posted (hg : g.Poised leader d) (h : Ticked g leader d i m)
    (hdistance : g.Distance leader s i) (hpasses : g.PassesOn leader s)
    (husable : g.isUsable ⟨s, t⟩ = true) :
    g.Reached leader i t ∨ ∃ l ∈ m.posted, l.source = s ∧
    ∃ y, g.nodes.get? t = some y ∧ y.id = l.to := by
  obtain ⟨x, y, hx, hy, -, -, hadm, -⟩ := isUsable_iff.1 husable
  obtain ⟨k, hk⟩ := h.wave.kept s x hx
  obtain ⟨bytes, header, hbytes, -⟩ := hg.writable k.id
  obtain ⟨skipped, hletters, hskipped⟩ :=
    (h.posts s k hk).letters_of_fires hdistance hpasses hbytes
  by_cases hskip : skipped = some y.id
  · exact Or.inl (hskipped t y hy hskip)
  · refine Or.inr ⟨⟨s, y.id, bytes⟩, mem_posted_iff.2 ⟨k, hk, ?_⟩,
      rfl, y, hy, rfl⟩
    rw [hletters]
    refine List.mem_map.2
      ⟨y.id, Links.mem_admissibleExcept_iff.2 ⟨?_, hskip⟩, rfl⟩
    rw [(h.wave.abreast hx hk).still.links]
    exact hadm

/-- No two letters go the same way. -/
theorem Ticked.nodup_posted (hg : g.Poised leader d)
    (h : Ticked g leader d i m) :
    (m.posted.map fun l => (l.source, l.to)).Nodup := by
  apply Mesh.nodup_posted
  intro s k hk
  by_cases hfires : g.Distance leader s i ∧ g.PassesOn leader s
  · obtain ⟨bytes, header, hbytes, -⟩ := hg.writable k.id
    obtain ⟨skipped, hletters, -⟩ :=
      (h.posts s k hk).letters_of_fires hfires.1 hfires.2 hbytes
    have hsame : ((k.links.admissibleExcept skipped).map fun b =>
        (⟨s, b, bytes⟩ : Letter)).map
        (·.to) = k.links.admissibleExcept skipped := by
      rw [List.map_map]
      exact List.map_id' _
    rw [hletters, hsame]
    exact Links.nodup_admissibleExcept _ _
  · rw [(h.posts s k hk).letters_of_silent hfires]
    exact List.nodup_nil

end Mesh

end OnMesh
