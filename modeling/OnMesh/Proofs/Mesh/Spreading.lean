import OnMesh.Proofs.Mesh.Wavefront

/-!
# How an edit spreads

If one edit is made on the leader of a quiet mesh whose nodes are all level, it
spreads by deltas alone, at most one in each direction of a link, and every node
to which a route leads applies it once, when the least latency of its routes has
passed.  Every node needs room for the frames of all nodes that have it as a
neighbour; room for those of its own neighbours is not enough, unless neighbours
always know each other.
-/

namespace OnMesh

open Wire (Frame Message)

namespace Mesh

variable {g m : Mesh} {leader s t : Station} {c : Node.Call}
  {d : Delta} {a n k : Node}

/-! ## The outbreak -/

theorem Posts.of_calm {i : Nat} {k' : Node} (h : g.Posts leader d i s k)
    (hcalm : Node.Calm k k') : g.Posts leader d i s k' where
  fires := by
    rw [hcalm.outgoing, hcalm.links, hcalm.alike.id]
    exact h.fires
  silent := by
    rw [hcalm.outgoing]
    exact h.silent

/-- The node on which the edit was made is at the front of the wave. -/
theorem posts_of_breaks (hbreaks : Node.Breaks a k)
    (hd : d = Delta.between a.data k.data) (hempty : a.outgoing = []) :
    g.Posts leader d 0 leader k where
  fires := fun _ _ => by
    refine ⟨none, ?_, fun _ _ _ hnone => (by cases hnone)⟩
    rw [hbreaks.outgoing, hempty, List.nil_append, ← hd, hbreaks.links,
      hbreaks.alike.id]
  silent := fun hnot => absurd ⟨g.distance_leader leader, Or.inl rfl⟩ hnot

/-- The nodes right after the edit. -/
theorem outbreak_node (hidle : g.Idle) (ha : g.nodes.get? leader = some a)
    (hbreaks : Node.Breaks a (a.after c))
    (hd : d = Delta.between a.data (a.after c).data)
    (hk : (g.call leader c).nodes.get? t = some k) :
    k.incoming = [] ∧ g.Posts leader d 0 t k ∧
      ∃ n, g.nodes.get? t = some n ∧ g.Abreast leader d 0 t n k := by
  rw [call_of_some ha] at hk
  rcases get?_setNode hk with ⟨rfl, rfl⟩ | ⟨hne, hn⟩
  · refine ⟨hbreaks.incoming.trans (hidle t a ha).1,
      posts_of_breaks hbreaks hd (hidle t a ha).2, a, ha,
      hbreaks.toStill, ?_, ?_, ?_⟩
    · intro _
      rw [hd]
      exact ⟨rfl, fun hne => absurd rfl hne⟩
    · exact fun hnot => absurd (g.reached_leader t 0) hnot
    · exact fun _ => hbreaks.applied
  · have hnot : ¬ g.Reached leader 0 t :=
      fun hreached => hne (reached_zero_iff.1 hreached)
    refine ⟨(hidle t k hn).1, ⟨fun hdistance => absurd hdistance.reached hnot,
      fun _ => (hidle t k hn).2⟩, k, hn, Node.Still.refl k,
      fun hreached => absurd hreached hnot,
      fun _ => rfl, fun _ => rfl⟩

/-- The nodes after the first tick, which brings nothing new to any of them. -/
theorem outbreak_tick (hflight : g.inFlight = []) (hidle : g.Idle)
    (ha : g.nodes.get? leader = some a) (hbreaks : Node.Breaks a (a.after c))
    (hd : d = Delta.between a.data (a.after c).data)
    (hk : (g.call leader c).later.deliverDue.tickAll.nodes.get? t = some k) :
    k.incoming = [] ∧ g.Posts leader d 0 t k ∧
      ∃ n, g.nodes.get? t = some n ∧ g.Abreast leader d 0 t n k := by
  have hquiet : (g.call leader c).inFlight = [] := by
    rw [inFlight_call, hflight]
  rw [get?_tickAll_deliverDue, arriving_of_quiet hquiet] at hk
  obtain ⟨j, hj, rfl⟩ := Option.map_eq_some_iff.1 hk
  obtain ⟨hempty, hposts, n, hn, habreast⟩ :=
    outbreak_node hidle ha hbreaks hd hj
  have hcalm : Node.Calm j (j.tick ((g.call leader c).now + 1)) := by
    apply Node.calm_tick (d := d) <;>
    · rw [hempty]
      simp
  exact ⟨(Node.tick_fields _ _).1, hposts.of_calm hcalm, n, hn,
    habreast.of_still hcalm.toStill hcalm.version hcalm.applied⟩

/-- The first tick after the edit is the beginning of a wave. -/
theorem ticked_zero (hflight : g.inFlight = []) (hidle : g.Idle)
    (ha : g.nodes.get? leader = some a) (hbreaks : Node.Breaks a (a.after c))
    (hd : d = Delta.between a.data (a.after c).data) :
    Ticked g leader d 0 (g.call leader c).later.deliverDue.tickAll := by
  have hcall := call_of_some ha c
  obtain ⟨hsettings, hstations, hlatencies, hnow, hpending⟩ :=
    (g.call leader c).fields_tickAll_deliverDue
  rw [inFlight_call, hflight] at hpending
  refine ⟨⟨hsettings.trans (by rw [hcall]; rfl),
    hstations.trans (by rw [hcall]; rfl), hlatencies.trans (by rw [hcall]; rfl),
    hnow.trans (by rw [hcall]; rfl), ?_, ?_, ?_, ?_, ?_⟩, ?_, ?_⟩
  · exact fun t k hk => (outbreak_tick hflight hidle ha hbreaks hd hk).2.2
  · intro t n hn
    exact ⟨_, by rw [get?_tickAll_deliverDue, get?_call, hn]; rfl⟩
  · intro p hp
    rw [hpending] at hp
    cases hp
  · rw [hpending]
    exact List.nodup_nil
  · intro _ _ ticks _ hticks
    exact absurd hticks (Nat.not_lt_zero ticks)
  · exact fun t k hk => (outbreak_tick hflight hidle ha hbreaks hd hk).1
  · exact fun t k hk => (outbreak_tick hflight hidle ha hbreaks hd hk).2.1

/-! ## The run of the wave -/

theorem advance_succ (m : Mesh) (ticks : Nat) :
    m.advance (ticks + 1) = (m.advance ticks).step := by
  induction ticks generalizing m with
  | zero => rfl
  | succ ticks ih => rw [advance, ih m.step, advance]

/-- The letters that leave the nodes while so many ticks pass, in order. -/
def mailed (m : Mesh) : Nat → List Letter
  | 0 => []
  | ticks + 1 =>
    m.mailed ticks ++ (m.advance ticks).later.deliverDue.tickAll.posted

section Run

variable (hg : g.Poised leader d)
  (hzero : Ticked g leader d 0 (m.later.deliverDue.tickAll))

include hg hzero

/-- The wave goes on with every tick. -/
theorem ticked_advance (ticks : Nat) :
    Ticked g leader d ticks (m.advance ticks).later.deliverDue.tickAll := by
  induction ticks with
  | zero => exact hzero
  | succ ticks ih =>
      rw [advance_succ, step_eq]
      exact (ih.transmitAll hg).tick hg

theorem sent_advance (ticks : Nat) :
    Sent g leader d ticks (m.advance (ticks + 1)) := by
  rw [advance_succ, step_eq]
  exact (ticked_advance hg hzero ticks).transmitAll hg

/-- Every letter is written when its source has just been reached. -/
theorem of_mem_mailed {ticks : Nat} {l : Letter} (hl : l ∈ m.mailed ticks) :
    ∃ n, g.nodes.get? l.source = some n ∧
    (∃ distance < ticks, g.Distance leader l.source distance) ∧
      n.isAdmissible l.to = true ∧ Tells d n.id l.bytes := by
  induction ticks with
  | zero => cases hl
  | succ ticks ih =>
      rcases List.mem_append.1 hl with hold | hnew
      · obtain ⟨n, hn, ⟨distance, hlt, hdistance⟩, hadm, htells⟩ := ih hold
        exact ⟨n, hn, ⟨distance, Nat.lt_succ_of_lt hlt, hdistance⟩,
          hadm, htells⟩
      · obtain ⟨n, hn, hdistance, -, hadm, htells⟩ :=
          (ticked_advance hg hzero ticks).of_mem_posted hg hnew
        exact ⟨n, hn, ⟨ticks, Nat.lt_succ_self ticks, hdistance⟩, hadm, htells⟩

theorem nodup_mailed (ticks : Nat) :
    ((m.mailed ticks).map fun l => (l.source, l.to)).Nodup := by
  induction ticks with
  | zero => exact List.nodup_nil
  | succ ticks ih =>
      have hticked := ticked_advance hg hzero ticks
      rw [mailed, List.map_append, List.nodup_append]
      refine ⟨ih, hticked.nodup_posted hg, ?_⟩
      rintro way hold _ hnew rfl
      obtain ⟨l, hl, rfl⟩ := List.mem_map.1 hold
      obtain ⟨k, hk, hsame⟩ := List.mem_map.1 hnew
      -- What was mailed before comes from stations nearer than the front.
      obtain ⟨-, -, ⟨distance, hlt, hdistance⟩, -⟩ := of_mem_mailed hg hzero hl
      obtain ⟨-, -, hfront, -⟩ := hticked.of_mem_posted hg hk
      rw [show k.source = l.source from congrArg Prod.fst hsame] at hfront
      exact absurd (hdistance.eq hfront) (Nat.ne_of_lt hlt)

/-- Once nothing is on the wire, the wave has been everywhere. -/
theorem reached_of_quiet {ticks distance : Nat}
    (hquiet : (m.advance (ticks + 1)).inFlight = [])
    (hroute : g.Route leader s distance) : g.Reached leader ticks s := by
  induction hroute with
  | leader => exact g.reached_leader leader ticks
  | @link s t before _ hpasses husable ih =>
      obtain ⟨way, hle, hway⟩ := ih
      obtain ⟨least, hleast, hdistance⟩ := hway.distance
      rcases (sent_advance hg hzero ticks).wave.complete s t least hdistance
        (Nat.lt_succ_of_le (hleast.trans hle)) hpasses husable
          with hreached | ⟨p, hp, -⟩
      · exact hreached
      · rw [hquiet] at hp
        cases hp

end Run

/-! ## The law of flooding -/

/-- What has become of a node so many ticks after the edit. -/
structure Flooded (m : Mesh) (leader : Station) (ticks : Nat) (s : Station)
    (n n' : Node) : Prop where
  /-- It has asked for nothing, served nothing and repaired nothing. -/
  plain : Flooding.Plain n.flooding n'.flooding
  /-- It has applied one delta if the least latency of its routes has passed. -/
  applied : ∀ distance, m.Distance leader s distance → s ≠ leader →
    distance < ticks →
    n'.applied = n.applied + 1
  /-- Otherwise, and if no route leads to it, it has applied none. -/
  unmoved : (∀ distance, m.Distance leader s distance → s ≠ leader →
    ticks ≤ distance) →
    n'.applied = n.applied

/-- What is to be seen so many ticks after an edit on the leader.  The first
tick after the edit is the one in which the leader sends, so that a station at
some distance applies the delta in the tick after that distance has passed. -/
structure Floods (m : Mesh) (leader : Station) (c : Node.Call) (ticks : Nat) :
    Prop where
  now : ((m.call leader c).advance ticks).now = m.now + ticks
  /-- Nothing but deltas is sent, and to neighbours that are admitted. -/
  deltas : ∀ l ∈ (m.call leader c).mailed ticks, ∃ n,
    m.nodes.get? l.source = some n ∧
    n.isAdmissible l.to = true ∧ ∃ frame d, Frame.parse l.bytes = .ok frame ∧
      frame.message = .delta d
  /-- No node sends two of them to one neighbour. -/
  once : (((m.call leader c).mailed ticks).map fun l => (l.source, l.to)).Nodup
  nodes : ∀ s n, m.nodes.get? s = some n → ∃ n',
    ((m.call leader c).advance ticks).nodes.get? s = some n' ∧
    m.Flooded leader ticks s n n'
  /-- When nothing is in flight any more, every station to which a route
  leads has had its turn. -/
  settled : 0 < ticks → ((m.call leader c).advance ticks).inFlight = [] →
    ∀ s distance, m.Distance leader s distance → distance < ticks

/-- The mesh is quiet and has one authority, the leader; all attached nodes hold
the version of the leader, and the call is an edit that raises it. -/
structure AwaitsEdit (m : Mesh) (leader : Station) (c : Node.Call) : Prop where
  role : m.Each fun s n => n.role = .authority ↔ s = leader
  quiet : m.inFlight = []
  idle : m.Idle
  edit : c.isEdit = true
  present : (m.nodes.get? leader).isSome = true
  level : ∀ a, m.nodes.get? leader = some a → a.started = true ∧
    a.version < (a.after c).version ∧
    m.Holds fun n => n.started = true → n.version = a.version

instance : Decidable (m.AwaitsEdit leader c) :=
  decidable_of_iff
    (m.Each (fun s n => n.role = .authority ↔ s = leader) ∧
      m.inFlight = [] ∧ m.Idle ∧
      c.isEdit = true ∧ (m.nodes.get? leader).isSome = true ∧
      ∀ a, m.nodes.get? leader = some a → a.started = true ∧
      a.version < (a.after c).version ∧
        m.Holds fun n => n.started = true → n.version = a.version)
    ⟨fun ⟨hrole, hquiet, hidle, hedit, hpresent, hlevel⟩ =>
      ⟨hrole, hquiet, hidle, hedit, hpresent, hlevel⟩,
      fun h => ⟨h.role, h.quiet, h.idle, h.edit, h.present, h.level⟩⟩

theorem AwaitsEdit.poised (h : m.AwaitsEdit leader c)
    (hregistered : m.Registered) (hup : m.Holds Upright)
    (ha : m.nodes.get? leader = some a)
    (hout : m.Holds fun n => n.links.neighbours.size ≤ n.settings.maxOutbound)
    (hin : m.Holds fun n => m.knownBy n.id ≤ n.settings.maxInbound) :
    m.Poised leader (Delta.between a.data (a.after c).data) where
  registered := hregistered
  formed := fun s n hn => (hup s n hn).formed
  role := h.role
  lead := ⟨a, ha, (h.level a ha).1⟩
  level := (h.level a ha).2.2
  advances := (h.level a ha).2.1
  outbound := hout
  inbound := hin
  writable := writable_between (hup leader a ha)
    (hregistered.acceptable leader a ha)
    ((h.role leader a ha).2 rfl) (h.level a ha).2.1

/-- Before the first tick nothing has happened but the edit. -/
theorem floods_zero (ha : m.nodes.get? leader = some a)
    (hbreaks : Node.Breaks a (a.after c)) : m.Floods leader c 0 where
  now := by
    show (m.call leader c).now = m.now
    rw [call_of_some ha]
    rfl
  deltas := fun l hl => (nomatch hl)
  once := List.nodup_nil
  nodes := by
    intro s n hn
    refine ⟨_, (get?_call m leader c s).trans (by rw [hn]; rfl), ?_⟩
    split
    · next heq =>
        rw [heq, ha] at hn
        cases hn
        exact ⟨hbreaks.plain, fun _ _ _ hlt => absurd hlt (Nat.not_lt_zero _),
          fun _ => hbreaks.applied⟩
    · exact ⟨Flooding.Plain.refl _,
        fun _ _ _ hlt => absurd hlt (Nat.not_lt_zero _), fun _ => rfl⟩
  settled := fun hpos => absurd hpos (Nat.lt_irrefl 0)

theorem Abreast.flooded {i : Nat} (h : m.Abreast leader d i s n k) :
    m.Flooded leader (i + 1) s n k where
  plain := h.still.plain
  applied := fun _ hdistance hs hlt =>
    (h.reached (hdistance.reached.mono (Nat.le_of_lt_succ hlt))).2 hs
  unmoved := by
    intro hfar
    refine h.unmoved fun hreached => ?_
    by_contra hs
    obtain ⟨ticks, hle, hroute⟩ := hreached
    obtain ⟨least, hleast, hdistance⟩ := hroute.distance
    have := hfar least hdistance hs
    omega

/-- After each tick the stations that the wave has reached are those within its
distance. -/
theorem floods_succ (hg : m.Poised leader d)
    (hzero : Ticked m leader d 0 (m.call leader c).later.deliverDue.tickAll)
    (ticks : Nat) : m.Floods leader c (ticks + 1) where
  now := by
    rw [(sent_advance hg hzero ticks).wave.now]
    omega
  deltas := by
    intro l hl
    obtain ⟨n, hn, -, hadm, frame, hparse, hmessage, -⟩ :=
      of_mem_mailed hg hzero hl
    exact ⟨n, hn, hadm, frame, d, hparse, hmessage⟩
  once := nodup_mailed hg hzero (ticks + 1)
  nodes := by
    intro s n hn
    have hwave := (sent_advance hg hzero ticks).wave
    obtain ⟨k, hk⟩ := hwave.kept s n hn
    exact ⟨k, hk, (hwave.abreast hn hk).flooded⟩
  settled := fun _ hquiet s distance hdistance => Nat.lt_succ_of_le
    (hdistance.le_of_reached (reached_of_quiet hg hzero hquiet hdistance.1))

theorem AwaitsEdit.floods (h : m.AwaitsEdit leader c)
    (hregistered : m.Registered) (hup : m.Holds Upright)
    (hout : m.Holds fun n => n.links.neighbours.size ≤ n.settings.maxOutbound)
    (hin : m.Holds fun n => m.knownBy n.id ≤ n.settings.maxInbound)
    (ticks : Nat) : m.Floods leader c ticks := by
  obtain ⟨a, ha⟩ := Option.isSome_iff_exists.1 h.present
  obtain ⟨hstarted, hrises, -⟩ := h.level a ha
  have hroom : a.outgoing.length + a.links.neighbours.size ≤
      a.settings.maxOutbound := by
    rw [(h.idle leader a ha).2, List.length_nil, Nat.zero_add]
    exact hout leader a ha
  have hbreaks := Node.breaks_after h.edit hrises hstarted hroom
  have hg := h.poised hregistered hup ha hout hin
  have hzero := ticked_zero h.quiet h.idle ha hbreaks rfl
  cases ticks with
  | zero => exact floods_zero ha hbreaks
  | succ ticks => exact floods_succ hg hzero ticks

/-! ## Every state that operations lead to -/

/-- In every quiet state that operations lead to, an edit on the one authority
floods the mesh, if every node has room for what it sends to its neighbours and
for what it is sent by all nodes that have it as a neighbour. -/
theorem floods_of_awaitsEdit (settings : Settings) (ops : List Op)
    {leader : Station} {c : Node.Call}
    (h : (ops.foldl perform (make settings)).AwaitsEdit leader c)
    (hout : (ops.foldl perform (make settings)).Holds fun n =>
      n.links.neighbours.size ≤ n.settings.maxOutbound)
    (hin : (ops.foldl perform (make settings)).Holds fun n =>
      (ops.foldl perform (make settings)).knownBy n.id ≤ n.settings.maxInbound)
    (ticks : Nat) : (ops.foldl perform (make settings)).Floods leader c ticks :=
  h.floods (registered_foldl_perform settings ops)
    (upright_foldl_perform settings ops) hout hin
    ticks

/-- Operations that link three stations in a triangle with one
slow link, up to rest. -/
def triangle : List Op :=
  [.addNode ⟨0⟩ .authority, .addNode ⟨1⟩ .relay, .addNode ⟨2⟩ .relay,
    .linkWithLatency ⟨0⟩ ⟨1⟩ 1, .linkWithLatency ⟨1⟩ ⟨2⟩ 1,
    .linkWithLatency ⟨0⟩ ⟨2⟩ 3, .startAll, .step, .step, .step, .step]

def publication : Node.Call :=
  .addPrefix (Prefix.ofAddress ⟨0xfd00 <<< 112⟩ 64 (Nat.le_add_right 64 64))
    ⟨Flags.slaacBit⟩

theorem floods_of_awaitsEdit_triangle :
    (triangle.foldl perform (make .usual)).Floods ⟨0⟩ publication 3 :=
  floods_of_awaitsEdit .usual triangle (by decide +kernel) (by decide +kernel)
    (by decide +kernel) 3

/-- Settings under which the queues of a node hold three frames. -/
def tight : Settings :=
  ⟨0x5eed, 2, { NodeSettings.usual with maxInbound := 3, maxOutbound := 3 }⟩

def lastId : NodeId := ⟨0xe4842e4f8025477f⟩

/-- Operations up to rest on a mesh in which three nodes have the node at the
last station as a neighbour, and it has only the one at the station before. -/
def crowd : List Op :=
  [.addNode ⟨0⟩ .authority, .addNode ⟨1⟩ .relay, .addNode ⟨2⟩ .relay,
    .addNode ⟨3⟩ .relay, .addNode ⟨4⟩ .relay, .call ⟨1⟩ (.addNeighbour lastId),
    .call ⟨1⟩ (.setAdmissible lastId true), .call ⟨2⟩ (.addNeighbour lastId),
    .call ⟨2⟩ (.setAdmissible lastId true), .call ⟨3⟩ (.addNeighbour lastId),
    .call ⟨3⟩ (.setAdmissible lastId true), .addNode ⟨5⟩ .leaf,
    .linkWithLatency ⟨0⟩ ⟨1⟩ 1, .linkWithLatency ⟨0⟩ ⟨2⟩ 1,
    .linkWithLatency ⟨0⟩ ⟨3⟩ 1, .linkWithLatency ⟨3⟩ ⟨4⟩ 1,
    .linkWithLatency ⟨4⟩ ⟨5⟩ 1, .startAll, .step, .step, .step]

instance : Decidable (m.PassesOn leader s) :=
  decidable_of_iff (s = leader ∨ (m.nodes.get? s).map (·.role) = some .relay)
    (by simp only [PassesOn, Option.map_eq_some_iff])

/-- Room for the frames of its own neighbours is not enough for a node that
others have as a neighbour without its knowing them: theirs fill the queue. -/
theorem not_floods_of_own_neighbours :
    ¬ ∀ (settings : Settings) (ops : List Op) (leader : Station)
        (c : Node.Call),
      (ops.foldl perform (make settings)).AwaitsEdit leader c →
      (ops.foldl perform (make settings)).Holds (fun n =>
        n.links.neighbours.size ≤ n.settings.maxOutbound ∧
          n.links.neighbours.size ≤ n.settings.maxInbound) →
      ∀ ticks, (ops.foldl perform (make settings)).Floods leader c ticks := by
  intro h
  let m := crowd.foldl perform (make tight)
  have hfloods : m.Floods ⟨0⟩ publication 6 :=
    h tight crowd ⟨0⟩ publication (by decide +kernel) (by decide +kernel) 6
  -- The last station is told by the one before, three ticks away,
  -- when its queue is full.
  have hway : m.isUsable ⟨⟨0⟩, ⟨3⟩⟩ = true ∧ m.PassesOn ⟨0⟩ ⟨3⟩ ∧
      m.isUsable ⟨⟨3⟩, ⟨4⟩⟩ = true ∧
      m.PassesOn ⟨0⟩ ⟨4⟩ ∧ m.isUsable ⟨⟨4⟩, ⟨5⟩⟩ = true ∧
      0 + m.latency ⟨0⟩ ⟨3⟩ + m.latency ⟨3⟩ ⟨4⟩ + m.latency ⟨4⟩ ⟨5⟩ < 6 := by
    decide +kernel
  have hmissed : ∀ n, m.nodes.get? ⟨5⟩ = some n → ∀ n',
      ((m.call ⟨0⟩ publication).advance 6).nodes.get? ⟨5⟩ = some n' →
      n'.applied = n.applied := by
    decide +kernel
  obtain ⟨hfirst, hthird, hsecond, hfourth, hlast, hnear⟩ := hway
  have hroute := ((Route.leader.link (Or.inl rfl) hfirst).link hthird
    hsecond).link hfourth hlast
  obtain ⟨distance, hle, hdistance⟩ := hroute.distance
  obtain ⟨n, hn⟩ : ∃ n, m.nodes.get? ⟨5⟩ = some n := by
    obtain ⟨x, y, -, hy, -⟩ := isUsable_iff.1 hlast
    exact ⟨y, hy⟩
  obtain ⟨n', hn', hflooded⟩ := hfloods.nodes ⟨5⟩ n hn
  have happlied := hflooded.applied distance hdistance (by decide)
    (Nat.lt_of_le_of_lt hle hnear)
  rw [hmissed n hn n' hn'] at happlied
  exact absurd happlied (Nat.ne_of_lt (Nat.lt_succ_self _))

end Mesh

end OnMesh
