import OnMesh.Proofs.Mesh.Wave

/-!
# How the wave moves

Sending puts the front of the wave on the wire: its packets start at stations
that have just been reached, so they join no stations that a packet joins
already.  A step hands over the packets that are due, which come from different
neighbours and therefore find room.  A station is told for the first time
exactly when its distance has passed; whatever else arrives there comes from a
neighbour that is not admitted, or is known already.
-/

namespace OnMesh

open Wire (Frame Message)

namespace Mesh

variable {g m : Mesh} {leader s t : Station} {d : Delta} {i sent : Nat}
  {n k : Node} {p : Packet}

/-- The wave moves no node. -/
theorem Wave.stays (h : Wave g leader d i sent m) : g.Stays m := by
  refine ⟨h.stations, fun s => ?_⟩
  cases hn : g.nodes.get? s with
  | some n =>
      obtain ⟨k, hk⟩ := h.kept s n hn
      rw [hk]
      exact congrArg some (h.abreast hn hk).still.alike.id
  | none =>
      cases hk : m.nodes.get? s with
      | none => rfl
      | some k =>
          obtain ⟨n, hn', -⟩ := h.each s k hk
          rw [hn] at hn'
          cases hn'

theorem Wave.located (hg : g.Poised leader d) (h : Wave g leader d i sent m) :
    m.Located :=
  hg.registered.located.stay h.stays

/-! ## Sending -/

theorem Abreast.popAll (h : g.Abreast leader d i s n k) :
    g.Abreast leader d i s n k.popAll.2 := by
  obtain ⟨tally, hpop⟩ := k.popAll_spec
  rw [hpop]
  exact h.of_still
    ⟨⟨rfl, rfl, rfl, rfl, rfl, rfl, rfl, rfl⟩, rfl, rfl, Flooding.Plain.refl _⟩
    rfl rfl

theorem Wave.popped (h : Wave g leader d i sent m) :
    Wave g leader d i sent m.popped where
  settings := h.settings
  stations := h.stations
  latencies := h.latencies
  now := h.now
  each := by
    intro s k hk
    obtain ⟨j, hj, rfl⟩ := Table.get?_map_eq_some_iff.1 hk
    obtain ⟨n, hn, habreast⟩ := h.each s j hj
    exact ⟨n, hn, habreast.popAll⟩
  kept := by
    intro s n hn
    obtain ⟨k, hk⟩ := h.kept s n hn
    exact ⟨k.popAll.2, Table.get?_map_eq_some_iff.2 ⟨k, hk, rfl⟩⟩
  bears := h.bears
  distinct := h.distinct
  complete := h.complete

/-- A letter from the front becomes a packet that takes the delta on. -/
theorem Ticked.bears_of_mem_arrivals (hg : g.Poised leader d)
    (h : Ticked g leader d i m) (hp : p ∈ m.popped.arrivals m.posted) :
    m.now < p.due ∧ g.Bears leader d p i := by
  obtain ⟨l, hl, hlocate, hpacket⟩ := mem_arrivals_iff.1 hp
  obtain ⟨x, hx, hdistance, hpasses, hadm, htells⟩ := h.of_mem_posted hg hl
  obtain ⟨k, hk, hid⟩ := (h.wave.popped.located hg _ _).1 hlocate
  obtain ⟨y, hy, habreast⟩ := h.wave.popped.each p.target k hk
  have hpos := m.popped.latency_pos l.source p.target
  have hsource : p.source = l.source := by rw [hpacket]
  have hbytes : p.bytes = l.bytes := by rw [hpacket]
  have hdue : p.due = m.now + m.popped.latency l.source p.target := by
    rw [hpacket]; rfl
  rw [← hsource] at hx hdistance hpasses hdue hpos
  refine ⟨by omega, hdistance, hpasses, ?_, x, y, hx, hy, ?_, ?_⟩
  · rw [hdue, h.wave.popped.latency_eq, h.wave.now]
  · rw [← habreast.still.alike.id, hid]
    exact hadm
  · rw [hbytes]
    exact htells

/-- The new packets join no stations that a packet joins already. -/
theorem Ticked.nodup_append_arrivals (hg : g.Poised leader d)
    (h : Ticked g leader d i m) :
    ((m.inFlight ++ m.popped.arrivals m.posted).map fun p =>
      (p.source, p.target)).Nodup := by
  rw [List.map_append, List.nodup_append]
  refine ⟨h.wave.distinct,
    (h.wave.popped.located hg).nodup_arrivals (h.nodup_posted hg), ?_⟩
  rintro way hold _ hnew rfl
  obtain ⟨p, hp, rfl⟩ := List.mem_map.1 hold
  obtain ⟨q, hq, hsame⟩ := List.mem_map.1 hnew
  -- An older packet starts nearer to the leader than the front is.
  obtain ⟨-, ticks, hticks, hbears⟩ := h.wave.bears p hp
  have hfront := (h.bears_of_mem_arrivals hg hq).2.distance
  rw [show q.source = p.source from congrArg Prod.fst hsame] at hfront
  exact absurd (hbears.distance.eq hfront) (Nat.ne_of_lt hticks)

/-- From the front the delta goes wherever it has not been. -/
theorem Ticked.exists_arrival (hg : g.Poised leader d)
    (h : Ticked g leader d i m) (hdistance : g.Distance leader s i)
    (hpasses : g.PassesOn leader s) (husable : g.isUsable ⟨s, t⟩ = true) :
    g.Reached leader i t ∨ ∃ p ∈ m.popped.arrivals m.posted, p.source = s ∧
    p.target = t := by
  rcases h.mem_posted hg hdistance hpasses husable
    with hreached | ⟨l, hl, hsource, y, hy, hid⟩
  · exact Or.inl hreached
  · obtain ⟨k, hk⟩ := h.wave.popped.kept t y hy
    have hlocate : m.popped.locate? l.to = some t :=
      ((h.wave.popped.located hg).locate?_eq_some_iff hk).2
        (by rw [(h.wave.popped.abreast hy hk).still.alike.id, hid])
    let p : Packet :=
      ⟨m.now + m.popped.latency l.source t, l.source, t, l.bytes⟩
    have hp : p ∈ m.popped.arrivals m.posted :=
      mem_arrivals_iff.2 ⟨l, hl, hlocate, rfl⟩
    exact Or.inr ⟨p, hp, hsource, rfl⟩

/-- Sending puts the whole front on the wire. -/
theorem Ticked.transmitAll (hg : g.Poised leader d)
    (h : Ticked g leader d i m) : Sent g leader d i m.transmitAll := by
  obtain ⟨tally, heq⟩ := m.transmitAll_spec
  have hpopped := h.wave.popped
  rw [heq]
  refine ⟨⟨hpopped.settings, hpopped.stations, hpopped.latencies, hpopped.now,
    hpopped.each, hpopped.kept, ?_, h.nodup_append_arrivals hg, ?_⟩, ?_⟩
  · intro p hp
    rcases List.mem_append.1 hp with hold | hnew
    · obtain ⟨hdue, ticks, hticks, hbears⟩ := h.wave.bears p hold
      exact ⟨hdue, ticks, Nat.lt_succ_of_lt hticks, hbears⟩
    · obtain ⟨hdue, hbears⟩ := h.bears_of_mem_arrivals hg hnew
      exact ⟨hdue, i, Nat.lt_succ_self i, hbears⟩
  · intro s t ticks hdistance hticks hpasses husable
    rcases Nat.lt_succ_iff_lt_or_eq.1 hticks with hlt | rfl
    · refine (h.wave.complete s t ticks hdistance hlt hpasses husable).imp_right
        ?_
      exact fun ⟨p, hp, hways⟩ => ⟨p, List.mem_append_left _ hp, hways⟩
    · refine (h.exists_arrival hg hdistance hpasses husable).imp_right ?_
      exact fun ⟨p, hp, hways⟩ => ⟨p, List.mem_append_right _ hp, hways⟩
  · intro s k hk
    obtain ⟨j, hj, rfl⟩ := Table.get?_map_eq_some_iff.1 hk
    obtain ⟨tally, hpop⟩ := j.popAll_spec
    rw [hpop]
    exact ⟨h.handled s j hj, rfl⟩

/-! ## Frames that come in -/

/-- Packets that are due in the next step were sent so long ago
as their links take. -/
theorem Sent.bears_of_mem_due (h : Sent g leader d i m) (hp : p ∈ m.later.due) :
    ∃ ticks, g.Bears leader d p ticks ∧ ticks ≤ i ∧
      ticks + g.latency p.source p.target = i + 1 := by
  obtain ⟨hmem, hdue⟩ := List.mem_filter.1 hp
  obtain ⟨hafter, ticks, hticks, hbears⟩ := h.wave.bears p hmem
  have hnow := h.wave.now
  have hle : p.due ≤ m.now + 1 := of_decide_eq_true hdue
  have hsum := hbears.due
  exact ⟨ticks, hbears, Nat.le_of_lt_succ hticks, by omega⟩

/-- The packets for a station come from different nodes that have it as a
neighbour. -/
theorem Sent.length_arriving_le (h : Sent g leader d i m)
    (hn : g.nodes.get? t = some n) :
    (m.arriving t).length ≤ g.knownBy n.id := by
  let ps := m.later.due.filter fun p => p.target = t
  have hsources : (ps.map (·.source)).Nodup := by
    have hsub : ps.Sublist m.inFlight :=
      List.filter_sublist.trans List.filter_sublist
    have hways : (ps.map fun p => (p.source, p.target)).Nodup :=
      h.wave.distinct.sublist (hsub.map _)
    have hsame : ps.map (fun p => (p.source, p.target)) =
        (ps.map (·.source)).map fun s => (s, t) := by
      rw [List.map_map]
      refine List.map_congr_left fun p hp => ?_
      have htarget : p.target = t := by simpa using (List.mem_filter.1 hp).2
      rw [htarget]
      rfl
    rw [hsame] at hways
    exact hways.of_map _
  have hknown : ps.map (·.source) ⊆
      (g.nodes.filter fun _ x => x.links.hasNeighbour n.id).keys := by
    intro s hs
    obtain ⟨p, hp, rfl⟩ := List.mem_map.1 hs
    obtain ⟨hdue, htarget⟩ := List.mem_filter.1 hp
    have htarget : p.target = t := by simpa using htarget
    obtain ⟨ticks, hbears, -⟩ := h.bears_of_mem_due hdue
    obtain ⟨x, y, hx, hy, hadm, -⟩ := hbears.ends
    rw [htarget, hn] at hy
    cases hy
    refine Table.mem_keys_iff.2 ⟨x, ?_⟩
    rw [Table.get?_filter, hx]
    exact Option.filter_eq_some_iff.2
      ⟨rfl, Links.hasNeighbour_of_isAdmissible hadm⟩
  have hlength : (m.arriving t).length = (ps.map (·.source)).length := by
    rw [arriving, bytesFor, List.length_map, List.length_map]
  rw [hlength, knownBy, ← Table.length_keys]
  exact (List.subperm_of_subset hsources hknown).length_le

/-- The frames that wait after delivery are those of the packets that were
due. -/
theorem Sent.mem_incoming_iff (hg : g.Poised leader d) (h : Sent g leader d i m)
    (hk : m.nodes.get? t = some k) {frame : Frame} :
    frame ∈ (k.receivedAll (m.arriving t)).incoming ↔ k.started = true ∧
      ∃ p ∈ m.later.due, p.target = t ∧ Frame.parse p.bytes = .ok frame := by
  obtain ⟨n, hn, habreast⟩ := h.wave.each t k hk
  have hidle := (h.idle t k hk).1
  cases hstarted : k.started with
  | false =>
      rw [Node.incoming_receivedAll_of_detached hstarted, hidle]
      simp
  | true =>
      have hroom : k.incoming.length + (m.arriving t).length ≤
          k.settings.maxInbound := by
        rw [hidle, habreast.still.alike.settings, List.length_nil, Nat.zero_add]
        exact (h.length_arriving_le hn).trans (hg.inbound t n hn)
      rw [Node.incoming_receivedAll hstarted hroom, hidle, List.nil_append,
        Node.readable, List.mem_filterMap, arriving, bytesFor]
      constructor
      · rintro ⟨bytes, hbytes, hparse⟩
        obtain ⟨p, hp, rfl⟩ := List.mem_map.1 hbytes
        obtain ⟨hdue, htarget⟩ := List.mem_filter.1 hp
        refine ⟨rfl, p, hdue, by simpa using htarget, ?_⟩
        cases hread : Frame.parse p.bytes with
        | ok read =>
            rw [hread] at hparse
            cases hparse
            rfl
        | error fault =>
            rw [hread] at hparse
            cases hparse
      · rintro ⟨-, p, hdue, htarget, hparse⟩
        refine ⟨p.bytes, List.mem_map.2
          ⟨p, List.mem_filter.2 ⟨hdue, by simpa using htarget⟩, rfl⟩, ?_⟩
        rw [hparse]
        rfl

/-! ## A step -/

/-- Whatever comes in is the delta, from a station that the wave has reached; if
the sender is admitted, the wave reaches the station now at the latest. -/
theorem Sent.of_mem_incoming (hg : g.Poised leader d) (h : Sent g leader d i m)
    (hk : m.nodes.get? t = some k) (hn : g.nodes.get? t = some n)
    {frame : Frame} (hframe : frame ∈ (k.receivedAll (m.arriving t)).incoming) :
    frame.message = .delta d ∧
    (∃ s x, g.nodes.get? s = some x ∧ x.id = frame.sender ∧
      g.Reached leader i s) ∧
      (n.isAdmissible frame.sender = true → g.Reached leader (i + 1) t) := by
  obtain ⟨hstarted, p, hdue, rfl, hparse⟩ := (h.mem_incoming_iff hg hk).1 hframe
  obtain ⟨ticks, hbears, hle, hsum⟩ := h.bears_of_mem_due hdue
  obtain ⟨x, y, hx, hy, hadm, frame', hparse', hmessage, hsender⟩ := hbears.ends
  rw [hn] at hy
  cases hy
  rw [hparse] at hparse'
  cases hparse'
  refine ⟨hmessage,
    ⟨p.source, x, hx, hsender.symm, hbears.distance.reached.mono hle⟩, ?_⟩
  intro hadmBack
  rw [hsender] at hadmBack
  rw [(h.wave.abreast hn hk).still.started] at hstarted
  have husable : g.isUsable ⟨p.source, p.target⟩ = true := isUsable_iff.2
    ⟨x, n, hx, hn, hg.started hbears.distance.1 hx, hstarted, hadm, hadmBack⟩
  exact ⟨_, Nat.le_of_eq hsum,
    Route.link hbears.distance.1 hbears.passesOn husable⟩

/-- A station whose distance has just passed hears of the delta from a
neighbour that is admitted. -/
theorem Sent.heard (hg : g.Poised leader d) (h : Sent g leader d i m)
    (hk : m.nodes.get? t = some k) (hn : g.nodes.get? t = some n)
    (hdistance : g.Distance leader t (i + 1)) :
    ∃ frame ∈ (k.receivedAll (m.arriving t)).incoming,
      n.isAdmissible frame.sender = true := by
  -- The neighbour before it on a shortest route has sent the delta,
  -- which is due just now.
  obtain ⟨s, before, hbefore, hpasses, husable, hsum⟩ :=
    hdistance.last_link (Nat.succ_pos i)
  have hpos := g.latency_pos s t
  rcases h.wave.complete s t before hbefore (by omega) hpasses husable with
    hreached | ⟨p, hp, rfl, rfl⟩
  · exact absurd (hdistance.le_of_reached hreached) (Nat.not_succ_le_self i)
  · obtain ⟨-, ticks, -, hbears⟩ := h.wave.bears p hp
    have hnow := h.wave.now
    have hdue := hbears.due
    rw [hbears.distance.eq hbefore] at hdue
    have hmem : p ∈ m.later.due :=
      List.mem_filter.2 ⟨hp, decide_eq_true (show p.due ≤ m.now + 1 by omega)⟩
    obtain ⟨x, y, hx, hy, -, frame, hparse, -, hsender⟩ := hbears.ends
    obtain ⟨x', y', hx', hy', -, hstarted, -, hadm⟩ := isUsable_iff.1 husable
    rw [hx] at hx'
    rw [hn] at hy'
    cases hx'
    cases hy'
    refine ⟨frame, (h.mem_incoming_iff hg hk).2 ⟨?_, p, hmem, rfl, hparse⟩, ?_⟩
    · rw [(h.wave.abreast hn hk).still.started]
      exact hstarted
    · rw [hsender]
      exact hadm

/-- A node that the wave has not reached, but reaches now, awaits the delta. -/
theorem Abreast.awaits (hg : g.Poised leader d) (h : g.Abreast leader d i t n k)
    (hn : g.nodes.get? t = some n) (hempty : k.outgoing = [])
    (hstarted : n.started = true) (hnot : ¬ g.Reached leader i t) :
    k.Awaits d where
  started := h.still.started.trans hstarted
  authority := by
    rw [h.still.alike.authority]
    refine hg.authority_eq_false hn ?_
    rintro rfl
    exact hnot (g.reached_leader t i)
  base := by rw [h.waiting hnot, hg.level t n hn hstarted]
  advances := hg.advances
  room := by
    rw [hempty, h.still.links, h.still.alike.settings,
      List.length_nil, Nat.zero_add]
    exact hg.outbound t n hn

/-- A node that has learnt the delta is at the front. -/
theorem Abreast.posts_of_learns (hg : g.Poised leader d) {k' : Node}
    {sender : NodeId} (hn : g.nodes.get? t = some n)
    (h : g.Abreast leader d i t n k) (hempty : k.outgoing = [])
    (hlearns : Node.Learns d sender k k')
    (hdistance : g.Distance leader t (i + 1))
    (hsender : ∃ s x, g.nodes.get? s = some x ∧ x.id = sender ∧
      g.Reached leader i s) : g.Posts leader d (i + 1) t k' := by
  have hforwards : k.flooding.role.forwards = true ↔ g.PassesOn leader t := by
    rw [h.still.alike.flooding, hg.forwards_iff hn]
  have houtgoing := hlearns.outgoing
  rw [hempty, List.nil_append] at houtgoing
  constructor
  · intro _ hpasses
    refine ⟨some sender, ?_, ?_⟩
    · rw [houtgoing, Flooding.passOn, if_pos (hforwards.2 hpasses),
        hlearns.links, hlearns.alike.id]
    · intro u y hy heq
      obtain ⟨s, x, hx, hid, hreached⟩ := hsender
      have hsame := hg.registered.located.unique s u x y hx hy
        (hid.trans (Option.some.inj heq))
      rw [← hsame]
      exact hreached.mono (Nat.le_succ i)
  · intro hnot
    rw [houtgoing, Flooding.passOn,
      if_neg fun hyes => hnot ⟨hdistance, hforwards.1 hyes⟩]
    rfl

/-- A node that learns the delta when its distance has passed
keeps up with the wave. -/
theorem Abreast.learns {k' : Node} {sender : NodeId}
    (h : g.Abreast leader d i t n k) (hlearns : Node.Learns d sender k k')
    (hbefore : ¬ g.Reached leader i t) (hafter : g.Reached leader (i + 1) t) :
    g.Abreast leader d (i + 1) t n k' where
  still := h.still.trans hlearns.toStill
  reached := fun _ => ⟨hlearns.version, fun _ => by
    rw [hlearns.applied, h.unmoved fun hreached => absurd hreached hbefore]⟩
  waiting := fun hnot => absurd hafter hnot
  unmoved := by
    intro honly
    rw [honly hafter] at hbefore
    exact absurd (g.reached_leader leader i) hbefore

/-- A node that stays calm keeps up with the wave, unless the wave
reaches it just now. -/
theorem Abreast.calm {k' : Node} (h : g.Abreast leader d i t n k)
    (hcalm : Node.Calm k k')
    (hnot : g.Reached leader (i + 1) t → g.Reached leader i t) :
    g.Abreast leader d (i + 1) t n k' := by
  have hsame := h.of_still hcalm.toStill hcalm.version hcalm.applied
  exact ⟨hsame.still, fun hafter => hsame.reached (hnot hafter),
    fun hafter => hsame.waiting fun hbefore =>
      hafter (hbefore.mono (Nat.le_succ i)), fun honly =>
      hsame.unmoved fun hbefore => honly (hbefore.mono (Nat.le_succ i))⟩

/-- What a step makes of the node at a station. -/
theorem Sent.node_tick (hg : g.Poised leader d) (h : Sent g leader d i m)
    (hk : m.nodes.get? t = some k) (hn : g.nodes.get? t = some n) :
    g.Abreast leader d (i + 1) t n ((k.receivedAll (m.arriving t)).tick
      (m.now + 1)) ∧
      g.Posts leader d (i + 1) t
        ((k.receivedAll (m.arriving t)).tick (m.now + 1)) := by
  have hreceived := k.calm_receivedAll (m.arriving t)
  have hsame := (h.wave.abreast hn hk).of_still hreceived.toStill
    hreceived.version hreceived.applied
  have hempty : (k.receivedAll (m.arriving t)).outgoing = [] :=
    hreceived.outgoing.trans (h.idle t k hk).2
  have hadm : ∀ b, (k.receivedAll (m.arriving t)).isAdmissible b =
      n.isAdmissible b := fun b => by
    rw [Node.isAdmissible, hsame.still.links]
    rfl
  have hmessage : ∀ frame ∈ (k.receivedAll (m.arriving t)).incoming,
      frame.message = .delta d :=
    fun _ hframe => (h.of_mem_incoming hg hk hn hframe).1
  -- The wave reaches the station just now, or the tick brings nothing new.
  by_cases hfront : g.Reached leader (i + 1) t ∧ ¬ g.Reached leader i t
  · obtain ⟨hafter, hbefore⟩ := hfront
    have hdistance := hafter.distance_succ hbefore
    have hstarted := hg.started hdistance.1 hn
    obtain ⟨first, hfirst, hfirstAdm⟩ := h.heard hg hk hn hdistance
    obtain ⟨frame, hframe, -, hlearns⟩ :=
      (hsame.awaits hg hn hempty hstarted hbefore).learns_tick
      (m.now + 1) hmessage ⟨first, hfirst, (hadm _).trans hfirstAdm⟩
    exact ⟨hsame.learns hlearns hbefore hafter,
      hsame.posts_of_learns hg hn hempty hlearns hdistance
        (h.of_mem_incoming hg hk hn hframe).2.1⟩
  · have hnot : g.Reached leader (i + 1) t → g.Reached leader i t :=
      fun hafter =>
      not_not.1 fun hbefore => hfront ⟨hafter, hbefore⟩
    have hcalm : Node.Calm (k.receivedAll (m.arriving t))
        ((k.receivedAll (m.arriving t)).tick (m.now + 1)) := by
      refine Node.calm_tick _ hmessage fun frame hframe hframeAdm => ?_
      rw [hadm] at hframeAdm
      exact (hsame.reached
        (hnot ((h.of_mem_incoming hg hk hn hframe).2.2 hframeAdm))).1
    refine ⟨hsame.calm hcalm hnot, fun hdistance => ?_,
      fun _ => hcalm.outgoing.trans hempty⟩
    have hle := hdistance.le_of_reached (hnot hdistance.reached)
    omega

/-- A packet that is not on the wire any more has told its station. -/
theorem Sent.complete_tick (h : Sent g leader d i m) {ticks : Nat}
    (hdistance : g.Distance leader s ticks) (hticks : ticks < i + 1)
    (hpasses : g.PassesOn leader s) (husable : g.isUsable ⟨s, t⟩ = true) :
    g.Reached leader (i + 1) t ∨
      ∃ p ∈ m.inFlight.filter fun p => !(p.due ≤ m.now + 1), p.source = s ∧
      p.target = t := by
  rcases h.wave.complete s t ticks hdistance hticks hpasses husable with
    hreached | ⟨p, hp, rfl, rfl⟩
  · exact Or.inl (hreached.mono (Nat.le_succ i))
  · obtain ⟨-, other, -, hbears⟩ := h.wave.bears p hp
    have hdue := hbears.due
    have hnow := h.wave.now
    rw [hbears.distance.eq hdistance] at hdue
    by_cases hle : p.due ≤ m.now + 1
    · exact Or.inl ⟨_, by omega, Route.link hdistance.1 hpasses husable⟩
    · exact Or.inr ⟨p, List.mem_filter.2 ⟨hp, by simpa using hle⟩, rfl, rfl⟩

/-- In the tick after, the front stands one tick further out and waits to be
sent. -/
theorem Sent.tick (hg : g.Poised leader d) (h : Sent g leader d i m) :
    Ticked g leader d (i + 1) m.later.deliverDue.tickAll := by
  have hnode : ∀ t k, m.later.deliverDue.tickAll.nodes.get? t = some k → ∃ j n,
      m.nodes.get? t = some j ∧ g.nodes.get? t = some n ∧
        k = (j.receivedAll (m.arriving t)).tick (m.now + 1) := by
    intro t k hk
    rw [get?_tickAll_deliverDue] at hk
    obtain ⟨j, hj, rfl⟩ := Option.map_eq_some_iff.1 hk
    obtain ⟨n, hn, -⟩ := h.wave.each t j hj
    exact ⟨j, n, hj, hn, rfl⟩
  obtain ⟨hsettings, hstations, hlatencies, hnow, hflight⟩ :=
    m.fields_tickAll_deliverDue
  refine ⟨⟨hsettings.trans h.wave.settings, hstations.trans h.wave.stations,
    hlatencies.trans h.wave.latencies, ?_, ?_, ?_, ?_, ?_, ?_⟩, ?_, ?_⟩
  · rw [hnow, h.wave.now, Nat.add_assoc]
  · intro t k hk
    obtain ⟨j, n, hj, hn, rfl⟩ := hnode t k hk
    exact ⟨n, hn, (h.node_tick hg hj hn).1⟩
  · intro t n hn
    obtain ⟨j, hj⟩ := h.wave.kept t n hn
    exact ⟨_, by rw [get?_tickAll_deliverDue, hj]; rfl⟩
  · intro p hp
    rw [hflight] at hp
    obtain ⟨hmem, hpending⟩ := List.mem_filter.1 hp
    obtain ⟨-, ticks, hticks, hbears⟩ := h.wave.bears p hmem
    rw [hnow]
    exact ⟨by simpa using hpending, ticks, hticks, hbears⟩
  · rw [hflight]
    exact h.wave.distinct.sublist (List.filter_sublist.map _)
  · intro s t ticks hdistance hticks hpasses husable
    rw [hflight]
    exact h.complete_tick hdistance hticks hpasses husable
  · intro t k hk
    obtain ⟨j, n, -, -, rfl⟩ := hnode t k hk
    exact (Node.tick_fields _ _).1
  · intro t k hk
    obtain ⟨j, n, hj, hn, rfl⟩ := hnode t k hk
    exact (h.node_tick hg hj hn).2

end Mesh

end OnMesh
