import OnMesh.Proofs.Mesh.Agreement

/-!
# Every two neighbours stay tied

For every two stations of a mesh the messages that wait at one of them, that are
on the wire or that wait at the other make up two channels, and by these the two
nodes are tied.  `Steady` puts this together with the lineage and with what is
known of the packets on the wire.  Each stage of a step keeps it, and so does
every call on a node.
-/

namespace OnMesh

open Wire (Frame Message)
open Channel (Side Tied)

namespace Node

variable {x x' y : Node} {there back : List Message}

/-- Two nodes are tied by everything that is on its way between them. -/
def Paired (x y : Node) (there back : List Message) : Prop :=
  Tied (x.side y.id) (y.side x.id) (y.inbox x.id ++ there ++ x.outbox y.id)
    (x.inbox y.id ++ back ++ y.outbox x.id)

theorem paired_iff_inTouch :
    Paired x y there back ↔ x.InTouch y.id (y.side x.id) (y.inbox x.id ++
      there) (back ++ y.outbox x.id) := by
  rw [Paired, InTouch, List.append_assoc (x.inbox y.id)]

theorem Paired.symm (h : Paired x y there back) : Paired y x back there :=
  Tied.symm h

/-- What a node hands out fits a packet, in which it can be read. -/
theorem Sound.readable {held : Set NetworkData} (h : x.Sound held)
    (hfits : ∀ d ∈ held, d.Fits) {o : Outgoing} (ho : o ∈ x.popAll.1) :
    x.isAdmissible o.to = true ∧ o.frame.message.Within held ∧ ∃ bytes header,
      o.frame.serialize = .ok bytes ∧ Frame.parse bytes = .ok ⟨header,
        o.frame.message⟩ ∧ header.sender = x.id := by
  obtain ⟨tally, hpop⟩ := x.popAll_spec
  rw [hpop] at ho
  obtain ⟨hmem, hadm⟩ := List.mem_filter.1 ho
  have hwithin := h.within.outgoing o hmem
  obtain ⟨message, hframe⟩ := h.signed o hmem
  rw [hframe] at hwithin ⊢
  exact ⟨hadm, hwithin, Frame.serialize_of_within hfits x.id hwithin⟩

theorem Sound.popAll {held : Set NetworkData} (h : x.Sound held) :
    x.popAll.2.Sound held := by
  obtain ⟨tally, hpop⟩ := x.popAll_spec
  rw [hpop]
  have hformed := h.formed
  refine ⟨⟨hformed.owner, hformed.authority, hformed.links, hformed.addresses,
    hformed.flooding⟩, fun o ho => (nomatch ho), ?_⟩
  exact ⟨h.within.replica, h.within.incoming, by simp [left]⟩

/-- What happens at one of two nodes only moves that one. -/
theorem Paired.move {there' back' : List Message} (h : Paired x y there back)
    (hid : x'.id = x.id)
    (hmove : ∀ other before after,
      x.InTouch y.id other (before ++ there) (back ++ after) →
      x'.InTouch y.id other (before ++ there') (back' ++ after)) :
    Paired x' y there' back' := by
  rw [paired_iff_inTouch] at h ⊢
  rw [hid]
  exact hmove _ _ _ h

end Node

namespace Mesh

variable {m m' : Mesh} {leader s t : Station}
  {held held' : Set NetworkData} {p : Packet}
  {ps : List Packet}

/-- A packet can be read, and it goes over a link, from the node that has
made it to another. -/
structure Carries (held : Set NetworkData) (m : Mesh) (p : Packet) : Prop where
  read : ∃ x frame, m.nodes.get? p.source = some x ∧
    Frame.parse p.bytes = .ok frame ∧
    frame.sender = x.id ∧ frame.message.Within held
  target : ∃ y, m.nodes.get? p.target = some y
  link : ∃ ticks, m.latencies.get? (Arc.link p.source p.target) = some ticks ∧
    p.due ≤ m.now + max ticks 1

theorem Carries.extend (h : m.Carries held p) (hext : m.Extends m')
    (hsub : held ⊆ held') : m'.Carries held' p where
  read := by
    obtain ⟨x, frame, hx, hparse, hsender, hwithin⟩ := h.read
    obtain ⟨x', hx', hid⟩ := hext.nodes _ x hx
    exact ⟨x', frame, hx', hparse, hsender.trans hid.symm, hwithin.mono hsub⟩
  target := by
    obtain ⟨y, hy⟩ := h.target
    obtain ⟨y', hy', -⟩ := hext.nodes _ y hy
    exact ⟨y', hy'⟩
  link := by
    obtain ⟨ticks, hticks, hdue⟩ := h.link
    exact ⟨ticks, hext.latencies _ _ hticks,
      hdue.trans (Nat.add_le_add_right hext.now _)⟩

def Touching (ps : List Packet) (m : Mesh) : Prop :=
  ∀ s t x y, s ≠ t → m.nodes.get? s = some x → m.nodes.get? t = some y →
    Node.Paired x y (between s t ps) (between t s ps)

/-- The data are those of one lineage, and no node lags behind a
neighbour for good. -/
structure Steady (leader : Station) (held : Set NetworkData) (ps : List Packet)
    (m : Mesh) : Prop where
  agrees : m.Agrees leader held
  carries : ∀ p ∈ ps, m.Carries held p
  inOrder : InOrder ps
  touching : m.Touching ps

/-- Only nodes, links and time matter. -/
theorem Steady.of_nodes (h : m.Steady leader held ps)
    (hnodes : m'.nodes = m.nodes) (hstations : m'.stations = m.stations)
    (hlatencies : ∀ link ticks, m.latencies.get? link = some ticks →
      m'.latencies.get? link = some ticks) (hnow : m.now ≤ m'.now) :
    m'.Steady leader held ps := by
  have hext : m.Extends m' := by
    refine ⟨fun s n hn => ⟨n, ?_, rfl⟩, hlatencies, hnow⟩
    rw [hnodes]
    exact hn
  have hauthored : m'.authored leader = m.authored leader := by
    rw [authored, hnodes, authored]
  refine ⟨h.agrees.succeed hext (h.agrees.located.of_tables hnodes hstations) ?_
      h.agrees.fits ?_,
    fun p hp => (h.carries p hp).extend hext (le_refl held), h.inOrder, ?_⟩
  · rw [hauthored]
    exact h.agrees.lineage
  · intro s n hn
    rw [hnodes] at hn
    have hmember := h.agrees.members s n hn
    exact ⟨n, hn, hmember.succeeds_self (le_refl held), hmember.linked⟩
  · intro s t x y hne hx hy
    rw [hnodes] at hx hy
    exact h.touching s t x y hne hx hy

/-! ## Calls -/

/-- All pairs are tied if those with one station are, and those of the
others. -/
theorem touching_of_one {n' : Node}
    (hget : ∀ t k, m'.nodes.get? t = some k → t = s ∧ k = n' ∨ t ≠ s ∧
      m.nodes.get? t = some k)
    (hone : ∀ t k, t ≠ s → m.nodes.get? t = some k →
      Node.Paired n' k (between s t ps) (between t s ps))
    (hothers : ∀ t u x y, t ≠ u → t ≠ s → u ≠ s → m.nodes.get? t = some x →
      m.nodes.get? u = some y →
      Node.Paired x y (between t u ps) (between u t ps)) : m'.Touching ps := by
  intro t u x y hne hx hy
  rcases hget t x hx with ⟨rfl, rfl⟩ | ⟨ht, hx'⟩
  · rcases hget u y hy with ⟨rfl, -⟩ | ⟨hu, hy'⟩
    · exact absurd rfl hne
    · exact hone u y hu hy'
  · rcases hget u y hy with ⟨rfl, rfl⟩ | ⟨hu, hy'⟩
    · exact (hone t x ht hx').symm
    · exact hothers t u x y hne ht hu hx' hy'

theorem Touching.setNode (h : m.Touching ps) {n n' : Node}
    (hn : m.nodes.get? s = some n) (hid : n'.id = n.id)
    (hmove : ∀ b other there back, n.InTouch b other there back →
      n'.InTouch b other there back) : (m.setNode s n').Touching ps := by
  refine touching_of_one (fun _ _ => get?_setNode) (fun t k ht hk => ?_)
    fun t u x y hne _ _ hx hy => h t u x y hne hx hy
  exact (h s t n k (Ne.symm ht) hn hk).move hid fun _ _ _ => hmove _ _ _ _

theorem Touching.map (h : m.Touching ps) {f : Node → Node}
    (hf : ∀ s n, m.nodes.get? s = some n →
      (f n).id = n.id ∧ ∀ b other there back, n.InTouch b other there back →
      (f n).InTouch b other there back) :
    ({ m with nodes := m.nodes.map f } : Mesh).Touching ps := by
  intro s t x' y' hne hx' hy'
  obtain ⟨x, hx, rfl⟩ := Table.get?_map_eq_some_iff.1 hx'
  obtain ⟨y, hy, rfl⟩ := Table.get?_map_eq_some_iff.1 hy'
  obtain ⟨hidX, hmoveX⟩ := hf s x hx
  obtain ⟨hidY, hmoveY⟩ := hf t y hy
  have hfirst := (h s t x y hne hx hy).move hidX fun _ _ _ => hmoveX _ _ _ _
  exact (hfirst.symm.move hidY fun _ _ _ => hmoveY _ _ _ _).symm

/-- No frame that waits at the authority is about a version that it does not
hold. -/
theorem Agrees.bounded (h : m.Agrees leader held) {n : Node}
    (hn : m.nodes.get? s = some n) (hpublish : n.role.canPublish = true) :
    ∀ f ∈ n.incoming, f.message.Bounded n.version := by
  have hleader : s = leader := (h.canPublish_iff hn).1 hpublish
  subst hleader
  intro f hf t ht
  have hl := h.lineage
  rw [authored_of_some hn] at hl
  have hwithin := (h.members s n hn).sound.within.incoming f hf
  cases hmessage : f.message with
  | delta d =>
      rw [hmessage] at hwithin ht
      obtain ⟨old, -, new, hnew, -, rfl⟩ := hwithin
      cases ht
      exact hl.le_latest new hnew
  | snapshotRequest v =>
      rw [hmessage] at ht
      cases ht
  | snapshot data =>
      rw [hmessage] at hwithin ht
      cases ht
      exact hl.le_latest data hwithin

/-- Whatever is asked of a node leaves the mesh steady. -/
theorem Steady.call (h : m.Steady leader held ps) {n : Node}
    (hn : m.nodes.get? s = some n) {c : Node.Call} (hlocal : c.isLocal = true)
    (hdetach : c = .detach → s ≠ leader)
    (hnext : c.isEdit = true → n.role.canPublish = true →
      n.version < n.version.next)
    (hlinked : ∀ b, (n.after c).links.hasNeighbour b = true → m.Linked s b)
    (hroom : (n.after c).outgoing.length < n.settings.maxOutbound) :
    ∃ held', (m.setNode s (n.after c)).Steady leader held' ps := by
  have hbrings : c.Brings held := by
    cases c with
    | queueFrame frame => cases hlocal
    | queueBytes bytes => cases hlocal
    | _ => trivial
  have hmember := h.agrees.members s n hn
  obtain ⟨held', hsub, hagrees⟩ :=
    h.agrees.call hn hbrings hdetach hnext hlinked
  refine ⟨held', hagrees, fun p hp => ?_, h.inOrder, ?_⟩
  · exact (h.carries p hp).extend
      (extends_setNode hn (Node.alike_after n c).id) hsub
  · refine h.touching.setNode hn (Node.alike_after n c).id
      fun _ _ _ _ htouch => ?_
    exact htouch.after hlocal hmember.sound.formed
      hmember.sound.within.replica.grounded
      (h.agrees.bounded hn) hnext hroom

/-! ## Delivery -/

def HasRoom (m : Mesh) : Prop := m.Holds Node.HasRoom

theorem hasRoom_of_queueBytes {n : Node} {bytes : List UInt8}
    (h : (n.queueBytes bytes).2.HasRoom) : n.HasRoom := by
  rw [Node.queueBytes] at h
  split at h
  · rw [Node.queueFrame] at h
    split at h
    · exact ⟨h.incoming, h.outgoing⟩
    · have hlength := h.incoming
      rw [List.length_append] at hlength
      exact ⟨Nat.lt_of_le_of_lt (Nat.le_add_right _ _) hlength, h.outgoing⟩
  · exact ⟨h.incoming, h.outgoing⟩

/-- If one node had room before, all had. -/
theorem hasRoom_of_insert {n n' : Node} (hn : m.nodes.get? s = some n)
    (hgrow : n'.HasRoom → n.HasRoom) (hnodes : m'.nodes = m.nodes.insert s n')
    (h : m'.HasRoom) : m.HasRoom := by
  intro t k hk
  by_cases hts : t = s
  · subst hts
    rw [hn] at hk
    cases hk
    refine hgrow (h t n' ?_)
    rw [hnodes, Table.get?_insert, if_pos rfl]
  · apply h t k
    rw [hnodes, Table.get?_insert, if_neg hts, hk]

theorem hasRoom_of_deliver (h : (m.deliver p).HasRoom) : m.HasRoom := by
  cases hp : m.nodes.get? p.target with
  | none =>
      rw [deliver_of_none hp] at h
      exact h
  | some k =>
      obtain ⟨tally, heq⟩ := deliver_of_some hp
      rw [heq] at h
      exact hasRoom_of_insert hp hasRoom_of_queueBytes rfl h

theorem hasRoom_of_foldl_deliver (h : (ps.foldl deliver m).HasRoom) :
    m.HasRoom := by
  induction ps generalizing m with
  | nil => exact h
  | cons p ps ih => exact hasRoom_of_deliver (ih h)

/-- A packet that arrives leaves the channel from its source and no other. -/
theorem Steady.paired_queueBytes (h : m.Steady leader held (p :: ps))
    {u : Station} {k y : Node} (hk : m.nodes.get? p.target = some k)
    (hroom : k.HasRoom) (hu : u ≠ p.target) (hy : m.nodes.get? u = some y) :
    Node.Paired (k.after (.queueBytes p.bytes)) y (between p.target u ps)
      (between u p.target ps) := by
  obtain ⟨x, frame, hx, hparse, hsender, -⟩ :=
    (h.carries p List.mem_cons_self).read
  have hafter : k.after (.queueBytes p.bytes) = (k.queueFrame frame).2 := by
    rw [Node.after, Node.queueBytes, hparse]
  have hid : (k.queueFrame frame).2.id = k.id :=
    (Node.alike_queueFrame k frame).id
  have htied := h.touching p.target u k y (Ne.symm hu) hk hy
  rw [between_cons_of_not_joins fun hjoins => hu hjoins.2.symm] at htied
  rw [hafter]
  by_cases hsource : p.source = u
  · subst hsource
    rw [hx] at hy
    cases hy
    rw [between_cons_of_joins ⟨rfl, rfl⟩ hparse] at htied
    exact htied.move hid fun other before after htouch =>
      htouch.queueFrame hsender (h.agrees.members _ k hk).vacant hroom.incoming
  · rw [between_cons_of_not_joins fun hjoins => hsource hjoins.1] at htied
    refine htied.move hid fun other before after htouch =>
      htouch.queueFrame_past fun heq => ?_
    exact hsource
      (h.agrees.located.unique _ u x y hx hy (hsender.symm.trans heq))

/-- A packet that arrives goes on in the queue of its target. -/
theorem Steady.deliver (h : m.Steady leader held (p :: ps))
    (hroom : m.HasRoom) : ∃ held', (m.deliver p).Steady leader held' ps := by
  obtain ⟨hcarried, hcarries⟩ := List.forall_mem_cons.1 h.carries
  obtain ⟨x, frame, -, hparse, -, hwithin⟩ := hcarried.read
  obtain ⟨k, hk⟩ := hcarried.target
  have hbrings : (Node.Call.queueBytes p.bytes).Brings held := by
    intro read hread
    rw [hparse] at hread
    cases hread
    exact hwithin
  have hid := (Node.alike_after k (.queueBytes p.bytes)).id
  obtain ⟨held', hsub, hagrees⟩ :=
    h.agrees.call hk hbrings (by simp) (by simp [Node.Call.isEdit])
    fun b hb => (h.agrees.members _ k hk).linked b
      ((Node.hasNeighbour_after k _ hb).resolve_right (by simp))
  have hsteady : (m.setNode p.target (k.after (.queueBytes p.bytes))).Steady
      leader held' ps := by
    refine ⟨hagrees, fun q hq => (hcarries q hq).extend (extends_setNode hk hid)
      hsub, h.inOrder.sublist (List.sublist_cons_self _ _), ?_⟩
    refine touching_of_one (fun _ _ => get?_setNode)
      (fun t y ht hy => h.paired_queueBytes hk (hroom _ k hk) ht hy) ?_
    intro t u x y hne ht hu hx hy
    have htied := h.touching t u x y hne hx hy
    rwa [between_cons_of_not_joins fun hjoins => hu hjoins.2.symm,
      between_cons_of_not_joins fun hjoins => ht hjoins.2.symm] at htied
  obtain ⟨tally, heq⟩ := deliver_of_some hk
  rw [heq]
  exact ⟨held', hsteady.of_nodes rfl rfl (fun _ _ h => h) (Nat.le_refl _)⟩

theorem Steady.foldl_deliver {arriving : List Packet}
    (h : m.Steady leader held (arriving ++ ps))
    (hroom : (arriving.foldl Mesh.deliver m).HasRoom) :
    ∃ held', (arriving.foldl Mesh.deliver m).Steady leader held' ps := by
  induction arriving generalizing m held with
  | nil => exact ⟨held, h⟩
  | cons p arriving ih =>
      have hbefore : (m.deliver p).HasRoom := hasRoom_of_foldl_deliver hroom
      obtain ⟨held', hnext⟩ := h.deliver (hasRoom_of_deliver hbefore)
      exact ih hnext hroom

/-- Taking the packets that are due off the wire first changes nothing. -/
theorem Steady.dueFirst (h : m.Steady leader held ps) (now : Nat) :
    m.Steady leader held (dueFirst now ps) where
  agrees := h.agrees
  carries := fun p hp => h.carries p (mem_dueFirst_iff.1 hp)
  inOrder := h.inOrder.dueFirst now
  touching := by
    intro s t x y hne hx hy
    rw [h.inOrder.between_dueFirst, h.inOrder.between_dueFirst]
    exact h.touching s t x y hne hx hy

theorem Steady.deliverDue (h : m.Steady leader held m.inFlight)
    (hroom : m.deliverDue.HasRoom) :
    ∃ held', m.deliverDue.Steady leader held' m.deliverDue.inFlight := by
  have hstart : ({ m with
      inFlight := m.inFlight.filter fun p => !(p.due ≤ m.now) } : Mesh).Steady
      leader held (m.due ++ m.inFlight.filter fun p => !(p.due ≤ m.now)) :=
    (h.dueFirst m.now).of_nodes rfl rfl (fun _ _ h => h) (Nat.le_refl _)
  rw [m.deliverDue_fields.1]
  exact hstart.foldl_deliver hroom

/-! ## Ticks -/

/-- A call that every node gets and that is no edit leaves the mesh steady. -/
theorem Steady.callAll (h : m.Steady leader held ps) {c : Node.Call}
    (hlocal : c.isLocal = true) (hdetach : c ≠ .detach)
    (hedit : c.isEdit = false) (hneighbours : ∀ b, c ≠ .addNeighbour b)
    (hroom :
      ({ m with nodes := m.nodes.map fun n => n.after c } : Mesh).HasRoom) :
    ({ m with nodes := m.nodes.map fun n => n.after c } : Mesh).Steady
      leader held ps := by
  have hbrings : c.Brings held := by
    cases c with
    | queueFrame frame => cases hlocal
    | queueBytes bytes => cases hlocal
    | _ => trivial
  have hget : ∀ s n, m.nodes.get? s = some n →
      ({ m with nodes := m.nodes.map fun n => n.after c } : Mesh).nodes.get? s =
        some (n.after c) :=
    fun s n hn => Table.get?_map_eq_some_iff.2 ⟨n, hn, rfl⟩
  refine ⟨h.agrees.map fun s n hn => ?_, fun p hp => ?_, h.inOrder,
    h.touching.map fun s n hn => ?_⟩
  · have hmember := h.agrees.members s n hn
    refine ⟨⟨Node.alike_after n c, ?_, hmember.stocked.after c,
      hmember.vacant.after c⟩, ?_, ?_⟩
    · exact ⟨hmember.sound.formed.of_alike (Node.alike_after n c),
        hmember.sound.signed.after c,
        hmember.sound.within.after h.agrees.lineage hedit hbrings⟩
    · intro hrole
      exact Node.data_after_of_authority
        (hmember.sound.formed.authority.trans hrole) hedit hdetach
    · intro b hb
      exact (Node.hasNeighbour_after n c hb).resolve_right fun hadd =>
        hneighbours b hadd.1
  · refine (h.carries p hp).extend
      ⟨?_, fun _ _ h => h, Nat.le_refl _⟩ (le_refl held)
    intro s n hn
    exact ⟨_, hget s n hn, (Node.alike_after n c).id⟩
  · have hmember := h.agrees.members s n hn
    have hout := (hroom s _ (hget s n hn)).outgoing
    rw [(Node.alike_after n c).settings] at hout
    refine ⟨(Node.alike_after n c).id, fun _ _ _ _ htouch => ?_⟩
    refine htouch.after hlocal hmember.sound.formed
      hmember.sound.within.replica.grounded
      (h.agrees.bounded hn) (fun h => ?_) hout
    rw [hedit] at h
    cases h

theorem Steady.tickAll (h : m.Steady leader held ps)
    (hroom : m.tickAll.HasRoom) : m.tickAll.Steady leader held ps :=
  h.callAll (c := .tick m.now) rfl (by simp) rfl (by simp) hroom

/-! ## Transmission -/

/-- What a node hands out fits a packet, in which it can be read. -/
theorem Agrees.readable (h : m.Agrees leader held) {n : Node}
    (hn : m.nodes.get? s = some n) {o : Outgoing} (ho : o ∈ n.popAll.1) :
    n.isAdmissible o.to = true ∧ o.frame.message.Within held ∧ ∃ bytes header,
      o.frame.serialize = .ok bytes ∧ Frame.parse bytes = .ok ⟨header,
        o.frame.message⟩ ∧ header.sender = n.id := by
  exact (h.members s n hn).sound.readable h.fits ho

theorem Agrees.popped (h : m.Agrees leader held) :
    m.popped.Agrees leader held := by
  apply h.map
  intro s n hn
  have hmember := h.members s n hn
  have hsound := hmember.sound.popAll
  obtain ⟨tally, hpop⟩ := n.popAll_spec
  rw [hpop] at hsound ⊢
  exact ⟨⟨⟨rfl, rfl, rfl, rfl, rfl, rfl, rfl, rfl⟩, hsound,
    hmember.stocked.of_eq rfl rfl rfl rfl, hmember.vacant⟩,
    fun _ => rfl, fun _ hb => hb⟩

theorem extends_popped (m : Mesh) : m.Extends m.popped := by
  refine ⟨fun s n hn => ?_, fun _ _ h => h, Nat.le_refl _⟩
  exact ⟨n.popAll.2, Table.get?_map_eq_some_iff.2 ⟨n, hn, rfl⟩, id_popAll n⟩

theorem latency_of_get? {a b : Station} {ticks : Nat}
    (h : m.latencies.get? (Arc.link a b) = some ticks) :
    m.latency a b = max ticks 1 := by
  rw [latency, h]
  rfl

/-- What the nodes have sent goes over links to other nodes. -/
theorem Agrees.carries_arrivals (h : m.Agrees leader held)
    (hp : p ∈ m.popped.arrivals m.posted) : m.popped.Carries held p := by
  obtain ⟨l, hl, hlocate, hpacket⟩ := mem_arrivals_iff.1 hp
  obtain ⟨⟨s, n⟩, he, hl⟩ := List.mem_flatMap.1 hl
  obtain ⟨o, ho, hletter⟩ := List.mem_filterMap.1 hl
  have hn : m.nodes.get? s = some n := Table.get?_of_mem he
  obtain ⟨hadm, hwithin, bytes, header, hbytes, hparse, hsender⟩ :=
    h.readable hn ho
  rw [hbytes] at hletter
  cases hletter
  have hneighbour : n.links.hasNeighbour o.to = true :=
    Links.hasNeighbour_of_isAdmissible hadm
  obtain ⟨t, k, -, hk, hid, hlink⟩ :=
    ((h.members s n hn).linked o.to hneighbour).extend m.extends_popped
  have htarget : p.target = t := by
    have hfound := (h.popped.located.locate?_eq_some_iff hk).2 hid.symm
    exact Option.some.inj (hlocate.symm.trans hfound)
  obtain ⟨ticks, hticks⟩ := Option.isSome_iff_exists.1 hlink
  obtain ⟨n', hn', hidN⟩ := m.extends_popped.nodes s n hn
  subst htarget
  rw [hpacket]
  refine ⟨⟨n', _, hn', hparse, hsender.trans hidN.symm, hwithin⟩, ⟨k, hk⟩,
    ticks, hticks, ?_⟩
  exact Nat.le_of_eq (congrArg (m.popped.now + ·) (latency_of_get? hticks))

theorem between_arrivals_posted (h : m.Agrees leader held) {x y : Node}
    (hx : m.nodes.get? s = some x) (hy : m.popped.nodes.get? t = some y) :
    between s t (m.popped.arrivals m.posted) = Node.sentTo y.id x.popAll.1 := by
  have hsplit : m.popped.arrivals m.posted =
      m.nodes.entries.flatMap fun e =>
        m.popped.arrivals (letters e.1 e.2.popAll.1) := by
    rw [arrivals, posted, List.filterMap_flatMap]
    rfl
  rw [hsplit, between_flatMap]
  have hother : ∀ e ∈ m.nodes.entries, e.1 ≠ s →
      between s t (m.popped.arrivals (letters e.1 e.2.popAll.1)) = [] :=
    fun e _ hne => between_arrivals_of_ne hne _
  rw [Table.flatMap_entries_eq hx hother]
  refine between_arrivals_letters
    (fun c => h.popped.located.locate?_eq_some_iff hy) fun o ho => ?_
  obtain ⟨-, -, bytes, header, hbytes, hparse, -⟩ := h.readable hx ho
  exact ⟨bytes, header, hbytes, hparse⟩

/-- What was waiting to be sent is on the wire afterwards. -/
theorem Steady.transmitAll (h : m.Steady leader held m.inFlight) :
    m.transmitAll.Steady leader held m.transmitAll.inFlight := by
  obtain ⟨tally, heq⟩ := m.transmitAll_spec
  have hpopped : m.popped.Steady leader held
      (m.inFlight ++ m.popped.arrivals m.posted) := by
    have hcarries : ∀ p ∈ m.inFlight, m.popped.Carries held p := fun p hp =>
      (h.carries p hp).extend m.extends_popped (le_refl held)
    refine ⟨h.agrees.popped, ?_, h.inOrder.append_arrivals ?_ _, ?_⟩
    · intro p hp
      rcases List.mem_append.1 hp with hp | hp
      · exact hcarries p hp
      · exact h.agrees.carries_arrivals hp
    · intro p hp
      obtain ⟨ticks, hticks, hdue⟩ := (hcarries p hp).link
      rw [latency_of_get? hticks]
      exact hdue
    · intro s t x' y' hne hx' hy'
      obtain ⟨x, hx, rfl⟩ := Table.get?_map_eq_some_iff.1 hx'
      obtain ⟨y, hy, rfl⟩ := Table.get?_map_eq_some_iff.1 hy'
      rw [between_append, between_append,
        between_arrivals_posted h.agrees hx hy',
        between_arrivals_posted h.agrees hy hx', id_popAll y]
      have hfirst : Node.Paired x.popAll.2 y
          (between s t m.inFlight ++ Node.sentTo y.id x.popAll.1)
          (between t s m.inFlight) := by
        apply (h.touching s t x y hne hx hy).move (id_popAll x)
        intro other before after htouch
        rw [← List.append_assoc]
        exact htouch.popAll
      refine (hfirst.symm.move (id_popAll y)
        fun other before after htouch => ?_).symm
      rw [← List.append_assoc]
      exact htouch.popAll
  rw [heq]
  exact hpopped.of_nodes rfl rfl (fun _ _ h => h) (Nat.le_refl _)

end Mesh

end OnMesh
