import OnMesh.Proofs.Mesh.Acquaintance
import OnMesh.Proofs.Mesh.Courier

/-!
# How a chain is built

Before the nodes of a mesh are attached, links are all that can happen to them:
`Blank` is a mesh whose nodes have just been built and admit exactly the
stations that they are linked to.  A chain is strung up by adding stations and
linking each one to the one before; once all nodes are attached, it is seen as a
chain whose nodes have asked their neighbours for data.
-/

namespace OnMesh

open Wire (Frame Message)

namespace Node

variable {n : Node} {b c : NodeId} {settings : NodeSettings}

/-- The node with one more neighbour, which it admits. -/
def befriended (n : Node) (b : NodeId) : Node :=
  (n.addNeighbour b).after (.setAdmissible b true)

theorem befriended_of_detached (h : n.started = false) (b : NodeId) :
    n.befriended b =
      { n with links := ((n.links.addNeighbour b).setAdmissible b true).2 } :=
  setAdmissible_of_silent (n := n.addNeighbour b) (Or.inl h)

theorem hasNeighbour_befriended (hdetached : n.started = false)
    (howner : n.links.owner = n.id) :
    (n.befriended b).links.hasNeighbour c = true ↔
      n.links.hasNeighbour c = true ∨ c = b ∧ b ≠ n.id := by
  rw [befriended_of_detached hdetached, Links.hasNeighbour_setAdmissible,
    Links.hasNeighbour_addNeighbour, howner]

theorem isAdmissible_befriended (hdetached : n.started = false)
    (howner : n.links.owner = n.id) (hne : b ≠ n.id) :
    (n.befriended b).isAdmissible c = true ↔
    n.isAdmissible c = true ∨ c = b := by
  rw [befriended_of_detached hdetached, isAdmissible]
  by_cases hc : c = b
  · subst hc
    have hknown : (n.links.addNeighbour c).hasNeighbour c = true :=
      Links.hasNeighbour_addNeighbour.2 (Or.inr ⟨rfl, howner ▸ hne⟩)
    rw [Links.isAdmissible_setAdmissible_self, hknown]
    simp
  · rw [Links.isAdmissible_setAdmissible_of_ne true hc,
      Links.isAdmissible_addNeighbour]
    simp [hc, isAdmissible]

/-- Nothing has happened to the node but links. -/
structure Blank (settings : NodeSettings) (n : Node) : Prop where
  eq : n = { make n.id n.role settings with links := n.links }
  owner : n.links.owner = n.id

theorem blank_make (id : NodeId) (role : Role) (settings : NodeSettings) :
    (make id role settings).Blank settings := ⟨rfl, rfl⟩

theorem Blank.detached (h : n.Blank settings) : n.started = false := by
  rw [h.eq]
  rfl

theorem Blank.settings_eq (h : n.Blank settings) : n.settings = settings := by
  rw [h.eq]
  rfl

theorem Blank.befriended (h : n.Blank settings) (b : NodeId) :
    (n.befriended b).Blank settings := by
  have howner : ((n.links.addNeighbour b).setAdmissible b true).2.owner =
      n.id := by
    rw [Links.owner_setAdmissible, ← h.owner]
    rw [Links.addNeighbour]
    split <;> rfl
  rw [befriended_of_detached h.detached]
  exact ⟨congrArg (fun k : Node =>
    { k with links := ((n.links.addNeighbour b).setAdmissible b true).2 }) h.eq,
      howner⟩

def asks (n : Node) : List Outbound :=
  n.start.outgoing.map fun o => ⟨o.to, o.frame.message⟩

/-- A node that is attached greets every neighbour that it admits, as
far as there is room. -/
theorem Blank.start_eq (h : n.Blank settings) :
    ∃ flooding tally, Enqueued { n with
      started := true } (n.greetings n.links.admissible) n.asks ∧
    n.start = ({ n with started := true }).queued n.asks flooding tally := by
  obtain ⟨kept, flooding, tally, henqueued, -, hstart⟩ := start_spec h.detached
  have hempty : n.outgoing = [] := congrArg Node.outgoing h.eq
  have hasks : n.asks = kept := by
    rw [asks, hstart]
    show (n.outgoing ++ kept.map _).map _ = kept
    rw [hempty, List.nil_append, List.map_map]
    exact List.map_id _
  rw [← hasks] at henqueued hstart
  exact ⟨flooding, tally, henqueued, hstart⟩

theorem Blank.greetings_eq (h : n.Blank settings) (neighbours : List NodeId) :
    n.greetings neighbours =
      (neighbours.filter n.isAdmissible).map fun b =>
        ⟨b, .snapshotRequest Version.initial⟩ := by
  have hreplica : n.replica = Replica.make n.id n.role.canPublish :=
    congrArg Node.replica h.eq
  rw [greetings, hreplica]
  rfl

theorem Blank.proper (h : n.Blank settings) : n.Proper := by
  have hstocked := stocked_make n.id n.role settings
  rw [h.eq]
  exact ⟨⟨⟨rfl, rfl, h.owner, rfl, rfl⟩, hstocked, fun _ => rfl⟩, rfl, rfl⟩

end Node

namespace Mesh

variable {m m' : Mesh} {s t a b : Station} {x y : Node}

/-! ## One link -/

theorem setLinkAdmissible_of_some (hx : m.nodes.get? a = some x)
    (hy : m.nodes.get? b = some y) (admissible : Bool) :
    (m.setLinkAdmissible a b admissible).2 =
      (m.call a (.setAdmissible y.id admissible)).call b
        (.setAdmissible x.id admissible) := by
  obtain ⟨t, hfirst⟩ := setAdmissible_eq hx hy admissible
  have hx' : (m.call a (.setAdmissible y.id admissible)).nodes.get? a =
      some (x.after (.setAdmissible y.id admissible)) := by
    rw [get?_call, hx, Option.map_some, if_pos rfl]
  have hy' : ∃ y',
      (m.call a (.setAdmissible y.id admissible)).nodes.get? b = some y' := by
    rw [get?_call, hy, Option.map_some]
    exact ⟨_, rfl⟩
  obtain ⟨y', hy'⟩ := hy'
  obtain ⟨t', hsecond⟩ := setAdmissible_eq hy' hx' admissible
  rw [setLinkAdmissible, hfirst]
  simp only [hsecond, (x.alike_after _).id]

/-- What has become of the node at a station when `a` and `b` have been
linked. -/
def linkedUp (a b : Station) (idA idB : NodeId) (s : Station) (n : Node) :
    Node :=
  if s = a then n.befriended idB else if s = b then n.befriended idA else n

theorem alike_linkedUp (a b : Station) (idA idB : NodeId) (s : Station)
    (n : Node) : Node.Alike n (linkedUp a b idA idB s n) := by
  have hfriend : ∀ c, Node.Alike n (n.befriended c) := fun c =>
    (n.alike_after (.addNeighbour c)).trans
      (Node.alike_after _ (.setAdmissible c true))
  rw [linkedUp]
  split
  · exact hfriend idB
  · split
    · exact hfriend idA
    · exact Node.Alike.refl n

theorem id_linkedUp (a b : Station) (idA idB : NodeId) (s : Station)
    (n : Node) : (linkedUp a b idA idB s n).id = n.id :=
  (alike_linkedUp a b idA idB s n).id

theorem blank_linkedUp (a b : Station) (idA idB : NodeId) (s : Station)
    {n : Node} {settings : NodeSettings} (h : n.Blank settings) :
    (linkedUp a b idA idB s n).Blank settings := by
  rw [linkedUp]
  split
  · exact h.befriended idB
  · split
    · exact h.befriended idA
    · exact h

/-- A link makes its ends admit each other, and changes nothing
else but latencies. -/
theorem link_of_some (hx : m.nodes.get? a = some x)
    (hy : m.nodes.get? b = some y) (hne : a ≠ b) :
    ∃ nodes, m.link a b = (.ok (), { m with
        latencies := m.latencies.insert (Arc.link a b)
          (max m.settings.latency 1), nodes }) ∧
      ∀ s, nodes.get? s = (m.nodes.get? s).map (linkedUp a b x.id y.id s) := by
  have hlink : m.link a b =
      (.ok (), m.join a b x.id y.id m.settings.latency) := by
    rw [link, linkWithLatency, hardwareId, hardwareId, node, node, hx, hy]
    rfl
  have hget : ∀ s,
      ((m.withLink a b m.settings.latency).introduce a b x.id y.id).nodes.get?
        s = (m.nodes.get? s).map (acquainted a b x.id y.id s) :=
    fun s => get?_introduce _ a b _ _ s
  have hcalls := setLinkAdmissible_of_some ((hget a).trans (congrArg _ hx))
    ((hget b).trans (congrArg _ hy)) true
  rw [id_acquainted, id_acquainted, ← join_eq] at hcalls
  have hjoin : ∃ nodes, m.join a b x.id y.id m.settings.latency = { m with
      latencies := m.latencies.insert (Arc.link a b) (max m.settings.latency 1),
      nodes } := by
    rw [hcalls, introduce, call_eq, call_eq _ a (.setAdmissible _ _),
      call_eq _ b (.addNeighbour _), call_eq _ a (.addNeighbour _)]
    exact ⟨_, rfl⟩
  obtain ⟨nodes, hjoin⟩ := hjoin
  refine ⟨nodes, by rw [hlink, hjoin], fun s => ?_⟩
  · have hnodes : nodes = (m.join a b x.id y.id m.settings.latency).nodes := by
      rw [hjoin]
    rw [hnodes, hcalls]
    rw [get?_call, get?_call, hget, Option.map_map, Option.map_map]
    congr 1
    funext n
    rw [Function.comp_apply, Function.comp_apply, acquainted, linkedUp]
    by_cases hsa : s = a
    · subst hsa
      simp [hne, Node.befriended]
    · by_cases hsb : s = b
      · subst hsb
        simp [hsa, Node.befriended]
      · simp [hsa, hsb]

/-- Linking two stations links them and no others. -/
theorem linked_link_iff (hx : m.nodes.get? a = some x)
    (hy : m.nodes.get? b = some y) (hne : a ≠ b) {nodes : Table Station Node}
    (hnodes : ∀ s,
      nodes.get? s = (m.nodes.get? s).map (linkedUp a b x.id y.id s))
    {ticks : Nat} {c : NodeId} :
    ({ m with latencies := m.latencies.insert (Arc.link a b) ticks, nodes } :
      Mesh).Linked s c ↔
    m.Linked s c ∨ s = a ∧ c = y.id ∨ s = b ∧ c = x.id := by
  have hkept : ∀ {u k}, m.nodes.get? u = some k →
      nodes.get? u = some (linkedUp a b x.id y.id u k) := by
    intro u k hk
    rw [hnodes, hk]
    rfl
  constructor
  · rintro ⟨u, k', hu, hk', rfl, hcontains⟩
    obtain ⟨k, hk, rfl⟩ := Option.map_eq_some_iff.1 ((hnodes u).symm.trans hk')
    rw [id_linkedUp]
    rcases contains_insert_link.1 hcontains with harc | hold
    · rcases Arc.link_eq_iff.1 harc with ⟨rfl, rfl⟩ | ⟨rfl, rfl⟩
      · cases hy.symm.trans hk
        exact Or.inr (Or.inl ⟨rfl, rfl⟩)
      · cases hx.symm.trans hk
        exact Or.inr (Or.inr ⟨rfl, rfl⟩)
    · exact Or.inl ⟨u, k, hu, hk, rfl, hold⟩
  · rintro (⟨u, k, hu, hk, rfl, hold⟩ | ⟨rfl, rfl⟩ | ⟨rfl, rfl⟩)
    · exact ⟨u, _, hu, hkept hk, id_linkedUp ..,
        contains_insert_link.2 (Or.inr hold)⟩
    · exact ⟨b, _, hne.symm, hkept hy, id_linkedUp ..,
        contains_insert_link.2 (Or.inl rfl)⟩
    · exact ⟨a, _, hne, hkept hx, id_linkedUp ..,
        contains_insert_link.2 (Or.inl (Arc.link_comm _ _))⟩

/-- A node at a station without links is linked to no other. -/
theorem linked_withNode_iff {id : NodeId} {role : Role} {stream : KeyStream}
    (hclosed : ∀ t, m.latencies.contains (Arc.link s t) = false) {c : NodeId} :
    (m.withNode s id role stream).Linked t c ↔ t ≠ s ∧ m.Linked t c := by
  constructor
  · rintro ⟨u, k, hu, hk, rfl, hcontains⟩
    change m.latencies.contains (Arc.link t u) = true at hcontains
    have hts : t ≠ s := by
      rintro rfl
      rw [hclosed] at hcontains
      cases hcontains
    rcases get?_withNode hk with ⟨rfl, -⟩ | ⟨-, hk⟩
    · rw [Arc.link_comm, hclosed] at hcontains
      cases hcontains
    · exact ⟨hts, u, k, hu, hk, rfl, hcontains⟩
  · rintro ⟨-, u, k, hu, hk, rfl, hcontains⟩
    have hus : u ≠ s := by
      rintro rfl
      rw [Arc.link_comm, hclosed] at hcontains
      cases hcontains
    refine ⟨u, k, hu, ?_, rfl, hcontains⟩
    rw [withNode, Table.get?_insert, if_neg hus]
    exact hk

/-! ## Many links -/

/-- Some stations have a node, and the first ones are linked one after
the other.  No node is attached yet, and each admits just the nodes
that it is linked to. -/
structure Strung (post : Nat → Station) (last : Nat) (present : Set Nat)
    (linked : Nat) (m : Mesh) : Prop where
  within : ∀ i ∈ present, i ≤ last
  anchored : ∀ i < linked, i ∈ present ∧ i + 1 ∈ present
  stations : ∀ s, (∃ n, m.nodes.get? s = some n) ↔ ∃ i ∈ present, s = post i
  role : ∀ i ∈ present, ∀ n, m.nodes.get? (post i) = some n →
    n.role = Chain.roleAt last i
  links : ∀ arc, m.latencies.contains arc = true ↔
    ∃ i < linked, arc = Arc.link (post i) (post (i + 1))
  latency : ∀ s t, m.latency s t = max m.settings.latency 1
  located : m.Located
  blank : m.Each fun _ n => n.Blank m.settings.node
  admits : m.Each fun s n => ∀ b,
    (n.links.hasNeighbour b = true ↔ m.Linked s b) ∧
    (n.isAdmissible b = true ↔ m.Linked s b)
  quiet : m.inFlight = []

variable {post : Nat → Station} {last linked i : Nat} {present : Set Nat}
  (hinj : Set.InjOn post (Set.Iic last))

theorem strung_make (post : Nat → Station) (last : Nat) (settings : Settings) :
    (make settings).Strung post last ∅ 0 where
  within := fun _ h => h.elim
  anchored := fun _ h => absurd h (Nat.not_lt_zero _)
  stations := fun _ => ⟨fun ⟨_, h⟩ => (nomatch h), fun ⟨_, h, _⟩ => h.elim⟩
  role := fun _ h => h.elim
  links := fun _ =>
    ⟨fun h => (nomatch h), fun ⟨_, h, _⟩ => absurd h (Nat.not_lt_zero _)⟩
  latency := fun _ _ => rfl
  located := located_make settings
  blank := fun _ _ h => (nomatch h)
  admits := fun _ _ h => (nomatch h)
  quiet := rfl

def idAt (m : Mesh) (post : Nat → Station) (i : Nat) : NodeId :=
  match m.nodes.get? (post i) with
  | some n => n.id
  | none => NodeId.zero

theorem idAt_of_some {n : Node} (h : m.nodes.get? (post i) = some n) :
    m.idAt post i = n.id := by
  rw [idAt, h]

include hinj

/-- A station that has no node has no link. -/
theorem Strung.not_contains (h : m.Strung post last present linked)
    (hi : i ≤ last) (hnew : i ∉ present) (t : Station) :
    m.latencies.contains (Arc.link (post i) t) = false := by
  rw [Bool.eq_false_iff]
  intro hcontains
  obtain ⟨j, hj, harc⟩ := (h.links _).1 hcontains
  obtain ⟨hfirst, hsecond⟩ := h.anchored j hj
  rcases Arc.link_eq_iff.1 harc with ⟨hpost, -⟩ | ⟨hpost, -⟩
  · rw [hinj hi (h.within j hfirst) hpost] at hnew
    exact hnew hfirst
  · rw [hinj hi (h.within (j + 1) hsecond) hpost] at hnew
    exact hnew hsecond

theorem Strung.get?_eq_none (h : m.Strung post last present linked)
    (hi : i ≤ last) (hnew : i ∉ present) : m.nodes.get? (post i) = none := by
  rw [Option.eq_none_iff_forall_not_mem]
  intro n hn
  obtain ⟨j, hj, hpost⟩ := (h.stations _).1 ⟨n, hn⟩
  rw [hinj hi (h.within j hj) hpost] at hnew
  exact hnew hj

/-- A node is added at a station that has none. -/
theorem Strung.withNode (h : m.Strung post last present linked) (hi : i ≤ last)
    (hnew : i ∉ present) {id : NodeId} (hfresh : m.isFresh id = true)
    (stream : KeyStream) :
    (m.withNode (post i) id (Chain.roleAt last i) stream).Strung post last
      (insert i present)
      linked where
  within := by
    rintro j (rfl | hj)
    · exact hi
    · exact h.within j hj
  anchored := fun j hj =>
    ⟨Or.inr (h.anchored j hj).1, Or.inr (h.anchored j hj).2⟩
  stations := by
    intro s
    show (∃ n, (m.nodes.insert (post i) _).get? s = some n) ↔ _
    rw [Table.get?_insert]
    split
    · next hs => exact ⟨fun _ => ⟨i, Or.inl rfl, hs⟩, fun _ => ⟨_, rfl⟩⟩
    · next hs =>
        rw [h.stations]
        constructor
        · exact fun ⟨j, hj, hpost⟩ => ⟨j, Or.inr hj, hpost⟩
        · rintro ⟨j, rfl | hj, hpost⟩
          · exact absurd hpost hs
          · exact ⟨j, hj, hpost⟩
  role := by
    rintro j hj n hn
    rcases get?_withNode hn with ⟨hpost, rfl⟩ | ⟨hpost, hn⟩
    · rcases hj with rfl | hj
      · rfl
      · exact absurd (hinj (h.within j hj) hi hpost ▸ hj) hnew
    · rcases hj with rfl | hj
      · exact absurd rfl hpost
      · exact h.role j hj n hn
  links := h.links
  latency := h.latency
  located := h.located.withNode (h.get?_eq_none hinj hi hnew)
    (isFresh_iff.1 hfresh).2
  blank := h.blank.insert (Node.blank_make ..)
  admits := by
    intro s n hn b
    rw [linked_withNode_iff (h.not_contains hinj hi hnew)]
    rcases get?_withNode hn with ⟨hs, rfl⟩ | ⟨hs, hn⟩
    · exact ⟨iff_of_false (fun h => nomatch h) fun h => h.1 hs,
        iff_of_false (fun h => nomatch h) fun h => h.1 hs⟩
    · have hold := h.admits s n hn b
      simpa [hs] using hold
  quiet := h.quiet

omit hinj in
/-- The two ends of a link admit each other besides those that
they admitted before. -/
theorem Strung.admits_linkedUp (h : m.Strung post last present linked)
    (hx : m.nodes.get? a = some x) (hy : m.nodes.get? b = some y) (hne : a ≠ b)
    {n : Node} (hn : m.nodes.get? s = some n) (c : NodeId) :
    ((linkedUp a b x.id y.id s n).links.hasNeighbour c = true ↔
      m.Linked s c ∨ s = a ∧ c = y.id ∨ s = b ∧ c = x.id) ∧
    ((linkedUp a b x.id y.id s n).isAdmissible c = true ↔
      m.Linked s c ∨ s = a ∧ c = y.id ∨ s = b ∧ c = x.id) := by
  have hids : y.id ≠ x.id :=
    fun hid => hne (h.located.unique _ _ x y hx hy hid.symm)
  have hblank := h.blank s n hn
  obtain ⟨hknows, hadmits⟩ := h.admits s n hn c
  rw [← hknows, linkedUp]
  by_cases hsa : s = a
  · subst hsa
    cases hx.symm.trans hn
    rw [if_pos rfl, Node.hasNeighbour_befriended hblank.detached hblank.owner,
      Node.isAdmissible_befriended hblank.detached hblank.owner hids,
      hadmits, hknows]
    simp [hne, hids]
  · rw [if_neg hsa]
    by_cases hsb : s = b
    · subst hsb
      cases hy.symm.trans hn
      rw [if_pos rfl, Node.hasNeighbour_befriended hblank.detached hblank.owner,
        Node.isAdmissible_befriended hblank.detached hblank.owner hids.symm,
        hadmits, hknows]
      simp [hsa, hids.symm]
    · rw [if_neg hsb, hadmits, hknows]
      simp [hsa, hsb]

omit hinj in
/-- Linking the next two stations strings the mesh up one link further. -/
theorem Strung.linkedUp (h : m.Strung post last present linked)
    (hthis : linked ∈ present) (hnext : linked + 1 ∈ present)
    (hx : m.nodes.get? (post linked) = some x)
    (hy : m.nodes.get? (post (linked + 1)) = some y)
    (hne : post linked ≠ post (linked + 1)) {nodes : Table Station Node}
    (hnodes : ∀ s, nodes.get? s = (m.nodes.get? s).map (Mesh.linkedUp
      (post linked) (post (linked + 1)) x.id y.id s)) :
    ({ m with
        latencies :=
          m.latencies.insert (Arc.link (post linked) (post (linked + 1)))
          (max m.settings.latency 1)
        nodes } : Mesh).Strung post last present (linked + 1) where
  within := h.within
  anchored := by
    intro j hj
    rcases Nat.lt_succ_iff_lt_or_eq.1 hj with hj | rfl
    · exact h.anchored j hj
    · exact ⟨hthis, hnext⟩
  stations := by
    intro s
    rw [← h.stations]
    show (∃ n, nodes.get? s = some n) ↔ _
    rw [hnodes]
    constructor
    · rintro ⟨n', hn'⟩
      obtain ⟨n, hn, -⟩ := Option.map_eq_some_iff.1 hn'
      exact ⟨n, hn⟩
    · rintro ⟨n, hn⟩
      exact ⟨_, Option.map_eq_some_iff.2 ⟨n, hn, rfl⟩⟩
  role := by
    intro j hj n' hn'
    obtain ⟨n, hn, rfl⟩ := Option.map_eq_some_iff.1 ((hnodes _).symm.trans hn')
    exact (alike_linkedUp ..).role.trans (h.role j hj n hn)
  links := by
    intro arc
    rw [contains_insert_link, h.links]
    constructor
    · rintro (rfl | ⟨j, hj, rfl⟩)
      · exact ⟨linked, Nat.lt_succ_self _, rfl⟩
      · exact ⟨j, Nat.lt_succ_of_lt hj, rfl⟩
    · rintro ⟨j, hj, rfl⟩
      rcases Nat.lt_succ_iff_lt_or_eq.1 hj with hj | rfl
      · exact Or.inr ⟨j, hj, rfl⟩
      · exact Or.inl rfl
  latency := by
    intro s t
    show max (((m.latencies.insert _ _).get? _).getD m.settings.latency) 1 = _
    rw [Table.get?_insert]
    split
    · exact Nat.max_eq_left (Nat.le_max_right _ _)
    · exact h.latency s t
  located := h.located.stay
    (stays_of_map hnodes (fun s n _ => id_linkedUp _ _ _ _ s n) rfl)
  blank := by
    intro s n' hn'
    obtain ⟨n, hn, rfl⟩ := Option.map_eq_some_iff.1 ((hnodes _).symm.trans hn')
    exact blank_linkedUp _ _ _ _ s (h.blank s n hn)
  admits := by
    intro s n' hn' b
    obtain ⟨n, hn, rfl⟩ := Option.map_eq_some_iff.1 ((hnodes _).symm.trans hn')
    rw [linked_link_iff hx hy hne hnodes]
    exact h.admits_linkedUp hx hy hne hn b
  quiet := h.quiet

/-- The next two stations are linked. -/
theorem Strung.link (h : m.Strung post last present linked)
    (hthis : linked ∈ present) (hnext : linked + 1 ∈ present) :
    ∃ m', m.link (post linked) (post (linked + 1)) = (.ok (), m') ∧
      m'.Strung post last present (linked + 1) ∧ m'.stream = m.stream ∧
      m'.stations = m.stations ∧ m'.settings = m.settings := by
  obtain ⟨x, hx⟩ := (h.stations _).2 ⟨linked, hthis, rfl⟩
  obtain ⟨y, hy⟩ := (h.stations _).2 ⟨linked + 1, hnext, rfl⟩
  have hne : post linked ≠ post (linked + 1) := fun hpost =>
    absurd (hinj (h.within _ hthis) (h.within _ hnext) hpost) (by omega)
  obtain ⟨nodes, hlink, hnodes⟩ := link_of_some hx hy hne
  exact ⟨_, hlink, h.linkedUp hthis hnext hx hy hne hnodes, rfl, rfl, rfl⟩

/-! ## The whole chain -/

def Strung.chain (h : m.Strung post last (Set.Iic last) last) (hpos : 0 < last)
    (hvalid : m.settings.node.validate = .ok ())
    (hin : 0 < m.settings.node.maxInbound)
    (hout : 0 < m.settings.node.maxOutbound) : Chain where
  last := last
  post := post
  id := m.idAt post
  settings := m.settings.node
  ticks := max m.settings.latency 1
  last_pos := hpos
  post_inj := hinj
  id_inj := by
    intro i hi j hj hid
    obtain ⟨x, hx⟩ := (h.stations _).2 ⟨i, hi, rfl⟩
    obtain ⟨y, hy⟩ := (h.stations _).2 ⟨j, hj, rfl⟩
    rw [idAt_of_some hx, idAt_of_some hy] at hid
    exact hinj hi hj (h.located.unique _ _ x y hx hy hid)
  valid := hvalid
  inbound_pos := hin
  outbound_pos := hout
  ticks_pos := Nat.le_max_right _ _

def asked (m : Mesh) (post : Nat → Station) (i : Nat) : List Outbound :=
  match m.nodes.get? (post i) with
  | some n => n.asks
  | none => []

omit hinj in
/-- Nobody asks for anything but data. -/
theorem Strung.message_of_asked (h : m.Strung post last present linked)
    {o : Outbound} (ho : o ∈ m.asked post i) :
    o.message = .snapshotRequest Version.initial := by
  rw [asked] at ho
  split at ho
  · next n hn =>
      have hblank := h.blank _ n hn
      obtain ⟨-, -, henqueued, -⟩ := hblank.start_eq
      have hmem := henqueued.sublist.mem ho
      rw [hblank.greetings_eq] at hmem
      obtain ⟨b, -, rfl⟩ := List.mem_map.1 hmem
      rfl
  · cases ho

section Started

variable (h : m.Strung post last (Set.Iic last) last) (hpos : 0 < last)
  (hvalid : m.settings.node.validate = .ok ())
    (hin : 0 < m.settings.node.maxInbound)
  (hout : 0 < m.settings.node.maxOutbound)

/-- The nodes of the chain are linked to the next ones only. -/
theorem Strung.linked_iff (hi : i ≤ last) {b : NodeId} :
    m.Linked (post i) b ↔ ∃ j,
      (h.chain hinj hpos hvalid hin hout).Adjacent i j ∧ b = m.idAt post j := by
  constructor
  · rintro ⟨t, k, -, hk, rfl, hcontains⟩
    obtain ⟨j, hj, rfl⟩ := (h.stations t).1 ⟨k, hk⟩
    refine ⟨j, ⟨hj, ?_⟩, (idAt_of_some hk).symm⟩
    obtain ⟨l, hl, harc⟩ := (h.links _).1 hcontains
    rcases Arc.link_eq_iff.1 harc with ⟨hpost, hnext⟩ | ⟨hpost, hnext⟩
    · rw [hinj hi (show l ≤ last by omega) hpost,
        hinj hj (show l + 1 ≤ last by omega) hnext]
      exact Or.inl rfl
    · rw [hinj hi (show l + 1 ≤ last by omega) hpost,
        hinj hj (show l ≤ last by omega) hnext]
      exact Or.inr rfl
  · rintro ⟨j, ⟨hj, hadj⟩, rfl⟩
    have hj : j ≤ last := hj
    obtain ⟨k, hk⟩ := (h.stations _).2 ⟨j, hj, rfl⟩
    refine ⟨post j, k, fun hpost => ?_, hk, (idAt_of_some hk).symm,
      (h.links _).2 ?_⟩
    · have := hinj hj hi hpost
      omega
    · rcases hadj with rfl | rfl
      · exact ⟨i, hj, rfl⟩
      · exact ⟨j, hi, Arc.link_comm _ _⟩

/-- A node that is attached sits where it was built. -/
theorem Strung.sits (hi : i ≤ last) {n : Node}
    (hn : m.nodes.get? (post i) = some n) {sc : Scene}
    (hheld : sc.held i = Edition.initial) (hup : sc.up = true)
    (hdown : sc.down = true) (hasks : sc.out i = n.asks) :
    (h.chain hinj hpos hvalid hin hout).Sits sc i n.start := by
  have hblank := h.blank _ n hn
  obtain ⟨flooding, tally, -, hstart⟩ := hblank.start_eq
  have hid : (h.chain hinj hpos hvalid hin hout).id i = n.id := idAt_of_some hn
  have hrole : (h.chain hinj hpos hvalid hin hout).role i = n.role :=
    (h.role i hi n hn).symm
  have hlinked := fun b => h.linked_iff hinj hpos hvalid hin hout hi (b := b)
  rw [hstart]
  refine ⟨hid.symm, hrole.symm, hblank.settings_eq, rfl, fun j hadj => ?_,
    fun b => ?_, ?_, ?_, ?_, ?_⟩
  · exact ((h.admits _ n hn _).1).2 ((hlinked _).2 ⟨j, hadj, rfl⟩)
  · refine ((h.admits _ n hn b).2).trans
      ((hlinked b).trans (exists_congr fun j => ?_))
    exact and_congr_left fun _ =>
      ⟨fun hadj => ⟨hadj, fun _ _ => hup, fun _ _ => hdown⟩, And.left⟩
  · rw [hheld, Chain.replica, hid, hrole]
    exact congrArg Node.replica hblank.eq
  · exact congrArg (fun k : Node => k.pool.retiring) hblank.eq
  · exact congrArg Node.incoming hblank.eq
  · have hempty : n.outgoing = [] := congrArg Node.outgoing hblank.eq
    rw [hasks]
    show n.outgoing ++ _ = _
    rw [hempty]
    rfl

/-- A chain that is strung up and attached is seen as one whose
nodes ask for data. -/
theorem Strung.shows : (h.chain hinj hpos hvalid hin hout).Shows
    ⟨fun _ => Edition.initial, true, true, m.asked post⟩ m.startAll where
  node := by
    intro i hi
    obtain ⟨n, hn⟩ := (h.stations _).2 ⟨i, hi, rfl⟩
    refine ⟨n.start, ?_, h.sits hinj hpos hvalid hin hout hi hn rfl rfl rfl ?_⟩
    · show (m.nodes.map Node.start).get? (post i) = _
      rw [Table.get?_map, hn]
      rfl
    · show m.asked post i = _
      rw [asked, hn]
  only := by
    intro s n' hn'
    obtain ⟨n, hn, -⟩ := Table.get?_map_eq_some_iff.1 hn'
    exact (h.stations s).1 ⟨n, hn⟩
  linked := fun i hi => (h.links _).2 ⟨i, hi, rfl⟩
  latency := h.latency
  located := h.located.perform .startAll
  proper := Each.map (fun s n hn => (h.blank s n hn).proper) fun _ _ hn =>
    hn.after .start

/-- The leader asks the next node. -/
theorem Strung.asked_zero :
    m.asked post 0 = [⟨(h.chain hinj hpos hvalid hin hout).id 1,
      .snapshotRequest Version.initial⟩] := by
  obtain ⟨n, hn⟩ := (h.stations _).2 ⟨0, Nat.zero_le _, rfl⟩
  have hblank := h.blank _ n hn
  obtain ⟨flooding, tally, henqueued, hstart⟩ := hblank.start_eq
  have hasked : m.asked post 0 = n.asks := by rw [asked, hn]
  have hsits : (h.chain hinj hpos hvalid hin hout).Sits
      ⟨fun _ => Edition.initial, true, true, m.asked post⟩ 0 n.start :=
    h.sits hinj hpos hvalid hin hout (Nat.zero_le _) hn rfl rfl rfl hasked
  have hadmissible : n.links.admissible = [m.idAt post 1] := by
    have honly : n.start.links.admissibleExcept none = [m.idAt post 1] :=
      hsits.admissibleExcept_eq (Chain.admits_zero_iff.2 ⟨rfl, hpos⟩)
        (by simp) fun k hk hne =>
        absurd (Chain.admits_zero_iff.1 hk).1 hne
    rw [hstart] at honly
    exact honly
  have hgreetings : n.greetings n.links.admissible =
      [⟨(h.chain hinj hpos hvalid hin hout).id 1,
        .snapshotRequest Version.initial⟩] := by
    have hself : n.isAdmissible (m.idAt post 1) = true := by
      rw [Node.isAdmissible, ← Links.mem_admissible_iff, hadmissible]
      exact List.mem_singleton_self _
    rw [hblank.greetings_eq, hadmissible, List.filter_cons_of_pos hself]
    rfl
  have hempty : n.outgoing = [] := congrArg Node.outgoing hblank.eq
  rw [hgreetings] at henqueued
  rw [hasked]
  refine henqueued.of_room rfl ?_
  show n.outgoing.length + 1 ≤ n.settings.maxOutbound
  rw [hempty, hblank.settings_eq]
  exact hout

end Started

end Mesh

end OnMesh
