import OnMesh.Proofs.Mesh.Mail
import OnMesh.Proofs.Node.Identity

/-!
# The table of stations

A mesh keeps a table of the stations of its hardware addresses, which new
addresses are checked against and frames are routed by.  It is the inverse of
the table of nodes: an entry is made when a node is added, with an address that
is not listed yet, and nothing else that can be asked of a mesh moves a node or
changes its address.  So hardware addresses tell the stations apart.
-/

namespace OnMesh.Mesh

variable {m m' m'' : Mesh} {s t : Station} {id b : NodeId} {n y : Node}

/-- The stations that are listed are those of the nodes that are there. -/
def Located (m : Mesh) : Prop :=
  ∀ id s, m.locate? id = some s ↔ ∃ n, m.nodes.get? s = some n ∧ n.id = id

theorem Located.unique (h : m.Located) (s t : Station) (x y : Node)
    (hx : m.nodes.get? s = some x) (hy : m.nodes.get? t = some y)
    (hid : x.id = y.id) : s = t := by
  have hs : m.locate? x.id = some s := (h x.id s).2 ⟨x, hx, rfl⟩
  have ht : m.locate? x.id = some t := (h x.id t).2 ⟨y, hy, hid.symm⟩
  exact Option.some.inj (hs.symm.trans ht)

/-- The hardware address of a node leads to its station and to no other. -/
theorem Located.locate?_eq_some_iff (h : m.Located)
    (hy : m.nodes.get? t = some y) : m.locate? b = some t ↔ b = y.id := by
  rw [h]
  constructor
  · rintro ⟨n, hn, rfl⟩
    cases hy.symm.trans hn
    rfl
  · rintro rfl
    exact ⟨y, hy, rfl⟩

theorem Located.id_ne (h : m.Located) (hfresh : m.locate? id = none)
    (hn : m.nodes.get? s = some n) : n.id ≠ id := by
  rintro rfl
  rw [(h.locate?_eq_some_iff hn).2 rfl] at hfresh
  cases hfresh

theorem located_make (settings : Settings) : (make settings).Located :=
  fun _ _ => iff_of_false (fun h => nomatch h) fun ⟨_, h, _⟩ => nomatch h

/-- A node is listed when it is added with an address that is not. -/
theorem Located.insert (h : m.Located) (hnone : m.nodes.get? s = none)
    (hfresh : m.locate? n.id = none) (hnodes : m'.nodes = m.nodes.insert s n)
    (hstations : m'.stations = m.stations.insert n.id s) : m'.Located := by
  intro id t
  rw [locate?, hstations, hnodes, Table.get?_insert, Table.get?_insert]
  by_cases hid : id = n.id
  · rw [if_pos hid, hid]
    constructor
    · intro hst
      cases hst
      exact ⟨n, if_pos rfl, rfl⟩
    · rintro ⟨k, hk, hkid⟩
      split at hk
      · next hts => rw [hts]
      · exact absurd hkid (h.id_ne hfresh hk)
  · rw [if_neg hid]
    by_cases hts : t = s
    · have hnot : m.locate? id ≠ some s := by
        intro hlocate
        obtain ⟨k, hk, -⟩ := (h id s).1 hlocate
        rw [hnone] at hk
        cases hk
      rw [if_pos hts, hts]
      refine iff_of_false hnot ?_
      rintro ⟨k, hk, rfl⟩
      cases hk
      exact hid rfl
    · rw [if_neg hts]
      exact h id t

/-! ## Nodes that stay -/

/-- The table of stations is the same, and every station has the hardware
address that it had. -/
structure Stays (m m' : Mesh) : Prop where
  stations : m'.stations = m.stations
  ids : ∀ s, (m'.nodes.get? s).map (·.id) = (m.nodes.get? s).map (·.id)

theorem Stays.trans (h : m.Stays m') (h' : m'.Stays m'') : m.Stays m'' :=
  ⟨h'.stations.trans h.stations, fun s => (h'.ids s).trans (h.ids s)⟩

theorem Located.stay (h : m.Located) (hstays : m.Stays m') : m'.Located := by
  have hid : ∀ (k : Mesh) id s, (∃ n, k.nodes.get? s = some n ∧ n.id = id) ↔
      (k.nodes.get? s).map (·.id) = some id :=
    fun _ _ _ => Option.map_eq_some_iff.symm
  intro id s
  rw [hid, hstays.ids, ← hid, locate?, hstays.stations]
  exact h id s

/-- Nodes stay if each goes over into one with its hardware address. -/
theorem stays_of_map {f : Station → Node → Node}
    (hnodes : ∀ s, m'.nodes.get? s = (m.nodes.get? s).map (f s))
    (hid : ∀ s n, m.nodes.get? s = some n → (f s n).id = n.id)
    (hstations : m'.stations = m.stations) : m.Stays m' := by
  refine ⟨hstations, fun s => ?_⟩
  rw [hnodes]
  cases hn : m.nodes.get? s with
  | none => rfl
  | some n => exact congrArg some (hid s n hn)

theorem Located.of_tables (h : m.Located) (hnodes : m'.nodes = m.nodes)
    (hstations : m'.stations = m.stations) : m'.Located :=
  h.stay ⟨hstations, fun s => by rw [hnodes]⟩

theorem Located.setNode (h : m.Located) {n' : Node}
    (hn : m.nodes.get? s = some n) (hid : n'.id = n.id) :
    (m.setNode s n').Located := by
  refine h.stay ⟨rfl, fun t => ?_⟩
  rw [Mesh.setNode, Table.get?_insert]
  split
  · next hts =>
      rw [hts, hn]
      exact congrArg some hid
  · rfl

theorem stays_call (m : Mesh) (s : Station) (c : Node.Call) :
    m.Stays (m.call s c) := by
  refine stays_of_map (m.get?_call s c) (fun t n _ => ?_) (by rw [call_eq])
  split
  · exact (n.alike_after c).id
  · rfl

/-- Only the table of nodes and the links are changed when nodes are set up. -/
theorem stations_perform_of_isSetup (m : Mesh) {op : Op}
    (hop : op.isSetup = true) : (m.perform op).stations = m.stations := by
  have hnodes : ∀ {k k' : Mesh}, k.NodesOnly k' → k'.stations = k.stations := by
    rintro k _ ⟨nodes, rfl⟩
    rfl
  have hlink : ∀ a b ticks, (m.linkWithLatency a b ticks).2.stations =
      m.stations := by
    intro a b ticks
    rcases m.linkWithLatency_cases a b ticks with ⟨-, -, nodes, heq⟩ | ⟨-, heq⟩
    · rw [heq]
    · rw [heq]
  cases op with
  | startAll => rfl
  | setAdmissible a b admissible =>
      exact hnodes (m.nodesOnly_setAdmissible a b admissible)
  | setLinkAdmissible a b admissible =>
      exact hnodes (m.nodesOnly_setLinkAdmissible a b admissible)
  | linkWithLatency a b ticks => exact hlink a b ticks
  | link a b => exact hlink a b m.settings.latency
  | _ => cases hop

theorem stays_of_isSetup (m : Mesh) {op : Op} (hop : op.isSetup = true) :
    m.Stays (m.perform op) :=
  ⟨m.stations_perform_of_isSetup hop,
    (m.callsTo_perform hop).map_eq fun n c _ => (n.alike_after c).id⟩

theorem id_popAll (n : Node) : n.popAll.2.id = n.id := by
  obtain ⟨tally, hpop⟩ := n.popAll_spec
  rw [hpop]
  rfl

theorem stays_popped (m : Mesh) : m.Stays m.popped :=
  stays_of_map (f := fun _ n => n.popAll.2)
    (fun s => Table.get?_map m.nodes _ s)
    (fun _ n _ => id_popAll n) rfl

theorem stays_tickAll_deliverDue (m : Mesh) :
    m.Stays m.later.deliverDue.tickAll := by
  refine stays_of_map
    (f := fun t n => (n.receivedAll (m.arriving t)).tick (m.now + 1))
    m.get?_tickAll_deliverDue (fun t n _ => ?_) m.fields_tickAll_deliverDue.2.1
  exact (Node.alike_tick _ _).id.trans
    (n.calm_receivedAll (m.arriving t)).alike.id

theorem stays_step (m : Mesh) : m.Stays m.step := by
  have hpopped := m.stays_tickAll_deliverDue.trans (stays_popped _)
  obtain ⟨tally, heq⟩ := m.later.deliverDue.tickAll.transmitAll_spec
  rw [step_eq, heq]
  exact ⟨hpopped.stations, hpopped.ids⟩

/-- Every operation keeps the two tables inverse to each other. -/
theorem Located.perform (h : m.Located) (op : Op) : (m.perform op).Located := by
  cases op with
  | addNode s role =>
      rcases m.addNode_snd s role with heq | ⟨id, stream, hnone, -, hfresh, heq⟩
      · rw [Mesh.perform, heq]
        exact h
      · rw [Mesh.perform, heq]
        exact h.insert hnone hfresh rfl rfl
  | call s c => exact h.stay (m.stays_call s c)
  | step => exact h.stay m.stays_step
  | _ => exact h.stay (m.stays_of_isSetup rfl)

/-! ## Packets -/

/-- Letters that go different ways become packets that join
different stations. -/
theorem Located.nodup_arrivals (h : m.Located) {ls : List Letter}
    (hways : (ls.map fun l => (l.source, l.to)).Nodup) :
    ((m.arrivals ls).map fun p => (p.source, p.target)).Nodup := by
  have hsame : (m.arrivals ls).map (fun p => (p.source, p.target)) =
      (ls.map fun l => (l.source, l.to)).filterMap fun way =>
        (m.locate? way.2).map fun target => (way.1, target) := by
    rw [arrivals, List.map_filterMap, List.filterMap_map]
    refine List.filterMap_congr fun l _ => ?_
    rw [Option.map_map]
    rfl
  rw [hsame]
  refine hways.filterMap ?_
  rintro ⟨s, b⟩ ⟨u, c⟩ way hb hc
  obtain ⟨t, ht, rfl⟩ := Option.map_eq_some_iff.1 hb
  obtain ⟨v, hv, heq⟩ := Option.map_eq_some_iff.1 hc
  cases heq
  obtain ⟨y, hy, rfl⟩ := (h b t).1 ht
  exact congrArg (Prod.mk s) ((h.locate?_eq_some_iff hy).1 hv).symm

end OnMesh.Mesh
