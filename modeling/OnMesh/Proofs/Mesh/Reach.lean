import OnMesh.Proofs.Mesh.Echo
import OnMesh.Proofs.Mesh.Operations

/-!
# Which echo requests are answered

A mesh keeps all links that were ever made, and an echo request takes those of
them that can be used at the moment.  So an attached station has an answer from
the owner of an address exactly if a walk over such links joins the two, and the
reply comes back over a walk that is as short as any.
-/

namespace OnMesh

namespace Mesh

open OnMesh.Graph (Walk)

variable {m : Mesh} {s t : Station} {arc : Arc}
  {settings : Settings} {ops : List Op}

/-! ## The links that were made -/

def Op.ends? : Op → Option (Station × Station)
  | .linkWithLatency a b _ => some (a, b)
  | .link a b => some (a, b)
  | _ => none

/-- An operation links two stations: it names them, in either order,
and both have a node. -/
def Makes (m : Mesh) (s t : Station) (op : Op) : Prop :=
  (op.ends? = some (s, t) ∨ op.ends? = some (t, s)) ∧
    m.nodes.contains s = true ∧ m.nodes.contains t = true

/-- One of the operations on a mesh links two stations. -/
def HasLinked (m : Mesh) (s t : Station) : List Op → Prop
  | [] => False
  | op :: ops => m.Makes s t op ∨ (m.perform op).HasLinked s t ops

/-- Only links have latencies, and only the making of links changes them. -/
theorem latencies_perform {op : Op} (hop : op.ends? = none) :
    (m.perform op).latencies = m.latencies := by
  cases op with
  | addNode s role =>
      rcases m.addNode_snd s role with heq | ⟨id, stream, -, -, -, heq⟩
      · rw [perform, heq]
      · rw [perform, heq]
  | startAll => rfl
  | call s c => exact (m.nodesOnly_call s c).latencies_eq
  | setAdmissible a b admissible =>
      exact (m.nodesOnly_setAdmissible a b admissible).latencies_eq
  | setLinkAdmissible a b admissible =>
      exact (m.nodesOnly_setLinkAdmissible a b admissible).latencies_eq
  | linkWithLatency a b ticks => cases hop
  | link a b => cases hop
  | step =>
      obtain ⟨nodes, inFlight, tally, heq⟩ := m.step_spec
      rw [perform, heq]

theorem contains_linkWithLatency {a b : Station} {ticks : Nat} :
    (m.linkWithLatency a b ticks).2.latencies.contains arc = true ↔
      m.latencies.contains arc = true ∨
        arc = Arc.link a b ∧ m.nodes.contains a = true ∧
        m.nodes.contains b = true := by
  rcases m.linkWithLatency_cases a b ticks
    with ⟨ha, hb, nodes, heq⟩ | ⟨hnone, heq⟩
  · rw [heq, contains_insert_link]
    simp only [ha, hb, and_true]
    exact or_comm
  · rw [heq]
    exact (or_iff_left fun h => hnone h.2).symm

/-- An operation adds the links that it makes and no others. -/
theorem contains_perform {op : Op} :
    (m.perform op).latencies.contains arc = true ↔
    m.latencies.contains arc = true ∨ ∃ s t, arc = Arc.link s t ∧
    m.Makes s t op := by
  have hlink : ∀ {a b : Station}, op.ends? = some (a, b) →
      ((∃ s t, arc = Arc.link s t ∧ m.Makes s t op) ↔
        arc = Arc.link a b ∧ m.nodes.contains a = true ∧
        m.nodes.contains b = true) := by
    intro a b hends
    constructor
    · rintro ⟨s, t, rfl, hst | hts, hs, ht⟩
      · cases hends.symm.trans hst
        exact ⟨rfl, hs, ht⟩
      · cases hends.symm.trans hts
        exact ⟨Arc.link_comm _ _, ht, hs⟩
    · rintro ⟨rfl, ha, hb⟩
      exact ⟨a, b, rfl, Or.inl hends, ha, hb⟩
  cases hends : op.ends? with
  | none =>
      rw [latencies_perform hends]
      refine (or_iff_left ?_).symm
      rintro ⟨s, t, -, hst | hts, -⟩
      · cases hends.symm.trans hst
      · cases hends.symm.trans hts
  | some ends =>
      obtain ⟨a, b⟩ := ends
      rw [hlink hends]
      cases op with
      | linkWithLatency x y ticks =>
          cases hends
          exact contains_linkWithLatency
      | link x y =>
          cases hends
          exact contains_linkWithLatency
      | _ => cases hends

/-- The links of a mesh are those that it began with and those that
operations have made. -/
theorem contains_foldl (ops : List Op) (m : Mesh) :
    (ops.foldl perform m).latencies.contains (Arc.link s t) = true ↔
      m.latencies.contains (Arc.link s t) = true ∨ m.HasLinked s t ops := by
  induction ops generalizing m with
  | nil => exact (or_iff_left id).symm
  | cons op ops ih =>
      rw [List.foldl_cons, ih, contains_perform, HasLinked, or_assoc]
      refine or_congr_right (or_congr_left ⟨?_, fun h => ⟨s, t, rfl, h⟩⟩)
      rintro ⟨a, b, heq, hends, ha, hb⟩
      rcases Arc.link_eq_iff.1 heq with ⟨rfl, rfl⟩ | ⟨rfl, rfl⟩
      · exact ⟨hends, ha, hb⟩
      · exact ⟨hends.symm, hb, ha⟩

/-- Every link is kept under the arc that stands for it. -/
theorem link_of_contains (ops : List Op) (m : Mesh)
    (hlinks : ∀ arc, m.latencies.contains arc = true →
      Arc.link arc.source arc.target = arc) :
    ∀ arc, (ops.foldl perform m).latencies.contains arc = true →
      Arc.link arc.source arc.target = arc := by
  induction ops generalizing m with
  | nil => exact hlinks
  | cons op ops ih =>
      refine ih _ fun arc harc => ?_
      rcases contains_perform.1 harc with hold | ⟨s, t, rfl, -⟩
      · exact hlinks arc hold
      · exact Arc.link_ends s t

/-! ## The links that can be used -/

/-- Operations on a new mesh have linked two stations, both of them are attached
at the end, and each admits the other. -/
def Passes (settings : Settings) (ops : List Op) (s t : Station) : Prop :=
  (make settings).HasLinked s t ops ∧ ∃ x y,
    (ops.foldl perform (make settings)).nodes.get? s = some x ∧
    (ops.foldl perform (make settings)).nodes.get? t = some y ∧
    x.started = true ∧ y.started = true ∧
    x.isAdmissible y.id = true ∧ y.isAdmissible x.id = true

theorem Passes.symm (h : Passes settings ops s t) :
    Passes settings ops t s := by
  obtain ⟨hlinked, x, y, hx, hy, hstartX, hstartY, hadmX, hadmY⟩ := h
  refine ⟨?_, y, x, hy, hx, hstartY, hstartX, hadmY, hadmX⟩
  have hcontains := (contains_foldl ops (make settings)).2 (Or.inr hlinked)
  rw [Arc.link_comm] at hcontains
  refine ((contains_foldl ops (make settings)).1 hcontains).resolve_left ?_
  exact Bool.false_ne_true

theorem usable_iff_passes :
    (ops.foldl perform (make settings)).Usable s t ↔
    Passes settings ops s t := by
  have hlinked := contains_foldl (s := s) (t := t) ops (make settings)
  rw [or_iff_right (show ¬ (make settings).latencies.contains _ = true
    from Bool.false_ne_true)]
    at hlinked
  constructor
  · exact fun h => ⟨hlinked.1 h.1, h.ends⟩
  · rintro ⟨hmade, hends⟩
    refine ⟨hlinked.2 hmade, ?_⟩
    have husable := isUsable_iff.2 hends
    rcases Arc.link_cases s t with heq | heq
    · rw [heq]
      exact husable
    · rw [heq, isUsable_comm]
      exact husable

/-- The graph of the links that can be used has their arcs and no others. -/
theorem joins_iff_passes :
    (ops.foldl perform (make settings)).reachability.Joins s t ↔
    Passes settings ops s t := by
  refine ⟨fun h => ?_, fun h => joins_of_usable (usable_iff_passes.2 h)⟩
  have hkey : ∀ {a b : Station},
      ⟨a, b⟩ ∈ (ops.foldl perform (make settings)).latencies.keys.filter
        (ops.foldl perform (make settings)).isUsable →
        Passes settings ops a b := by
    intro a b hmem
    obtain ⟨hkey, husable⟩ := List.mem_filter.1 hmem
    have hcontains := Table.contains_eq_true_iff.2 hkey
    have heq : Arc.link a b = ⟨a, b⟩ := link_of_contains ops (make settings)
      (fun _ h => nomatch h) ⟨a, b⟩ hcontains
    refine usable_iff_passes.1 ⟨?_, ?_⟩
    · rw [heq]
      exact hcontains
    · rw [heq]
      exact husable
  rcases joins_reachability.1 h with hst | hts
  · exact hkey hst
  · exact (hkey hts).symm

/-! ## Answers -/

/-- What can be said about the echo requests in a mesh, by the relation of the
stations between which frames can pass. -/
structure Echoes (m : Mesh) (R : Station → Station → Prop) : Prop where
  /-- Looking up an address finds an attached node that has it,
  unless there is none. -/
  owner : ∀ a, m.ownerOf? a = none ↔
    ∀ s n, m.nodes.get? s = some n → n.started = true → n.hasAddress a = false
  /-- An attached station has an answer exactly if a walk joins it to the
  owner. -/
  answered : ∀ start a, m.echo start a = true ↔
    (∃ n, m.nodes.get? start = some n ∧ n.started = true) ∧
    ∃ goal n way, m.ownerOf? a = some goal ∧ m.nodes.get? goal = some n ∧
    n.started = true ∧
      n.hasAddress a = true ∧ Walk R start goal way
  /-- The reply comes back over a walk to the owner that is as short as any. -/
  shortest : ∀ start a, m.echo start a = true →
    ∃ goal way, m.ownerOf? a = some goal ∧
    m.echoDetail start a = .reply goal way ∧ Walk R start goal way ∧
      ∀ other, Walk R start goal other → way.length ≤ other.length
  /-- Two owners have answers from each other, or neither has. -/
  bothWays : ∀ s t x y, m.ownerOf? x = some s → m.ownerOf? y = some t →
    m.echo s y = m.echo t x

/-- The owner of an address is attached and has it. -/
theorem ownerOf?_eq_some {a : Address} (h : m.ownerOf? a = some s) :
    ∃ n, m.nodes.get? s = some n ∧ n.started = true ∧
    n.hasAddress a = true := by
  obtain ⟨⟨t, n⟩, hfound, rfl⟩ := Option.map_eq_some_iff.1 h
  obtain ⟨hn, hhas⟩ := Table.find?_eq_some hfound
  exact ⟨n, hn, Bool.and_eq_true_iff.1 hhas⟩

theorem ownerOf?_eq_none_iff {a : Address} :
    m.ownerOf? a = none ↔ ∀ s n, m.nodes.get? s = some n → n.started = true →
    n.hasAddress a = false := by
  rw [ownerOf?, Option.map_eq_none_iff, Table.find?_eq_none_iff]
  simp only [Bool.and_eq_false_imp]

theorem echo_eq_true_iff {a : Address} : m.echo s a = true ↔
    (∃ n, m.nodes.get? s = some n ∧ n.started = true) ∧
      (m.reachability.echo s (m.ownerOf? a)).isReply = true := by
  rw [echo]
  cases m.nodes.get? s with
  | none => simp
  | some n => simp [echoDetail]

/-- Who answers is known from the relation that the graph of the links stands
for. -/
theorem Echoes.of_joins {R : Station → Station → Prop}
    (hjoins : ∀ s t, m.reachability.Joins s t ↔ R s t)
    (hsymm : ∀ s t, R s t → R t s) : m.Echoes R := by
  have hto : ∀ s t, m.reachability.Joins s t → R s t :=
    fun s t => (hjoins s t).1
  have hfrom : ∀ s t, R s t → m.reachability.Joins s t :=
    fun s t => (hjoins s t).2
  have hback : ∀ s t, m.reachability.Joins s t → m.reachability.Joins t s :=
    fun s t h => hfrom t s (hsymm s t (hto s t h))
  have hanswered : ∀ start a, m.echo start a = true ↔
      (∃ n, m.nodes.get? start = some n ∧ n.started = true) ∧
      ∃ goal n way, m.ownerOf? a = some goal ∧ m.nodes.get? goal = some n ∧
      n.started = true ∧
        n.hasAddress a = true ∧ Walk R start goal way := by
    intro start a
    rw [echo_eq_true_iff, Graph.isReply_echo_iff hback]
    refine and_congr_right fun _ => ⟨?_, ?_⟩
    · rintro ⟨goal, howner, way, hway⟩
      obtain ⟨n, hn, hstarted, hhas⟩ := ownerOf?_eq_some howner
      exact ⟨goal, n, way, howner, hn, hstarted, hhas, hway.mono hto⟩
    · rintro ⟨goal, n, way, howner, -, -, -, hway⟩
      exact ⟨goal, howner, way, hway.mono hfrom⟩
  have hturn : ∀ s t x y, m.ownerOf? x = some s → m.ownerOf? y = some t →
      m.echo s y = true → m.echo t x = true := by
    intro s t x y hx hy hecho
    obtain ⟨-, goal, n, way, howner, -, -, -, hway⟩ := (hanswered s y).1 hecho
    cases hy.symm.trans howner
    obtain ⟨p, hp, hstartP, hhasP⟩ := ownerOf?_eq_some hx
    obtain ⟨q, hq, hstartQ, -⟩ := ownerOf?_eq_some hy
    exact (hanswered t x).2 ⟨⟨q, hq, hstartQ⟩, s, p, way.reverse, hx, hp,
      hstartP, hhasP, hway.reverse hsymm⟩
  refine ⟨fun a => ownerOf?_eq_none_iff, hanswered, ?_, ?_⟩
  · intro start a hecho
    obtain ⟨goal, way, howner, hreply, hway, hshortest⟩ :=
      Graph.echo_of_isReply hback (echo_eq_true_iff.1 hecho).2
    exact ⟨goal, way, howner, hreply, hway.mono hto,
      fun other hother => hshortest other (hother.mono hfrom)⟩
  · intro s t x y hx hy
    exact Bool.eq_iff_iff.2 ⟨hturn s t x y hx hy, hturn t s y x hy hx⟩

/-- In every state that operations lead to, echo requests are answered over the
links that have been made and can be used. -/
theorem echoes_foldl_perform (settings : Settings) (ops : List Op) :
    (ops.foldl perform (make settings)).Echoes (Passes settings ops) :=
  Echoes.of_joins (fun _ _ => joins_iff_passes) fun _ _ => Passes.symm

/-- Operations that lead to a ring of four stations with
addresses of one prefix, in which the leader does not admit its
neighbour on one side any more. -/
def halfOpenRing : List Op :=
  [.addNode ⟨0⟩ .authority, .addNode ⟨1⟩ .relay, .addNode ⟨2⟩ .relay,
    .addNode ⟨3⟩ .relay, .link ⟨0⟩ ⟨1⟩, .link ⟨1⟩ ⟨2⟩,
    .linkWithLatency ⟨2⟩ ⟨3⟩ 2, .link ⟨3⟩ ⟨0⟩, .startAll, .call ⟨0⟩
    (.addPrefix (Prefix.ofAddress ⟨0xfd00 <<< 112⟩ _ Prefix.slaacLength_le)
      ⟨Flags.slaacBit⟩),
    .step, .step, .step, .setAdmissible ⟨0⟩ ⟨3⟩ false]

/-- The leader is heard over the long side of the ring. -/
theorem echoes_halfOpenRing :
    ∃ m, m = halfOpenRing.foldl perform (make .usual) ∧
    m.Echoes (Passes .usual halfOpenRing) ∧
    (m.nodes.get? ⟨0⟩).map (·.configuredAddresses.length) = some 1 ∧
    ∀ n ∈ m.nodes.get? ⟨0⟩, ∀ a ∈ n.configuredAddresses,
      m.echoDetail ⟨3⟩ a.addr = .reply ⟨0⟩ [⟨3⟩, ⟨2⟩, ⟨1⟩, ⟨0⟩] ∧
      m.echo ⟨3⟩ a.addr = true :=
  ⟨_, rfl, echoes_foldl_perform .usual halfOpenRing, by
    decide +kernel, by decide +kernel⟩

end Mesh

end OnMesh
