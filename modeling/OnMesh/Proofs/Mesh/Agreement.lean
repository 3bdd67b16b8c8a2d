import OnMesh.Proofs.Capacity
import OnMesh.Proofs.Mesh.Registry

/-!
# One lineage in a whole mesh

In a mesh with one authority that is never detached, the data of all nodes and
of all packets belong to the lineage of that authority, they fit one frame, and
every node knows as neighbours only nodes that it is linked to.  `Extends`
relates a mesh to one that it has become: nothing that was built goes away.
-/

namespace OnMesh

open Wire (Frame Message)

namespace Mesh

variable {m m' : Mesh} {leader s t : Station} {held held' : Set NetworkData}
  {ps : List Packet}

/-- The data of the leader; empty as long as there is none. -/
def authored (m : Mesh) (leader : Station) : NetworkData :=
  match m.nodes.get? leader with
  | some a => a.data
  | none => NetworkData.empty

/-- There is a link from a station to another one that has a hardware
address. -/
def Linked (m : Mesh) (s : Station) (b : NodeId) : Prop :=
  ∃ t k, t ≠ s ∧ m.nodes.get? t = some k ∧ k.id = b ∧
    m.latencies.contains (Arc.link s t) = true

/-- Stations keep their nodes, links keep their latencies, and
time does not go back. -/
structure Extends (m m' : Mesh) : Prop where
  nodes : ∀ s n, m.nodes.get? s = some n →
    ∃ n', m'.nodes.get? s = some n' ∧ n'.id = n.id
  latencies : ∀ link ticks, m.latencies.get? link = some ticks →
    m'.latencies.get? link = some ticks
  now : m.now ≤ m'.now

theorem Linked.extend {b : NodeId} (h : m.Linked s b) (hext : m.Extends m') :
    m'.Linked s b := by
  obtain ⟨t, k, hne, hk, hid, hlink⟩ := h
  obtain ⟨k', hk', hid'⟩ := hext.nodes t k hk
  obtain ⟨ticks, hticks⟩ := Option.isSome_iff_exists.1 hlink
  refine ⟨t, k', hne, hk', hid'.trans hid, ?_⟩
  rw [Table.contains, hext.latencies _ _ hticks]
  rfl

/-! ## Nodes -/

/-- What holds of the node at a station. -/
structure Member (leader : Station) (held : Set NetworkData) (m : Mesh)
    (s : Station) (n : Node) : Prop where
  sound : n.Sound held
  stocked : n.Stocked
  vacant : n.Vacant
  role : n.role = .authority ↔ s = leader
  acceptable : n.settings.validate = .ok ()
  linked : ∀ b, n.links.hasNeighbour b = true → m.Linked s b

/-- The leader is the only authority, and all data around belong to its
lineage. -/
structure Agrees (leader : Station) (held : Set NetworkData) (m : Mesh) :
    Prop where
  lineage : Lineage held (m.authored leader)
  fits : ∀ d ∈ held, d.Fits
  members : ∀ s n, m.nodes.get? s = some n → Member leader held m s n
  located : m.Located

/-- What a node may become. -/
structure Succeeds (held : Set NetworkData) (n n' : Node) : Prop where
  alike : Node.Alike n n'
  sound : n'.Sound held
  stocked : n'.Stocked
  vacant : n'.Vacant

theorem Member.succeed {n n' : Node} (h : Member leader held m s n)
    (hext : m.Extends m') (hn : Succeeds held' n n')
    (hlinked : ∀ b, n'.links.hasNeighbour b = true → m.Linked s b) :
    Member leader held' m' s n' where
  sound := hn.sound
  stocked := hn.stocked
  vacant := hn.vacant
  role := by rw [hn.alike.role]; exact h.role
  acceptable := by rw [hn.alike.settings]; exact h.acceptable
  linked := fun b hb => (hlinked b hb).extend hext

theorem Member.succeeds_self {n : Node} (h : Member leader held m s n)
    (hsub : held ⊆ held') : Succeeds held' n n :=
  ⟨Node.Alike.refl n, h.sound.mono hsub, h.stocked, h.vacant⟩

theorem Agrees.canPublish_iff (h : m.Agrees leader held) {n : Node}
    (hn : m.nodes.get? s = some n) : n.role.canPublish = true ↔ s = leader := by
  rw [Role.canPublish_eq_true_iff]
  exact (h.members s n hn).role

theorem authored_of_some {a : Node} (ha : m.nodes.get? leader = some a) :
    m.authored leader = a.data := by
  rw [authored, ha]

/-- If every node becomes what it may become, the mesh goes on to agree. -/
theorem Agrees.succeed (h : m.Agrees leader held) (hext : m.Extends m')
    (hlocated : m'.Located) (hl : Lineage held' (m'.authored leader))
    (hfits : ∀ d ∈ held', d.Fits)
    (hnodes : ∀ s n', m'.nodes.get? s = some n' → ∃ n, m.nodes.get? s = some n ∧
      Succeeds held' n n' ∧ ∀ b, n'.links.hasNeighbour b = true →
      m.Linked s b) :
    m'.Agrees leader held' where
  lineage := hl
  fits := hfits
  members := by
    intro s n' hn'
    obtain ⟨n, hn, hsucc, hlinked⟩ := hnodes s n' hn'
    exact (h.members s n hn).succeed hext hsucc hlinked
  located := hlocated

theorem extends_setNode {n n' : Node} (hn : m.nodes.get? s = some n)
    (hid : n'.id = n.id) : m.Extends (m.setNode s n') where
  nodes := by
    intro t k hk
    by_cases hts : t = s
    · subst hts
      rw [hn] at hk
      cases hk
      exact ⟨n', by rw [setNode, Table.get?_insert, if_pos rfl], hid⟩
    · exact ⟨k, by rw [setNode, Table.get?_insert, if_neg hts, hk], rfl⟩
  latencies := fun _ _ h => h
  now := Nat.le_refl _

theorem get?_setNode {n' k : Node}
    (h : (m.setNode s n').nodes.get? t = some k) :
    t = s ∧ k = n' ∨ t ≠ s ∧ m.nodes.get? t = some k := by
  rw [setNode, Table.get?_insert] at h
  split at h
  · next hts => exact Or.inl ⟨hts, (Option.some.inj h).symm⟩
  · next hts => exact Or.inr ⟨hts, h⟩

theorem authored_setNode (m : Mesh) (n' : Node) :
    (m.setNode s n').authored leader = if leader = s then n'.data
      else m.authored leader := by
  by_cases hs : leader = s
  · rw [authored, setNode, Table.get?_insert, if_pos hs, if_pos hs]
  · rw [authored, setNode, Table.get?_insert, if_neg hs, if_neg hs, authored]

/-- A call on a node carries the lineage of the leader on, or
leaves it as it is. -/
theorem lineage_call (hl : Lineage held (m.authored leader)) {n : Node}
    (hn : m.nodes.get? s = some n) (hsound : n.Sound held)
    (hrole : n.role.canPublish = true ↔ s = leader) {c : Node.Call}
    (hc : c.Brings held) (hdetach : c = .detach → s ≠ leader)
    (hnext : c.isEdit = true → n.role.canPublish = true →
      n.version < n.version.next) :
    ∃ held', held ⊆ held' ∧
    Lineage held' ((m.setNode s (n.after c)).authored leader) ∧
      (n.after c).Sound held' ∧
      ∀ d ∈ held', d ∈ held ∨ n.role.canPublish = true ∧
      d = (n.after c).data := by
  rw [authored_setNode]
  rcases hsound.after hl hc hnext with ⟨hsound, hdata⟩ | ⟨hpublish, hlt, hsound⟩
  · refine ⟨held, le_refl held, ?_, hsound, fun d hd => Or.inl hd⟩
    split
    · next hleader =>
        subst hleader
        rw [hdata (hrole.2 rfl) fun hc => hdetach hc rfl, ← authored_of_some hn]
        exact hl
    · exact hl
  · have hleader : s = leader := hrole.1 hpublish
    subst hleader
    refine ⟨Insert.insert (n.after c).data held,
      Set.subset_insert _ _, ?_, hsound, ?_⟩
    · rw [if_pos rfl]
      apply hl.insert
      rw [authored_of_some hn]
      exact hlt
    · rintro d (rfl | hd)
      · exact Or.inr ⟨hpublish, rfl⟩
      · exact Or.inl hd

/-- A call on one node carries the lineage on, or leaves it as it is. -/
theorem Agrees.call (h : m.Agrees leader held) {n : Node}
    (hn : m.nodes.get? s = some n) {c : Node.Call} (hc : c.Brings held)
    (hdetach : c = .detach → s ≠ leader)
    (hnext : c.isEdit = true → n.role.canPublish = true →
      n.version < n.version.next)
    (hlinked : ∀ b, (n.after c).links.hasNeighbour b = true → m.Linked s b) :
    ∃ held', held ⊆ held' ∧ (m.setNode s (n.after c)).Agrees leader held' := by
  have hmember := h.members s n hn
  have halike := Node.alike_after n c
  have hstocked := hmember.stocked.after c
  obtain ⟨held', hsub, hl, hsound, hnew⟩ :=
    lineage_call h.lineage hn hmember.sound
    (h.canPublish_iff hn) hc hdetach hnext
  refine ⟨held', hsub, h.succeed (extends_setNode hn halike.id)
    (h.located.setNode hn halike.id) hl ?_ ?_⟩
  · intro d hd
    rcases hnew d hd with hd | ⟨hpublish, rfl⟩
    · exact h.fits d hd
    · apply hstocked.fits
      · rw [halike.role]
        exact hpublish
      · rw [halike.settings]
        exact hmember.acceptable
  · intro t k hk
    rcases get?_setNode hk with ⟨rfl, rfl⟩ | ⟨-, hk⟩
    · exact ⟨n, hn, ⟨halike, hsound, hstocked, hmember.vacant.after c⟩, hlinked⟩
    · exact ⟨k, hk, (h.members t k hk).succeeds_self hsub,
        (h.members t k hk).linked⟩

/-- What every node does without an edit leaves the lineage as it is. -/
theorem Agrees.map (h : m.Agrees leader held) {f : Node → Node}
    (hf : ∀ s n, m.nodes.get? s = some n → Succeeds held n (f n) ∧
      (n.role.canPublish = true → (f n).data = n.data) ∧
      ∀ b, (f n).links.hasNeighbour b = true → n.links.hasNeighbour b = true) :
    ({ m with nodes := m.nodes.map f } : Mesh).Agrees leader held := by
  refine h.succeed ⟨?_, fun _ _ h => h, Nat.le_refl _⟩ ?_ ?_ h.fits ?_
  · intro s n hn
    exact ⟨f n, Table.get?_map_eq_some_iff.2 ⟨n, hn, rfl⟩,
      (hf s n hn).1.alike.id⟩
  · refine h.located.stay
      (stays_of_map (fun s => Table.get?_map _ f s) (fun s n hn => ?_) rfl)
    exact (hf s n hn).1.alike.id
  · have hauthored :
        ({ m with nodes := m.nodes.map f } : Mesh).authored leader =
        m.authored leader := by
      rw [authored, authored, Table.get?_map]
      cases ha : m.nodes.get? leader with
      | none => rfl
      | some a => exact (hf leader a ha).2.1 ((h.canPublish_iff ha).2 rfl)
    rw [hauthored]
    exact h.lineage
  · intro s n' hn'
    obtain ⟨n, hn, rfl⟩ := Table.get?_map_eq_some_iff.1 hn'
    obtain ⟨hsucc, -, hneighbours⟩ := hf s n hn
    exact ⟨n, hn, hsucc,
      fun b hb => (h.members s n hn).linked b (hneighbours b hb)⟩

end Mesh

end OnMesh
