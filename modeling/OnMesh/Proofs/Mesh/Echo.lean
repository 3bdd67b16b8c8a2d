import OnMesh.Mesh
import OnMesh.Proofs.Graph.Parents
import OnMesh.Proofs.Node.Upkeep

/-!
# Who answers an echo request

An echo request goes to the attached node that has the address, over links that
can be used both ways.  Addresses tell nodes apart, so a node that can be
reached over such links answers for every address that it has configured.
-/

namespace OnMesh

theorem Arc.link_comm (a b : Station) : Arc.link a b = Arc.link b a := by
  rw [link, link]
  split
  · next hle =>
      split
      · next hge =>
          have heq : a = b := congrArg Station.mk (UInt32.le_antisymm hle hge)
          rw [heq]
      · rfl
  · next hnot =>
      have hge : b.number ≤ a.number := UInt32.le_of_lt (UInt32.not_le.1 hnot)
      rw [if_pos hge]

theorem Arc.link_cases (a b : Station) :
    Arc.link a b = ⟨a, b⟩ ∨ Arc.link a b = ⟨b, a⟩ := by
  rw [link]
  split
  · exact Or.inl rfl
  · exact Or.inr rfl

theorem Arc.link_eq_iff {a b s t : Station} :
    Arc.link s t = Arc.link a b ↔ s = a ∧ t = b ∨ s = b ∧ t = a := by
  constructor
  · intro h
    rcases Arc.link_cases s t with hst | hst <;>
      rcases Arc.link_cases a b with hab | hab <;>
      · rw [hst, hab, Arc.mk.injEq] at h
        tauto
  · rintro (⟨rfl, rfl⟩ | ⟨rfl, rfl⟩)
    · rfl
    · exact Arc.link_comm _ _

/-- The link between the ends of a link is the link itself. -/
theorem Arc.link_ends (a b : Station) :
    Arc.link (Arc.link a b).source (Arc.link a b).target = Arc.link a b := by
  rcases Arc.link_cases a b with h | h
  · rw [h]
    exact h
  · rw [h]
    exact (Arc.link_comm b a).trans h

namespace Mesh

variable {m : Mesh} {start goal s t : Station}

theorem contains_insert_link {a b : Station} {ticks : Nat} {arc : Arc} :
    (m.latencies.insert (Arc.link a b) ticks).contains arc = true ↔
      arc = Arc.link a b ∨ m.latencies.contains arc = true := by
  rw [Table.contains, Table.get?_insert]
  by_cases harc : arc = Arc.link a b
  · simp [harc]
  · simp [harc, Table.contains]

/-- There is a link between two stations that can be used both ways. -/
def Usable (m : Mesh) (s t : Station) : Prop :=
  m.latencies.contains (Arc.link s t) = true ∧ m.isUsable (Arc.link s t) = true

/-- The two ends of a link that can be used. -/
theorem isUsable_iff :
    m.isUsable ⟨s, t⟩ = true ↔ ∃ x y, m.nodes.get? s = some x ∧
    m.nodes.get? t = some y ∧ x.started = true ∧ y.started = true ∧
    x.isAdmissible y.id = true ∧ y.isAdmissible x.id = true := by
  rw [isUsable]
  cases hx : m.nodes.get? s with
  | none => simp
  | some x =>
      cases hy : m.nodes.get? t with
      | none => simp
      | some y => simp [and_assoc]

theorem isUsable_comm : m.isUsable ⟨s, t⟩ = m.isUsable ⟨t, s⟩ := by
  rw [Bool.eq_iff_iff, isUsable_iff, isUsable_iff]
  constructor <;>
  · rintro ⟨x, y, hx, hy, hstartX, hstartY, hadmX, hadmY⟩
    exact ⟨y, x, hy, hx, hstartY, hstartX, hadmY, hadmX⟩

theorem Usable.ends (h : m.Usable s t) : ∃ x y, m.nodes.get? s = some x ∧
    m.nodes.get? t = some y ∧ x.started = true ∧ y.started = true ∧
      x.isAdmissible y.id = true ∧ y.isAdmissible x.id = true := by
  apply isUsable_iff.1
  rcases Arc.link_cases s t with heq | heq
  · rw [← heq]
    exact h.2
  · rw [isUsable_comm, ← heq]
    exact h.2

theorem joins_reachability : m.reachability.Joins s t ↔
    ⟨s, t⟩ ∈ m.latencies.keys.filter m.isUsable ∨
      ⟨t, s⟩ ∈ m.latencies.keys.filter m.isUsable := by
  rw [reachability, Graph.joins_foldl_connect]
  apply or_iff_left
  rw [Graph.Joins, Graph.empty, Table.contains, Table.get?_empty]
  simp

theorem joins_of_usable (h : m.Usable s t) : m.reachability.Joins s t := by
  have hmem : Arc.link s t ∈ m.latencies.keys.filter m.isUsable :=
    List.mem_filter.2 ⟨Table.contains_eq_true_iff.1 h.1, h.2⟩
  rw [joins_reachability]
  rcases Arc.link_cases s t with heq | heq
  · exact Or.inl (heq ▸ hmem)
  · exact Or.inr (heq ▸ hmem)

/-- An attached station has an answer from every owner that can be
reached over usable links. -/
theorem echo_of_reachable {n : Node} {a : Address}
    (hn : m.nodes.get? start = some n) (hstarted : n.started = true)
    (howner : m.ownerOf? a = some goal)
    (h : Relation.ReflTransGen m.Usable start goal) :
    m.echo start a = true := by
  have hreach : Relation.ReflTransGen m.reachability.Joins start goal :=
    Relation.ReflTransGen.mono (fun _ _ => joins_of_usable) _ _ h
  have hsymm : ∀ s t, m.reachability.Joins s t → m.reachability.Joins t s := by
    intro s t hjoins
    rw [joins_reachability] at hjoins ⊢
    exact hjoins.symm
  rw [echo, hn]
  show (n.started && (m.reachability.echo start (m.ownerOf? a)).isReply) = true
  rw [hstarted, howner, Bool.true_and]
  exact (Graph.isReply_echo_iff hsymm).2
    ⟨goal, rfl, Graph.Walk.of_reflTransGen hreach⟩

/-- The owner of a configured address is the node that has it. -/
theorem ownerOf?_eq {n : Node} {a : Address}
    (hmembers : ∀ t k, m.nodes.get? t = some k → k.Formed ∧ k.Configured)
    (hunique : ∀ s t x y, m.nodes.get? s = some x → m.nodes.get? t = some y →
      x.id = y.id → s = t) (hn : m.nodes.get? s = some n)
    (hstarted : n.started = true) (ha : n.hasAddress a = true) :
    m.ownerOf? a = some s := by
  have hfound : m.nodes.find? (fun _ k => k.started && k.hasAddress a) =
      some (s, n) := by
    refine Table.find?_eq_some_of_unique hn (by simp [hstarted, ha]) ?_
    intro t k hk hhas
    obtain ⟨-, hhas⟩ := Bool.and_eq_true_iff.1 hhas
    obtain ⟨hformedK, hconfiguredK⟩ := hmembers t k hk
    obtain ⟨hformedN, hconfiguredN⟩ := hmembers s n hn
    apply hunique t s k n hk hn
    rw [← hformedK.addresses, ← hformedN.addresses]
    exact AddressBook.owner_eq_of_hasAddress hconfiguredK.addresses
      hconfiguredN.addresses hhas ha
  rw [ownerOf?, hfound]
  rfl

end Mesh

end OnMesh
