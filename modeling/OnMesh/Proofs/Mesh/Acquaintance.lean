import OnMesh.Proofs.Mesh.Spreading

/-!
# Meshes that are only linked

If nodes get their neighbours by links of the mesh alone, neighbours know each
other: a link makes each of its ends a neighbour of the other, and nothing else
adds or removes neighbours.  In such a mesh an edit floods as soon as every node
has room for the frames of its own neighbours.
-/

namespace OnMesh

namespace Node

variable {n k : Node}

/-- The node has kept its name and its neighbours. -/
structure SameCircle (n n' : Node) : Prop where
  id : n'.id = n.id
  neighbours : ∀ b, n'.links.hasNeighbour b = n.links.hasNeighbour b

theorem SameCircle.refl (n : Node) : SameCircle n n := ⟨rfl, fun _ => rfl⟩

theorem SameCircle.trans {l m n : Node} (hlm : SameCircle l m)
    (hmn : SameCircle m n) : SameCircle l n :=
  ⟨hmn.id.trans hlm.id, fun b => (hmn.neighbours b).trans (hlm.neighbours b)⟩

theorem SameCircle.of_links (hid : k.id = n.id) (hlinks : k.links = n.links) :
    SameCircle n k :=
  ⟨hid, fun _ => by rw [hlinks]⟩

/-- The call neither adds nor removes a neighbour. -/
def Call.keepsCircle : Call → Bool
  | .addNeighbour _ => false
  | .removeNeighbour _ => false
  | _ => true

theorem sameCircle_after (n : Node) {c : Call} (hc : c.keepsCircle = true) :
    SameCircle n (n.after c) := by
  cases c with
  | addNeighbour b => cases hc
  | removeNeighbour b => cases hc
  | setAdmissible b admissible =>
      obtain ⟨kept, flooding, tally, -, -, heq⟩ :=
        setAdmissible_spec n b admissible
      rw [after, heq]
      exact ⟨rfl, fun _ => Links.hasNeighbour_setAdmissible admissible⟩
  | _ => exact SameCircle.of_links (alike_after n _).id (links_after n rfl)

end Node

namespace Mesh

variable {m m' : Mesh} {leader s t : Station} {c : Node.Call} {n : Node}

/-! ## Neighbours that know each other -/

/-- Whoever has a node as a neighbour is a neighbour of that node. -/
def Mutual (m : Mesh) : Prop :=
  ∀ s t x y, m.nodes.get? s = some x → m.nodes.get? t = some y →
  x.links.hasNeighbour y.id = true → y.links.hasNeighbour x.id = true

/-- Nodes that know each other are known by no more nodes than
they have neighbours. -/
theorem Registered.knownBy_le (h : m.Registered) (hmutual : m.Mutual)
    (hn : m.nodes.get? s = some n) :
    m.knownBy n.id ≤ n.links.neighbours.size := by
  let knowing := m.nodes.filter fun _ x => x.links.hasNeighbour n.id
  have hknowing : ∀ e ∈ knowing.entries,
      m.nodes.get? e.1 = some e.2 ∧ e.2.links.hasNeighbour n.id = true := by
    intro e he
    have hget : knowing.get? e.1 = some e.2 := Table.get?_of_mem he
    rw [Table.get?_filter] at hget
    exact Option.filter_eq_some_iff.1 hget
  have hids : (knowing.entries.map fun e => e.2.id).Nodup := by
    refine (knowing.nodup_keys.of_map _).map_on fun e he f hf hid => ?_
    have hstation :=
      h.located.unique e.1 f.1 e.2 f.2 (hknowing e he).1 (hknowing f hf).1 hid
    have hnode := (hknowing e he).1
    rw [hstation, (hknowing f hf).1] at hnode
    exact Prod.ext hstation (Option.some.inj hnode).symm
  have hsub : (knowing.entries.map fun e => e.2.id) ⊆
      n.links.neighbours.keys := by
    intro b hb
    obtain ⟨e, he, rfl⟩ := List.mem_map.1 hb
    obtain ⟨hget, hknown⟩ := hknowing e he
    exact Table.mem_keys_iff.2
      (Links.hasNeighbour_iff.1 (hmutual e.1 s e.2 n hget hn hknown))
  have hlength : m.knownBy n.id =
      (knowing.entries.map fun e => e.2.id).length :=
    (List.length_map _).symm
  rw [hlength, ← Table.length_keys]
  exact (List.subperm_of_subset hids hsub).length_le

/-- Where neighbours know each other, room for the frames of the
neighbours is enough. -/
theorem AwaitsEdit.floods_of_mutual (h : m.AwaitsEdit leader c)
    (hregistered : m.Registered) (hup : m.Holds Upright) (hmutual : m.Mutual)
    (hout : m.Holds fun n => n.links.neighbours.size ≤ n.settings.maxOutbound)
    (hin : m.Holds fun n => n.links.neighbours.size ≤ n.settings.maxInbound)
    (ticks : Nat) : m.Floods leader c ticks :=
  h.floods hregistered hup hout
    (fun s n hn => (hregistered.knownBy_le hmutual hn).trans (hin s n hn)) ticks

/-! ## Operations that leave neighbours alone -/

/-- Every neighbour is a node that has the node as a neighbour. -/
def Befriended (m : Mesh) : Prop := ∀ s x b, m.nodes.get? s = some x →
  x.links.hasNeighbour b = true →
    ∃ t y, m.nodes.get? t = some y ∧ y.id = b ∧ y.links.hasNeighbour x.id = true

theorem Befriended.mutual (h : m.Befriended) (hregistered : m.Registered) :
    m.Mutual := by
  intro s t x y hx hy hknown
  obtain ⟨u, z, hz, hid, hback⟩ := h s x y.id hx hknown
  have hut := hregistered.located.unique u t z y hz hy hid
  rw [hut, hy] at hz
  cases hz
  exact hback

/-- Every station has kept its node, and every node its neighbours. -/
structure SameCircles (m m' : Mesh) : Prop where
  kept : m.Each fun s n => ∃ n', m'.nodes.get? s = some n' ∧
    Node.SameCircle n n'
  only : m'.Each fun s _ => ∃ n, m.nodes.get? s = some n

theorem SameCircles.refl (m : Mesh) : SameCircles m m :=
  ⟨fun _ n hn => ⟨n, hn, Node.SameCircle.refl n⟩, fun _ n hn => ⟨n, hn⟩⟩

theorem SameCircles.trans {m₁ m₂ m₃ : Mesh} (h₁₂ : SameCircles m₁ m₂)
    (h₂₃ : SameCircles m₂ m₃) : SameCircles m₁ m₃ where
  kept := by
    intro s n hn
    obtain ⟨k, hk, hnk⟩ := h₁₂.kept s n hn
    obtain ⟨j, hj, hkj⟩ := h₂₃.kept s k hk
    exact ⟨j, hj, hnk.trans hkj⟩
  only := by
    intro s j hj
    obtain ⟨k, hk⟩ := h₂₃.only s j hj
    exact h₁₂.only s k hk

/-- If every node goes over into one with the same neighbours, all circles
stay. -/
theorem sameCircles_of_map {f : Station → Node → Node}
    (hget : ∀ s, m'.nodes.get? s = (m.nodes.get? s).map (f s))
    (hf : ∀ s n, m.nodes.get? s = some n → Node.SameCircle n (f s n)) :
    SameCircles m m' where
  kept := fun s n hn => ⟨f s n, by rw [hget, hn]; rfl, hf s n hn⟩
  only := by
    intro s n' hn'
    rw [hget] at hn'
    obtain ⟨n, hn, -⟩ := Option.map_eq_some_iff.1 hn'
    exact ⟨n, hn⟩

theorem Befriended.of_sameCircles (h : m.Befriended)
    (hsame : SameCircles m m') : m'.Befriended := by
  intro s x' b hx' hknown
  obtain ⟨x, hx⟩ := hsame.only s x' hx'
  obtain ⟨k, hk, hcircle⟩ := hsame.kept s x hx
  rw [hx'] at hk
  cases hk
  rw [hcircle.neighbours] at hknown
  obtain ⟨t, y, hy, hid, hback⟩ := h s x b hx hknown
  obtain ⟨y', hy', hcircleY⟩ := hsame.kept t y hy
  refine ⟨t, y', hy', hcircleY.id.trans hid, ?_⟩
  rw [hcircleY.neighbours, hcircle.id]
  exact hback

theorem sameCircles_call (m : Mesh) (s : Station) (hc : c.keepsCircle = true) :
    SameCircles m (m.call s c) := by
  refine sameCircles_of_map (m.get?_call s c) fun t n _ => ?_
  split
  · exact n.sameCircle_after hc
  · exact Node.SameCircle.refl n

theorem sameCircles_setAdmissible (m : Mesh) (a b : Station)
    (admissible : Bool) : SameCircles m (m.setAdmissible a b admissible).2 := by
  rcases m.setAdmissible_snd a b admissible with ⟨n, -, heq⟩ | heq
  · rw [heq]
    exact m.sameCircles_call a rfl
  · rw [heq]
    exact SameCircles.refl m

theorem sameCircles_setLinkAdmissible (m : Mesh) (a b : Station)
    (admissible : Bool) :
    SameCircles m (m.setLinkAdmissible a b admissible).2 := by
  have hfirst := m.sameCircles_setAdmissible a b admissible
  rcases m.setLinkAdmissible_snd a b admissible with heq | heq
  · rw [heq]
    exact hfirst
  · rw [heq]
    exact hfirst.trans (sameCircles_setAdmissible _ b a admissible)

theorem sameCircles_startAll (m : Mesh) : SameCircles m m.startAll :=
  sameCircles_of_map (fun s => Table.get?_map m.nodes Node.start s)
    fun _ n _ => n.sameCircle_after (c := .start) rfl

theorem sameCircles_step (m : Mesh) : SameCircles m m.step := by
  refine sameCircles_of_map
    (f := fun t n => ((n.receivedAll (m.arriving t)).tick (m.now + 1)).popAll.2)
      (fun t => ?_)
    fun t n _ => ?_
  · rw [step_eq, nodes_transmitAll, Table.get?_map,
      get?_tickAll_deliverDue, Option.map_map]
    rfl
  · have hcalm := n.calm_receivedAll (m.arriving t)
    obtain ⟨tally, hpop⟩ :=
      ((n.receivedAll (m.arriving t)).tick (m.now + 1)).popAll_spec
    rw [hpop]
    exact Node.SameCircle.of_links
      ((Node.alike_tick _ _).id.trans hcalm.alike.id)
      ((Node.links_tick _ _).trans hcalm.links)

/-! ## New nodes and links -/

theorem Befriended.addNode (h : m.Befriended) (s : Station) (role : Role) :
    (m.addNode s role).2.Befriended := by
  rcases m.addNode_snd s role with heq | ⟨id, stream, hnone, -, -, heq⟩
  · rw [heq]
    exact h
  · have hnew : (m.addNode s role).2 = m.withNode s id role stream := heq
    rw [hnew]
    intro t x b hx hknown
    rcases get?_withNode hx with ⟨-, rfl⟩ | ⟨-, hx⟩
    · cases hknown
    · obtain ⟨u, y, hy, hid, hback⟩ := h t x b hx hknown
      refine ⟨u, y, ?_, hid, hback⟩
      have hus : u ≠ s := by
        rintro rfl
        rw [hnone] at hy
        cases hy
      rw [withNode, Table.get?_insert, if_neg hus, hy]

/-- What a node has become when the stations `a` and `b` have got
to know each other. -/
def acquainted (a b : Station) (idA idB : NodeId) (s : Station) (n : Node) :
    Node :=
  let n := if s = a then n.addNeighbour idB else n
  if s = b then n.addNeighbour idA else n

theorem get?_introduce (m : Mesh) (a b : Station) (idA idB : NodeId)
    (s : Station) :
    (m.introduce a b idA idB).nodes.get? s =
      (m.nodes.get? s).map (acquainted a b idA idB s) := by
  rw [introduce, get?_call, get?_call, Option.map_map]
  rfl

theorem id_acquainted (a b : Station) (idA idB : NodeId) (s : Station)
    (n : Node) : (acquainted a b idA idB s n).id = n.id := by
  rw [acquainted]
  split <;> split <;> rfl

theorem hasNeighbour_acquainted {a b : Station} {idA idB c : NodeId}
    (howner : n.links.owner = n.id) :
    (acquainted a b idA idB s n).links.hasNeighbour c = true ↔
    n.links.hasNeighbour c = true ∨
      (s = a ∧ c = idB ∧ c ≠ n.id) ∨ s = b ∧ c = idA ∧ c ≠ n.id := by
  have hadded : ∀ (k : Node) (t : Station) (id : NodeId), k.links.owner = n.id →
      ((if s = t then k.addNeighbour id else k).links.hasNeighbour c = true ↔
        k.links.hasNeighbour c = true ∨ s = t ∧ c = id ∧ c ≠ n.id) := by
    intro k t id hk
    by_cases hst : s = t
    · rw [if_pos hst, Node.addNeighbour, Links.hasNeighbour_addNeighbour, hk]
      exact or_congr_right ⟨fun ⟨hc, hne⟩ => ⟨hst, hc, hc ▸ hne⟩,
        fun ⟨_, hc, hne⟩ => ⟨hc, hc ▸ hne⟩⟩
    · rw [if_neg hst]
      simp [hst]
  have hfirst : (if s = a then n.addNeighbour idB else n).links.owner =
      n.id := by
    split
    · exact (Node.alike_after n (.addNeighbour idB)).links.trans howner
    · exact howner
  rw [acquainted, hadded _ b idA hfirst, hadded n a idB howner, or_assoc]

/-- Two nodes that get to know each other become neighbours of each other. -/
theorem Befriended.introduce (h : m.Befriended) (hformed : m.Holds Node.Formed)
    {a b : Station} {x y : Node} (hx : m.nodes.get? a = some x)
    (hy : m.nodes.get? b = some y) :
    (m.introduce a b x.id y.id).Befriended := by
  intro s z' c hz' hknown
  rw [get?_introduce] at hz'
  obtain ⟨z, hz, rfl⟩ := Option.map_eq_some_iff.1 hz'
  rw [hasNeighbour_acquainted (hformed s z hz).links] at hknown
  rw [id_acquainted]
  rcases hknown with hold | ⟨rfl, rfl, hne⟩ | ⟨rfl, rfl, hne⟩
  · obtain ⟨t, w, hw, hid, hback⟩ := h s z c hz hold
    refine ⟨t, _, by rw [get?_introduce, hw]; rfl,
      (id_acquainted ..).trans hid, ?_⟩
    rw [hasNeighbour_acquainted (hformed t w hw).links]
    exact Or.inl hback
  · rw [hx] at hz
    cases hz
    refine ⟨b, _, by rw [get?_introduce, hy]; rfl, id_acquainted .., ?_⟩
    rw [hasNeighbour_acquainted (hformed b y hy).links]
    exact Or.inr (Or.inr ⟨rfl, rfl, hne.symm⟩)
  · rw [hy] at hz
    cases hz
    refine ⟨a, _, by rw [get?_introduce, hx]; rfl, id_acquainted .., ?_⟩
    rw [hasNeighbour_acquainted (hformed a x hx).links]
    exact Or.inr (Or.inl ⟨rfl, rfl, hne.symm⟩)

theorem Befriended.linkWithLatency (h : m.Befriended)
    (hformed : m.Holds Node.Formed) (a b : Station) (ticks : Nat) :
    (m.linkWithLatency a b ticks).2.Befriended := by
  rw [Mesh.linkWithLatency, hardwareId, hardwareId, node, node]
  cases hx : m.nodes.get? a with
  | none => exact h
  | some x =>
      cases hy : m.nodes.get? b with
      | none => exact h
      | some y =>
          show (m.join a b x.id y.id ticks).Befriended
          have hlinked : (m.withLink a b ticks).Befriended := h
          rw [join_eq]
          exact (hlinked.introduce hformed hx hy).of_sameCircles
            (sameCircles_setLinkAdmissible _ a b true)

/-! ## Meshes that are only linked -/

/-- The operation gives neighbours to nodes by links only. -/
def Op.keepsCircles : Op → Bool
  | .call _ c => c.keepsCircle
  | _ => true

theorem Befriended.perform (h : m.Befriended) (hformed : m.Holds Node.Formed)
    {op : Op} (hop : op.keepsCircles = true) : (m.perform op).Befriended := by
  cases op with
  | addNode s role => exact h.addNode s role
  | startAll => exact h.of_sameCircles m.sameCircles_startAll
  | call s c => exact h.of_sameCircles (m.sameCircles_call s hop)
  | setAdmissible a b admissible =>
      exact h.of_sameCircles (m.sameCircles_setAdmissible a b admissible)
  | setLinkAdmissible a b admissible =>
      exact h.of_sameCircles (m.sameCircles_setLinkAdmissible a b admissible)
  | linkWithLatency a b ticks => exact h.linkWithLatency hformed a b ticks
  | link a b => exact h.linkWithLatency hformed a b m.settings.latency
  | step => exact h.of_sameCircles m.sameCircles_step

theorem befriended_foldl_perform (settings : Settings) {ops : List Op}
    (hops : ∀ op ∈ ops, op.keepsCircles = true) :
    (ops.foldl Mesh.perform (make settings)).Befriended := by
  have hmake : (make settings).Befriended ∧ (make settings).Holds Node.Formed :=
    ⟨fun _ _ _ hx => (nomatch hx), fun _ _ hn => (nomatch hn)⟩
  have hboth : (ops.foldl Mesh.perform (make settings)).Befriended ∧
      (ops.foldl Mesh.perform (make settings)).Holds Node.Formed := by
    refine List.foldlRecOn
      (motive := fun m => m.Befriended ∧ m.Holds Node.Formed) ops
      Mesh.perform hmake ?_
    rintro m ⟨hm, hformed⟩ op hop
    refine ⟨hm.perform hformed (hops op hop),
      hformed.perform ?_ Node.formed_make op⟩
    exact fun n c hn => hn.of_alike (Node.alike_after n c)
  exact hboth.1

/-- If nodes get neighbours by links only, an edit floods the mesh as soon as
the queues of every node hold as many frames as it has neighbours. -/
theorem AwaitsEdit.floods_of_links (settings : Settings) {ops : List Op}
    (hops : ∀ op ∈ ops, op.keepsCircles = true)
    (h : (ops.foldl Mesh.perform (make settings)).AwaitsEdit leader c)
    (hout : (ops.foldl Mesh.perform (make settings)).Holds fun n =>
      n.links.neighbours.size ≤ n.settings.maxOutbound)
    (hin : (ops.foldl Mesh.perform (make settings)).Holds fun n =>
      n.links.neighbours.size ≤ n.settings.maxInbound) (ticks : Nat) :
    (ops.foldl Mesh.perform (make settings)).Floods leader c ticks := by
  have hregistered := registered_foldl_perform settings ops
  exact h.floods_of_mutual hregistered (upright_foldl_perform settings ops)
    ((befriended_foldl_perform settings hops).mutual hregistered) hout hin ticks

end Mesh

end OnMesh
