import OnMesh.Proofs.Mesh.Echo
import OnMesh.Proofs.Mesh.Steady

/-!
# Runs of a mesh with one authority

`Run` describes the runs of a mesh in which one authority is never detached, a
link keeps its latency, and no queue is ever full, not even within a step.
Every operation that such a run allows leaves the mesh steady.
-/

namespace OnMesh

open Wire (Frame Message)

namespace Mesh

variable {m m' : Mesh} {settings : Settings} {leader s t : Station}
  {held : Set NetworkData}
  {ps : List Packet}

/-! ## Runs -/

/-- The latency of a link is not changed once it is set. -/
def KeepsLatency (m : Mesh) (a b : Station) (ticks : Nat) : Prop :=
  ∀ known, m.latencies.get? (Arc.link a b) = some known → known = max ticks 1

/-- An authority at a station finds a version to count up to. -/
def CanCount (m : Mesh) (s : Station) : Prop :=
  ∀ n, m.nodes.get? s = some n → n.role = .authority →
    n.version < n.version.next

/-- What may be asked of a mesh with one authority, the leader. -/
def Permits (leader : Station) (m : Mesh) : Op → Prop
  | .addNode s role => m.nodes.get? s = none → (role = .authority ↔ s = leader)
  | .startAll => True
  | .call _ .start => True
  | .call s .detach => s ≠ leader
  | .call s (.addPrefix ..) => m.CanCount s
  | .call s (.removePrefix ..) => m.CanCount s
  | .call _ _ => False
  | .setAdmissible .. => True
  | .setLinkAdmissible .. => True
  | .linkWithLatency a b ticks => m.KeepsLatency a b ticks
  | .link a b => m.KeepsLatency a b m.settings.latency
  | .step => m.later.deliverDue.HasRoom ∧ m.later.deliverDue.tickAll.HasRoom

/-- The states that permitted operations lead to while no queue is full. -/
inductive Run (settings : Settings) (leader : Station) : Mesh → Prop
  | make : Run settings leader (make settings)
  | perform {m : Mesh} (op : Op) : Run settings leader m → m.Permits leader op →
      (m.perform op).HasRoom → Run settings leader (m.perform op)

/-! ## Checking a run -/

instance {α : Type} (o : Option α) (P : α → Prop) [DecidablePred P] :
    Decidable (∀ a, o = some a → P a) :=
  match o with
  | none => .isTrue fun _ h => nomatch h
  | some a =>
    decidable_of_iff (P a)
      ⟨fun h _ heq => Option.some.inj heq ▸ h, fun h => h a rfl⟩

instance (a b : Station) (ticks : Nat) : Decidable (m.KeepsLatency a b ticks) :=
  inferInstanceAs (Decidable (∀ _, _ → _))

instance (s : Station) : Decidable (m.CanCount s) :=
  inferInstanceAs (Decidable (∀ _, _ → _))

instance : Decidable m.HasRoom := inferInstanceAs (Decidable (m.Holds _))

instance (op : Op) : Decidable (m.Permits leader op) :=
  match op with
  | .addNode .. => inferInstanceAs (Decidable (_ → _))
  | .startAll => .isTrue trivial
  | .call _ .start => .isTrue trivial
  | .call s .detach => inferInstanceAs (Decidable (s ≠ leader))
  | .call s (.addPrefix ..) => inferInstanceAs (Decidable (m.CanCount s))
  | .call s (.removePrefix ..) => inferInstanceAs (Decidable (m.CanCount s))
  | .call _ (.addNeighbour _) => .isFalse id
  | .call _ (.removeNeighbour _) => .isFalse id
  | .call _ (.setAdmissible ..) => .isFalse id
  | .call _ (.tick _) => .isFalse id
  | .call _ .pop => .isFalse id
  | .call _ (.queueFrame _) => .isFalse id
  | .call _ (.queueBytes _) => .isFalse id
  | .setAdmissible .. => .isTrue trivial
  | .setLinkAdmissible .. => .isTrue trivial
  | .linkWithLatency a b ticks =>
    inferInstanceAs (Decidable (m.KeepsLatency a b ticks))
  | .link a b =>
    inferInstanceAs (Decidable (m.KeepsLatency a b m.settings.latency))
  | .step => inferInstanceAs (Decidable (_ ∧ _))

/-- Operations that a run can go on with, one after the other. -/
def Allows (leader : Station) : Mesh → List Op → Prop
  | _, [] => True
  | m, op :: ops =>
    m.Permits leader op ∧ (m.perform op).HasRoom ∧
      Allows leader (m.perform op) ops

instance decidableAllows (leader : Station) :
    (m : Mesh) → (ops : List Op) → Decidable (Allows leader m ops)
  | _, [] => .isTrue trivial
  | m, op :: ops =>
    have := decidableAllows leader (m.perform op) ops
    inferInstanceAs (Decidable (_ ∧ _ ∧ _))

theorem Run.foldl {ops : List Op} (h : Run settings leader m)
    (hops : Allows leader m ops) :
    Run settings leader (ops.foldl Mesh.perform m) := by
  induction ops generalizing m with
  | nil => exact h
  | cons op ops ih => exact ih (h.perform op hops.1 hops.2.1) hops.2.2

/-! ## Operations on nodes -/

/-- A call on the node at a station, if there is one, leaves the mesh steady. -/
theorem Steady.callAt (h : m.Steady leader held ps) {c : Node.Call}
    (hlocal : c.isLocal = true) (hdetach : c = .detach → s ≠ leader)
    (hnext : c.isEdit = true → m.CanCount s)
    (hneighbours : ∀ n b, m.nodes.get? s = some n → c = .addNeighbour b →
      b ≠ n.id → m.Linked s b) (hroom : (m.call s c).HasRoom) :
    ∃ held', (m.call s c).Steady leader held' ps := by
  cases hn : m.nodes.get? s with
  | none =>
      rw [call_of_none hn]
      exact ⟨held, h⟩
  | some n =>
      rw [call_of_some hn] at hroom ⊢
      have hmember := h.agrees.members s n hn
      have hout := (hroom s (n.after c)
        (by rw [setNode, Table.get?_insert, if_pos rfl])).outgoing
      rw [(Node.alike_after n c).settings] at hout
      refine h.call hn hlocal hdetach ?_ ?_ hout
      · intro hedit hpublish
        exact hnext hedit n hn (Role.canPublish_eq_true_iff.1 hpublish)
      · intro b hb
        rcases Node.hasNeighbour_after n c hb with hknown | ⟨hadd, hne⟩
        · exact hmember.linked b hknown
        · exact hneighbours n b hn hadd (hmember.sound.formed.links ▸ hne)

/-- A node has not had less room before a call that makes its queues longer. -/
theorem hasRoom_of_call {c : Node.Call}
    (hgrow : ∀ n : Node, (n.after c).HasRoom → n.HasRoom)
    (h : (m.call s c).HasRoom) : m.HasRoom := by
  cases hn : m.nodes.get? s with
  | none =>
      rw [call_of_none hn] at h
      exact h
  | some n =>
      rw [call_of_some hn] at h
      exact hasRoom_of_insert hn (hgrow n) rfl h

theorem hasRoom_of_setAdmissible {n : Node} {b : NodeId} {admissible : Bool}
    (h : (n.after (.setAdmissible b admissible)).HasRoom) : n.HasRoom := by
  obtain ⟨kept, flooding, tally, -, -, heq⟩ :=
    Node.setAdmissible_spec n b admissible
  rw [Node.after, heq] at h
  have hout := h.outgoing
  rw [Node.queued, List.length_append] at hout
  exact ⟨h.incoming, Nat.lt_of_le_of_lt (Nat.le_add_right _ _) hout⟩

theorem Steady.setAdmissible (h : m.Steady leader held ps) {a b : Station}
    {admissible : Bool} (hroom : (m.setAdmissible a b admissible).2.HasRoom) :
    ∃ held', (m.setAdmissible a b admissible).2.Steady leader held' ps := by
  rcases m.setAdmissible_snd a b admissible with ⟨n, -, heq⟩ | heq
  · rw [heq] at hroom ⊢
    exact h.callAt rfl (by simp) (by simp [Node.Call.isEdit]) (by simp) hroom
  · rw [heq]
    exact ⟨held, h⟩

theorem hasRoom_of_mesh_setAdmissible {a b : Station} {admissible : Bool}
    (h : (m.setAdmissible a b admissible).2.HasRoom) : m.HasRoom := by
  rcases m.setAdmissible_snd a b admissible with ⟨n, -, heq⟩ | heq
  · rw [heq] at h
    exact hasRoom_of_call (fun _ => hasRoom_of_setAdmissible) h
  · rw [heq] at h
    exact h

theorem Steady.setLinkAdmissible (h : m.Steady leader held ps) {a b : Station}
    {admissible : Bool}
    (hroom : (m.setLinkAdmissible a b admissible).2.HasRoom) :
    ∃ held', (m.setLinkAdmissible a b admissible).2.Steady leader held' ps := by
  rcases m.setLinkAdmissible_snd a b admissible with heq | heq
  · rw [heq] at hroom ⊢
    exact h.setAdmissible hroom
  · rw [heq] at hroom ⊢
    obtain ⟨held', hfirst⟩ :=
      h.setAdmissible (hasRoom_of_mesh_setAdmissible hroom)
    exact hfirst.setAdmissible hroom

theorem hasRoom_of_setLinkAdmissible {a b : Station} {admissible : Bool}
    (h : (m.setLinkAdmissible a b admissible).2.HasRoom) : m.HasRoom := by
  rcases m.setLinkAdmissible_snd a b admissible with heq | heq
  · rw [heq] at h
    exact hasRoom_of_mesh_setAdmissible h
  · rw [heq] at h
    exact hasRoom_of_mesh_setAdmissible (hasRoom_of_mesh_setAdmissible h)

/-! ## New links and nodes -/

def withLink (m : Mesh) (a b : Station) (ticks : Nat) : Mesh :=
  { m with latencies := m.latencies.insert (Arc.link a b) (max ticks 1) }

theorem Steady.withLink (h : m.Steady leader held ps) {a b : Station}
    {ticks : Nat} (hkeeps : m.KeepsLatency a b ticks) :
    (m.withLink a b ticks).Steady leader held ps := by
  refine h.of_nodes rfl rfl (fun link known hknown => ?_) (Nat.le_refl _)
  show (m.latencies.insert (Arc.link a b) (max ticks 1)).get? link = some known
  rw [Table.get?_insert]
  split
  · next heq =>
      subst heq
      rw [hkeeps known hknown]
  · exact hknown

/-- The ends of a link may know each other. -/
theorem linked_of_contains {a b : Station} {x y : Node}
    (hx : m.nodes.get? a = some x) (hy : m.nodes.get? b = some y)
    (hne : y.id ≠ x.id) (hlink : m.latencies.contains (Arc.link a b) = true) :
    m.Linked a y.id := by
  refine ⟨b, y, ?_, hy, rfl, hlink⟩
  rintro rfl
  rw [hx] at hy
  cases hy
  exact hne rfl

theorem Steady.addNeighbour (h : m.Steady leader held ps) {a b : Station}
    {x y : Node} (hx : m.nodes.get? a = some x) (hy : m.nodes.get? b = some y)
    (hlink : m.latencies.contains (Arc.link a b) = true)
    (hroom : (m.call a (.addNeighbour y.id)).HasRoom) :
    ∃ held', (m.call a (.addNeighbour y.id)).Steady leader held' ps := by
  refine h.callAt rfl (by simp) (by simp [Node.Call.isEdit]) ?_ hroom
  rintro n c hn hc hne
  cases hc
  rw [hx] at hn
  cases hn
  exact linked_of_contains hx hy hne hlink

def introduce (m : Mesh) (a b : Station) (idA idB : NodeId) : Mesh :=
  (m.call a (.addNeighbour idB)).call b (.addNeighbour idA)

theorem join_eq (m : Mesh) (a b : Station) (idA idB : NodeId) (ticks : Nat) :
    m.join a b idA idB ticks =
      (((m.withLink a b ticks).introduce a b idA idB).setLinkAdmissible
        a b true).2 := by
  rw [join, addNeighbour_snd, addNeighbour_snd]
  rfl

/-- Two stations with a link may get to know each other. -/
theorem Steady.introduce (h : m.Steady leader held ps) {a b : Station}
    {x y : Node} (hx : m.nodes.get? a = some x) (hy : m.nodes.get? b = some y)
    (hlink : m.latencies.contains (Arc.link a b) = true)
    (hroom : (m.introduce a b x.id y.id).HasRoom) :
    ∃ held', (m.introduce a b x.id y.id).Steady leader held' ps := by
  have hcall : m.call a (.addNeighbour y.id) =
      m.setNode a (x.after (.addNeighbour y.id)) :=
    call_of_some hx _
  have hext : m.Extends (m.call a (.addNeighbour y.id)) := by
    rw [hcall]
    exact extends_setNode hx rfl
  have hroomForth : (m.call a (.addNeighbour y.id)).HasRoom :=
    hasRoom_of_call (c := .addNeighbour x.id)
      (fun _ h => ⟨h.incoming, h.outgoing⟩) hroom
  obtain ⟨x', hx', hid⟩ := hext.nodes a x hx
  obtain ⟨y', hy', -⟩ := hext.nodes b y hy
  obtain ⟨heldForth, hforth⟩ := h.addNeighbour hx hy hlink hroomForth
  rw [Mesh.introduce, ← hid] at hroom ⊢
  refine hforth.addNeighbour hy' hx' ?_ hroom
  rw [hcall, Arc.link_comm]
  exact hlink

/-- A new link leaves the wire alone. -/
theorem Steady.linkWithLatency (h : m.Steady leader held ps) {a b : Station}
    {ticks : Nat} (hkeeps : m.KeepsLatency a b ticks)
    (hroom : (m.linkWithLatency a b ticks).2.HasRoom) :
    (∃ held', (m.linkWithLatency a b ticks).2.Steady leader held' ps) ∧
      (m.linkWithLatency a b ticks).2.inFlight = m.inFlight := by
  rw [Mesh.linkWithLatency, hardwareId, hardwareId, node, node] at hroom ⊢
  cases hx : m.nodes.get? a with
  | none => exact ⟨⟨held, h⟩, rfl⟩
  | some x =>
      cases hy : m.nodes.get? b with
      | none => exact ⟨⟨held, h⟩, rfl⟩
      | some y =>
          rw [hx, hy] at hroom
          have hroomEnd : (m.join a b x.id y.id ticks).HasRoom := hroom
          show (∃ held', (m.join a b x.id y.id ticks).Steady leader held' ps) ∧
            (m.join a b x.id y.id ticks).inFlight = m.inFlight
          rw [join_eq] at hroomEnd ⊢
          have hlink : (m.withLink a b ticks).latencies.contains
              (Arc.link a b) = true := by
            rw [Mesh.withLink, Table.contains, Table.get?_insert, if_pos rfl]
            rfl
          obtain ⟨heldKnown, hknown⟩ :=
            (h.withLink hkeeps).introduce hx hy hlink
            (hasRoom_of_setLinkAdmissible hroomEnd)
          refine ⟨hknown.setLinkAdmissible hroomEnd, ?_⟩
          rw [(nodesOnly_setLinkAdmissible _ a b true).inFlight_eq,
            Mesh.introduce, inFlight_call, inFlight_call]
          rfl

def withNode (m : Mesh) (s : Station) (id : NodeId) (role : Role)
    (stream : KeyStream) : Mesh :=
  { m with
    stream
    nodes := m.nodes.insert s (Node.make id role m.settings.node)
    stations := m.stations.insert id s }

section NewNode

variable {id : NodeId} {role : Role} {stream : KeyStream}

theorem get?_withNode {k : Node}
    (h : (m.withNode s id role stream).nodes.get? t = some k) :
    t = s ∧ k = Node.make id role m.settings.node ∨ t ≠ s ∧
    m.nodes.get? t = some k :=
  get?_setNode h

theorem extends_withNode (hnone : m.nodes.get? s = none) :
    m.Extends (m.withNode s id role stream) := by
  refine ⟨fun t k hk => ⟨k, ?_, rfl⟩, fun _ _ h => h, Nat.le_refl _⟩
  have hts : t ≠ s := by
    rintro rfl
    rw [hnone] at hk
    cases hk
  rw [withNode, Table.get?_insert, if_neg hts, hk]

theorem Located.withNode (h : m.Located) (hnone : m.nodes.get? s = none)
    (hfresh : m.locate? id = none) : (m.withNode s id role stream).Located :=
  h.insert (n := Node.make id role m.settings.node) hnone hfresh rfl rfl

/-- A new node holds no data. -/
theorem authored_withNode (hnone : m.nodes.get? s = none) :
    (m.withNode s id role stream).authored leader = m.authored leader := by
  apply (authored_setNode m (Node.make id role m.settings.node)).trans
  split
  · next hleader => rw [authored, hleader, hnone]; rfl
  · rfl

theorem Agrees.withNode (h : m.Agrees leader held)
    (hnone : m.nodes.get? s = none) (hvalid : m.settings.node.validate = .ok ())
    (hfresh : m.locate? id = none) (hrole : role = .authority ↔ s = leader) :
    (m.withNode s id role stream).Agrees leader held where
  lineage := by
    rw [authored_withNode hnone]
    exact h.lineage
  fits := h.fits
  members := by
    intro t k hk
    rcases get?_withNode hk with ⟨rfl, rfl⟩ | ⟨-, hk⟩
    · exact ⟨Node.sound_make _ _ _ h.lineage.empty_mem, Node.stocked_make _ _ _,
        fun _ => rfl, hrole, hvalid, fun b hb => by cases hb⟩
    · have hmember := h.members t k hk
      exact hmember.succeed (extends_withNode hnone)
        (hmember.succeeds_self (le_refl held))
        hmember.linked
  located := h.located.withNode hnone hfresh

/-- A new node is closed to all others, and they are to it. -/
theorem Steady.touching_withNode (h : m.Steady leader held ps)
    (hfresh : m.locate? id = none) :
    (m.withNode s id role stream).Touching ps := by
  refine touching_of_one (fun _ _ => get?_withNode) (fun t k _ hk => ?_)
    fun t u x y hne _ _ hx hy => h.touching t u x y hne hx hy
  apply Channel.Tied.of_closed rfl
  show (k.started && k.isAdmissible id) = false
  rw [Bool.and_eq_false_iff, ← Bool.not_eq_true (k.isAdmissible id)]
  refine Or.inr fun hadm => ?_
  obtain ⟨u, j, -, hj, hid, -⟩ := (h.agrees.members t k hk).linked id
    (Links.hasNeighbour_of_isAdmissible hadm)
  exact h.agrees.located.id_ne hfresh hj hid

end NewNode

theorem Steady.addNode (h : m.Steady leader held ps) (role : Role)
    (hrole : m.nodes.get? s = none → (role = .authority ↔ s = leader)) :
    (m.addNode s role).2.Steady leader held ps ∧
    (m.addNode s role).2.inFlight = m.inFlight := by
  rcases m.addNode_snd s role
    with heq | ⟨id, stream, hnone, hvalid, hfresh, heq⟩
  · rw [heq]
    exact ⟨h, rfl⟩
  · have hnew : (m.addNode s role).2 = m.withNode s id role stream := heq
    rw [hnew]
    refine ⟨⟨h.agrees.withNode hnone hvalid hfresh (hrole hnone),
      fun p hp => ?_, h.inOrder, h.touching_withNode hfresh⟩, rfl⟩
    exact (h.carries p hp).extend (extends_withNode hnone) (le_refl held)

/-! ## Every operation -/

theorem Steady.step (h : m.Steady leader held m.inFlight)
    (hdelivered : m.later.deliverDue.HasRoom)
    (hticked : m.later.deliverDue.tickAll.HasRoom) :
    ∃ held', m.step.Steady leader held' m.step.inFlight := by
  have hlater : m.later.Steady leader held m.later.inFlight :=
    h.of_nodes rfl rfl (fun _ _ h => h) (Nat.le_succ m.now)
  obtain ⟨held', hsteady⟩ := hlater.deliverDue hdelivered
  have htick : m.later.deliverDue.tickAll.Steady leader held'
      m.later.deliverDue.tickAll.inFlight := hsteady.tickAll hticked
  exact ⟨held', htick.transmitAll⟩

/-- A mesh with one authority stays steady as long as the queues have room. -/
theorem Steady.perform (h : m.Steady leader held m.inFlight) {op : Op}
    (hpermits : m.Permits leader op) (hroom : (m.perform op).HasRoom) :
    ∃ held', (m.perform op).Steady leader held' (m.perform op).inFlight := by
  cases op with
  | addNode s role =>
      obtain ⟨hsteady, hflight⟩ := h.addNode role hpermits
      rw [Mesh.perform, hflight]
      exact ⟨held, hsteady⟩
  | startAll =>
      exact ⟨held, h.callAll (c := .start) rfl (by simp) rfl (by simp) hroom⟩
  | call s c =>
      rw [Mesh.perform, inFlight_call]
      cases c with
      | start =>
          exact h.callAt rfl (by simp)
            (by simp [Node.Call.isEdit]) (by simp) hroom
      | detach =>
          exact h.callAt rfl (fun _ => hpermits)
            (by simp [Node.Call.isEdit]) (by simp) hroom
      | addPrefix net flags =>
          exact h.callAt rfl (by simp) (fun _ => hpermits) (by simp) hroom
      | removePrefix net =>
          exact h.callAt rfl (by simp) (fun _ => hpermits) (by simp) hroom
      | _ => exact absurd hpermits (by simp [Permits])
  | setAdmissible a b admissible =>
      rw [Mesh.perform, (m.nodesOnly_setAdmissible a b admissible).inFlight_eq]
      exact h.setAdmissible hroom
  | setLinkAdmissible a b admissible =>
      rw [Mesh.perform,
        (m.nodesOnly_setLinkAdmissible a b admissible).inFlight_eq]
      exact h.setLinkAdmissible hroom
  | linkWithLatency a b ticks =>
      obtain ⟨hsteady, hflight⟩ := h.linkWithLatency hpermits hroom
      rw [Mesh.perform, hflight]
      exact hsteady
  | link a b =>
      obtain ⟨hsteady, hflight⟩ := h.linkWithLatency hpermits hroom
      have hsame : (m.link a b).2.inFlight = m.inFlight := hflight
      rw [Mesh.perform, hsame]
      exact hsteady
  | step => exact h.step hpermits.1 hpermits.2

theorem steady_make (settings : Settings) (leader : Station) :
    (make settings).Steady leader {NetworkData.empty} [] := by
  have hnone : ∀ s n, (make settings).nodes.get? s ≠ some n := by
    intro s n hn
    cases hn
  refine ⟨⟨Lineage.initial, ?_, fun s n hn => absurd hn (hnone s n),
    located_make settings⟩, by simp, fun _ _ => List.Pairwise.nil,
    fun s _ x _ _ hx => absurd hx (hnone s x)⟩
  rintro d rfl
  exact NetworkData.fits_empty

/-- Every state of a run is steady. -/
theorem Run.steady (h : Run settings leader m) :
    ∃ held, m.Steady leader held m.inFlight := by
  induction h with
  | make => exact ⟨_, steady_make settings leader⟩
  | perform op _ hpermits hroom ih =>
      obtain ⟨held, hsteady⟩ := ih
      exact hsteady.perform hpermits hroom

theorem Run.configured (h : Run settings leader m) :
    m.Holds Node.Configured := by
  induction h with
  | make =>
      intro s n hn
      cases hn
  | perform op _ _ _ ih =>
      exact ih.perform (fun n c hn => hn.after c) Node.configured_make op

end Mesh

end OnMesh
