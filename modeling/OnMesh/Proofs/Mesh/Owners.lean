import OnMesh.Proofs.Mesh.Mail
import OnMesh.Proofs.Mesh.Stations

/-!
# Who has an address

In a mesh with one authority that is never detached, whatever is lost on the
way, every node holds data of the lineage of that authority, and these bind one
context to a prefix.  Hardware addresses differ, so interface identifiers do;
contexts differ, so prefixes do.  An address that is configured is therefore
configured once, and looking for its owner finds the only node that has it.
-/

namespace OnMesh

open Wire (Frame Message)

namespace Mesh

variable {m m' : Mesh} {settings : Settings} {leader s t : Station}
  {held held' : Set NetworkData}

/-! ## Meshes with one authority -/

/-- What may be asked of a mesh whose only authority is the leader.
No frame comes from outside of the mesh; otherwise only the leader
is treated with care. -/
def Respects (leader : Station) (m : Mesh) : Op → Prop
  | .addNode s role => m.nodes.get? s = none → (role = .authority ↔ s = leader)
  | .call s .detach => s ≠ leader
  | .call s (.addPrefix ..) => m.CanCount s
  | .call s (.removePrefix ..) => m.CanCount s
  | .call _ (.queueFrame _) => False
  | .call _ (.queueBytes _) => False
  | _ => True

/-- The states of a mesh whose only authority is the leader, and is never
detached. -/
inductive Realm (settings : Settings) (leader : Station) : Mesh → Prop
  | make : Realm settings leader (make settings)
  | perform {m : Mesh} (op : Op) : Realm settings leader m →
      m.Respects leader op →
      Realm settings leader (m.perform op)

instance (op : Op) : Decidable (m.Respects leader op) :=
  match op with
  | .addNode .. => inferInstanceAs (Decidable (_ → _))
  | .call s .detach => inferInstanceAs (Decidable (s ≠ leader))
  | .call s (.addPrefix ..) => inferInstanceAs (Decidable (m.CanCount s))
  | .call s (.removePrefix ..) => inferInstanceAs (Decidable (m.CanCount s))
  | .call _ (.queueFrame _) => .isFalse id
  | .call _ (.queueBytes _) => .isFalse id
  | .call _ .start => .isTrue trivial
  | .call _ (.addNeighbour _) => .isTrue trivial
  | .call _ (.removeNeighbour _) => .isTrue trivial
  | .call _ (.setAdmissible ..) => .isTrue trivial
  | .call _ (.tick _) => .isTrue trivial
  | .call _ .pop => .isTrue trivial
  | .startAll => .isTrue trivial
  | .setAdmissible .. => .isTrue trivial
  | .setLinkAdmissible .. => .isTrue trivial
  | .linkWithLatency .. => .isTrue trivial
  | .link .. => .isTrue trivial
  | .step => .isTrue trivial

/-- Operations that respect the leader, one after the other. -/
def RespectAll (leader : Station) : Mesh → List Op → Prop
  | _, [] => True
  | m, op :: ops => m.Respects leader op ∧ RespectAll leader (m.perform op) ops

instance decidableRespectAll (leader : Station) :
    (m : Mesh) → (ops : List Op) → Decidable (RespectAll leader m ops)
  | _, [] => .isTrue trivial
  | m, op :: ops =>
    have := decidableRespectAll leader (m.perform op) ops
    inferInstanceAs (Decidable (_ ∧ _))

theorem Realm.foldl {ops : List Op} (h : Realm settings leader m)
    (hops : RespectAll leader m ops) :
    Realm settings leader (ops.foldl Mesh.perform m) := by
  induction ops generalizing m with
  | nil => exact h
  | cons op ops ih => exact ih (h.perform op hops.1) hops.2

/-! ## One lineage, each of its states with one context for a prefix -/

/-- What holds of the node at a station. -/
structure Kin (leader : Station) (held : Set NetworkData) (s : Station)
    (n : Node) : Prop where
  sound : n.Sound held
  stocked : n.Stocked
  role : n.role.canPublish = true ↔ s = leader
  acceptable : n.settings.validate = .ok ()

theorem Kin.mono {n : Node} (h : Kin leader held s n) (hsub : held ⊆ held') :
    Kin leader held' s n where
  sound := h.sound.mono hsub
  stocked := h.stocked
  role := h.role
  acceptable := h.acceptable

theorem Kin.of_alike {n n' : Node} (h : Kin leader held s n)
    (halike : Node.Alike n n') (hsound : n'.Sound held')
    (hstocked : n'.Stocked) : Kin leader held' s n' where
  sound := hsound
  stocked := hstocked
  role := by rw [halike.role]; exact h.role
  acceptable := by rw [halike.settings]; exact h.acceptable

/-- All data around belong to the lineage of the leader, whose states fit a
frame and have one context for a prefix.  Nothing is said of links, queues and
packets that are lost. -/
structure Kindred (leader : Station) (held : Set NetworkData) (m : Mesh) :
    Prop where
  lineage : Lineage held (m.authored leader)
  fits : ∀ d ∈ held, d.Fits
  bindsOnce : ∀ d ∈ held, d.BindsOnce
  nodes : m.Each (Kin leader held)
  packets : ∀ p ∈ m.inFlight, (Node.Call.queueBytes p.bytes).Brings held

theorem brings_mono {bytes : List UInt8}
    (h : (Node.Call.queueBytes bytes).Brings held) (hsub : held ⊆ held') :
    (Node.Call.queueBytes bytes).Brings held' :=
  fun frame hparse => (h frame hparse).mono hsub

/-- Only nodes and packets matter. -/
theorem Kindred.of_nodes (h : m.Kindred leader held)
    (hnodes : m'.nodes = m.nodes)
    (hpackets : ∀ p ∈ m'.inFlight, p ∈ m.inFlight) :
    m'.Kindred leader held where
  lineage := by rw [authored, hnodes]; exact h.lineage
  fits := h.fits
  bindsOnce := h.bindsOnce
  nodes := h.nodes.of_nodes hnodes
  packets := fun p hp => h.packets p (hpackets p hp)

/-- A call on one node carries the lineage on, or leaves it as it is. -/
theorem Kindred.call (h : m.Kindred leader held) {c : Node.Call}
    (hc : c.Brings held) (hdetach : c = .detach → s ≠ leader)
    (hcount : c.isEdit = true → m.CanCount s) :
    ∃ held', held ⊆ held' ∧ (m.call s c).Kindred leader held' := by
  cases hn : m.nodes.get? s with
  | none =>
      rw [call_of_none hn]
      exact ⟨held, le_refl held, h⟩
  | some n =>
      have hkin := h.nodes s n hn
      have halike := Node.alike_after n c
      have hstocked := hkin.stocked.after c
      obtain ⟨held', hsub, hl, hsound, hnew⟩ :=
        lineage_call h.lineage hn hkin.sound hkin.role hc
        hdetach fun hedit hpublish =>
          hcount hedit n hn (Role.canPublish_eq_true_iff.1 hpublish)
      have hauthored : n.role.canPublish = true →
          (n.after c).role.canPublish = true := by
        rw [halike.role]
        exact fun h => h
      rw [call_of_some hn]
      refine ⟨held', hsub, hl, fun d hd => ?_, fun d hd => ?_, ?_, ?_⟩
      · rcases hnew d hd with hd | ⟨hpublish, rfl⟩
        · exact h.fits d hd
        · exact hstocked.fits (hauthored hpublish)
            (halike.settings ▸ hkin.acceptable)
      · rcases hnew d hd with hd | ⟨hpublish, rfl⟩
        · exact h.bindsOnce d hd
        · exact (hstocked (hauthored hpublish)).inStep.bindsOnce
      · exact Each.insert (fun t k hk => (h.nodes t k hk).mono hsub)
          (hkin.of_alike halike hsound hstocked)
      · exact fun p hp => brings_mono (h.packets p hp) hsub

/-- What every node does without an edit leaves the lineage as it is. -/
theorem Kindred.map (h : m.Kindred leader held) {f : Node → Node}
    (hf : ∀ s n, Kin leader held s n → Kin leader held s (f n) ∧
      (n.role.canPublish = true → (f n).data = n.data)) :
    ({ m with nodes := m.nodes.map f } : Mesh).Kindred leader held where
  lineage := by
    have hauthored :
        ({ m with nodes := m.nodes.map f } : Mesh).authored leader =
        m.authored leader := by
      rw [authored, authored, Table.get?_map]
      cases ha : m.nodes.get? leader with
      | none => rfl
      | some a =>
          have hkin := h.nodes leader a ha
          exact (hf leader a hkin).2 (hkin.role.2 rfl)
    rw [hauthored]
    exact h.lineage
  fits := h.fits
  bindsOnce := h.bindsOnce
  nodes := h.nodes.map fun s n hn => (hf s n hn).1
  packets := h.packets

/-- A call that edits nothing and brings nothing may be made on every node. -/
theorem Kindred.callAll (h : m.Kindred leader held) {c : Node.Call}
    (hc : c.Brings held) (hedit : c.isEdit = false) (hdetach : c ≠ .detach) :
    ({ m with nodes := m.nodes.map fun n => n.after c } : Mesh).Kindred
      leader held := by
  refine h.map fun s n hkin => ⟨?_, fun hpublish => ?_⟩
  · have halike := Node.alike_after n c
    exact hkin.of_alike halike ⟨hkin.sound.formed.of_alike halike,
      hkin.sound.signed.after c, hkin.sound.within.after h.lineage hedit hc⟩
      (hkin.stocked.after c)
  · exact Node.data_after_of_authority
      (hkin.sound.formed.authority.trans hpublish) hedit hdetach

/-! ## Operations -/

theorem Kindred.setAdmissible (h : m.Kindred leader held) (a b : Station)
    (admissible : Bool) :
    ∃ held', (m.setAdmissible a b admissible).2.Kindred leader held' := by
  rcases m.setAdmissible_snd a b admissible with ⟨n, -, heq⟩ | heq
  · obtain ⟨held', -, hcall⟩ :=
      h.call (s := a) (c := .setAdmissible n.id admissible) trivial
      (by simp) (by simp [Node.Call.isEdit])
    exact ⟨held', heq ▸ hcall⟩
  · rw [heq]
    exact ⟨held, h⟩

theorem Kindred.setLinkAdmissible (h : m.Kindred leader held) (a b : Station)
    (admissible : Bool) :
    ∃ held', (m.setLinkAdmissible a b admissible).2.Kindred leader held' := by
  obtain ⟨held', hfirst⟩ := h.setAdmissible a b admissible
  rcases m.setLinkAdmissible_snd a b admissible with heq | heq
  · exact ⟨held', heq ▸ hfirst⟩
  · rw [heq]
    exact hfirst.setAdmissible b a admissible

theorem Kindred.introduce (h : m.Kindred leader held) (a b : Station)
    (idA idB : NodeId) :
    ∃ held', (m.introduce a b idA idB).Kindred leader held' := by
  obtain ⟨held₁, -, hforth⟩ := h.call (s := a) (c := .addNeighbour idB) trivial
    (by simp) (by simp [Node.Call.isEdit])
  obtain ⟨held₂, -, hback⟩ :=
    hforth.call (s := b) (c := .addNeighbour idA) trivial
    (by simp) (by simp [Node.Call.isEdit])
  exact ⟨held₂, hback⟩

theorem Kindred.linkWithLatency (h : m.Kindred leader held) (a b : Station)
    (ticks : Nat) :
    ∃ held', (m.linkWithLatency a b ticks).2.Kindred leader held' := by
  rw [Mesh.linkWithLatency]
  cases m.hardwareId a with
  | error fault => exact ⟨held, h⟩
  | ok idA =>
      cases m.hardwareId b with
      | error fault => exact ⟨held, h⟩
      | ok idB =>
          have hlink : (m.withLink a b ticks).Kindred leader held :=
            h.of_nodes rfl fun _ hp => hp
          obtain ⟨held', hknown⟩ := hlink.introduce a b idA idB
          show ∃ held', (m.join a b idA idB ticks).Kindred leader held'
          rw [join_eq]
          exact hknown.setLinkAdmissible a b true

theorem Kindred.addNode (h : m.Kindred leader held) {role : Role}
    (hrole : m.nodes.get? s = none → (role = .authority ↔ s = leader)) :
    (m.addNode s role).2.Kindred leader held := by
  rcases m.addNode_snd s role with heq | ⟨id, stream, hnone, hvalid, -, heq⟩
  · rw [heq]
    exact h
  · have hnew : (m.addNode s role).2 = m.withNode s id role stream := heq
    have hkin : Kin leader held s (Node.make id role m.settings.node) :=
      ⟨Node.sound_make _ _ _ h.lineage.empty_mem, Node.stocked_make _ _ _,
        Role.canPublish_eq_true_iff.trans (hrole hnone), hvalid⟩
    rw [hnew]
    refine ⟨?_, h.fits, h.bindsOnce,
      Each.of_nodes (Each.insert h.nodes hkin) rfl, h.packets⟩
    rw [authored_withNode hnone]
    exact h.lineage

/-! ## Steps -/

theorem Kindred.foldl_deliver (h : m.Kindred leader held) {ps : List Packet}
    (hps : ∀ p ∈ ps, (Node.Call.queueBytes p.bytes).Brings held) :
    ∃ held', (ps.foldl deliver m).Kindred leader held' := by
  induction ps generalizing m held with
  | nil => exact ⟨held, h⟩
  | cons p ps ih =>
      obtain ⟨held', hsub, hcall⟩ :=
        h.call (s := p.target) (hps p List.mem_cons_self)
        (by simp) (by simp [Node.Call.isEdit])
      have hdeliver : (m.deliver p).Kindred leader held' := by
        cases hn : m.nodes.get? p.target with
        | none =>
            rw [deliver_of_none hn]
            rw [call_of_none hn] at hcall
            exact hcall
        | some n =>
            obtain ⟨tally, heq⟩ := deliver_of_some hn
            rw [heq]
            rw [call_of_some hn] at hcall
            exact hcall.of_nodes rfl fun _ hp => hp
      exact ih hdeliver fun q hq =>
        brings_mono (hps q (List.mem_cons_of_mem p hq)) hsub

/-- What the nodes send is read as it was written. -/
theorem Kindred.transmitAll (h : m.Kindred leader held) :
    m.transmitAll.Kindred leader held := by
  obtain ⟨tally, heq⟩ := m.transmitAll_spec
  have hpopped : m.popped.Kindred leader held := by
    refine h.map fun s n hkin => ?_
    have hsound := hkin.sound.popAll
    obtain ⟨tally, hpop⟩ := n.popAll_spec
    rw [hpop] at hsound ⊢
    exact ⟨hkin.of_alike ⟨rfl, rfl, rfl, rfl, rfl, rfl, rfl, rfl⟩ hsound
      (hkin.stocked.of_eq rfl rfl rfl rfl), fun _ => rfl⟩
  rw [heq]
  refine ⟨hpopped.lineage, h.fits, h.bindsOnce, hpopped.nodes,
    fun p hp frame hparse => ?_⟩
  rcases List.mem_append.1 hp with hp | hp
  · exact h.packets p hp frame hparse
  · obtain ⟨l, hl, -, hpacket⟩ := mem_arrivals_iff.1 hp
    obtain ⟨⟨s, n⟩, he, hl⟩ := List.mem_flatMap.1 hl
    obtain ⟨o, ho, hletter⟩ := List.mem_filterMap.1 hl
    obtain ⟨-, hwithin, bytes, header, hbytes, hread, -⟩ :=
      (h.nodes s n (Table.get?_of_mem he)).sound.readable h.fits ho
    rw [hbytes] at hletter
    cases hletter
    rw [hpacket, hread] at hparse
    cases hparse
    exact hwithin

theorem Kindred.step (h : m.Kindred leader held) :
    ∃ held', m.step.Kindred leader held' := by
  have hpending : ({ m.later with
      inFlight := m.later.inFlight.filter fun p => !(p.due ≤ m.later.now) } :
        Mesh).Kindred
      leader held := h.of_nodes rfl fun p hp => List.mem_of_mem_filter hp
  have hdue : ∀ p ∈ m.later.due, (Node.Call.queueBytes p.bytes).Brings held :=
    fun p hp => h.packets p (List.mem_of_mem_filter hp)
  obtain ⟨held', hdelivered⟩ := hpending.foldl_deliver hdue
  have hticked : m.later.deliverDue.tickAll.Kindred leader held' :=
    hdelivered.callAll (c := .tick _) trivial rfl (by simp)
  exact ⟨held', hticked.transmitAll⟩

/-- Operations that respect the leader keep all data in its lineage. -/
theorem Kindred.perform (h : m.Kindred leader held) {op : Op}
    (hop : m.Respects leader op) :
    ∃ held', (m.perform op).Kindred leader held' := by
  cases op with
  | addNode s role => exact ⟨held, h.addNode hop⟩
  | startAll =>
      exact ⟨held, h.callAll (c := .start) trivial rfl (by simp)⟩
  | call s c =>
      have hcall : c.Brings held ∧ (c = .detach → s ≠ leader) ∧
          (c.isEdit = true → m.CanCount s) := by
        cases c with
        | detach => exact ⟨trivial, fun _ => hop, by simp [Node.Call.isEdit]⟩
        | addPrefix net flags => exact ⟨trivial, by simp, fun _ => hop⟩
        | removePrefix net => exact ⟨trivial, by simp, fun _ => hop⟩
        | queueFrame frame => exact hop.elim
        | queueBytes bytes => exact hop.elim
        | _ => exact ⟨trivial, by simp, by simp [Node.Call.isEdit]⟩
      obtain ⟨held', -, hcalled⟩ := h.call hcall.1 hcall.2.1 hcall.2.2
      exact ⟨held', hcalled⟩
  | setAdmissible a b admissible => exact h.setAdmissible a b admissible
  | setLinkAdmissible a b admissible => exact h.setLinkAdmissible a b admissible
  | linkWithLatency a b ticks => exact h.linkWithLatency a b ticks
  | link a b => exact h.linkWithLatency a b m.settings.latency
  | step => exact h.step

theorem kindred_make (settings : Settings) (leader : Station) :
    (make settings).Kindred leader {NetworkData.empty} where
  lineage := Lineage.initial
  fits := by
    rintro d rfl
    exact NetworkData.fits_empty
  bindsOnce := by
    rintro d rfl
    exact NetworkData.bindsOnce_empty
  nodes := fun _ _ hn => nomatch hn
  packets := fun _ hp => nomatch hp

theorem Realm.kindred (h : Realm settings leader m) :
    ∃ held, m.Kindred leader held := by
  induction h with
  | make => exact ⟨_, kindred_make settings leader⟩
  | perform op _ hop ih =>
      obtain ⟨held, hkindred⟩ := ih
      exact hkindred.perform hop

/-! ## Hardware addresses -/

/-- A hardware address is drawn until it is not zero, and no call changes it. -/
theorem nonzero_perform (h : m.Holds fun n => n.id ≠ NodeId.zero) (op : Op) :
    (m.perform op).Holds fun n => n.id ≠ NodeId.zero := by
  refine Each.perform (P := fun _ n => n.id ≠ NodeId.zero) ?_ h
    fun s role _ => ?_
  · intro s n c hn
    rw [(Node.alike_after n c).id]
    exact hn
  · rcases m.addNode_cases s role with heq | ⟨id, stream, -, -, hfresh, heq⟩
    · rw [heq]
      exact h
    · rw [heq]
      exact Each.of_nodes (Each.insert h (isFresh_iff.1 hfresh).1) rfl

/-- What the operations of a realm keep whether they respect the leader or
not. -/
theorem Realm.holds {P : Mesh → Prop} (h : Realm settings leader m)
    (hmake : P (Mesh.make settings))
    (hperform : ∀ m op, P m → P (m.perform op)) : P m := by
  induction h with
  | make => exact hmake
  | perform op _ _ ih => exact hperform _ op ih

/-! ## Owners of addresses -/

/-- Nodes have hardware addresses and addresses of their own. -/
structure Unambiguous (m : Mesh) : Prop where
  nonzero : ∀ s n, m.nodes.get? s = some n → n.id ≠ NodeId.zero
  distinct : ∀ s t x y, m.nodes.get? s = some x → m.nodes.get? t = some y →
    x.id = y.id → s = t
  /-- Looking up a hardware address finds the station of the node that
  has it, and no other. -/
  located : ∀ id s, m.locate? id = some s ↔
    ∃ n, m.nodes.get? s = some n ∧ n.id = id
  /-- An address begins with the prefix recorded with it. -/
  contained : ∀ s n, m.nodes.get? s = some n →
    ∀ c a, n.addresses.addressFor? c = some a →
    a.net.contains a.addr = true
  /-- An address ends with the interface identifier of its node. -/
  identified : ∀ s n, m.nodes.get? s = some n →
    ∀ c a, n.addresses.addressFor? c = some a →
    a.addr.bits.setWidth 64 = (InterfaceId.ofNode n.id).bits.toBitVec
  /-- An address is configured on one node and under one context. -/
  once : ∀ s t x y, m.nodes.get? s = some x → m.nodes.get? t = some y →
    ∀ c d a b, x.addresses.addressFor? c = some a →
    y.addresses.addressFor? d = some b →
      a.addr = b.addr → s = t ∧ c = d
  /-- Looking up an address finds the attached node that has it, and no
  other. -/
  owned : ∀ a s, m.ownerOf? a = some s ↔
    ∃ n, m.nodes.get? s = some n ∧ n.started = true ∧ n.hasAddress a = true

section Addresses

variable {x y : Node} {c d : ContextId} {a b : MeshAddress}

theorem get?_derive_of_configured (hx : x.Configured)
    (ha : x.addresses.addressFor? c = some a) :
    (x.addresses.derive x.data).get? c = some a := by
  rw [← hx.addresses]
  exact ha

/-- The low half of an address is made of the hardware address of its node. -/
theorem setWidth_of_configured (hformed : x.Formed) (hx : x.Configured)
    (ha : x.addresses.addressFor? c = some a) :
    a.addr.bits.setWidth 64 = (InterfaceId.ofNode x.id).bits.toBitVec := by
  rw [← hformed.addresses]
  exact AddressBook.setWidth_of_get?_derive (get?_derive_of_configured hx ha)

/-- Nodes that share an address have one hardware address. -/
theorem id_eq_of_addr_eq (hformed : x.Formed) (hformed' : y.Formed)
    (hx : x.Configured) (hy : y.Configured)
    (ha : x.addresses.addressFor? c = some a)
    (hb : y.addresses.addressFor? d = some b) (haddr : a.addr = b.addr) :
    x.id = y.id := by
  apply InterfaceId.ofNode_injective
  have hbits : (InterfaceId.ofNode x.id).bits =
      (InterfaceId.ofNode y.id).bits := by
    apply UInt64.toBitVec_inj.1
    rw [← setWidth_of_configured hformed hx ha,
      ← setWidth_of_configured hformed' hy hb, haddr]
  exact congrArg InterfaceId.mk hbits

/-- A node whose data bind one context to a prefix has an address
under one context only. -/
theorem context_eq_of_addr_eq (hbinds : x.data.BindsOnce) (hx : x.Configured)
    (ha : x.addresses.addressFor? c = some a)
    (hb : x.addresses.addressFor? d = some b) (haddr : a.addr = b.addr) :
    c = d := by
  obtain ⟨⟨bound, hbound, hnet⟩, hlength, hcontains⟩ :=
    AddressBook.binding_of_get?_derive (get?_derive_of_configured hx ha)
  obtain ⟨⟨bound', hbound', hnet'⟩, hlength', hcontains'⟩ :=
    AddressBook.binding_of_get?_derive (get?_derive_of_configured hx hb)
  have hsame : a.net = b.net :=
    Prefix.eq_of_contains (hlength.trans hlength'.symm) hcontains
      (haddr ▸ hcontains')
  refine hbinds c d bound bound' hbound hbound' ?_
  rw [hnet, hnet', hsame]

end Addresses

/-- In every state of a mesh whose only authority is never detached, no address
is configured twice. -/
theorem Realm.unambiguous (h : Realm settings leader m) : m.Unambiguous := by
  obtain ⟨held, hkindred⟩ := h.kindred
  have hregistered : m.Registered :=
    h.holds (registered_make settings) fun _ op hm => hm.perform op
  have hconfigured : m.Holds Node.Configured :=
    h.holds (P := Holds Node.Configured)
      (fun _ _ hn => nomatch hn) fun _ op hm =>
      hm.perform (fun _ c hn => hn.after c) Node.configured_make op
  have hformed : m.Holds Node.Formed :=
    fun s n hn => (hkindred.nodes s n hn).sound.formed
  refine ⟨?_, hregistered.located.unique, hregistered.located, ?_, ?_, ?_, ?_⟩
  · exact h.holds (P := Holds fun n => n.id ≠ NodeId.zero)
      (fun _ _ hn => nomatch hn)
      fun _ op hm => nonzero_perform hm op
  · intro s n hn c a ha
    exact (AddressBook.binding_of_get?_derive
      (get?_derive_of_configured (hconfigured s n hn) ha)).2.2
  · exact fun s n hn c a ha =>
      setWidth_of_configured (hformed s n hn) (hconfigured s n hn) ha
  · intro s t x y hx hy c d a b ha hb haddr
    have hid := id_eq_of_addr_eq (hformed s x hx) (hformed t y hy)
      (hconfigured s x hx)
      (hconfigured t y hy) ha hb haddr
    obtain rfl := hregistered.located.unique s t x y hx hy hid
    cases hx.symm.trans hy
    have hdata := (hkindred.nodes s x hx).sound.within.replica.data_mem
    exact ⟨rfl, context_eq_of_addr_eq (hkindred.bindsOnce x.data hdata)
      (hconfigured s x hx) ha hb
      haddr⟩
  · intro a s
    constructor
    · intro howner
      obtain ⟨⟨t, n⟩, hfound, rfl⟩ := Option.map_eq_some_iff.1 howner
      obtain ⟨hn, hhas⟩ := Table.find?_eq_some hfound
      obtain ⟨hstarted, haddress⟩ := Bool.and_eq_true_iff.1 hhas
      exact ⟨n, hn, hstarted, haddress⟩
    · rintro ⟨n, hn, hstarted, haddress⟩
      refine ownerOf?_eq
        (fun t k hk => ?_) hregistered.located.unique hn hstarted haddress
      exact ⟨hformed t k hk, hconfigured t k hk⟩

/-- Operations after which a leader and a leaf have addresses of one prefix;
their link has changed its latency on the way. -/
def relinked : List Op :=
  [.addNode ⟨0⟩ .authority, .addNode ⟨1⟩ .leaf, .link ⟨0⟩ ⟨1⟩, .startAll,
    .call ⟨0⟩
      (.addPrefix (Prefix.ofAddress ⟨0xfd00 <<< 112⟩ _ Prefix.slaacLength_le)
      ⟨Flags.slaacBit⟩),
    .step, .linkWithLatency ⟨0⟩ ⟨1⟩ 2, .step, .step]

theorem unambiguous_relinked :
    ∃ m, m = relinked.foldl perform (Mesh.make .usual) ∧ m.Unambiguous ∧
    (m.nodes.get? ⟨1⟩).map (·.configuredAddresses.length) = some 1 ∧
    ∀ n ∈ m.nodes.get? ⟨1⟩, ∀ a ∈ n.configuredAddresses,
      m.ownerOf? a.addr = some ⟨1⟩ := by
  have hrealm : Realm .usual ⟨0⟩ (relinked.foldl perform (Mesh.make .usual)) :=
    Realm.make.foldl (by decide +kernel)
  exact ⟨_, rfl, hrealm.unambiguous, by decide +kernel, by decide +kernel⟩

end Mesh

end OnMesh
