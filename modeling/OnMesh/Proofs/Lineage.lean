import OnMesh.Proofs.Node.Identity
import OnMesh.Proofs.Wire.RoundTrip
import Mathlib.Data.Set.Insert

/-!
# Data of one lineage

The states of the data that one authority has held are told apart by their
versions.  A message is within such a lineage if its snapshot is one of them, or
its delta is the delta between two of them; a replica is if its data and its
latest delta are.  Handling messages within a lineage leads to replicas and
messages within it, so that a version determines the data.
-/

namespace OnMesh

open Wire (Frame Message)

/-- States of the data, one for a version, up to the latest one. -/
structure Lineage (held : Set NetworkData) (latest : NetworkData) : Prop where
  empty_mem : NetworkData.empty ∈ held
  latest_mem : latest ∈ held
  unique : ∀ a ∈ held, ∀ b ∈ held, a.version = b.version → a = b
  le_latest : ∀ a ∈ held, a.version ≤ latest.version

namespace Lineage

variable {held : Set NetworkData} {latest next : NetworkData}

theorem initial : Lineage {NetworkData.empty} NetworkData.empty where
  empty_mem := rfl
  latest_mem := rfl
  unique := by
    rintro a rfl b rfl _
    rfl
  le_latest := by
    rintro a rfl
    exact le_refl _

/-- A lineage goes on with data at a later version. -/
theorem insert (h : Lineage held latest) (hlt : latest.version < next.version) :
    Lineage (Insert.insert next held) next where
  empty_mem := Set.mem_insert_of_mem _ h.empty_mem
  latest_mem := Set.mem_insert _ _
  unique := by
    have hnew : ∀ a ∈ held, a.version ≠ next.version := fun a ha =>
      ne_of_lt (lt_of_le_of_lt (h.le_latest a ha) hlt)
    rintro a (rfl | ha) b (rfl | hb) heq
    · rfl
    · exact absurd heq.symm (hnew b hb)
    · exact absurd heq (hnew a ha)
    · exact h.unique a ha b hb heq
  le_latest := by
    rintro a (rfl | ha)
    · exact le_refl _
    · exact le_of_lt (lt_of_le_of_lt (h.le_latest a ha) hlt)

end Lineage

/-- The delta leads from one state of the lineage to a later one. -/
def Delta.Within (held : Set NetworkData) (d : Delta) : Prop :=
  ∃ old ∈ held, ∃ new ∈ held, old.version < new.version ∧
    d = Delta.between old new

/-- The message carries data of the lineage, if any. -/
def Wire.Message.Within (held : Set NetworkData) : Message → Prop
  | .delta d => d.Within held
  | .snapshotRequest _ => True
  | .snapshot data => data ∈ held

/-- The data and the latest delta belong to the lineage. -/
structure Replica.Within (held : Set NetworkData) (r : Replica) : Prop where
  data_mem : r.data ∈ held
  grounded : r.Grounded
  lastDelta : ∀ d, r.lastDelta = some d → d.Within held

/-- The replica belongs to the lineage, and so does every frame that waits. -/
structure Node.Within (held : Set NetworkData) (n : Node) : Prop where
  replica : n.replica.Within held
  incoming : ∀ f ∈ n.incoming, f.message.Within held
  outgoing : ∀ o ∈ n.outgoing, o.frame.message.Within held

section Within

variable {held held' : Set NetworkData} {latest : NetworkData}

/-! ## Messages -/

theorem Delta.Within.mono {d : Delta} (h : d.Within held)
    (hsub : held ⊆ held') : d.Within held' := by
  obtain ⟨old, hold, new, hnew, hlt, rfl⟩ := h
  exact ⟨old, hsub hold, new, hsub hnew, hlt, rfl⟩

theorem Wire.Message.Within.mono {m : Message} (h : m.Within held)
    (hsub : held ⊆ held') : m.Within held' := by
  cases m with
  | delta d => exact Delta.Within.mono h hsub
  | snapshotRequest v => trivial
  | snapshot data => exact hsub h

theorem Wire.Message.Within.advances {m : Message} (h : m.Within held) :
    m.Advances := by
  cases m with
  | delta d =>
      obtain ⟨old, -, new, -, hlt, rfl⟩ := h
      exact hlt
  | snapshotRequest v => trivial
  | snapshot data => trivial

/-! ## Replicas -/

namespace Replica

theorem within_make (owner : NodeId) (authority : Bool)
    (h : NetworkData.empty ∈ held) : (make owner authority).Within held where
  data_mem := h
  grounded := grounded_make owner authority
  lastDelta := by
    intro d hd
    cases hd

theorem Within.mono {r : Replica} (h : r.Within held) (hsub : held ⊆ held') :
    r.Within held' where
  data_mem := hsub h.data_mem
  grounded := h.grounded
  lastDelta := fun d hd => (h.lastDelta d hd).mono hsub

/-- Only the data and the latest delta matter. -/
theorem Within.of_eq {r r' : Replica} (h : r.Within held)
    (hdata : r'.data = r.data) (hlast : r'.lastDelta = r.lastDelta) :
    r'.Within held where
  data_mem := hdata ▸ h.data_mem
  grounded := by
    have := h.grounded
    rw [Grounded] at this ⊢
    rw [hlast, version, hdata]
    exact this
  lastDelta := fun d hd => h.lastDelta d (hlast ▸ hd)

theorem within_commit (r : Replica) {data : NetworkData} {d : Delta}
    (hdata : data ∈ held) (hd : d.Within held)
    (htarget : d.target = data.version) : (r.commit data d).Within held where
  data_mem := hdata
  grounded := grounded_commit r htarget
  lastDelta := by
    intro e he
    cases he
    exact hd

theorem within_reset (r : Replica) (h : NetworkData.empty ∈ held) :
    r.reset.Within held where
  data_mem := h
  grounded := grounded_reset r
  lastDelta := by
    intro d hd
    cases hd

end Replica

namespace Flooding

theorem within_greeting {r : Replica} (h : r.Within held) :
    (greeting r).Within held := by
  rw [greeting]
  cases hlast : r.lastDelta with
  | none => trivial
  | some d => exact h.lastDelta d hlast

/-- A delta of the lineage leads from the data held to data of the lineage. -/
theorem within_applied (hl : Lineage held latest) {r : Replica}
    (hr : r.Within held) {d : Delta} (hd : d.Within held)
    (hbase : d.base = r.version) :
    (r.commit (d.apply r.data) d).Within held := by
  obtain ⟨old, hold, new, hnew, hlt, rfl⟩ := hd
  have hdata : old = r.data := hl.unique old hold r.data hr.data_mem hbase
  rw [← hdata, Delta.apply_between]
  exact Replica.within_commit r hnew ⟨old, hold, new, hnew, hlt, rfl⟩ rfl

theorem within_adopted {r : Replica} (hr : r.Within held) {data : NetworkData}
    (hdata : data ∈ held) (hlt : r.version < data.version) :
    (Delta.between r.data data).Within held ∧
      (r.commit data (Delta.between r.data data)).Within held := by
  have hd : (Delta.between r.data data).Within held :=
    ⟨r.data, hr.data_mem, data, hdata, hlt, rfl⟩
  exact ⟨hd, Replica.within_commit r hdata hd rfl⟩

/-- A frame of the lineage leads to a replica and to messages of the lineage. -/
theorem Received.within {f : Flooding} {frame : Frame} {r r' : Replica}
    {links : Links} {out : List Outbound} (h : Received f frame r links out r')
    (hl : Lineage held latest) (hr : r.Within held)
    (hframe : frame.message.Within held) :
    r'.Within held ∧ ∀ o ∈ out, o.message.Within held := by
  have hnone : r.Within held ∧ ∀ o ∈ ([] : List Outbound),
      o.message.Within held :=
    ⟨hr, by simp⟩
  have hpass : ∀ (d : Delta) (sender : NodeId), d.Within held →
      ∀ o ∈ f.passOn d links sender, o.message.Within held := by
    intro d sender hd o ho
    rw [(mem_passOn_iff.1 ho).2.2]
    exact hd
  cases h with
  | dropped _ => exact hnone
  | applied _ hmessage _ _ hbase =>
      rw [hmessage] at hframe
      exact ⟨within_applied hl hr hframe hbase, hpass _ _ hframe⟩
  | missed _ _ _ _ _ => exact ⟨hr, by simp [Wire.Message.Within]⟩
  | foreign _ _ _ _ => exact hnone
  | repaired _ _ _ hlast =>
      refine ⟨hr, ?_⟩
      intro o ho
      rw [List.mem_singleton.1 ho]
      exact hr.lastDelta _ hlast
  | unrepaired _ _ _ _ => exact hnone
  | known _ _ _ => exact hnone
  | served _ _ _ =>
      refine ⟨hr, ?_⟩
      intro o ho
      rw [List.mem_singleton.1 ho]
      exact hr.data_mem
  | unserved _ _ _ => exact hnone
  | adopted _ hmessage _ hlt =>
      rw [hmessage] at hframe
      obtain ⟨hd, hcommit⟩ := within_adopted hr hframe hlt
      exact ⟨hcommit, hpass _ _ hd⟩
  | ignored _ _ _ => exact hnone

end Flooding

/-! ## Nodes -/

namespace Node

theorem within_make (id : NodeId) (role : Role) (settings : NodeSettings)
    (h : NetworkData.empty ∈ held) : (make id role settings).Within held where
  replica := Replica.within_make id role.canPublish h
  incoming := by
    intro f hf
    cases hf
  outgoing := by
    intro o ho
    cases ho

theorem Within.mono {n : Node} (h : n.Within held) (hsub : held ⊆ held') :
    n.Within held' where
  replica := h.replica.mono hsub
  incoming := fun f hf => (h.incoming f hf).mono hsub
  outgoing := fun o ho => (h.outgoing o ho).mono hsub

/-- Only the replica and the queues matter. -/
theorem Within.of_eq {n m : Node} (h : n.Within held)
    (hdata : m.replica.data = n.replica.data)
    (hlast : m.replica.lastDelta = n.replica.lastDelta)
    (hincoming : m.incoming = n.incoming)
    (houtgoing : m.outgoing = n.outgoing) : m.Within held where
  replica := h.replica.of_eq hdata hlast
  incoming := hincoming ▸ h.incoming
  outgoing := houtgoing ▸ h.outgoing

theorem Within.queued {n : Node} (h : n.Within held) {out kept : List Outbound}
    (henq : Enqueued n out kept) (hout : ∀ o ∈ out, o.message.Within held)
    (flooding : Flooding) (tally : Tally) :
    (n.queued kept flooding tally).Within held where
  replica := h.replica
  incoming := h.incoming
  outgoing := by
    intro o ho
    rcases List.mem_append.1 ho with ho | ho
    · exact h.outgoing o ho
    · obtain ⟨p, hp, rfl⟩ := List.mem_map.1 ho
      exact hout p (henq.sublist.subset hp)

theorem Within.greetings {n : Node} (h : n.Within held)
    (neighbours : List NodeId) :
    ∀ o ∈ n.greetings neighbours, o.message.Within held := by
  intro o ho
  obtain ⟨b, -, rfl⟩ := List.mem_map.1 ho
  exact Flooding.within_greeting h.replica

theorem Within.handle {n : Node} (h : n.Within held) (hl : Lineage held latest)
    {frame : Frame} (hframe : frame.message.Within held) :
    (n.handle frame).Within held := by
  obtain ⟨out, replica, kept, flooding, tally, hreceived, henq, -, heq⟩ :=
    handle_spec n frame
  obtain ⟨hreplica, hout⟩ := hreceived.within hl h.replica hframe
  have hn : Node.Within held { n with replica } :=
    ⟨hreplica, h.incoming, h.outgoing⟩
  rw [heq]
  exact hn.queued ⟨henq.sublist, henq.detached, henq.whole⟩ hout flooding tally

theorem Within.foldl_handle {n : Node} (h : n.Within held)
    (hl : Lineage held latest) {frames : List Frame}
    (hframes : ∀ f ∈ frames, f.message.Within held) :
    (frames.foldl Node.handle n).Within held := by
  induction frames generalizing n with
  | nil => exact h
  | cons frame frames ih =>
      obtain ⟨hframe, hframes⟩ := List.forall_mem_cons.1 hframes
      exact ih (h.handle hl hframe) hframes

theorem Within.followNotices {n : Node} (h : n.Within held) :
    n.followNotices.Within held := by
  obtain ⟨addresses, tally, hfollow, -, -⟩ := followNotices_spec n
  rw [hfollow]
  exact h.of_eq rfl rfl rfl rfl

theorem Within.tick {n : Node} (h : n.Within held) (hl : Lineage held latest)
    (now : Nat) : (n.tick now).Within held := by
  have hhandled : (n.handled now).Within held := by
    refine Within.foldl_handle ?_ hl h.incoming
    exact ⟨h.replica, by simp, h.outgoing⟩
  rw [tick_eq]
  apply Within.followNotices
  split
  · exact hhandled.of_eq rfl rfl rfl rfl
  · exact hhandled

theorem Within.pop {n : Node} (h : n.Within held) :
    n.pop.2.Within held ∧ ∀ o, n.pop.1 = some o →
    o.frame.message.Within held := by
  rcases popFrom_spec n n.outgoing with
    ⟨tally, hpop, -⟩ | ⟨lost, o, rest, tally, hpop, hsplit, -⟩
  · rw [Node.pop, hpop]
    exact ⟨⟨h.replica, h.incoming, by simp [left]⟩, by simp⟩
  · rw [Node.pop, hpop]
    have hmem : ∀ p ∈ o :: rest, p ∈ n.outgoing := by
      intro p hp
      rw [hsplit]
      exact List.mem_append_right _ hp
    refine ⟨⟨h.replica, h.incoming, fun p hp => h.outgoing p (hmem p ?_)⟩, ?_⟩
    · exact List.mem_cons_of_mem _ hp
    · intro p hp
      cases hp
      exact h.outgoing o (hmem o List.mem_cons_self)

theorem Within.queueFrame {n : Node} (h : n.Within held) {frame : Frame}
    (hframe : frame.message.Within held) :
    (n.queueFrame frame).2.Within held := by
  rw [Node.queueFrame]
  split
  · exact h.of_eq rfl rfl rfl rfl
  · refine ⟨h.replica, ?_, h.outgoing⟩
    intro f hf
    rcases List.mem_append.1 hf with hf | hf
    · exact h.incoming f hf
    · rw [List.mem_singleton.1 hf]
      exact hframe

theorem Within.detach {n : Node} (h : NetworkData.empty ∈ held) :
    n.detach.Within held where
  replica := (Replica.within_reset n.replica h).of_eq rfl rfl
  incoming := by
    intro f hf
    cases hf
  outgoing := by
    intro o ho
    cases ho

/-- The frames that a call brings to the node belong to the lineage. -/
def Call.Brings (held : Set NetworkData) : Call → Prop
  | .queueFrame frame => frame.message.Within held
  | .queueBytes bytes =>
    ∀ frame, Frame.parse bytes = .ok frame → frame.message.Within held
  | _ => True

/-- A call that edits nothing keeps a node within its lineage. -/
theorem Within.after {n : Node} (h : n.Within held) (hl : Lineage held latest)
    {c : Call} (hedit : c.isEdit = false) (hc : c.Brings held) :
    (n.after c).Within held := by
  cases c with
  | start =>
      cases hstarted : n.started with
      | true => rw [Node.after, start_of_started hstarted]; exact h
      | false =>
          obtain ⟨kept, flooding, tally, henq, -, heq⟩ := start_spec hstarted
          have hn : Node.Within held { n with started := true } :=
            h.of_eq rfl rfl rfl rfl
          rw [Node.after, heq]
          exact hn.queued henq (h.greetings _) flooding tally
  | detach => exact Within.detach hl.empty_mem
  | addNeighbour b => exact h.of_eq rfl rfl rfl rfl
  | removeNeighbour b => exact h.of_eq rfl rfl rfl rfl
  | setAdmissible b admissible =>
      obtain ⟨kept, flooding, tally, henq, -, heq⟩ :=
        setAdmissible_spec n b admissible
      have hn : Node.Within held
          { n with links := (n.links.setAdmissible b admissible).2 } :=
        h.of_eq rfl rfl rfl rfl
      rw [Node.after, heq]
      refine hn.queued henq ?_ flooding tally
      intro o ho
      split at ho
      · rw [List.mem_singleton.1 ho]
        exact Flooding.within_greeting h.replica
      · cases ho
  | tick now => exact h.tick hl now
  | pop => exact h.pop.1
  | addPrefix net flags => cases hedit
  | removePrefix net => cases hedit
  | queueFrame frame => exact h.queueFrame hc
  | queueBytes bytes =>
      rw [Node.after, queueBytes]
      split
      · next frame hparse => exact h.queueFrame (hc frame hparse)
      · exact h.of_eq rfl rfl rfl rfl

/-- An edit leaves the data as they are, or it extends the
lineage of an authority. -/
theorem Within.used {n n' : Node} (h : n.Within held) {p : Press}
    (hused : Used n p n')
    (hroom : n.role.canPublish = true → n.version < n.version.next) :
    (n'.data = n.data ∧ n'.Within held) ∨
      (n.replica.authority = true ∧ n.version < n'.version ∧
        n'.Within (Insert.insert n'.data held)) := by
  cases hused with
  | refused _ => exact Or.inl ⟨rfl, h.of_eq rfl rfl rfl rfl⟩
  | unchanged _ =>
      have hn : Node.Within held { n with pool := p.pool } :=
        h.of_eq rfl rfl rfl rfl
      refine Or.inl ⟨?_, hn.followNotices⟩
      rw [data, (followed_fields _).1]
      rfl
  | @advanced edited kept flooding tally hrole hauth hreplica henq _ =>
      right
      have hlt := hroom hrole
      have hdata : (({ n with
          replica := p.replica, pool := p.pool }).followNotices.queued kept
          flooding tally).data = { edited with version := n.version.next } := by
        show (({ n with replica := p.replica,
                        pool := p.pool }).followNotices.replica).data = _
        rw [(followed_fields _).1, hreplica]
        rfl
      have hd : (Delta.between n.data
          { edited with version := n.version.next }).Within
          (Insert.insert { edited with version := n.version.next } held) :=
        ⟨n.data, Set.mem_insert_of_mem _ h.replica.data_mem, _,
          Set.mem_insert _ _, hlt, rfl⟩
      have hcommitted : Node.Within
          (Insert.insert { edited with version := n.version.next } held)
          { n with replica := p.replica, pool := p.pool } := by
        have hmono := h.mono
          (Set.subset_insert { edited with version := n.version.next } held)
        refine ⟨?_, hmono.incoming, hmono.outgoing⟩
        rw [hreplica]
        exact Replica.within_commit _ (Set.mem_insert _ _) hd rfl
      refine ⟨hauth, ?_, ?_⟩
      · show n.version < NetworkData.version (Node.data _)
        rw [hdata]
        exact hlt
      · rw [hdata]
        refine hcommitted.followNotices.queued henq ?_ flooding tally
        intro o ho
        rw [if_pos hlt] at ho
        rw [(Flooding.mem_fanOut_iff.1 ho).2]
        exact hd

/-- What holds of a node whose data belong to a lineage. -/
structure Sound (held : Set NetworkData) (n : Node) : Prop where
  formed : n.Formed
  signed : n.Signed
  within : n.Within held

theorem sound_make (id : NodeId) (role : Role) (settings : NodeSettings)
    (h : NetworkData.empty ∈ held) : (make id role settings).Sound held :=
  ⟨formed_make id role settings, signed_make id role settings,
    within_make id role settings h⟩

theorem Sound.mono {n : Node} (h : n.Sound held) (hsub : held ⊆ held') :
    n.Sound held' :=
  ⟨h.formed, h.signed, h.within.mono hsub⟩

/-- A call on a node keeps the lineage and the data of an authority, or it is an
edit that carries the lineage on. -/
theorem Sound.after {n : Node} (h : n.Sound held) (hl : Lineage held latest)
    {c : Call} (hc : c.Brings held)
    (hroom : c.isEdit = true → n.role.canPublish = true →
      n.version < n.version.next) :
    ((n.after c).Sound held ∧
        (n.role.canPublish = true → c ≠ .detach → (n.after c).data = n.data)) ∨
      (n.role.canPublish = true ∧ n.version < (n.after c).version ∧
        (n.after c).Sound (Insert.insert (n.after c).data held)) := by
  have hformed := h.formed.of_alike (alike_after n c)
  have hsigned := h.signed.after c
  cases hedit : c.isEdit with
  | false =>
      refine Or.inl ⟨⟨hformed, hsigned, h.within.after hl hedit hc⟩,
        fun hrole hdetach => ?_⟩
      exact data_after_of_authority
        (h.formed.authority.trans hrole) hedit hdetach
  | true =>
      have hused : ∃ p, Used n p (n.after c) := by
        cases c with
        | addPrefix net flags => exact ⟨_, used_addPrefix n net flags⟩
        | removePrefix net => exact ⟨_, used_removePrefix n net⟩
        | _ => cases hedit
      obtain ⟨p, hused⟩ := hused
      rcases h.within.used hused (hroom hedit)
        with ⟨hdata, hwithin⟩ | ⟨hauth, hlt, hwithin⟩
      · exact Or.inl ⟨⟨hformed, hsigned, hwithin⟩, fun _ _ => hdata⟩
      · exact Or.inr ⟨h.formed.authority.symm.trans hauth, hlt,
          ⟨hformed, hsigned, hwithin⟩⟩

end Node

end Within

end OnMesh
