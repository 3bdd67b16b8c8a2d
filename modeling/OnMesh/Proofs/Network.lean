import OnMesh.Proofs.Capacity

/-!
# Networks of nodes

A network is a set of nodes and every frame that one of them has sent.  Calls
come in any order, and a frame that was sent may reach its addressee at any
later time, as often as it likes, or never.  One node, the leader, is the
authority and is never detached.  The data that the leader has held so far
form a lineage, and whatever a node holds or a frame carries belongs to it.
If the settings of the leader are acceptable, then all of these data are
small, and so is every frame.
-/

namespace OnMesh

open Wire (Frame Message Header)

/-- Nodes by their names, and all frames that were sent so far. -/
structure Network where
  nodes : Table NodeId Node
  sent : List Outgoing

namespace Network

variable {leader : NodeId} {net next : Network} {past : List Network}

/-- All nodes were just built, and the leader is the only authority. -/
structure Fresh (leader : NodeId) (net : Network) : Prop where
  leads : net.nodes.contains leader = true
  made : ∀ id n, net.nodes.get? id = some n → ∃ role settings,
    n = Node.make id role settings ∧ (role = .authority ↔ id = leader)
  silent : net.sent = []

/-- The calls that can come: the authority is not detached, an edit finds a
version to count up to, and what is delivered was sent to the node before. -/
def Allows (net : Network) (n : Node) : Node.Call → Prop
  | .detach => n.role ≠ .authority
  | .addPrefix .. => n.role = .authority → n.version < n.version.next
  | .removePrefix .. => n.role = .authority → n.version < n.version.next
  | .queueFrame frame => ⟨n.id, frame⟩ ∈ net.sent
  | .queueBytes bytes =>
    ∃ frame, ⟨n.id, frame⟩ ∈ net.sent ∧ frame.serialize = .ok bytes
  | _ => True

def called (net : Network) (id : NodeId) (n : Node) (c : Node.Call) : Network :=
  ⟨net.nodes.insert id (n.after c), net.sent ++ (n.emitted c).toList⟩

/-- One call on one node. -/
inductive Step (net : Network) : Network → Prop
  | call {id : NodeId} {n : Node} (c : Node.Call) :
      net.nodes.get? id = some n → net.Allows n c → Step net (net.called id n c)

/-- A run from freshly built nodes to a network, with the networks it
passed, latest first. -/
inductive Run (leader : NodeId) : List Network → Network → Prop
  | fresh {net : Network} : net.Fresh leader → Run leader [] net
  | step {past : List Network} {net next : Network} :
      Run leader past net → net.Step next → Run leader (net :: past) next

def history (leader : NodeId) (nets : List Network) : Set NetworkData :=
  {data | ∃ net ∈ nets, ∃ a, net.nodes.get? leader = some a ∧ a.data = data}

/-- The leader is the only authority, and all data around belong to its
lineage. -/
structure Agrees (leader : NodeId) (held : Set NetworkData) (net : Network) :
    Prop where
  leads : ∃ a, net.nodes.get? leader = some a ∧ a.role = .authority ∧
    Lineage held a.data
  nodes : ∀ id n, net.nodes.get? id = some n → n.id = id ∧ n.Sound held
  unique : ∀ id n, net.nodes.get? id = some n →
    n.role = .authority → id = leader
  sent : ∀ o ∈ net.sent, o.frame.message.Within held ∧
    o.frame.header.version = Header.currentVersion

theorem Agrees.of_fresh (h : net.Fresh leader) :
    ∃ a, net.nodes.get? leader = some a ∧ net.Agrees leader {a.data} := by
  obtain ⟨a, ha⟩ := Option.isSome_iff_exists.1 h.leads
  obtain ⟨role, settings, rfl, hrole⟩ := h.made leader a ha
  refine ⟨_, ha, ⟨_, ha, hrole.2 rfl, Lineage.initial⟩, ?_, ?_, ?_⟩
  · intro id n hn
    obtain ⟨role, settings, rfl, -⟩ := h.made id n hn
    exact ⟨rfl, Node.sound_make id role settings rfl⟩
  · intro id n hn hauth
    obtain ⟨role, settings, rfl, hrole⟩ := h.made id n hn
    exact hrole.1 hauth
  · intro o ho
    rw [h.silent] at ho
    cases ho

/-- What a call brings to a node was sent before, so it belongs to the
lineage. -/
theorem Agrees.brings {held : Set NetworkData} (h : net.Agrees leader held)
    {n : Node} {c : Node.Call} (hallows : net.Allows n c) : c.Brings held := by
  cases c with
  | queueFrame frame => exact (h.sent _ hallows).1
  | queueBytes bytes =>
      obtain ⟨sent, hsent, hbytes⟩ := hallows
      obtain ⟨hwithin, hversion⟩ := h.sent _ hsent
      intro frame hparse
      have hread := Frame.parse_serialize hversion hwithin.advances hbytes
      rw [hread] at hparse
      cases hparse
      exact hwithin
  | _ => trivial

/-- What a node hands out belongs to its lineage. -/
theorem emitted_within {held : Set NetworkData} {n : Node} (h : n.Sound held)
    {c : Node.Call} {o : Outgoing} (ho : n.emitted c = some o) :
    o.frame.message.Within held ∧
    o.frame.header.version = Header.currentVersion := by
  cases c with
  | pop =>
      have hmem := (Node.pop_sublist n).2 o ho
      obtain ⟨message, hframe⟩ := h.signed o hmem
      refine ⟨h.within.outgoing o hmem, ?_⟩
      rw [hframe]
      rfl
  | _ => cases ho

theorem mem_sent_called {id : NodeId} {n : Node} {c : Node.Call}
    {o : Outgoing} :
    o ∈ (net.called id n c).sent ↔ o ∈ net.sent ∨ n.emitted c = some o := by
  simp [called]

theorem get?_called {id j : NodeId} {n m : Node} {c : Node.Call}
    (h : (net.called id n c).nodes.get? j = some m) :
    j = id ∧ m = n.after c ∨ j ≠ id ∧ net.nodes.get? j = some m := by
  rw [Network.called, Table.get?_insert] at h
  split at h
  · next hj => exact Or.inl ⟨hj, (Option.some.inj h).symm⟩
  · next hj => exact Or.inr ⟨hj, h⟩

/-- Replacing one node by a sound one keeps everything but the
place of the leader. -/
theorem Agrees.called {held : Set NetworkData} (h : net.Agrees leader held)
    {id : NodeId} {n : Node} {c : Node.Call} (hn : net.nodes.get? id = some n)
    {held' : Set NetworkData} (hsub : held ⊆ held')
    (hsound : (n.after c).Sound held')
    (hleads : ∃ a, (net.called id n c).nodes.get? leader = some a ∧
      a.role = .authority ∧ Lineage held' a.data) :
    (net.called id n c).Agrees leader held' where
  leads := hleads
  nodes := by
    intro j m hm
    rcases get?_called hm with ⟨rfl, rfl⟩ | ⟨-, hm⟩
    · exact ⟨(Node.alike_after n c).id.trans (h.nodes j n hn).1, hsound⟩
    · exact ⟨(h.nodes j m hm).1, (h.nodes j m hm).2.mono hsub⟩
  unique := by
    intro j m hm hrole
    rcases get?_called hm with ⟨rfl, rfl⟩ | ⟨-, hm⟩
    · exact h.unique j n hn ((Node.alike_after n c).role.symm.trans hrole)
    · exact h.unique j m hm hrole
  sent := by
    intro o ho
    rcases mem_sent_called.1 ho with ho | ho
    · exact ⟨((h.sent o ho).1).mono hsub, (h.sent o ho).2⟩
    · obtain ⟨hwithin, hversion⟩ := emitted_within (h.nodes id n hn).2 ho
      exact ⟨hwithin.mono hsub, hversion⟩

/-- Every step keeps all data in the lineage, which the leader may carry on. -/
theorem Agrees.step {held : Set NetworkData} (h : net.Agrees leader held)
    (hstep : net.Step next) : ∃ a, next.nodes.get? leader = some a ∧
      next.Agrees leader (Insert.insert a.data held) := by
  cases hstep with
  | @call id n c hn hallows =>
      obtain ⟨a, ha, hrole, hl⟩ := h.leads
      have hroom : c.isEdit = true → n.role.canPublish = true →
          n.version < n.version.next := by
        intro hedit hpublish
        have hauth := Role.canPublish_eq_true_iff.1 hpublish
        cases c with
        | addPrefix net flags => exact hallows hauth
        | removePrefix net => exact hallows hauth
        | _ => cases hedit
      have hsound := (h.nodes id n hn).2.after hl (h.brings hallows) hroom
      by_cases hid : id = leader
      · subst hid
        obtain rfl : a = n := Option.some.inj (ha.symm.trans hn)
        have hget : (net.called id a c).nodes.get? id = some (a.after c) := by
          rw [Network.called, Table.get?_insert, if_pos rfl]
        have hrole' : (a.after c).role = .authority :=
          (Node.alike_after a c).role.trans hrole
        have hpublish : a.role.canPublish = true :=
          Role.canPublish_eq_true_iff.2 hrole
        refine ⟨_, hget,
          h.called hn (Set.subset_insert _ _) ?_ ⟨_, hget, hrole', ?_⟩⟩
        · rcases hsound with ⟨hsound, -⟩ | ⟨-, -, hsound⟩
          · exact hsound.mono (Set.subset_insert _ _)
          · exact hsound
        · rcases hsound with ⟨-, hdata⟩ | ⟨-, hlt, -⟩
          · have hdetach : c ≠ .detach := by
              rintro rfl
              exact hallows hrole
            rw [hdata hpublish hdetach, Set.insert_eq_of_mem hl.latest_mem]
            exact hl
          · exact hl.insert hlt
      · have hget : (net.called id n c).nodes.get? leader = some a := by
          rw [Network.called, Table.get?_insert, if_neg (Ne.symm hid), ha]
        have hother : n.role.canPublish ≠ true := fun hpublish =>
          hid (h.unique id n hn (Role.canPublish_eq_true_iff.1 hpublish))
        rcases hsound with ⟨hsound, -⟩ | ⟨hpublish, -, -⟩
        · refine ⟨a, hget, ?_⟩
          rw [Set.insert_eq_of_mem hl.latest_mem]
          exact h.called hn (le_refl held) hsound ⟨a, hget, hrole, hl⟩
        · exact absurd hpublish hother

theorem history_cons {a : Node} (ha : net.nodes.get? leader = some a) :
    history leader (net :: past) =
      Insert.insert a.data (history leader past) := by
  ext data
  simp only [history, List.mem_cons, Set.mem_ofPred_eq, Set.mem_insert_iff]
  constructor
  · rintro ⟨earlier, rfl | hearlier, b, hb, rfl⟩
    · rw [ha] at hb
      exact Or.inl (congrArg Node.data (Option.some.inj hb).symm)
    · exact Or.inr ⟨earlier, hearlier, b, hb, rfl⟩
  · rintro (rfl | ⟨earlier, hearlier, b, hb, rfl⟩)
    · exact ⟨net, Or.inl rfl, a, ha, rfl⟩
    · exact ⟨earlier, Or.inr hearlier, b, hb, rfl⟩

/-- In every network of a run all data around belong to the
lineage of the leader. -/
theorem Run.agrees (h : Run leader past net) :
    net.Agrees leader (history leader (net :: past)) := by
  induction h with
  | @fresh net hfresh =>
      obtain ⟨a, ha, hagrees⟩ := Agrees.of_fresh hfresh
      have hnone : history leader [] = ∅ := by
        ext data
        simp [history]
      rw [history_cons ha, hnone, insert_empty_eq]
      exact hagrees
  | @step past net next _ hstep ih =>
      obtain ⟨a, ha, hagrees⟩ := ih.step hstep
      rw [history_cons ha]
      exact hagrees

/-- A node follows the leader: it is not ahead, and what it holds is what the
leader held whenever it was at the same version. -/
structure Follows (leader : NodeId) (nets : List Network) (a n : Node) :
    Prop where
  le_leader : n.version ≤ a.version
  held : ∃ earlier ∈ nets, ∃ b, earlier.nodes.get? leader = some b ∧
    b.data = n.data
  only : ∀ earlier ∈ nets, ∀ b, earlier.nodes.get? leader = some b →
    b.version = n.version → b.data = n.data

/-- In every network of a run each node follows the leader, and nodes at one
version hold the same data. -/
theorem Run.version_determines_data (h : Run leader past net) :
    ∃ a, net.nodes.get? leader = some a ∧
      ∀ id n, net.nodes.get? id = some n → Follows leader (net :: past) a n ∧
        ∀ id' n', net.nodes.get? id' = some n' → n'.version = n.version →
        n'.data = n.data := by
  have hagrees := h.agrees
  obtain ⟨a, ha, -, hl⟩ := hagrees.leads
  refine ⟨a, ha, ?_⟩
  intro id n hn
  have hheld := (hagrees.nodes id n hn).2.within.replica.data_mem
  refine ⟨⟨hl.le_latest _ hheld, hheld, ?_⟩, ?_⟩
  · intro earlier hearlier b hb hversion
    exact hl.unique _ ⟨earlier, hearlier, b, hb, rfl⟩ _ hheld hversion
  · intro id' n' hn' hversion
    exact hl.unique _
      (hagrees.nodes id' n' hn').2.within.replica.data_mem _ hheld hversion

/-- A leader and a relay that were just built. -/
def twoNodes : Network where
  nodes := (Table.empty.insert ⟨1⟩
    (Node.make ⟨1⟩ .authority NodeSettings.usual)).insert ⟨2⟩
    (Node.make ⟨2⟩ .relay NodeSettings.usual)
  sent := []

theorem fresh_twoNodes : twoNodes.Fresh ⟨1⟩ where
  leads := rfl
  made := by
    intro id n hn
    rw [twoNodes, Table.get?_insert, Table.get?_insert, Table.get?_empty] at hn
    split at hn
    · next hid =>
        refine ⟨.relay, NodeSettings.usual, hid ▸ (Option.some.inj hn).symm, ?_⟩
        simp [hid]
    · split at hn
      · next hid =>
          refine ⟨.authority, NodeSettings.usual,
            hid ▸ (Option.some.inj hn).symm, ?_⟩
          simp [hid]
      · cases hn
  silent := rfl

def twoNodesPublished : Network :=
  twoNodes.called ⟨1⟩ (Node.make ⟨1⟩ .authority NodeSettings.usual)
    (.addPrefix default Flags.none)

theorem version_determines_data_twoNodesPublished :
    ∃ a, twoNodesPublished.nodes.get? ⟨1⟩ = some a ∧
      ∀ id n, twoNodesPublished.nodes.get? id = some n →
        Follows ⟨1⟩ [twoNodesPublished, twoNodes] a n ∧
        ∀ id' n', twoNodesPublished.nodes.get? id' = some n' →
        n'.version = n.version →
          n'.data = n.data := by
  have hroom : twoNodes.Allows (Node.make ⟨1⟩ .authority NodeSettings.usual)
      (.addPrefix default Flags.none) := fun _ => by decide
  have hrun : Run ⟨1⟩ [twoNodes] twoNodesPublished :=
    (Run.fresh fresh_twoNodes).step (Step.call _ rfl hroom)
  exact hrun.version_determines_data

/-! ## Every frame can be sent -/

/-- A node of an earlier network is still there, fixed as it was built. -/
theorem Run.alike (h : Run leader past net) :
    ∀ earlier ∈ net :: past, ∀ id n, earlier.nodes.get? id = some n →
    ∃ m, net.nodes.get? id = some m ∧ Node.Alike n m := by
  induction h with
  | @fresh net _ =>
      intro earlier hearlier id n hn
      obtain rfl := List.mem_singleton.1 hearlier
      exact ⟨n, hn, Node.Alike.refl n⟩
  | @step past net next _ hstep ih =>
      intro earlier hearlier id n hn
      rcases List.mem_cons.1 hearlier with rfl | hearlier
      · exact ⟨n, hn, Node.Alike.refl n⟩
      · obtain ⟨m, hm, halike⟩ := ih earlier hearlier id n hn
        obtain @⟨j, k, c, hk, _⟩ := hstep
        by_cases hid : id = j
        · subst hid
          obtain rfl : k = m := Option.some.inj (hk.symm.trans hm)
          exact ⟨k.after c, by simp [called],
            halike.trans (Node.alike_after k c)⟩
        · exact ⟨m, by simp [called, hid, hm], halike⟩

/-- In every network of a run the data of an authority are in
step with its pool. -/
theorem Run.stocked (h : Run leader past net) : ∀ earlier ∈ net :: past, ∀ id n,
    earlier.nodes.get? id = some n → n.Stocked := by
  induction h with
  | @fresh net hfresh =>
      intro earlier hearlier id n hn
      obtain rfl := List.mem_singleton.1 hearlier
      obtain ⟨role, settings, rfl, -⟩ := hfresh.made id n hn
      exact Node.stocked_make id role settings
  | @step past net next _ hstep ih =>
      intro earlier hearlier id n hn
      rcases List.mem_cons.1 hearlier with rfl | hearlier
      · obtain @⟨j, k, c, hk, _⟩ := hstep
        rcases get?_called hn with ⟨rfl, rfl⟩ | ⟨-, hn⟩
        · exact (ih net List.mem_cons_self id k hk).after c
        · exact ih net List.mem_cons_self id n hn
      · exact ih earlier hearlier id n hn

/-- All data that a leader with acceptable settings has held fit one frame. -/
theorem Run.fits (h : Run leader past net) {a : Node}
    (ha : net.nodes.get? leader = some a)
    (hsettings : a.settings.validate = .ok ()) :
    ∀ d ∈ history leader (net :: past), d.Fits := by
  rintro d ⟨earlier, hearlier, b, hb, rfl⟩
  obtain ⟨b', ha', hrole, -⟩ := h.agrees.leads
  obtain ⟨a', hb', halike⟩ := h.alike earlier hearlier leader b hb
  obtain rfl : a' = a := Option.some.inj (hb'.symm.trans ha)
  obtain rfl : b' = a' := Option.some.inj (ha'.symm.trans ha)
  apply (h.stocked earlier hearlier leader b hb).fits
  · rw [← halike.role]
    exact Role.canPublish_eq_true_iff.2 hrole
  · rw [← halike.settings]
    exact hsettings

/-- If the settings of the leader are acceptable, every frame that a node pops
can be written, and its bytes fit one packet. -/
theorem Run.serializes (h : Run leader past net) {a : Node}
    (ha : net.nodes.get? leader = some a)
    (hsettings : a.settings.validate = .ok ()) :
    ∀ id n o, net.nodes.get? id = some n → n.pop.1 = some o →
      ∃ bytes, o.frame.serialize = .ok bytes ∧
      bytes.length ≤ Frame.maxSize := by
  intro id n o hn ho
  have hsound := (h.agrees.nodes id n hn).2
  obtain ⟨message, hframe⟩ := hsound.signed o ((Node.pop_sublist n).2 o ho)
  have hwithin : message.Within (history leader (net :: past)) := by
    have hmessage := (emitted_within hsound (c := .pop) ho).1
    rw [hframe] at hmessage
    exact hmessage
  obtain ⟨bytes, -, hbytes, -, -⟩ :=
    Frame.serialize_of_within (h.fits ha hsettings) n.id hwithin
  refine ⟨bytes, by rw [hframe, hbytes], ?_⟩
  obtain ⟨-, hsize, rfl⟩ := Frame.serialize_eq_ok_iff.1 hbytes
  rw [List.length_append, Header.length_toBytes, Message.length_body]
  exact hsize

def publisher : Node :=
  (Node.make ⟨1⟩ .authority NodeSettings.usual).after
    (.addPrefix default Flags.none)

def twoNodesLinked : Network :=
  twoNodesPublished.called ⟨1⟩ publisher (.addNeighbour ⟨2⟩)

/-- The leader, having published and then attached to the mesh, where
it found the relay. -/
def greeter : Node :=
  ((publisher.after (.addNeighbour ⟨2⟩)).after .start).after
    (.setAdmissible ⟨2⟩ true)

def twoNodesGreeted : Network :=
  (twoNodesLinked.called ⟨1⟩
    (publisher.after (.addNeighbour ⟨2⟩)) .start).called ⟨1⟩
    ((publisher.after (.addNeighbour ⟨2⟩)).after .start)
      (.setAdmissible ⟨2⟩ true)

theorem serializes_twoNodesGreeted : ∃ o, greeter.pop.1 = some o ∧
    (∃ d, o.frame.message = .delta d) ∧
    ∃ bytes, o.frame.serialize = .ok bytes ∧ bytes.length ≤ Frame.maxSize := by
  have hroom : twoNodes.Allows (Node.make ⟨1⟩ .authority NodeSettings.usual)
      (.addPrefix default Flags.none) := fun _ => by decide
  have hpublished : Run ⟨1⟩ [twoNodes] twoNodesPublished :=
    (Run.fresh fresh_twoNodes).step (Step.call _ rfl hroom)
  have hlinked : Run ⟨1⟩ _ twoNodesLinked :=
    hpublished.step (Step.call _ rfl trivial)
  have hrun : Run ⟨1⟩ _ twoNodesGreeted :=
    (hlinked.step (Step.call .start rfl trivial)).step (Step.call _ rfl trivial)
  have hget : twoNodesGreeted.nodes.get? ⟨1⟩ = some greeter := rfl
  have hsettings : greeter.settings.validate = .ok () := by decide
  have hpop : ∃ o, greeter.pop.1 = some o ∧ ∃ d, o.frame.message = .delta d :=
    ⟨_, rfl, _, rfl⟩
  obtain ⟨o, ho, hdelta⟩ := hpop
  exact ⟨o, ho, hdelta, hrun.serializes hget hsettings ⟨1⟩ greeter o hget ho⟩

end Network

end OnMesh
