import OnMesh.Proofs.AddressBook
import OnMesh.Proofs.Node.Calls

/-!
# What no call changes

The name of a node, its role and its settings are fixed when it is built, and so
is what its parts know of them.  `Alike` relates two states of one node, and
every call leads to a state alike.
-/

namespace OnMesh

open Wire (Frame Message)

theorem Role.canPublish_eq_true_iff {role : Role} :
    role.canPublish = true ↔ role = .authority := by
  cases role <;> simp [canPublish]

theorem Role.canPublish_eq_false_iff {role : Role} :
    role.canPublish = false ↔ role ≠ .authority := by
  rw [← Bool.not_eq_true, ne_eq, canPublish_eq_true_iff]

namespace Node

/-- Two states of one node: they agree in everything that is fixed
when a node is built. -/
structure Alike (n m : Node) : Prop where
  id : m.id = n.id
  role : m.role = n.role
  settings : m.settings = n.settings
  owner : m.replica.owner = n.replica.owner
  authority : m.replica.authority = n.replica.authority
  links : m.links.owner = n.links.owner
  addresses : m.addresses.owner = n.addresses.owner
  flooding : m.flooding.role = n.flooding.role

theorem Alike.refl (n : Node) : Alike n n :=
  ⟨rfl, rfl, rfl, rfl, rfl, rfl, rfl, rfl⟩

theorem Alike.trans {l m n : Node} (hlm : Alike l m) (hmn : Alike m n) :
    Alike l n :=
  ⟨hmn.id.trans hlm.id, hmn.role.trans hlm.role,
    hmn.settings.trans hlm.settings, hmn.owner.trans hlm.owner,
    hmn.authority.trans hlm.authority, hmn.links.trans hlm.links,
    hmn.addresses.trans hlm.addresses, hmn.flooding.trans hlm.flooding⟩

/-- The parts of a node know its name and its role. -/
structure Formed (n : Node) : Prop where
  owner : n.replica.owner = n.id
  authority : n.replica.authority = n.role.canPublish
  links : n.links.owner = n.id
  addresses : n.addresses.owner = n.id
  flooding : n.flooding.role = n.role

theorem formed_make (id : NodeId) (role : Role) (settings : NodeSettings) :
    (make id role settings).Formed := ⟨rfl, rfl, rfl, rfl, rfl⟩

theorem Formed.of_alike {n m : Node} (h : n.Formed) (halike : Alike n m) :
    m.Formed where
  owner := by rw [halike.owner, halike.id, h.owner]
  authority := by rw [halike.authority, halike.role, h.authority]
  links := by rw [halike.links, halike.id, h.links]
  addresses := by rw [halike.addresses, halike.id, h.addresses]
  flooding := by rw [halike.flooding, halike.role, h.flooding]

/-! ## Every call -/

theorem alike_queued (n : Node) (kept : List Outbound) {flooding : Flooding}
    (tally : Tally) (h : flooding.role = n.flooding.role) :
    Alike n (n.queued kept flooding tally) :=
  ⟨rfl, rfl, rfl, rfl, rfl, rfl, rfl, h⟩

theorem alike_handle (n : Node) (frame : Frame) : Alike n (n.handle frame) := by
  obtain ⟨out, replica, kept, flooding, tally, hreceived, -, hrole, heq⟩ :=
    handle_spec n frame
  have hsame : replica.owner = n.replica.owner ∧
      replica.authority = n.replica.authority := by
    cases hreceived <;> exact ⟨rfl, rfl⟩
  rw [heq]
  exact ⟨rfl, rfl, rfl, hsame.1, hsame.2, rfl, rfl, hrole⟩

theorem alike_foldl_handle (n : Node) (frames : List Frame) :
    Alike n (frames.foldl handle n) := by
  induction frames generalizing n with
  | nil => exact Alike.refl n
  | cons frame frames ih =>
      exact (alike_handle n frame).trans (ih (n.handle frame))

theorem alike_followNotices (n : Node) : Alike n n.followNotices := by
  obtain ⟨addresses, tally, hfollow, hnone, hsome⟩ := followNotices_spec n
  have howner : addresses.owner = n.addresses.owner := by
    by_cases h : n.replica.notices = []
    · rw [hnone h]
    · rw [hsome h, AddressBook.owner_reconcile]
  rw [hfollow]
  exact ⟨rfl, rfl, rfl, rfl, rfl, rfl, howner, rfl⟩

theorem alike_used {n n' : Node} {p : Press} (h : Used n p n') :
    Alike n n' := by
  cases h with
  | refused => exact ⟨rfl, rfl, rfl, rfl, rfl, rfl, rfl, rfl⟩
  | unchanged =>
      exact Alike.trans (m := { n with pool := p.pool })
        ⟨rfl, rfl, rfl, rfl, rfl, rfl, rfl, rfl⟩ (alike_followNotices _)
  | advanced hrole hauth hreplica henq hflooding =>
      have hstart : Alike n
          { n with replica := p.replica, pool := p.pool } := by
        rw [hreplica]
        exact ⟨rfl, rfl, rfl, rfl, rfl, rfl, rfl, rfl⟩
      refine (hstart.trans (alike_followNotices _)).trans
        (alike_queued _ _ _ ?_)
      rw [hflooding, (followed_fields _).2.2.1]

theorem alike_tick (n : Node) (now : Nat) : Alike n (n.tick now) := by
  have hhandled : Alike n (n.handled now) :=
    Alike.trans (m := { n with
      now, incoming := []
      tally := { n.tally with ticks := n.tally.ticks + 1 } })
      ⟨rfl, rfl, rfl, rfl, rfl, rfl, rfl, rfl⟩ (alike_foldl_handle _ _)
  rw [tick_eq]
  refine Alike.trans ?_ (alike_followNotices _)
  split
  · exact hhandled.trans ⟨rfl, rfl, rfl, rfl, rfl, rfl, rfl, rfl⟩
  · exact hhandled

theorem alike_pop (n : Node) : Alike n n.pop.2 := by
  rcases popFrom_spec n n.outgoing with
    ⟨tally, hpop, -⟩ | ⟨lost, o, rest, tally, hpop, -⟩ <;>
  · rw [pop, hpop]
    exact ⟨rfl, rfl, rfl, rfl, rfl, rfl, rfl, rfl⟩

theorem alike_queueFrame (n : Node) (frame : Frame) :
    Alike n (n.queueFrame frame).2 := by
  rw [queueFrame]
  split <;> exact ⟨rfl, rfl, rfl, rfl, rfl, rfl, rfl, rfl⟩

/-- No call changes what a node was built with. -/
theorem alike_after (n : Node) (c : Call) : Alike n (n.after c) := by
  cases c with
  | start =>
      cases hstarted : n.started with
      | true =>
          rw [after, start_of_started hstarted]
          exact Alike.refl n
      | false =>
          obtain ⟨kept, flooding, tally, -, hrole, heq⟩ := start_spec hstarted
          rw [after, heq]
          exact ⟨rfl, rfl, rfl, rfl, rfl, rfl, rfl, hrole⟩
  | detach => exact ⟨rfl, rfl, rfl, rfl, rfl, rfl, rfl, rfl⟩
  | addNeighbour b =>
      refine ⟨rfl, rfl, rfl, rfl, rfl, ?_, rfl, rfl⟩
      show (n.links.addNeighbour b).owner = n.links.owner
      rw [Links.addNeighbour]
      split <;> rfl
  | removeNeighbour b => exact ⟨rfl, rfl, rfl, rfl, rfl, rfl, rfl, rfl⟩
  | setAdmissible b admissible =>
      obtain ⟨kept, flooding, tally, -, hrole, heq⟩ :=
        setAdmissible_spec n b admissible
      rw [after, heq]
      exact ⟨rfl, rfl, rfl, rfl, rfl,
        Links.owner_setAdmissible admissible, rfl, hrole⟩
  | tick now => exact alike_tick n now
  | pop => exact alike_pop n
  | addPrefix net flags => exact alike_used (used_addPrefix n net flags)
  | removePrefix net => exact alike_used (used_removePrefix n net)
  | queueFrame frame => exact alike_queueFrame n frame
  | queueBytes bytes =>
      rw [after, queueBytes]
      split
      · exact alike_queueFrame n _
      · exact ⟨rfl, rfl, rfl, rfl, rfl, rfl, rfl, rfl⟩

/-! ## Frames that are sent -/

/-- Every frame that waits to be sent was made by the node. -/
def Signed (n : Node) : Prop :=
  ∀ o ∈ n.outgoing, ∃ message, o.frame = Frame.make n.id message

theorem signed_make (id : NodeId) (role : Role) (settings : NodeSettings) :
    (make id role settings).Signed := by
  intro o ho
  cases ho

/-- Whatever a node queues, it makes itself. -/
theorem Signed.queued {n : Node} (h : n.Signed) (kept : List Outbound)
    (flooding : Flooding) (tally : Tally) :
    (n.queued kept flooding tally).Signed := by
  intro o ho
  rcases List.mem_append.1 ho with ho | ho
  · exact h o ho
  · obtain ⟨p, -, rfl⟩ := List.mem_map.1 ho
    exact ⟨p.message, rfl⟩

theorem Signed.of_eq {n m : Node} (h : n.Signed) (hid : m.id = n.id)
    (houtgoing : m.outgoing = n.outgoing) : m.Signed := by
  intro o ho
  rw [houtgoing] at ho
  rw [hid]
  exact h o ho

theorem Signed.followNotices {n : Node} (h : n.Signed) :
    n.followNotices.Signed :=
  h.of_eq (alike_followNotices n).id (followed_fields n).2.2.2.2.2

theorem Signed.foldl_handle {n : Node} (h : n.Signed) (frames : List Frame) :
    (frames.foldl handle n).Signed := by
  induction frames generalizing n with
  | nil => exact h
  | cons frame frames ih =>
      obtain ⟨out, replica, kept, flooding, tally, -, -, -, heq⟩ :=
        handle_spec n frame
      apply ih
      rw [heq]
      exact Signed.queued (n := { n with replica }) h kept flooding tally

theorem Signed.tick {n : Node} (h : n.Signed) (now : Nat) :
    (n.tick now).Signed := by
  have hhandled : (n.handled now).Signed := by
    apply Signed.foldl_handle
    exact h.of_eq rfl rfl
  rw [tick_eq]
  apply Signed.followNotices
  split
  · exact hhandled.of_eq rfl rfl
  · exact hhandled

/-- A frame that is popped was waiting, and so was every frame that is left. -/
theorem pop_sublist (n : Node) :
    n.pop.2.outgoing.Sublist n.outgoing ∧ ∀ o, n.pop.1 = some o →
    o ∈ n.outgoing := by
  rcases popFrom_spec n n.outgoing with
    ⟨tally, hpop, -⟩ | ⟨lost, o, rest, tally, hpop, hsplit, -⟩
  · rw [pop, hpop]
    exact ⟨List.nil_sublist _, by simp⟩
  · rw [pop, hpop, hsplit]
    refine ⟨(List.sublist_cons_self o rest).trans
      (List.sublist_append_right lost _), ?_⟩
    intro p hp
    cases hp
    exact List.mem_append_right _ List.mem_cons_self

theorem Signed.used {n n' : Node} {p : Press} (h : n.Signed)
    (hused : Used n p n') : n'.Signed := by
  cases hused with
  | refused _ => exact h.of_eq rfl rfl
  | unchanged _ => exact Signed.followNotices (h.of_eq rfl rfl)
  | advanced _ _ _ _ _ =>
      have hn : Signed { n with replica := p.replica, pool := p.pool } :=
        h.of_eq rfl rfl
      exact hn.followNotices.queued _ _ _

theorem outgoing_queueFrame (n : Node) (frame : Frame) :
    (n.queueFrame frame).2.outgoing = n.outgoing := by
  rw [queueFrame]
  split <;> rfl

theorem outgoing_queueBytes (n : Node) (bytes : List UInt8) :
    (n.queueBytes bytes).2.outgoing = n.outgoing := by
  rw [queueBytes]
  split
  · exact outgoing_queueFrame n _
  · rfl

/-- Whatever is asked of a node, it sends frames of its own only. -/
theorem Signed.after {n : Node} (h : n.Signed) (c : Call) :
    (n.after c).Signed := by
  cases c with
  | start =>
      cases hstarted : n.started with
      | true => rw [Node.after, start_of_started hstarted]; exact h
      | false =>
          obtain ⟨kept, flooding, tally, -, -, heq⟩ := start_spec hstarted
          rw [Node.after, heq]
          exact Signed.queued
            (n := { n with started := true }) h kept flooding tally
  | detach =>
      intro o ho
      cases ho
  | addNeighbour b => exact h.of_eq rfl rfl
  | removeNeighbour b => exact h.of_eq rfl rfl
  | setAdmissible b admissible =>
      obtain ⟨kept, flooding, tally, -, -, heq⟩ :=
        setAdmissible_spec n b admissible
      rw [Node.after, heq]
      exact Signed.queued
        (n := { n with links := (n.links.setAdmissible b admissible).2 }) h
        kept flooding tally
  | tick now => exact h.tick now
  | pop =>
      intro o ho
      rw [show (n.after .pop).id = n.id from (alike_pop n).id]
      exact h o ((pop_sublist n).1.subset ho)
  | addPrefix net flags => exact h.used (used_addPrefix n net flags)
  | removePrefix net => exact h.used (used_removePrefix n net)
  | queueFrame frame =>
      exact h.of_eq (alike_queueFrame n frame).id (outgoing_queueFrame n frame)
  | queueBytes bytes =>
      exact h.of_eq (alike_after n (.queueBytes bytes)).id
        (outgoing_queueBytes n bytes)

/-! ## The replica -/

def Call.isEdit : Call → Bool
  | .addPrefix .. => true
  | .removePrefix .. => true
  | _ => false

/-- Nothing but the links and the queues differs. -/
structure Untouched (n m : Node) : Prop where
  replica : m.replica = n.replica
  pool : m.pool = n.pool
  addresses : m.addresses = n.addresses

/-- Most calls leave the data and what follows from them alone. -/
theorem untouched_after (n : Node) {c : Call} (hedit : c.isEdit = false)
    (hdetach : c ≠ .detach) (htick : ∀ now, c ≠ .tick now) :
    Untouched n (n.after c) := by
  cases c with
  | start =>
      cases hstarted : n.started with
      | true => rw [after, start_of_started hstarted]; exact ⟨rfl, rfl, rfl⟩
      | false =>
          obtain ⟨kept, flooding, tally, -, -, heq⟩ := start_spec hstarted
          rw [after, heq]
          exact ⟨rfl, rfl, rfl⟩
  | detach => exact absurd rfl hdetach
  | addNeighbour b => exact ⟨rfl, rfl, rfl⟩
  | removeNeighbour b => exact ⟨rfl, rfl, rfl⟩
  | setAdmissible b admissible =>
      obtain ⟨kept, flooding, tally, -, -, heq⟩ :=
        setAdmissible_spec n b admissible
      rw [after, heq]
      exact ⟨rfl, rfl, rfl⟩
  | tick now => exact absurd rfl (htick now)
  | pop =>
      rcases popFrom_spec n n.outgoing with
        ⟨tally, hpop, -⟩ | ⟨lost, o, rest, tally, hpop, -⟩ <;>
      · rw [after, pop, hpop]
        exact ⟨rfl, rfl, rfl⟩
  | addPrefix net flags => cases hedit
  | removePrefix net => cases hedit
  | queueFrame frame =>
      rw [after, queueFrame]
      split <;> exact ⟨rfl, rfl, rfl⟩
  | queueBytes bytes =>
      rw [after, queueBytes]
      split
      · rw [queueFrame]
        split <;> exact ⟨rfl, rfl, rfl⟩
      · exact ⟨rfl, rfl, rfl⟩

/-- A property of nodes is kept by every call if edits, detaching and ticks keep
it and it depends on nothing else. -/
theorem after_of_touching {P : Node → Prop} {n : Node}
    (hsame : ∀ m, Untouched n m → Alike n m → P m) (hdetach : P n.detach)
    (htick : ∀ now, P (n.tick now))
    (hadd : ∀ net flags, P (n.addPrefix net flags).2)
    (hremove : ∀ net, P (n.removePrefix net).2) (c : Call) : P (n.after c) := by
  cases c with
  | detach => exact hdetach
  | tick now => exact htick now
  | addPrefix net flags => exact hadd net flags
  | removePrefix net => exact hremove net
  | _ =>
      exact hsame _ (untouched_after n rfl (by simp) (by simp))
        (alike_after n _)

/-- What one frame and the notices keep of a replica, a tick keeps. -/
theorem replica_tick {P : Replica → Prop} {n : Node} (h : P n.replica)
    (hhandle : ∀ m frame, Alike n m → P m.replica → P (m.handle frame).replica)
    (hnotices : ∀ r, P r → P r.takeNotices.2) (now : Nat) :
    P (n.tick now).replica := by
  have hfold : ∀ (frames : List Frame) (m : Node), Alike n m → P m.replica →
      P (frames.foldl handle m).replica := by
    intro frames
    induction frames with
    | nil => exact fun _ _ h => h
    | cons frame frames ih =>
        intro m halike hm
        exact ih _ (halike.trans (alike_handle m frame))
          (hhandle m frame halike hm)
  have hhandled : P (n.handled now).replica :=
    hfold n.incoming _ ⟨rfl, rfl, rfl, rfl, rfl, rfl, rfl, rfl⟩ h
  rw [tick_eq, (followed_fields _).1]
  apply hnotices
  split
  · exact hhandled
  · exact hhandled

/-- The replica of an authority does not follow frames. -/
theorem replica_handle_of_authority {n : Node} (h : n.replica.authority = true)
    (frame : Frame) : (n.handle frame).replica = n.replica := by
  obtain ⟨out, replica, kept, flooding, tally, hreceived, -, -, heq⟩ :=
    handle_spec n frame
  rw [heq]
  cases hreceived with
  | applied _ _ hnot => rw [h] at hnot; cases hnot
  | adopted _ _ hnot => rw [h] at hnot; cases hnot
  | _ => rfl

/-- Only an edit changes the data of an authority that stays attached. -/
theorem data_after_of_authority {n : Node} (h : n.replica.authority = true)
    {c : Call} (hedit : c.isEdit = false) (hdetach : c ≠ .detach) :
    (n.after c).data = n.data := by
  by_cases htick : ∃ now, c = .tick now
  · obtain ⟨now, rfl⟩ := htick
    refine replica_tick (P := fun r => r.data = n.data) rfl ?_
      (fun _ hr => hr) now
    intro m frame halike hm
    rw [replica_handle_of_authority (halike.authority.trans h)]
    exact hm
  · rw [data,
      (untouched_after n hedit hdetach fun now hc => htick ⟨now, hc⟩).replica]
    rfl

/-! ## The latest delta -/

theorem grounded_handle {n : Node} (h : n.replica.Grounded) (frame : Frame) :
    (n.handle frame).replica.Grounded := by
  obtain ⟨out, replica, kept, flooding, tally, hreceived, -, -, heq⟩ :=
    handle_spec n frame
  rw [heq]
  cases hreceived with
  | applied => exact Replica.grounded_commit _ rfl
  | adopted => exact Replica.grounded_commit _ rfl
  | _ => exact h

theorem grounded_used {n n' : Node} {p : Press} (h : n.replica.Grounded)
    (hused : Used n p n') : n'.replica.Grounded := by
  cases hused with
  | refused => exact h
  | unchanged =>
      rw [(followed_fields _).1]
      exact h
  | advanced _ _ hreplica =>
      show (followNotices _).replica.Grounded
      rw [(followed_fields _).1, hreplica]
      exact Replica.grounded_advance _ _

/-- The latest delta of a node always ends at the data that it holds. -/
theorem grounded_after {n : Node} (h : n.replica.Grounded) (c : Call) :
    (n.after c).replica.Grounded := by
  refine after_of_touching (P := fun m => m.replica.Grounded) ?_ ?_ ?_ ?_ ?_ c
  · intro m hsame _
    rw [hsame.replica]
    exact h
  · exact Replica.grounded_reset n.replica
  · intro now
    exact replica_tick (P := Replica.Grounded) h
      (fun m frame _ hm => grounded_handle hm frame)
      (fun _ hr => hr) now
  · intro net flags
    exact grounded_used h (used_addPrefix n net flags)
  · intro net
    exact grounded_used h (used_removePrefix n net)

end Node

end OnMesh
