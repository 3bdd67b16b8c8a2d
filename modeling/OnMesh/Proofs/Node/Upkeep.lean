import OnMesh.Proofs.Bindings
import OnMesh.Proofs.Node.Identity

/-!
# What a node keeps up

Two things follow from the data of a node and have to be kept in step with them:
the addresses that are configured, and on the authority the pool of context ids.
Every call leaves both as they should be.  A detached node keeps no frames, and
no call but one adds a neighbour.
-/

namespace OnMesh

open Wire (Frame Message)

namespace Node

/-! ## Addresses -/

/-- All notices were followed, and the addresses are those that
follow from the data. -/
structure Configured (n : Node) : Prop where
  notices : n.replica.notices = []
  addresses : n.addresses.configured = n.addresses.derive n.data

/-- The addresses follow from the data unless a notice says that
the data have changed. -/
def Addressed (n : Node) : Prop :=
  n.replica.notices = [] → n.addresses.configured = n.addresses.derive n.data

theorem configured_make (id : NodeId) (role : Role) (settings : NodeSettings) :
    (make id role settings).Configured := ⟨rfl, rfl⟩

theorem Addressed.followNotices {n : Node} (h : n.Addressed) :
    n.followNotices.Configured := by
  obtain ⟨addresses, tally, hfollow, hnone, hsome⟩ := followNotices_spec n
  rw [hfollow]
  refine ⟨rfl, ?_⟩
  show addresses.configured = addresses.derive n.data
  by_cases hnotices : n.replica.notices = []
  · rw [hnone hnotices]
    exact h hnotices
  · rw [hsome hnotices, AddressBook.configured_reconcile]
    rfl

theorem handle_fields (n : Node) (frame : Frame) :
    (n.handle frame).pool = n.pool ∧
    (n.handle frame).addresses = n.addresses := by
  obtain ⟨out, replica, kept, flooding, tally, -, -, -, heq⟩ :=
    handle_spec n frame
  rw [heq]
  exact ⟨rfl, rfl⟩

theorem Addressed.handle {n : Node} (h : n.Addressed) (frame : Frame) :
    (n.handle frame).Addressed := by
  obtain ⟨out, replica, kept, flooding, tally, hreceived, -, -, heq⟩ :=
    handle_spec n frame
  rw [heq]
  cases hreceived with
  | applied =>
      intro hnotices
      exact absurd (List.append_eq_nil_iff.1 hnotices).2 (List.cons_ne_nil _ _)
  | adopted =>
      intro hnotices
      exact absurd (List.append_eq_nil_iff.1 hnotices).2 (List.cons_ne_nil _ _)
  | _ => exact h

theorem Addressed.foldl_handle {n : Node} (h : n.Addressed)
    (frames : List Frame) : (frames.foldl Node.handle n).Addressed := by
  induction frames generalizing n with
  | nil => exact h
  | cons frame frames ih => exact ih (h.handle frame)

theorem Configured.tick {n : Node} (h : n.Configured) (now : Nat) :
    (n.tick now).Configured := by
  have hhandled : (n.handled now).Addressed := by
    apply Addressed.foldl_handle
    intro _
    exact h.addresses
  rw [tick_eq]
  apply Addressed.followNotices
  split
  · exact hhandled
  · exact hhandled

theorem Configured.used {n n' : Node} {p : Press} (h : n.Configured)
    (hused : Used n p n') : n'.Configured := by
  cases hused with
  | refused hreplica => exact ⟨h.notices, h.addresses⟩
  | unchanged => exact Addressed.followNotices fun _ => h.addresses
  | @advanced edited kept flooding tally _ _ hreplica =>
      have hfollowed : Configured
          ({ n with replica := p.replica, pool := p.pool } :
            Node).followNotices := by
        apply Addressed.followNotices
        intro hnotices
        have hnone : p.replica.notices = [] := hnotices
        rw [hreplica] at hnone
        exact absurd (List.append_eq_nil_iff.1 hnone).2 (List.cons_ne_nil _ _)
      exact ⟨hfollowed.notices, hfollowed.addresses⟩

/-- After every call the addresses are those that follow from the data. -/
theorem Configured.after {n : Node} (h : n.Configured) (c : Call) :
    (n.after c).Configured := by
  refine after_of_touching ?_ ?_ h.tick ?_ ?_ c
  · intro m hsame _
    refine ⟨?_, ?_⟩
    · rw [hsame.replica]
      exact h.notices
    · rw [hsame.addresses, data, hsame.replica]
      exact h.addresses
  · exact ⟨rfl, rfl⟩
  · intro net flags
    exact h.used (used_addPrefix n net flags)
  · intro net
    exact h.used (used_removePrefix n net)

/-! ## Context ids -/

/-- On the authority the data and the pool of context ids are in step. -/
def Stocked (n : Node) : Prop :=
  n.role.canPublish = true → n.press.Ready n.settings.contextRange

theorem stocked_make (id : NodeId) (role : Role) (settings : NodeSettings) :
    (make id role settings).Stocked := by
  intro hrole
  exact ⟨rfl, hrole, hrole, Replica.inStep_make id role.canPublish _ _⟩

/-- Following the notices is draining the press. -/
theorem press_followNotices {n : Node} (hrole : n.role.canPublish = true) :
    n.followNotices.press = n.press.drain := by
  obtain ⟨addresses, tally, hfollow, -, -⟩ := followNotices_spec n
  rw [hfollow, press, press, followed, Press.drain, if_pos hrole]
  rfl

theorem Stocked.followNotices {n : Node} (h : n.Stocked) :
    n.followNotices.Stocked := by
  intro hrole
  have hsame := alike_followNotices n
  rw [hsame.role] at hrole
  rw [press_followNotices hrole, hsame.settings]
  exact (h hrole).act .drain

/-- Only role, settings, replica and pool matter. -/
theorem Stocked.of_eq {n m : Node} (h : n.Stocked) (hrole : m.role = n.role)
    (hsettings : m.settings = n.settings) (hreplica : m.replica = n.replica)
    (hpool : m.pool = n.pool) : m.Stocked := by
  intro hpublish
  rw [hrole] at hpublish
  have hready := h hpublish
  rw [hsettings]
  refine ⟨?_, ?_, ?_, ?_⟩
  · show m.pool.range = _
    rw [hpool]
    exact hready.range
  · show m.role.canPublish = true
    rw [hrole]
    exact hpublish
  · show m.replica.authority = true
    rw [hreplica]
    exact hready.authority
  · show m.replica.InStep m.pool
    rw [hreplica, hpool]
    exact hready.inStep

theorem Stocked.handled {n : Node} (h : n.Stocked) (now : Nat) :
    (n.handled now).Stocked := by
  have hfold : ∀ (frames : List Frame) (m : Node), m.Stocked →
      (frames.foldl Node.handle m).Stocked := by
    intro frames
    induction frames with
    | nil => exact fun _ h => h
    | cons frame frames ih =>
        intro m hm
        apply ih
        intro hrole
        have hsame := alike_handle m frame
        rw [hsame.role] at hrole
        have hreplica := replica_handle_of_authority (hm hrole).authority frame
        exact hm.of_eq hsame.role hsame.settings hreplica
          (handle_fields m frame).1
          (hsame.role ▸ hrole)
  exact hfold n.incoming _ (h.of_eq rfl rfl rfl rfl)

theorem Stocked.expirePool {n : Node} (h : n.Stocked) (now : Nat) :
    (n.expirePool now).Stocked :=
  fun hrole => (h hrole).act (.expire now)

theorem Stocked.tick {n : Node} (h : n.Stocked) (now : Nat) :
    (n.tick now).Stocked := by
  rw [tick_eq]
  apply Stocked.followNotices
  split
  · exact (h.handled now).expirePool now
  · exact h.handled now

/-- An edit leaves what the press has become. -/
theorem stocked_used {n n' : Node} {p : Press} (hused : Used n p n')
    (h : n.role.canPublish = true → p.Ready n.settings.contextRange) :
    n'.Stocked := by
  have hedited : n.role.canPublish = true →
      ({ n with replica := p.replica, pool := p.pool } : Node).Stocked := by
    intro hrole _
    exact ⟨(h hrole).range, hrole, (h hrole).authority, (h hrole).inStep⟩
  cases hused with
  | refused hreplica =>
      intro hrole
      rw [← hreplica]
      exact hedited hrole hrole
  | unchanged hreplica =>
      apply Stocked.followNotices
      intro hrole
      rw [← hreplica]
      exact hedited hrole hrole
  | advanced hrole => exact (hedited hrole).followNotices.of_eq rfl rfl rfl rfl

/-- After every call the authority's data and pool are in step. -/
theorem Stocked.after {n : Node} (h : n.Stocked) (c : Call) :
    (n.after c).Stocked := by
  refine after_of_touching ?_ ?_ h.tick ?_ ?_ c
  · intro m hsame halike
    exact h.of_eq halike.role halike.settings hsame.replica hsame.pool
  · intro hrole
    exact ⟨(h hrole).range, hrole, (h hrole).authority,
      Replica.inStep_reset _ _⟩
  · intro net flags
    apply stocked_used (used_addPrefix n net flags)
    intro hrole
    exact (h.expirePool n.now hrole).act (.publish net flags)
  · intro net
    apply stocked_used (used_removePrefix n net)
    intro hrole
    exact (h.expirePool n.now hrole).act (.withdraw net)

/-! ## Queues and neighbours -/

/-- A detached node has no frames to handle. -/
def Vacant (n : Node) : Prop := n.started = false → n.incoming = []

theorem Vacant.queueFrame {n : Node} (h : n.Vacant) (frame : Frame) :
    (n.queueFrame frame).2.Vacant := by
  rw [Node.queueFrame]
  split
  · exact h
  · next htaken =>
      intro hstarted
      simp [show n.started = false from hstarted] at htaken

theorem Vacant.used {n n' : Node} {p : Press} (h : n.Vacant)
    (hused : Used n p n') : n'.Vacant := by
  cases hused with
  | refused => exact h
  | unchanged =>
      obtain ⟨addresses, tally, hfollow, -, -⟩ :=
        followNotices_spec { n with pool := p.pool }
      rw [hfollow]
      exact h
  | advanced =>
      obtain ⟨addresses, tally, hfollow, -, -⟩ :=
        followNotices_spec { n with replica := p.replica, pool := p.pool }
      rw [hfollow]
      exact h

/-- Frames are taken only while a node is attached, and forgotten when it is
detached. -/
theorem Vacant.after {n : Node} (h : n.Vacant) (c : Call) :
    (n.after c).Vacant := by
  cases c with
  | start =>
      cases hstarted : n.started with
      | true =>
          rw [Node.after, start_of_started hstarted]
          exact h
      | false =>
          obtain ⟨kept, flooding, tally, -, -, heq⟩ := start_spec hstarted
          rw [Node.after, heq]
          exact fun _ => h hstarted
  | detach => exact fun _ => rfl
  | addNeighbour b => exact h
  | removeNeighbour b => exact h
  | setAdmissible b admissible =>
      obtain ⟨kept, flooding, tally, -, -, heq⟩ :=
        setAdmissible_spec n b admissible
      rw [Node.after, heq]
      exact h
  | tick now => exact fun _ => (tick_fields n now).1
  | pop =>
      rcases popFrom_spec n n.outgoing with
        ⟨tally, hpop, -⟩ | ⟨lost, o, rest, tally, hpop, -⟩ <;>
      · rw [Node.after, pop, hpop]
        exact h
  | addPrefix net flags => exact h.used (used_addPrefix n net flags)
  | removePrefix net => exact h.used (used_removePrefix n net)
  | queueFrame frame => exact h.queueFrame frame
  | queueBytes bytes =>
      rw [Node.after, queueBytes]
      split
      · exact h.queueFrame _
      · exact h

theorem links_handle (n : Node) (frame : Frame) :
    (n.handle frame).links = n.links := by
  obtain ⟨out, replica, kept, flooding, tally, -, -, -, heq⟩ :=
    handle_spec n frame
  rw [heq]
  rfl

theorem links_foldl_handle (n : Node) (frames : List Frame) :
    (frames.foldl handle n).links = n.links := foldl_same links_handle frames n

theorem links_tick (n : Node) (now : Nat) : (n.tick now).links = n.links := by
  have hhandled : (n.handled now).links = n.links := links_foldl_handle _ _
  rw [tick_eq, (followed_fields _).2.1]
  split
  · exact hhandled
  · exact hhandled

theorem links_used {n n' : Node} {p : Press} (h : Used n p n') :
    n'.links = n.links := by
  cases h with
  | refused => rfl
  | unchanged => exact (followed_fields _).2.1
  | advanced => exact (followed_fields _).2.1

def Call.isLinking : Call → Bool
  | .addNeighbour _ => true
  | .removeNeighbour _ => true
  | .setAdmissible .. => true
  | _ => false

/-- Only calls about neighbours change the neighbours. -/
theorem links_after (n : Node) {c : Call} (hc : c.isLinking = false) :
    (n.after c).links = n.links := by
  cases c with
  | start =>
      cases hstarted : n.started with
      | true => rw [Node.after, start_of_started hstarted]
      | false =>
          obtain ⟨kept, flooding, tally, -, -, heq⟩ := start_spec hstarted
          rw [Node.after, heq]
          rfl
  | detach => rfl
  | addNeighbour b => cases hc
  | removeNeighbour b => cases hc
  | setAdmissible b admissible => cases hc
  | tick now => exact links_tick n now
  | pop =>
      rcases popFrom_spec n n.outgoing with
        ⟨tally, hpop, -⟩ | ⟨lost, o, rest, tally, hpop, -⟩ <;>
      · rw [Node.after, pop, hpop]
        rfl
  | addPrefix net flags => exact links_used (used_addPrefix n net flags)
  | removePrefix net => exact links_used (used_removePrefix n net)
  | queueFrame frame =>
      rw [Node.after, queueFrame]
      split <;> rfl
  | queueBytes bytes =>
      rw [Node.after, queueBytes]
      split
      · rw [queueFrame]
        split <;> rfl
      · rfl

/-- A node has only the neighbours that it was given. -/
theorem hasNeighbour_after (n : Node) (c : Call) {b : NodeId}
    (h : (n.after c).links.hasNeighbour b = true) :
    n.links.hasNeighbour b = true ∨ c = .addNeighbour b ∧
    b ≠ n.links.owner := by
  cases c with
  | addNeighbour c =>
      rcases Links.hasNeighbour_addNeighbour.1 h with hknown | ⟨rfl, hne⟩
      · exact Or.inl hknown
      · exact Or.inr ⟨rfl, hne⟩
  | removeNeighbour c =>
      obtain ⟨a, ha⟩ := Links.hasNeighbour_iff.1 h
      have herase : (n.links.neighbours.erase c).get? b = some a := ha
      rw [Table.get?_erase] at herase
      split at herase
      · cases herase
      · exact Or.inl (Links.hasNeighbour_iff.2 ⟨a, herase⟩)
  | setAdmissible c admissible =>
      obtain ⟨kept, flooding, tally, -, -, heq⟩ :=
        setAdmissible_spec n c admissible
      rw [Node.after, heq] at h
      exact Or.inl ((Links.hasNeighbour_setAdmissible admissible).symm.trans h)
  | _ =>
      rw [links_after n rfl] at h
      exact Or.inl h

end Node

end OnMesh
