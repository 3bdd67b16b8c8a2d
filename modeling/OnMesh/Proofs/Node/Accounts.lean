import OnMesh.Proofs.Node.Upkeep

/-!
# Accounts of addresses

A node counts the addresses that came and those that went.  The counters move
where the addresses are reconciled or dropped and nowhere else, so after every
call their difference is the number of addresses that are configured.
-/

namespace OnMesh

open Wire (Frame)

namespace Node

/-- Neither the addresses nor the counters that go with them differ. -/
structure SameAccounts (n m : Node) : Prop where
  added : m.tally.addressesAdded = n.tally.addressesAdded
  removed : m.tally.addressesRemoved = n.tally.addressesRemoved
  addresses : m.addresses = n.addresses

/-- The counters say how many addresses are configured. -/
def Accounted (n : Node) : Prop :=
  n.tally.addressesAdded =
    n.tally.addressesRemoved + n.addresses.configured.size

theorem accounted_make (id : NodeId) (role : Role) (settings : NodeSettings) :
    (make id role settings).Accounted := rfl

theorem Accounted.of_same {n m : Node} (h : n.Accounted)
    (hsame : SameAccounts n m) : m.Accounted := by
  rw [Accounted, hsame.added, hsame.removed, hsame.addresses]
  exact h

/-! ## Calls that leave the accounts alone -/

/-- A quantity that depends neither on the frames to be sent and what is
counted of them, nor on whether the node is attached, its data, its
links or its floods. -/
structure Inward {α : Type} (f : Node → α) : Prop where
  queued : ∀ n outgoing count,
    f { n with outgoing, tally := { n.tally with outgoingQueued := count } } =
      f n
  popped : ∀ n outgoing count,
    f { n with outgoing, tally := { n.tally with outgoingPopped := count } } =
      f n
  suppressed : ∀ n, f n.countSuppressed = f n
  other : ∀ n started replica links flooding,
    f { n with started, replica, links, flooding } = f n

section Inward

variable {α : Type} {f : Node → α}

variable (h : Inward f)

include h

theorem Inward.enqueueOne (n : Node) (o : Outbound) :
    f (n.enqueueOne o) = f n := by
  rw [Node.enqueueOne]
  split
  · rfl
  · exact h.queued n _ _

theorem Inward.enqueue (n : Node) (out : List Outbound) :
    f (n.enqueue out) = f n := by
  rw [Node.enqueue]
  split
  · exact foldl_same h.enqueueOne out n
  · rfl

theorem Inward.greet (n : Node) (b : NodeId) : f (n.greet b) = f n :=
  (h.enqueue _ _).trans (h.other n n.started n.replica n.links _)

theorem Inward.handle (n : Node) (frame : Frame) : f (n.handle frame) = f n :=
  (h.enqueue _ _).trans (h.other n n.started _ n.links _)

theorem Inward.announced (n : Node) : f n.announced = f n :=
  (h.enqueue _ _).trans (h.other n n.started n.replica n.links _)

theorem Inward.start (n : Node) : f n.start = f n := by
  rw [Node.start]
  split
  · rfl
  · exact (foldl_same h.greet _ _).trans
      (h.other n true n.replica n.links n.flooding)

theorem Inward.setAdmissible (n : Node) (b : NodeId) (admissible : Bool) :
    f (n.setAdmissible b admissible).2 = f n := by
  have hlinks := h.other n n.started n.replica
    (n.links.setAdmissible b admissible).2 n.flooding
  simp only [Node.setAdmissible]
  split
  · exact (h.greet _ b).trans hlinks
  · exact hlinks

theorem Inward.popFrom (n : Node) (os : List Outgoing) :
    f (n.popFrom os).2 = f n := by
  induction os generalizing n with
  | nil => exact h.queued n [] n.tally.outgoingQueued
  | cons o os ih =>
      rw [Node.popFrom]
      split
      · exact h.popped n os _
      · exact (ih _).trans (h.suppressed n)

end Inward

/-- The addresses and the counters that go with them. -/
def accounts (n : Node) : Nat × Nat × AddressBook :=
  (n.tally.addressesAdded, n.tally.addressesRemoved, n.addresses)

theorem inward_accounts : Inward accounts :=
  ⟨fun _ _ _ => rfl, fun _ _ _ => rfl, fun _ => rfl, fun _ _ _ _ _ => rfl⟩

theorem SameAccounts.of_accounts {n m : Node} (h : m.accounts = n.accounts) :
    SameAccounts n m := by
  obtain ⟨hadded, hrest⟩ := Prod.mk.inj h
  obtain ⟨hremoved, haddresses⟩ := Prod.mk.inj hrest
  exact ⟨hadded, hremoved, haddresses⟩

theorem accounts_queueFrame (n : Node) (frame : Frame) :
    (n.queueFrame frame).2.accounts = n.accounts := by
  rw [queueFrame]
  split <;> rfl

theorem accounts_queueBytes (n : Node) (bytes : List UInt8) :
    (n.queueBytes bytes).2.accounts = n.accounts := by
  rw [queueBytes]
  split
  · exact accounts_queueFrame n _
  · rfl

/-! ## Calls that move them -/

/-- A reconciliation counts what it reports. -/
theorem Accounted.followNotices {n : Node} (h : n.Accounted) :
    n.followNotices.Accounted := by
  rw [Node.followNotices]
  dsimp only
  split
  · exact h
  · have hsize := n.addresses.size_reconcile n.data
    calc
      n.tally.addressesAdded + (n.addresses.reconcile n.data).1.added.length
      _ = n.tally.addressesRemoved +
            (n.addresses.configured.size +
              (n.addresses.reconcile n.data).1.added.length) := by
        rw [h, Nat.add_assoc]
      _ = n.tally.addressesRemoved +
          ((n.addresses.reconcile n.data).2.configured.size +
            (n.addresses.reconcile n.data).1.removed.length) := by rw [hsize]
      _ = n.tally.addressesRemoved +
          (n.addresses.reconcile n.data).1.removed.length +
            (n.addresses.reconcile n.data).2.configured.size := by omega

/-- A node that leaves counts every address as removed. -/
theorem Accounted.detach {n : Node} (h : n.Accounted) : n.detach.Accounted := by
  have hremoved : n.addresses.configured.values.length =
      n.addresses.configured.size :=
    Table.length_values _
  calc
    n.tally.addressesAdded
    _ = n.tally.addressesRemoved + n.addresses.configured.values.length := by
      rw [hremoved]; exact h
    _ = n.detach.tally.addressesRemoved + n.detach.addresses.configured.size :=
      rfl

theorem Accounted.tick {n : Node} (h : n.Accounted) (now : Nat) :
    (n.tick now).Accounted := by
  have hhandled : (n.handled now).Accounted := by
    rw [handled_eq]
    exact Accounted.of_same (n := n.begun now) h
      (.of_accounts (foldl_same inward_accounts.handle _ _))
  rw [tick_eq]
  apply Accounted.followNotices
  split
  · exact hhandled
  · exact hhandled

theorem Accounted.usePress {n : Node} (h : n.Accounted)
    (act : Press → Except Fault Version × Press) :
    (n.usePress act).2.Accounted :=
  usePress_keeps (fun _ _ => h) (fun _ hm => hm.followNotices)
    (fun m hm => hm.of_same (.of_accounts (inward_accounts.announced m))) act

/-- After every call the counters say how many addresses are configured. -/
theorem Accounted.after {n : Node} (h : n.Accounted) (c : Call) :
    (n.after c).Accounted := by
  cases c with
  | start => exact h.of_same (.of_accounts (inward_accounts.start n))
  | detach => exact h.detach
  | addNeighbour b => exact h
  | removeNeighbour b => exact h
  | setAdmissible b admissible =>
      exact h.of_same
        (.of_accounts (inward_accounts.setAdmissible n b admissible))
  | tick now => exact h.tick now
  | pop => exact h.of_same (.of_accounts (inward_accounts.popFrom n n.outgoing))
  | addPrefix net flags => exact h.usePress _
  | removePrefix net => exact h.usePress _
  | queueFrame frame =>
      exact h.of_same (.of_accounts (accounts_queueFrame n frame))
  | queueBytes bytes =>
      exact h.of_same (.of_accounts (accounts_queueBytes n bytes))

/-! ## All calls -/

/-- Whatever is asked of a node, in whatever order, the addresses that are
configured are those that follow from the data that it holds, and the counters
of what came and what went differ by their number. -/
theorem addresses_follow_data (id : NodeId) (role : Role)
    (settings : NodeSettings) (calls : List Call) :
    let n := calls.foldl after (make id role settings)
    n.addresses.configured = (AddressBook.make n.id).derive n.data ∧
      n.tally.addressesAdded =
        n.tally.addressesRemoved + n.addresses.configured.size := by
  intro n
  have hconfigured : n.Configured :=
    foldl_after (configured_make id role settings)
      (fun _ c h => h.after c) calls
  have hformed : n.Formed :=
    foldl_after (formed_make id role settings)
      (fun m c h => h.of_alike (alike_after m c)) calls
  have haccounted : n.Accounted :=
    foldl_after (accounted_make id role settings) (fun _ c h => h.after c) calls
  refine ⟨?_, haccounted⟩
  calc
    n.addresses.configured = n.addresses.derive n.data := hconfigured.addresses
    _ = (AddressBook.make n.id).derive n.data :=
      AddressBook.derive_congr hformed.addresses _

end Node

end OnMesh
