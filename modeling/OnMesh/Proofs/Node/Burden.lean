import OnMesh.Proofs.Node.Identity
import OnMesh.Proofs.Wire.RoundTrip
import Mathlib.Algebra.Order.BigOperators.Group.List
import Mathlib.Algebra.Order.Group.Nat

/-!
# What a frame can still lead to

A message weighs as much as the traffic that it can lead to while no node goes
on to another version: a repair is a delta to a later version than the one that
it answers, a gap asks for a snapshot, and a snapshot is not answered.  Handling
a frame either raises the version or sends what weighs less than the frame.
-/

namespace OnMesh

open Wire (Frame Message Header)

/-- How many versions can come after this one. -/
def Version.headroom (v : Version) : Nat := UInt64.size - v.number.toNat

theorem Version.headroom_lt {v w : Version} (h : v < w) :
    w.headroom < v.headroom := by
  have hlt := Version.lt_iff.1 h
  have hbound : w.number.toNat < UInt64.size := w.number.toNat_lt
  rw [headroom, headroom]
  omega

/-- The weight of a message; those with a lower one are all that it can lead
to. -/
def Wire.Message.weight : Message → Nat
  | .delta d => 3 + d.target.headroom
  | .snapshotRequest _ => 2
  | .snapshot _ => 1

theorem Wire.Message.weight_pos (m : Message) : 0 < m.weight := by
  cases m with
  | delta d => exact Nat.add_pos_left (by decide) _
  | snapshotRequest v => exact Nat.zero_lt_two
  | snapshot data => exact Nat.zero_lt_one

/-- What is sent unchecked weighs in as it is read; bytes that are
no frame weigh least. -/
def Wire.Frame.bytesWeight (bytes : List UInt8) : Nat :=
  match Frame.parse bytes with
  | .ok frame => frame.message.weight
  | .error _ => 1

theorem Wire.Frame.bytesWeight_pos (bytes : List UInt8) :
    0 < Frame.bytesWeight bytes := by
  rw [bytesWeight]
  split
  · exact Message.weight_pos _
  · exact Nat.zero_lt_one

/-- On the wire a frame weighs no more than its message. -/
theorem Wire.Frame.bytesWeight_serialize {frame : Frame} {bytes : List UInt8}
    (hversion : frame.header.version = Header.currentVersion)
    (h : frame.serialize = .ok bytes) :
    Frame.bytesWeight bytes ≤ frame.message.weight := by
  by_cases hadvances : frame.message.Advances
  · rw [bytesWeight, Frame.parse_serialize hversion hadvances h]
  · cases hmessage : frame.message with
    | delta d =>
        rw [hmessage] at hadvances
        rw [bytesWeight, Frame.parse_serialize_of_not_advances hversion hmessage
          (not_lt.1 hadvances) h]
        exact Message.weight_pos _
    | snapshotRequest v => exact absurd (hmessage ▸ trivial) hadvances
    | snapshot data => exact absurd (hmessage ▸ trivial) hadvances

/-- A frame raises the version, or what is sent in answer weighs less. -/
theorem Flooding.Received.rises_or_lighter {f : Flooding} {frame : Frame}
    {r r' : Replica} {links : Links} {out : List Outbound}
    (h : Received f frame r links out r') (hg : r.Grounded) :
    r.version < r'.version ∨
      r' = r ∧
      (out.map fun o => o.message.weight).sum < frame.message.weight := by
  have hpos := frame.message.weight_pos
  cases h with
  | dropped => exact Or.inr ⟨rfl, hpos⟩
  | applied _ _ _ hlt => exact Or.inl hlt
  | missed _ hmessage =>
      refine Or.inr ⟨rfl, ?_⟩
      rw [hmessage]
      simp only [List.map_cons, List.map_nil, List.sum_cons,
        List.sum_nil, Message.weight]
      omega
  | foreign => exact Or.inr ⟨rfl, hpos⟩
  | @repaired d last _ hmessage hlt hlast =>
      refine Or.inr ⟨rfl, ?_⟩
      obtain ⟨last', hlast', htarget⟩ := hg.lastDelta_of_lt hlt
      rw [hlast] at hlast'
      cases hlast'
      have hless := Version.headroom_lt hlt
      rw [hmessage]
      simp only [List.map_cons, List.map_nil, List.sum_cons, List.sum_nil,
        Message.weight, htarget]
      omega
  | unrepaired => exact Or.inr ⟨rfl, hpos⟩
  | known => exact Or.inr ⟨rfl, hpos⟩
  | served _ hmessage =>
      refine Or.inr ⟨rfl, ?_⟩
      rw [hmessage]
      exact Nat.one_lt_two
  | unserved => exact Or.inr ⟨rfl, hpos⟩
  | adopted _ _ _ hlt => exact Or.inl hlt
  | ignored => exact Or.inr ⟨rfl, hpos⟩

namespace Node

def sending (n : Node) : Nat :=
  (n.outgoing.map fun o => o.frame.message.weight).sum

/-- The weight of what waits to be sent, and of what can be sent in answer to
the frames that wait. -/
def burden (n : Node) : Nat :=
  n.sending + (n.incoming.map fun f => f.message.weight - 1).sum

theorem sending_queued (n : Node) (kept : List Outbound) (flooding : Flooding)
    (tally : Tally) :
    (n.queued kept flooding tally).sending =
      n.sending + (kept.map fun o => o.message.weight).sum := by
  rw [sending, sending, queued, List.map_append, List.sum_append, List.map_map]
  rfl

theorem handle_rises_or_lighter {n : Node} (h : n.replica.Grounded)
    (frame : Frame) :
    n.version < (n.handle frame).version ∨
    (n.handle frame).version = n.version ∧
      (n.handle frame).sending < n.sending + frame.message.weight := by
  obtain ⟨out, replica, kept, flooding, tally, hreceived, henq, -, heq⟩ :=
    handle_spec n frame
  rw [heq, sending_queued]
  rcases hreceived.rises_or_lighter h with hlt | ⟨hsame, hless⟩
  · exact Or.inl hlt
  · refine Or.inr ⟨congrArg Replica.version hsame, ?_⟩
    have hkept : (kept.map fun o => o.message.weight).sum ≤
        (out.map fun o => o.message.weight).sum :=
      (henq.sublist.map _).sum_le_sum fun _ _ => Nat.zero_le _
    show n.sending + _ < _
    omega

/-- Handling frames counts up, or sends no more than it takes off the queue. -/
theorem foldl_handle_rises_or_lighter {n : Node} (h : n.replica.Grounded)
    (frames : List Frame) :
    n.version < (frames.foldl handle n).version ∨
      (frames.foldl handle n).version = n.version ∧
      (frames.foldl handle n).sending ≤
        n.sending + (frames.map fun f => f.message.weight - 1).sum := by
  induction frames generalizing n with
  | nil => exact Or.inr ⟨rfl, Nat.le_refl _⟩
  | cons frame frames ih =>
      rw [List.foldl_cons, List.map_cons, List.sum_cons]
      have hpos := frame.message.weight_pos
      rcases handle_rises_or_lighter h frame with hlt | ⟨hsame, hless⟩ <;>
        rcases ih (grounded_handle h frame)
          with hltRest | ⟨hsameRest, hlessRest⟩
      · exact Or.inl (lt_trans hlt hltRest)
      · exact Or.inl (hsameRest ▸ hlt)
      · exact Or.inl (hsame ▸ hltRest)
      · exact Or.inr ⟨hsameRest.trans hsame, by omega⟩

/-- A tick raises the version, or it adds no burden. -/
theorem tick_rises_or_lighter {n : Node} (h : n.replica.Grounded) (now : Nat) :
    n.version < (n.tick now).version ∨
      (n.tick now).version = n.version ∧ (n.tick now).burden ≤ n.burden := by
  obtain ⟨hincoming, houtgoing, hversion⟩ := tick_fields n now
  have hburden : (n.tick now).burden = (n.handled now).sending := by
    rw [burden, hincoming, sending, houtgoing]
    rfl
  rw [hburden, hversion]
  rcases foldl_handle_rises_or_lighter (n := { n with
    now, incoming := []
    tally := { n.tally with ticks := n.tally.ticks + 1 } }) h n.incoming
    with hlt | ⟨hsame, hless⟩
  · exact Or.inl hlt
  · exact Or.inr ⟨hsame, hless⟩

/-- A node that has no frames to handle has nothing more to send after a
tick. -/
theorem outgoing_tick_of_idle {n : Node} (h : n.incoming = []) (now : Nat) :
    (n.tick now).outgoing = n.outgoing := by
  rw [(tick_fields n now).2.1, handled, h]
  rfl

/-- What comes in, comes off what was on the wire. -/
theorem queueBytes_lighter (n : Node) (bytes : List UInt8) :
    (n.queueBytes bytes).2.version = n.version ∧
      (n.queueBytes bytes).2.burden < n.burden + Frame.bytesWeight bytes := by
  have hpos := Frame.bytesWeight_pos bytes
  rw [queueBytes]
  cases hparse : Frame.parse bytes with
  | error fault => exact ⟨rfl, Nat.lt_add_of_pos_right hpos⟩
  | ok frame =>
      have hweight : Frame.bytesWeight bytes = frame.message.weight := by
        rw [Frame.bytesWeight, hparse]
      simp only [queueFrame]
      split
      · exact ⟨rfl, Nat.lt_add_of_pos_right hpos⟩
      · refine ⟨rfl, ?_⟩
        rw [hweight] at hpos ⊢
        simp only [burden, sending, List.map_append, List.sum_append,
          List.map_cons, List.map_nil, List.sum_cons, List.sum_nil]
        omega

/-- What is popped comes off the burden. -/
theorem popAll_lighter (n : Node) :
    n.popAll.2.version = n.version ∧
      n.popAll.2.burden + (n.popAll.1.map fun o => o.frame.message.weight).sum ≤
        n.burden := by
  obtain ⟨tally, hpop⟩ := popAll_spec n
  rw [hpop]
  refine ⟨rfl, ?_⟩
  have hsendable :
      (n.sendable.map fun o => o.frame.message.weight).sum ≤ n.sending :=
    ((List.filter_sublist (l := n.outgoing)).map _).sum_le_sum fun _ _ =>
      Nat.zero_le _
  show 0 + (n.incoming.map fun f => f.message.weight - 1).sum +
    (n.sendable.map fun o => o.frame.message.weight).sum ≤
      n.sending + (n.incoming.map fun f => f.message.weight - 1).sum
  omega

end Node

end OnMesh
