import OnMesh.Proofs.Channel
import OnMesh.Proofs.Flooding

/-!
# What a node sends keeps it tied

Every outcome of a frame fits one of the ways in which two sides stay tied: a
node that goes on by a frame skips its sender and tells the others, and a node
that stays where it is answers whoever is behind and asks whoever is ahead.  A
greeting says where its sender stands.
-/

namespace OnMesh

open Wire (Frame Message)
open Channel (Side Tied)

namespace Flooding

variable {f : Flooding} {frame : Frame} {r r' : Replica} {links : Links}
  {out : List Outbound}
  {b : NodeId} {other : Side} {there rest back : List Message}

def toward (b : NodeId) (out : List Outbound) : List Message :=
  (out.filter fun o => o.to = b).map (·.message)

theorem mem_toward_iff {m : Message} : m ∈ toward b out ↔ ⟨b, m⟩ ∈ out := by
  rw [toward, List.mem_map]
  constructor
  · rintro ⟨o, ho, rfl⟩
    obtain ⟨hmem, hto⟩ := List.mem_filter.1 ho
    rw [← of_decide_eq_true hto]
    exact hmem
  · intro hmem
    exact ⟨_, List.mem_filter.2 ⟨hmem, decide_eq_true rfl⟩, rfl⟩

theorem toward_nil (b : NodeId) : toward b [] = [] := rfl

theorem toward_self (b : NodeId) (m : Message) : toward b [⟨b, m⟩] = [m] := by
  simp [toward]

theorem toward_eq_nil (h : ∀ o ∈ out, o.to ≠ b) : toward b out = [] := by
  rw [toward, List.filter_eq_nil_iff.2 fun o ho => by simpa using h o ho]
  rfl

theorem toward_passOn_self (f : Flooding) (d : Delta) (links : Links)
    (b : NodeId) : toward b (f.passOn d links b) = [] :=
  toward_eq_nil fun _ ho heq => (mem_passOn_iff.1 ho).2.1.2 heq.symm

/-! ## Greetings -/

theorem bounded_greeting (h : r.Grounded) : (greeting r).Bounded r.version := by
  rw [greeting]
  cases hlast : r.lastDelta with
  | none => exact Message.bounded_snapshotRequest
  | some d => exact Message.bounded_delta.2 (le_of_eq (h.target_eq hlast))

/-- A greeting says where its sender stands. -/
theorem asked_greeting (h : r.Grounded) :
    (greeting r).asked? = some r.version := by
  rw [greeting]
  cases hlast : r.lastDelta with
  | none => rfl
  | some d => exact congrArg some (h.target_eq hlast)

theorem reaches_greeting {v : Version} (h : r.Grounded) (hlt : v < r.version) :
    (greeting r).Reaches r.version := by
  obtain ⟨d, hlast, htarget⟩ := h.lastDelta_of_lt hlt
  rw [greeting, hlast]
  exact Message.reaches_delta.2 (le_of_eq htarget.symm)

/-! ## Frames -/

/-- A frame never takes a replica back. -/
theorem Received.version_le (h : Received f frame r links out r') :
    r.version ≤ r'.version := by
  cases h with
  | applied _ _ _ hlt => exact le_of_lt hlt
  | adopted _ _ _ hlt => exact le_of_lt hlt
  | _ => exact le_refl _

/-- Handling what a neighbour has sent keeps the node tied to that neighbour. -/
theorem Received.tied (h : Received f frame r links out r')
    (hgrounded : r.Grounded)
    (hbounded : r.authority = true → frame.message.Bounded r.version)
    (hadm : links.isAdmissible frame.sender = true)
    (htied : Tied ⟨true, r.version, f.role.forwards⟩ other there
      (frame.message :: rest)) :
    Tied ⟨true, r'.version, f.role.forwards⟩ other
      (there ++ toward frame.sender out) rest := by
  -- most outcomes leave the replica as it is, and differ in what goes back
  have hreply : ∀ l : Message, r' = r → out = [⟨frame.sender, l⟩] →
      l.Bounded r.version →
      (frame.message.Asks r.version → l.Reaches r.version) →
      (¬ frame.message.Bounded r.version → ∃ a, l.asked? = some a ∧
        a ≤ r.version) →
      Tied ⟨true, r'.version, f.role.forwards⟩ other
        (there ++ toward frame.sender out) rest := by
    rintro l rfl rfl hl hanswer hask
    rw [toward_self]
    exact htied.replied hl hanswer hask
  have hsilent : r' = r → out = [] → ¬ frame.message.Asks r.version →
      frame.message.Bounded r.version →
      Tied ⟨true, r'.version, f.role.forwards⟩ other
        (there ++ toward frame.sender out) rest := by
    rintro rfl rfl hasks hold
    rw [toward_nil, List.append_nil]
    exact htied.unanswered hasks hold
  cases h with
  | dropped hnot =>
      rw [hadm] at hnot
      cases hnot
  | applied _ hmessage _ hlt _ =>
      rw [toward_passOn_self, List.append_nil]
      exact htied.raised rfl hlt (by rw [hmessage]; rfl)
  | missed _ hmessage _ hlt _ =>
      refine hreply _ rfl rfl Message.bounded_snapshotRequest ?_ fun _ =>
        ⟨_, rfl, le_refl _⟩
      rw [hmessage, Message.asks_delta]
      exact fun hbehind => absurd hlt (lt_asymm hbehind)
  | foreign _ hmessage hauth hlt =>
      rw [hmessage, Message.bounded_delta] at hbounded
      exact absurd hlt (not_lt.2 (hbounded hauth))
  | repaired _ hmessage hlt hlast =>
      have htarget := hgrounded.target_eq hlast
      apply hreply _ rfl rfl
      · exact Message.bounded_delta.2 (le_of_eq htarget)
      · exact fun _ => Message.reaches_delta.2 (le_of_eq htarget.symm)
      · rw [hmessage, Message.bounded_delta]
        exact fun hnot => absurd (le_of_lt hlt) hnot
  | unrepaired _ _ hlt hlast =>
      obtain ⟨last, hsome, -⟩ := hgrounded.lastDelta_of_lt hlt
      rw [hlast] at hsome
      cases hsome
  | known _ hmessage heq =>
      apply hsilent rfl rfl
      · rw [hmessage, Message.asks_delta]
        exact not_lt.2 (le_of_eq heq.symm)
      · rw [hmessage, Message.bounded_delta]
        exact le_of_eq heq
  | served _ hmessage _ =>
      apply hreply _ rfl rfl (Message.bounded_snapshot.2 (le_refl _))
      · exact fun _ => Message.reaches_snapshot.2 (le_refl _)
      · rw [hmessage]
        exact fun hnot => absurd Message.bounded_snapshotRequest hnot
  | unserved _ hmessage hle =>
      apply hsilent rfl rfl
      · rw [hmessage, Message.asks_snapshotRequest]
        exact not_lt.2 hle
      · rw [hmessage]
        exact Message.bounded_snapshotRequest
  | adopted _ hmessage _ hlt =>
      rw [toward_passOn_self, List.append_nil]
      exact htied.raised rfl hlt (by rw [hmessage]; rfl)
  | ignored _ hmessage hold =>
      apply hsilent rfl rfl
      · rw [hmessage]
        exact Message.not_asks_snapshot
      · rcases hold with hauth | hle
        · exact hbounded hauth
        · rw [hmessage]
          exact Message.bounded_snapshot.2 hle

/-- Handling a frame from elsewhere keeps a node tied to a neighbour, which
hears of any progress. -/
theorem Received.tied_past (h : Received f frame r links out r')
    (hb : frame.sender ≠ b) (hadm : links.isAdmissible b = true)
    (htied : Tied ⟨true, r.version, f.role.forwards⟩ other there back) :
    Tied ⟨true, r'.version, f.role.forwards⟩ other
      (there ++ toward b out) back := by
  have hnone : ∀ o ∈ ([] : List Outbound), o.to ≠ b := by simp
  have hreply : ∀ m : Message,
      ∀ o ∈ [(⟨frame.sender, m⟩ : Outbound)], o.to ≠ b := by
    intro m o ho
    rw [List.mem_singleton.1 ho]
    exact hb
  -- only a replica that goes on has something for the other neighbours
  have hpassed : ∀ d : Delta, d.target = r'.version →
      out = f.passOn d links frame.sender →
      Tied ⟨true, r'.version, f.role.forwards⟩ other
        (there ++ toward b out) back := by
    rintro d htarget rfl
    refine htied.advanced rfl rfl h.version_le ?_ ?_
    · intro m hm
      obtain ⟨-, -, hmessage⟩ := mem_passOn_iff.1 (mem_toward_iff.1 hm)
      have hdelta : m = .delta d := hmessage
      rw [hdelta]
      exact Message.bounded_delta.2 (le_of_eq htarget)
    · intro _ hforwards _
      refine ⟨.delta d,
        mem_toward_iff.2 (mem_passOn_iff.2 ⟨hforwards, ⟨hadm, hb⟩, rfl⟩), ?_⟩
      exact Message.reaches_delta.2 (le_of_eq htarget.symm)
  have hkept : r' = r → (∀ o ∈ out, o.to ≠ b) →
      Tied ⟨true, r'.version, f.role.forwards⟩ other
        (there ++ toward b out) back := by
    rintro rfl hout
    rw [toward_eq_nil hout, List.append_nil]
    exact htied
  cases h with
  | applied => exact hpassed _ rfl rfl
  | adopted => exact hpassed _ rfl rfl
  | missed => exact hkept rfl (hreply _)
  | repaired => exact hkept rfl (hreply _)
  | served => exact hkept rfl (hreply _)
  | _ => exact hkept rfl hnone

end Flooding

end OnMesh
