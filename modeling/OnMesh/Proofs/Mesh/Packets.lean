import OnMesh.Proofs.Mesh.Operations
import OnMesh.Proofs.Node.Contact

/-!
# What is on the wire

`between` reads off the messages that are on their way from one station to
another.  A link keeps the order of its packets as long as its latency does not
change, so taking out those that are due takes the first ones.  What the nodes
have sent goes to the end, one packet for each frame that has an addressee.
-/

namespace OnMesh

open Wire (Frame Message)

def Packet.message? (p : Packet) : Option Message :=
  (Frame.parse p.bytes).toOption.map (·.message)

def Packet.Joins (p : Packet) (s t : Station) : Prop :=
  p.source = s ∧ p.target = t

instance (p : Packet) (s t : Station) : Decidable (p.Joins s t) :=
  instDecidableAnd

namespace Mesh

variable {m : Mesh} {s t : Station} {p : Packet} {ps qs : List Packet}

/-- The messages on their way from one station to another, in the order in
which they were sent. -/
def between (s t : Station) (ps : List Packet) : List Message :=
  (ps.filter fun p => p.Joins s t).filterMap Packet.message?

theorem between_append (s t : Station) (ps qs : List Packet) :
    between s t (ps ++ qs) = between s t ps ++ between s t qs := by
  simp [between]

theorem between_flatMap {α : Type} (s t : Station) (xs : List α)
    (f : α → List Packet) :
    between s t (xs.flatMap f) = xs.flatMap fun x => between s t (f x) := by
  rw [between, List.filter_flatMap, List.filterMap_flatMap]
  rfl

theorem between_cons_of_joins {frame : Frame} (h : p.Joins s t)
    (hparse : Frame.parse p.bytes = .ok frame) :
    between s t (p :: ps) = frame.message :: between s t ps := by
  have hmessage : p.message? = some frame.message := by
    rw [Packet.message?, hparse]
    rfl
  simp [between, h, hmessage]

theorem between_cons_of_not_joins (h : ¬ p.Joins s t) :
    between s t (p :: ps) = between s t ps := by
  simp [between, h]

theorem between_eq_nil (h : ∀ p ∈ ps, ¬ p.Joins s t) : between s t ps = [] := by
  rw [between, List.filter_eq_nil_iff.2 fun p hp => by simpa using h p hp]
  rfl

/-! ## Order -/

/-- Of the packets between two stations, those that were sent
first arrive first. -/
def InOrder (ps : List Packet) : Prop :=
  ∀ s t, (ps.filter fun p => p.Joins s t).Pairwise fun p q => p.due ≤ q.due

/-- Taking those that are due out of a list in order takes the first ones. -/
theorem filter_due_append {α : Type} (due : α → Nat) {xs : List α}
    (h : xs.Pairwise fun x y => due x ≤ due y) (now : Nat) :
    (xs.filter fun x => due x ≤ now) ++
      (xs.filter fun x => !(due x ≤ now)) = xs := by
  induction xs with
  | nil => rfl
  | cons x xs ih =>
      obtain ⟨hlater, hrest⟩ := List.pairwise_cons.1 h
      by_cases hx : due x ≤ now
      · rw [List.filter_cons_of_pos (by simpa using hx), List.filter_cons_of_neg
          (by simpa using hx), List.cons_append, ih hrest]
      · have hnone : xs.filter (fun x => due x ≤ now) = [] := by
          rw [List.filter_eq_nil_iff]
          intro y hy hdue
          have := hlater y hy
          have := of_decide_eq_true hdue
          omega
        have hall : xs.filter (fun x => !(due x ≤ now)) = xs := by
          have := ih hrest
          rwa [hnone, List.nil_append] at this
        rw [List.filter_cons_of_neg (by simpa using hx), hnone, List.nil_append,
          List.filter_cons_of_pos (by simpa using hx), hall]

/-- The packets that are due, followed by the others. -/
def dueFirst (now : Nat) (ps : List Packet) : List Packet :=
  (ps.filter fun p => p.due ≤ now) ++ ps.filter fun p => !(p.due ≤ now)

theorem mem_dueFirst_iff {now : Nat} : p ∈ dueFirst now ps ↔ p ∈ ps := by
  rw [dueFirst, List.mem_append, List.mem_filter, List.mem_filter]
  by_cases hp : p.due ≤ now <;> simp [hp]

/-- Each link sees its packets in the same order. -/
theorem InOrder.filter_dueFirst (h : InOrder ps) (now : Nat) (s t : Station) :
    ((dueFirst now ps).filter fun p => p.Joins s t) = ps.filter fun p =>
      p.Joins s t := by
  calc
    (dueFirst now ps).filter (fun p => p.Joins s t) =
        dueFirst now (ps.filter fun p => p.Joins s t) := by
      simp only [dueFirst, List.filter_append,
        List.filter_filter, Bool.and_comm]
    _ = ps.filter fun p => p.Joins s t :=
      filter_due_append Packet.due (h s t) now

theorem InOrder.dueFirst (h : InOrder ps) (now : Nat) :
    InOrder (dueFirst now ps) := by
  intro s t
  rw [h.filter_dueFirst now s t]
  exact h s t

theorem InOrder.between_dueFirst (h : InOrder ps) (now : Nat) (s t : Station) :
    between s t (Mesh.dueFirst now ps) = between s t ps :=
  congrArg (List.filterMap Packet.message?) (h.filter_dueFirst now s t)

theorem InOrder.sublist (h : InOrder ps) (hsub : qs.Sublist ps) : InOrder qs :=
  fun s t => (h s t).sublist (hsub.filter _)

/-! ## What the nodes have sent -/

theorem latency_pos (m : Mesh) (s t : Station) : 0 < m.latency s t :=
  Nat.le_max_right _ _

theorem mem_arrivals_iff {ls : List Letter} :
    p ∈ m.arrivals ls ↔ ∃ l ∈ ls, m.locate? l.to = some p.target ∧
      p = ⟨m.now + m.latency l.source p.target, l.source,
        p.target, l.bytes⟩ := by
  rw [arrivals, List.mem_filterMap]
  constructor
  · rintro ⟨l, hl, hp⟩
    obtain ⟨target, htarget, rfl⟩ := Option.map_eq_some_iff.1 hp
    exact ⟨l, hl, htarget, rfl⟩
  · rintro ⟨l, hl, htarget, hp⟩
    refine ⟨l, hl, ?_⟩
    rw [htarget, Option.map_some, ← hp]

theorem due_of_mem_arrivals {ls : List Letter} (h : p ∈ m.arrivals ls) :
    p.due = m.now + m.latency p.source p.target := by
  obtain ⟨l, -, -, hp⟩ := mem_arrivals_iff.1 h
  rw [hp]

/-- What is sent at one time arrives after everything that was sent
before on its link. -/
theorem InOrder.append_arrivals (h : InOrder ps)
    (hdue : ∀ p ∈ ps, p.due ≤ m.now + m.latency p.source p.target)
    (ls : List Letter) : InOrder (ps ++ m.arrivals ls) := by
  intro s t
  have hnew : ∀ q ∈ (m.arrivals ls).filter fun p => p.Joins s t,
      q.due = m.now + m.latency s t := by
    intro q hq
    obtain ⟨hmem, hjoins⟩ := List.mem_filter.1 hq
    obtain ⟨rfl, rfl⟩ := of_decide_eq_true hjoins
    exact due_of_mem_arrivals hmem
  rw [List.filter_append, List.pairwise_append]
  refine ⟨h s t, List.pairwise_of_forall_mem_list ?_, ?_⟩
  · intro p hp q hq
    exact Nat.le_of_eq ((hnew p hp).trans (hnew q hq).symm)
  · intro p hp q hq
    obtain ⟨hmem, hjoins⟩ := List.mem_filter.1 hp
    have hle := hdue p hmem
    obtain ⟨hsource, htarget⟩ := of_decide_eq_true hjoins
    rw [hsource, htarget] at hle
    rw [hnew q hq]
    exact hle

/-- The frames of one node for another, once they are on the wire. -/
theorem between_arrivals_letters {out : List Outgoing} {b : NodeId}
    (hlocate : ∀ c, m.locate? c = some t ↔ c = b)
    (hread : ∀ o ∈ out, ∃ bytes header, o.frame.serialize = .ok bytes ∧
      Frame.parse bytes = .ok ⟨header, o.frame.message⟩) :
    between s t (m.arrivals (letters s out)) = Node.sentTo b out := by
  induction out with
  | nil => rfl
  | cons o out ih =>
      obtain ⟨⟨bytes, header, hbytes, hparse⟩, hrest⟩ :=
        List.forall_mem_cons.1 hread
      have hletters : letters s (o :: out) =
          ⟨s, o.to, bytes⟩ :: letters s out := by
        simp only [letters, List.filterMap_cons, hbytes]
      have hsplit : m.arrivals (letters s (o :: out)) =
          m.arrivals [⟨s, o.to, bytes⟩] ++ m.arrivals (letters s out) := by
        rw [hletters, arrivals, arrivals, arrivals, ← List.filterMap_append]
        rfl
      rw [hsplit, between_append, ih hrest]
      by_cases hto : o.to = b
      · have hone : m.arrivals [⟨s, o.to, bytes⟩] =
            [⟨m.now + m.latency s t, s, t, bytes⟩] := by
          simp [arrivals, (hlocate o.to).2 hto]
        have hjoins : Packet.Joins ⟨m.now + m.latency s t, s, t, bytes⟩ s t :=
          ⟨rfl, rfl⟩
        rw [hone, between_cons_of_joins hjoins hparse, Node.sentTo, Node.sentTo,
          List.filter_cons_of_pos (by simpa using hto)]
        rfl
      · have hnone : between s t (m.arrivals [⟨s, o.to, bytes⟩]) = [] := by
          apply between_eq_nil
          rintro p hp ⟨-, rfl⟩
          obtain ⟨l, hl, htarget, -⟩ := mem_arrivals_iff.1 hp
          rw [List.mem_singleton.1 hl] at htarget
          exact hto ((hlocate o.to).1 htarget)
        rw [hnone, Node.sentTo, Node.sentTo,
          List.filter_cons_of_neg (by simpa using hto)]
        rfl

theorem source_of_mem_letters {out : List Outgoing} {l : Letter}
    (h : l ∈ letters s out) : l.source = s := by
  obtain ⟨o, -, ho⟩ := List.mem_filterMap.1 h
  split at ho
  · cases ho
    rfl
  · cases ho

/-- What one station sends does not start at another. -/
theorem between_arrivals_of_ne {u : Station} (h : u ≠ s) (out : List Outgoing) :
    between s t (m.arrivals (letters u out)) = [] := by
  apply between_eq_nil
  rintro p hp ⟨hsource, -⟩
  obtain ⟨l, hl, -, hp⟩ := mem_arrivals_iff.1 hp
  rw [hp, source_of_mem_letters hl] at hsource
  exact h hsource

end Mesh

end OnMesh
