import OnMesh.Proofs.Mesh.Operations
import OnMesh.Proofs.Node.Burden

/-!
# Traffic dies out

If nothing but steps happens, a mesh comes to rest.  A step either raises the
version of some node, which can happen only so often, or it makes the messages
that are around lighter, or it brings the frames on the wire closer to arriving.
This holds in every state that operations lead to, with any number of
authorities and with frames that no node of the mesh has sent.
-/

namespace OnMesh

open Wire (Frame Message)

namespace Mesh

variable {m : Mesh}

/-- The versions that the nodes can still go through. -/
def headroom (m : Mesh) : Nat := m.nodes.total fun n => n.version.headroom

def airborne (ps : List Packet) : Nat :=
  (ps.map fun p => Frame.bytesWeight p.bytes).sum

def load (m : Mesh) : Nat := airborne m.inFlight + m.nodes.total Node.burden

/-- The ticks that the frames on the wire have yet to wait. -/
def wait (m : Mesh) : Nat := (m.inFlight.map fun p => p.due - m.now).sum

/-- No frame waits at any node. -/
def Idle (m : Mesh) : Prop := m.Holds fun n => n.incoming = [] ∧ n.outgoing = []

instance : Decidable m.Idle := inferInstanceAs (Decidable (m.Holds _))

/-- Latest deltas end at the data held, and nodes send only what they have
made. -/
def Regular (m : Mesh) : Prop := m.Holds fun n => n.replica.Grounded ∧ n.Signed

theorem regular_after (n : Node) (c : Node.Call)
    (h : n.replica.Grounded ∧ n.Signed) :
    (n.after c).replica.Grounded ∧ (n.after c).Signed :=
  ⟨Node.grounded_after h.1 c, h.2.after c⟩

theorem Regular.step (h : m.Regular) : m.step.Regular :=
  Holds.step regular_after h

theorem regular_foldl_perform (settings : Settings) (ops : List Op) :
    (ops.foldl perform (make settings)).Regular := by
  apply holds_foldl_perform regular_after
  intro id role settings
  exact ⟨Replica.grounded_make _ _, Node.signed_make id role settings⟩

/-! ## Delivery -/

theorem airborne_filter (ps : List Packet) (p : Packet → Bool) :
    airborne (ps.filter p) + airborne (ps.filter fun q => !p q) =
      airborne ps := by
  induction ps with
  | nil => rfl
  | cons q ps ih =>
      simp only [airborne, List.filter_cons] at ih ⊢
      cases p q with
      | true => simp; omega
      | false => simp; omega

/-- A packet that is delivered comes off what is around. -/
theorem deliver_lighter (m : Mesh) (p : Packet) :
    (m.deliver p).headroom = m.headroom ∧
      (m.deliver p).nodes.total Node.burden + 1 ≤
        m.nodes.total Node.burden + Frame.bytesWeight p.bytes := by
  have hpos := Frame.bytesWeight_pos p.bytes
  cases hp : m.nodes.get? p.target with
  | none =>
      rw [deliver_of_none hp]
      exact ⟨rfl, by omega⟩
  | some n =>
      obtain ⟨tally, heq⟩ := deliver_of_some hp
      obtain ⟨hversion, hburden⟩ := n.queueBytes_lighter p.bytes
      have hroom := Table.total_insert (fun n => n.version.headroom) hp
        (n.queueBytes p.bytes).2
      have hload := Table.total_insert Node.burden hp (n.queueBytes p.bytes).2
      rw [heq]
      refine ⟨?_, ?_⟩
      · rw [hversion] at hroom
        exact Nat.add_right_cancel hroom
      · show (m.nodes.insert p.target
          (n.queueBytes p.bytes).2).total Node.burden + 1 ≤ _
        omega

theorem foldl_deliver_lighter (m : Mesh) (ps : List Packet) :
    (ps.foldl deliver m).headroom = m.headroom ∧
      (ps.foldl deliver m).nodes.total Node.burden + ps.length ≤
        m.nodes.total Node.burden + airborne ps := by
  induction ps generalizing m with
  | nil => exact ⟨rfl, Nat.le_refl _⟩
  | cons p ps ih =>
      obtain ⟨hroom, hburden⟩ := deliver_lighter m p
      obtain ⟨hroomRest, hburdenRest⟩ := ih (m.deliver p)
      refine ⟨hroomRest.trans hroom, ?_⟩
      simp only [airborne, List.map_cons, List.sum_cons, List.length_cons,
        List.foldl_cons]
        at hburden hburdenRest ⊢
      omega

theorem deliverDue_lighter (m : Mesh) :
    m.deliverDue.headroom = m.headroom ∧
    m.deliverDue.load + m.due.length ≤ m.load := by
  obtain ⟨hroom, hburden⟩ := foldl_deliver_lighter
    { m with inFlight := m.inFlight.filter fun p => !(p.due ≤ m.now) } m.due
  refine ⟨hroom, ?_⟩
  have hsplit := airborne_filter m.inFlight fun p => p.due ≤ m.now
  have hflightLoad : airborne m.deliverDue.inFlight =
      airborne (m.inFlight.filter fun p => !(p.due ≤ m.now)) :=
    congrArg airborne m.deliverDue_fields.1
  rw [load, load, hflightLoad, ← hsplit]
  have hburden' : m.deliverDue.nodes.total Node.burden + m.due.length ≤
      m.nodes.total Node.burden + airborne m.due := hburden
  show _ ≤ airborne m.due + _ + _
  omega

/-! ## Ticks -/

/-- When all nodes tick, some node counts up, or there is no more to be done
than before. -/
theorem tickAll_rises_or_lighter (h : m.Regular) :
    m.tickAll.headroom < m.headroom ∨
      m.tickAll.headroom = m.headroom ∧ m.tickAll.load ≤ m.load := by
  have hnodes : ∀ s n, m.nodes.get? s = some n →
      (n.tick m.now).version.headroom < n.version.headroom ∨
        (n.tick m.now).version.headroom = n.version.headroom ∧
          (n.tick m.now).burden ≤ n.burden := by
    intro s n hn
    rcases Node.tick_rises_or_lighter (h s n hn).1 m.now
      with hlt | ⟨hsame, hless⟩
    · exact Or.inl (Version.headroom_lt hlt)
    · exact Or.inr ⟨congrArg Version.headroom hsame, hless⟩
  have htotal := Table.total_lt_or_le hnodes
  have hroom : m.tickAll.headroom = m.nodes.total fun n =>
      (n.tick m.now).version.headroom :=
    Table.total_map _ _ _
  have hload : m.tickAll.load = airborne m.inFlight +
      m.nodes.total fun n => (n.tick m.now).burden :=
    congrArg (airborne m.inFlight + ·) (Table.total_map _ _ _)
  rw [hroom, hload, headroom, load]
  omega

/-! ## Transmission -/

theorem airborne_transmit (m : Mesh) (l : Letter) :
    airborne (m.transmit l).inFlight ≤
      airborne m.inFlight + Frame.bytesWeight l.bytes := by
  rw [transmit]
  split
  · exact Nat.le_add_right _ _
  · simp [airborne]

theorem airborne_foldl_transmit (m : Mesh) (ls : List Letter) :
    airborne (ls.foldl transmit m).inFlight ≤
      airborne m.inFlight +
        (ls.map fun l => Frame.bytesWeight l.bytes).sum := by
  induction ls generalizing m with
  | nil => exact Nat.le_refl _
  | cons l ls ih =>
      have hhead := airborne_transmit m l
      have hrest := ih (m.transmit l)
      simp only [List.foldl_cons, List.map_cons, List.sum_cons]
      omega

/-- On the wire the frames of a node weigh no more than in its queue. -/
theorem weight_letters (s : Station) {out : List Outgoing}
    (h : ∀ o ∈ out, o.frame.header.version = Wire.Header.currentVersion) :
    ((letters s out).map fun l => Frame.bytesWeight l.bytes).sum ≤
      (out.map fun o => o.frame.message.weight).sum := by
  induction out with
  | nil => exact Nat.le_refl _
  | cons o out ih =>
      obtain ⟨hhead, htail⟩ := List.forall_mem_cons.1 h
      have hrest := ih htail
      rw [letters] at hrest ⊢
      cases hbytes : o.frame.serialize with
      | error fault =>
          rw [List.filterMap_cons_none (by rw [hbytes]),
            List.map_cons, List.sum_cons]
          omega
      | ok bytes =>
          have hweight := Frame.bytesWeight_serialize hhead hbytes
          rw [List.filterMap_cons_some (by rw [hbytes]), List.map_cons,
            List.sum_cons, List.map_cons, List.sum_cons]
          show Frame.bytesWeight bytes + _ ≤ _
          omega

theorem popAll_signed {n : Node} (h : n.Signed) {o : Outgoing}
    (ho : o ∈ n.popAll.1) :
    o.frame.header.version = Wire.Header.currentVersion := by
  obtain ⟨tally, hpop⟩ := n.popAll_spec
  rw [hpop] at ho
  obtain ⟨message, hframe⟩ := h o (List.mem_filter.1 ho).1
  rw [hframe]
  rfl

/-- What is put on the wire weighs no more than what the nodes hand out. -/
theorem weight_posted (h : m.Regular) :
    (m.posted.map fun l => Frame.bytesWeight l.bytes).sum ≤
      m.nodes.total fun n =>
        (n.popAll.1.map fun o => o.frame.message.weight).sum := by
  have hmem : ∀ e ∈ m.nodes.entries, ∀ o ∈ e.2.popAll.1,
      o.frame.header.version = Wire.Header.currentVersion := by
    intro e he o ho
    exact popAll_signed (h e.1 e.2 (Table.get?_of_mem he)).2 ho
  rw [posted, Table.total, Table.values, List.map_map]
  generalize m.nodes.entries = es at hmem
  induction es with
  | nil => exact Nat.le_refl _
  | cons e es ih =>
      obtain ⟨hhead, htail⟩ := List.forall_mem_cons.1 hmem
      have hfirst := weight_letters e.1 hhead
      have hrest := ih htail
      simp only [List.flatMap_cons, List.map_append, List.sum_append,
        List.map_cons, List.sum_cons, Function.comp_apply]
      omega

theorem transmitAll_lighter (h : m.Regular) :
    m.transmitAll.headroom = m.headroom ∧ m.transmitAll.load ≤ m.load := by
  constructor
  · rw [headroom, nodes_transmitAll, Table.total_map, headroom]
    exact congrArg (m.nodes.total ·)
      (funext fun n => by rw [(n.popAll_lighter).1])
  · have hflight : airborne m.transmitAll.inFlight ≤
        airborne m.inFlight +
          (m.posted.map fun l => Frame.bytesWeight l.bytes).sum := by
      rw [transmitAll_eq]
      exact airborne_foldl_transmit _ _
    have hposted := weight_posted h
    have hburden : m.transmitAll.nodes.total Node.burden +
        (m.nodes.total fun n =>
          (n.popAll.1.map fun o => o.frame.message.weight).sum) ≤
          m.nodes.total Node.burden := by
      rw [nodes_transmitAll, Table.total_map, ← Table.total_add]
      exact Table.total_le fun s n _ => n.popAll_lighter.2
    rw [load, load]
    omega

/-! ## Steps -/

theorem regular_deliverDue (h : m.Regular) : m.deliverDue.Regular :=
  Holds.deliverDue regular_after h

theorem regular_tickAll (h : m.Regular) : m.tickAll.Regular :=
  Holds.map h fun n hn => regular_after n (.tick _) hn

/-- A step raises a version, or everything around gets lighter by the
frames that arrived. -/
theorem step_rises_or_lighter (h : m.Regular) :
    m.step.headroom < m.headroom ∨
      m.step.headroom = m.headroom ∧
      m.step.load + m.later.due.length ≤ m.load := by
  obtain ⟨hroom, hload⟩ := deliverDue_lighter m.later
  have hdelivered : m.later.deliverDue.Regular := regular_deliverDue h
  obtain ⟨hroomSent, hloadSent⟩ :=
    transmitAll_lighter (regular_tickAll hdelivered)
  have hroomLater : m.later.headroom = m.headroom := rfl
  have hloadLater : m.later.load = m.load := rfl
  rw [step_eq]
  rcases tickAll_rises_or_lighter hdelivered with hlt | ⟨hsame, hless⟩
  · omega
  · omega

/-- After a step no frame waits at any node. -/
theorem idle_step (m : Mesh) : m.step.Idle := by
  intro s n hn
  rw [step_eq, nodes_transmitAll] at hn
  obtain ⟨k, hk, rfl⟩ := Table.get?_map_eq_some_iff.1 hn
  obtain ⟨j, -, rfl⟩ := Table.get?_map_eq_some_iff.1 hk
  obtain ⟨tally, hpop⟩ := (j.tick m.later.deliverDue.now).popAll_spec
  rw [hpop]
  exact ⟨(Node.tick_fields j _).1, rfl⟩

theorem lt_due_of_later {p : Packet} (hdue : m.later.due = [])
    (hp : p ∈ m.inFlight) : m.now + 1 < p.due := by
  have hnot := List.filter_eq_nil_iff.1 hdue p hp
  exact Nat.lt_of_not_le fun hle => hnot (decide_eq_true hle)

/-- As long as no frame arrives, an idle mesh sends nothing. -/
theorem inFlight_step_of_not_due (hidle : m.Idle) (hdue : m.later.due = []) :
    m.step.inFlight = m.inFlight := by
  have hpending : m.inFlight.filter (fun p => !(p.due ≤ m.now + 1)) =
      m.inFlight := by
    rw [List.filter_eq_self]
    intro p hp
    have hlt := lt_due_of_later hdue hp
    simpa using hlt
  have hdelivered : m.later.deliverDue = m.later := by
    show m.later.due.foldl deliver { m.later with inFlight := _ } = m.later
    rw [hdue, List.foldl_nil]
    exact congrArg (fun ps => { m.later with inFlight := ps }) hpending
  have hposted : m.later.tickAll.posted = [] := by
    rw [posted, List.flatMap_eq_nil_iff]
    intro e he
    obtain ⟨n, hn, heq⟩ := Table.get?_map_eq_some_iff.1 (Table.get?_of_mem he)
    obtain ⟨hincoming, houtgoing⟩ := hidle e.1 n hn
    have hnone : e.2.popAll.1 = [] := by
      obtain ⟨tally, hpop⟩ := e.2.popAll_spec
      rw [hpop, ← heq]
      show (n.tick _).outgoing.filter _ = []
      rw [Node.outgoing_tick_of_idle hincoming, houtgoing]
      rfl
    rw [hnone]
    rfl
  rw [step_eq, hdelivered, transmitAll_eq, hposted]
  rfl

theorem wait_lt (ps : List Packet) {now : Nat} (hne : ps ≠ [])
    (h : ∀ p ∈ ps, now + 1 < p.due) :
    (ps.map fun p => p.due - (now + 1)).sum <
      (ps.map fun p => p.due - now).sum := by
  induction ps with
  | nil => exact absurd rfl hne
  | cons p ps ih =>
      obtain ⟨hhead, htail⟩ := List.forall_mem_cons.1 h
      simp only [List.map_cons, List.sum_cons]
      by_cases hps : ps = []
      · subst hps
        simp only [List.map_nil, List.sum_nil]
        omega
      · have hrest := ih hps htail
        omega

/-- The measure that a step of an idle mesh lowers: versions to come first, then
the weight of what is around, then the time that it needs. -/
theorem step_lowers (h : m.Regular) (hidle : m.Idle)
    (hflight : m.inFlight ≠ []) :
    m.step.headroom < m.headroom ∨ m.step.headroom = m.headroom ∧
      (m.step.load < m.load ∨ m.step.load = m.load ∧ m.step.wait < m.wait) := by
  rcases step_rises_or_lighter h with hlt | ⟨hsame, hless⟩
  · exact Or.inl hlt
  · refine Or.inr ⟨hsame, ?_⟩
    by_cases hdue : m.later.due = []
    · have hwait : m.step.wait < m.wait := by
        rw [wait, inFlight_step_of_not_due hidle hdue, now_step, wait]
        exact wait_lt m.inFlight hflight fun p hp => lt_due_of_later hdue hp
      rcases Nat.lt_or_eq_of_le (Nat.le_of_add_right_le hless) with hlt | heq
      · exact Or.inl hlt
      · exact Or.inr ⟨heq, hwait⟩
    · have hpos := List.length_pos_iff.2 hdue
      exact Or.inl (by omega)

/-! ## Settling -/

/-- From an idle state on a mesh settles. -/
theorem Idle.settles (m : Mesh) (h : m.Regular) (hidle : m.Idle) :
    ∃ k, ∀ used, ∃ v, (m.settleFrom used k).1 = some v := by
  by_cases hrest : m.step.inFlight = []
  · refine ⟨1, fun used => ⟨used + 1, ?_⟩⟩
    rw [settleFrom, hrest]
    rfl
  · have hflight : m.inFlight ≠ [] := by
      intro hnone
      have hdue : m.later.due = [] := by
        show m.inFlight.filter _ = []
        rw [hnone]
        rfl
      exact hrest ((inFlight_step_of_not_due hidle hdue).trans hnone)
    have hlower := step_lowers h hidle hflight
    obtain ⟨k, hk⟩ := Idle.settles m.step h.step (idle_step m)
    refine ⟨k + 1, fun used => ?_⟩
    obtain ⟨v, hv⟩ := hk (used + 1)
    refine ⟨v, ?_⟩
    rw [settleFrom, if_neg (by simpa using hrest), hv]
termination_by (m.headroom, m.load, m.wait)
decreasing_by
  rcases hlower with hroom | ⟨hroom, hload | ⟨hload, hwait⟩⟩
  · exact Prod.Lex.left _ _ hroom
  · rw [hroom]
    exact Prod.Lex.right _ (Prod.Lex.left _ _ hload)
  · rw [hroom, hload]
    exact Prod.Lex.right _ (Prod.Lex.right _ hwait)

/-- A mesh that has settled has no frame in flight. -/
theorem inFlight_of_settleFrom {used allowed v : Nat}
    (h : (m.settleFrom used allowed).1 = some v) :
    (m.settleFrom used allowed).2.inFlight = [] := by
  induction allowed generalizing m used with
  | zero => cases h
  | succ allowed ih =>
      rw [settleFrom] at h ⊢
      split at h
      · next hrest =>
          rw [if_pos hrest]
          exact List.isEmpty_iff.1 hrest
      · next hrest =>
          rw [if_neg hrest]
          exact ih h

/-- Whatever was done with a mesh before, it settles if nothing but steps
happens from there on. -/
theorem settles_of_operations (settings : Settings) (ops : List Op) :
    ∃ k used, ((ops.foldl perform (make settings)).settle k).1 = some used ∧
      ((ops.foldl perform (make settings)).settle k).2.inFlight = [] := by
  have hregular := regular_foldl_perform settings ops
  generalize ops.foldl perform (make settings) = m at hregular ⊢
  obtain ⟨k, hk⟩ := Idle.settles m.step hregular.step (idle_step m)
  obtain ⟨v, hv⟩ := hk 1
  by_cases hrest : m.step.inFlight.isEmpty = true
  · have hone : (m.settle 1).1 = some 1 := by
      rw [settle, settleFrom, if_pos hrest]
    exact ⟨1, 1, hone, inFlight_of_settleFrom hone⟩
  · have hmore : (m.settle (k + 1)).1 = some v := by
      rw [settle, settleFrom, if_neg hrest, hv]
    exact ⟨k + 1, v, hmore, inFlight_of_settleFrom hmore⟩

end Mesh

end OnMesh
