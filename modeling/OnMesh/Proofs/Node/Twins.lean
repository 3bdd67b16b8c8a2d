import OnMesh.Proofs.Node.Intrusion

/-!
# What cannot be seen of a node

A node counts what it does, and its pool of context ids keeps the tick at which
it last took notice of the time.  Neither can be told from what the node answers
and shows: counts are never read, and the clock of the pool is always set before
it is, at the start of an edit and at the end of a pass.  `Twins` are two nodes
that differ in nothing else, and no calls tell them apart.
-/

namespace OnMesh

open Wire (Frame Message)

namespace Node

variable {n m : Node} {f : Node → Node}

/-! ## What is seen -/

inductive Answer where
  | done
  | known (before : Bool)
  | changed (transition : Transition)
  | popped (o : Option Outgoing)
  | edited (answer : Except Fault Version)
  | taken (whole : Bool)
deriving DecidableEq

def answer (n : Node) : Call → Answer
  | .removeNeighbour neighbour => .known (n.removeNeighbour neighbour).1
  | .setAdmissible neighbour admissible =>
    .changed (n.setAdmissible neighbour admissible).1
  | .pop => .popped n.pop.1
  | .addPrefix net flags => .edited (n.addPrefix net flags).1
  | .removePrefix net => .edited (n.removePrefix net).1
  | .queueFrame frame => .taken (n.queueFrame frame).1
  | .queueBytes bytes => .taken (n.queueBytes bytes).1
  | .start | .detach | .addNeighbour _ | .tick _ => .done

/-- What a node shows, counts apart. -/
structure Sight where
  attachment : Attachment
  now : Nat
  version : Version
  data : NetworkData
  lastDelta : Option Delta
  addresses : List MeshAddress
  live : Table ContextId Prefix
  retiring : Table ContextId Nat
  links : Links
  incoming : List Frame
  outgoing : List Outgoing
deriving DecidableEq

def sight (n : Node) : Sight where
  attachment := n.attachment
  now := n.now
  version := n.version
  data := n.data
  lastDelta := n.replica.lastDelta
  addresses := n.configuredAddresses
  live := n.pool.live
  retiring := n.pool.retiring
  links := n.links
  incoming := n.incoming
  outgoing := n.outgoing

/-- What is seen in the course of some calls: after each of them its
answer, and the node. -/
def conduct : Node → List Call → List (Answer × Sight)
  | _, [] => []
  | n, c :: calls =>
    (n.answer c, (n.after c).sight) :: (n.after c).conduct calls

/-! ## Calls that leave the pool alone -/

def repooled (n : Node) (pool : ContextPool) : Node := { n with pool }

/-- What becomes of a node does not depend on its pool of context ids,
and the pool stays. -/
def Unpooled (f : Node → Node) : Prop :=
  ∀ n pool, f (n.repooled pool) = (f n).repooled pool

theorem Unpooled.pool_eq (h : Unpooled f) (n : Node) : (f n).pool = n.pool := by
  have hsame : f n = (f n).repooled n.pool := h n n.pool
  rw [hsame]
  rfl

theorem unpooled_foldl {α : Type} {g : Node → α → Node}
    (h : ∀ a, Unpooled fun n => g n a) (as : List α) :
    Unpooled fun n => as.foldl g n := by
  induction as with
  | nil => exact fun _ _ => rfl
  | cons a as ih =>
      intro n pool
      have hfirst : g (n.repooled pool) a = (g n a).repooled pool := h a n pool
      beta_reduce
      rw [List.foldl_cons, hfirst]
      exact ih (g n a) pool

theorem unpooled_enqueueOne (o : Outbound) :
    Unpooled fun n => n.enqueueOne o := by
  intro n pool
  beta_reduce
  rw [repooled, enqueueOne, enqueueOne]
  split <;> rfl

theorem unpooled_enqueue (out : List Outbound) :
    Unpooled fun n => n.enqueue out := by
  intro n pool
  beta_reduce
  have hfold := unpooled_foldl unpooled_enqueueOne out n pool
  beta_reduce at hfold
  rw [enqueue, enqueue, hfold, repooled, repooled]
  split <;> rfl

theorem unpooled_greet (b : NodeId) : Unpooled fun n => n.greet b :=
  fun n pool =>
  unpooled_enqueue (n.flooding.greet b n.replica n.links).1
    { n with flooding := (n.flooding.greet b n.replica n.links).2 } pool

theorem unpooled_start : Unpooled start := by
  intro n pool
  cases hstarted : n.started with
  | true =>
      rw [start_of_started hstarted]
      exact start_of_started hstarted
  | false =>
      have hstart : ∀ k : Node, k.started = false →
          k.start =
            k.links.admissible.foldl greet { k with started := true } := by
        intro k hk
        rw [start, hk]
        rfl
      rw [hstart n hstarted, hstart (n.repooled pool) hstarted]
      exact unpooled_foldl unpooled_greet n.links.admissible
        { n with started := true } pool

theorem unpooled_setAdmissible (b : NodeId) (admissible : Bool) :
    Unpooled fun n => (n.setAdmissible b admissible).2 := by
  intro n pool
  beta_reduce
  by_cases hgreet : (n.links.setAdmissible b admissible).1 = .restored ∧
    n.started = true
  · have hcall : (n.setAdmissible b admissible).2 =
        ({ n with links := (n.links.setAdmissible b admissible).2 }).greet b :=
      if_pos hgreet
    rw [hcall]
    exact (if_pos hgreet).trans (unpooled_greet b
      { n with links := (n.links.setAdmissible b admissible).2 } pool)
  · have hcall : (n.setAdmissible b admissible).2 =
        { n with links := (n.links.setAdmissible b admissible).2 } :=
      if_neg hgreet
    rw [hcall]
    exact if_neg hgreet

theorem unpooled_pop : Unpooled fun n => n.pop.2 := by
  have hfrom : ∀ (os : List Outgoing) (n : Node) (pool : ContextPool),
      ((n.repooled pool).popFrom os).2 = (n.popFrom os).2.repooled pool := by
    intro os
    induction os with
    | nil => exact fun _ _ => rfl
    | cons o os ih =>
        intro n pool
        have hskip := ih n.countSuppressed pool
        rw [popFrom, popFrom]
        have hsame : (n.repooled pool).isAdmissible o.to =
            n.isAdmissible o.to := rfl
        rw [hsame]
        split
        · rfl
        · exact hskip
  exact fun n pool => hfrom n.outgoing n pool

theorem unpooled_handle (frame : Frame) : Unpooled fun n => n.handle frame :=
  fun n pool =>
  unpooled_enqueue (n.flooding.receive frame n.replica n.links).out
    { n with
      replica := (n.flooding.receive frame n.replica n.links).replica
      flooding := (n.flooding.receive frame n.replica n.links).flooding } pool

/-- Only the authority hands notices to its pool. -/
theorem followNotices_repooled (h : n.role.canPublish = false)
    (pool : ContextPool) :
    (n.repooled pool).followNotices = n.followNotices.repooled pool := by
  simp only [followNotices, repooled, h]
  split <;> rfl

/-! ## Twins -/

/-- The node with other counts, and with a pool that took notice of another
time. -/
def rewound (n : Node) (tally : Tally) (counts : Flooding.Tally) (clock : Nat) :
    Node :=
  (n.recounted n.incoming tally counts).repooled { n.pool with now := clock }

/-- Two nodes that differ at most in counts and in the time of their pools. -/
def Twins (n m : Node) : Prop :=
  ∃ tally counts clock, m = n.rewound tally counts clock

theorem Twins.of_recounted {incoming : List Frame} {tally : Tally}
    {counts : Flooding.Tally} (h : m = n.recounted incoming tally counts)
    (hincoming : n.incoming = incoming) : Twins n m :=
  ⟨tally, counts, n.pool.now, by rw [h, ← hincoming]; rfl⟩

/-- What looks at neither counts nor pools does the same to twins. -/
theorem Twins.map (h : Twins n m) (hheedless : Heedless f)
    (hunpooled : Unpooled f) : Twins (f n) (f m) := by
  obtain ⟨tally, counts, clock, rfl⟩ := h
  obtain ⟨tally', counts', hcounts⟩ := hheedless n n.incoming tally counts
  refine ⟨tally', counts', clock, ?_⟩
  rw [rewound, hunpooled, hcounts, rewound, hheedless.incoming_eq,
    hunpooled.pool_eq]

/-- An edit sets the clock of the pool first. -/
theorem Twins.usePress (h : Twins n m)
    (act : Press → Except Fault Version × Press) :
    Twins (n.usePress act).2 (m.usePress act).2 := by
  obtain ⟨tally, counts, clock, rfl⟩ := h
  have hclock : (n.rewound tally counts clock).usePress act =
      (n.recounted n.incoming tally counts).usePress act := rfl
  obtain ⟨tally', counts', heq⟩ :=
    heedless_usePress act n n.incoming tally counts
  rw [hclock]
  exact .of_recounted heq ((heedless_usePress act).incoming_eq n)

/-- After the frames, a tick sets the clock of a pool that is going to lend. -/
theorem Twins.upkeep (h : Twins n m) (now : Nat) :
    Twins (if n.role.canPublish then n.expirePool now else n).followNotices
      (if m.role.canPublish then m.expirePool now else m).followNotices := by
  obtain ⟨tally, counts, clock, rfl⟩ := h
  by_cases hpublish : n.role.canPublish = true
  · rw [if_pos hpublish,
      if_pos (show (n.rewound tally counts clock).role.canPublish =
        true from hpublish)]
    obtain ⟨tally', counts', heq⟩ :=
      heedless_followNotices (n.expirePool now) n.incoming tally counts
    exact .of_recounted heq
      (heedless_followNotices.incoming_eq (n.expirePool now))
  · rw [if_neg hpublish,
      if_neg (show ¬ (n.rewound tally counts clock).role.canPublish =
        true from hpublish)]
    have hrole : n.role.canPublish = false := Bool.eq_false_iff.2 hpublish
    have hself : n.followNotices = n.followNotices.repooled n.pool :=
      followNotices_repooled hrole n.pool
    have hpool : n.followNotices.pool = n.pool := by rw [hself]; rfl
    obtain ⟨tally', counts', heq⟩ :=
      heedless_followNotices n n.incoming tally counts
    refine ⟨tally', counts', clock, ?_⟩
    rw [rewound,
      followNotices_repooled (n := n.recounted n.incoming tally counts) hrole,
      heq, rewound, heedless_followNotices.incoming_eq, hpool]

theorem Twins.tick (h : Twins n m) (now : Nat) :
    Twins (n.tick now) (m.tick now) := by
  have hincoming : m.incoming = n.incoming := by
    obtain ⟨tally, counts, clock, rfl⟩ := h
    rfl
  have hbegun : Twins (n.begun now) (m.begun now) := by
    obtain ⟨tally, counts, clock, rfl⟩ := h
    exact ⟨{ tally with ticks := tally.ticks + 1 }, counts, clock, rfl⟩
  have hhandled : Twins (n.handled now) (m.handled now) := by
    rw [handled_eq, handled_eq, hincoming]
    exact hbegun.map (heedless_foldl heedless_handle n.incoming)
      (unpooled_foldl unpooled_handle n.incoming)
  exact hhandled.upkeep now

theorem Twins.queueFrame (h : Twins n m) (frame : Frame) :
    Twins (n.queueFrame frame).2 (m.queueFrame frame).2 := by
  obtain ⟨tally, counts, clock, rfl⟩ := h
  by_cases hfull :
    (!n.started || n.settings.maxInbound ≤ n.incoming.length) = true
  · rw [Node.queueFrame, if_pos hfull, Node.queueFrame, if_pos]
    · exact ⟨_, counts, clock, rfl⟩
    · exact hfull
  · rw [Node.queueFrame, if_neg hfull, Node.queueFrame, if_neg]
    · exact ⟨_, counts, clock, rfl⟩
    · exact hfull

/-- No call tells twins apart. -/
theorem Twins.after (h : Twins n m) (c : Call) :
    Twins (n.after c) (m.after c) := by
  cases c with
  | start => exact h.map heedless_start unpooled_start
  | detach =>
      obtain ⟨tally, counts, clock, rfl⟩ := h
      exact ⟨_, counts, clock, rfl⟩
  | addNeighbour b =>
      obtain ⟨tally, counts, clock, rfl⟩ := h
      exact ⟨tally, counts, clock, rfl⟩
  | removeNeighbour b =>
      obtain ⟨tally, counts, clock, rfl⟩ := h
      exact ⟨tally, counts, clock, rfl⟩
  | setAdmissible b admissible =>
      exact h.map (heedless_setAdmissible b admissible)
        (unpooled_setAdmissible b admissible)
  | tick now => exact h.tick now
  | pop => exact h.map heedless_pop unpooled_pop
  | addPrefix net flags => exact h.usePress _
  | removePrefix net => exact h.usePress _
  | queueFrame frame => exact h.queueFrame frame
  | queueBytes bytes =>
      rw [Node.after, Node.after, queueBytes, queueBytes]
      split
      · exact h.queueFrame _
      · obtain ⟨tally, counts, clock, rfl⟩ := h
        exact ⟨_, counts, clock, rfl⟩

theorem Twins.sight_eq (h : Twins n m) : m.sight = n.sight := by
  obtain ⟨tally, counts, clock, rfl⟩ := h
  rfl

theorem popFrom_fst (n : Node) (os : List Outgoing) :
    (n.popFrom os).1 = os.find? fun o => n.isAdmissible o.to := by
  induction os generalizing n with
  | nil => rfl
  | cons o os ih =>
      rw [popFrom, List.find?_cons]
      cases n.isAdmissible o.to with
      | true => rfl
      | false => exact ih n.countSuppressed

theorem queueFrame_fst (n : Node) (frame : Frame) :
    (n.queueFrame frame).1 =
      !(!n.started || n.settings.maxInbound ≤ n.incoming.length) := by
  rw [Node.queueFrame]
  split
  · next hrefused => rw [hrefused]; rfl
  · next htaken => rw [Bool.eq_false_iff.2 htaken]; rfl

/-- Twins give the same answer to every call. -/
theorem Twins.answer_eq (h : Twins n m) (c : Call) :
    m.answer c = n.answer c := by
  obtain ⟨tally, counts, clock, rfl⟩ := h
  cases c with
  | setAdmissible b admissible => rfl
  | removeNeighbour b => rfl
  | pop =>
      simp only [answer, Node.pop, popFrom_fst]
      rfl
  | addPrefix net flags =>
      simp only [answer, Node.addPrefix, usePress_fst]
      rfl
  | removePrefix net =>
      simp only [answer, Node.removePrefix, usePress_fst]
      rfl
  | queueFrame frame =>
      simp only [answer, queueFrame_fst]
      rfl
  | queueBytes bytes =>
      simp only [answer, Node.queueBytes]
      split
      · simp only [queueFrame_fst]
        rfl
      · rfl
  | _ => rfl

/-- Twins conduct themselves alike. -/
theorem Twins.conduct_eq (h : Twins n m) (calls : List Call) :
    m.conduct calls = n.conduct calls := by
  induction calls generalizing n m with
  | nil => rfl
  | cons c calls ih =>
      have hafter := h.after c
      rw [conduct, conduct, h.answer_eq c, hafter.sight_eq, ih hafter]

end Node

end OnMesh
