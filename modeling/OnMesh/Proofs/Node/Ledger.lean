import OnMesh.Proofs.Node.Accounts
import OnMesh.Proofs.Node.Legible
import OnMesh.Proofs.Node.Twins

/-!
# The ledger of the queues

A frame gets into the queue of frames to be sent at its end, while there is
room, and leaves it at its front, when it is popped or kept back because its
neighbour is not admissible.  `Grows` says so of every call that pops nothing,
`Posted` of every call, and the counters follow the frames one by one.  A node
that is never detached therefore accounts for every frame: those that it took
are those that it handed out, those that it kept back and those that wait.
-/

namespace OnMesh

open Wire (Frame)

open scoped List

namespace Node

variable {n m : Node} {c : Call} {calls : List Call} {b : NodeId}

/-! ## Calls that pop nothing -/

/-- More frames wait to be sent, as far as there is room, and they are
counted. -/
structure Grows (n m : Node) (more : List Outgoing) : Prop where
  outgoing : m.outgoing = n.outgoing ++ more
  queued : m.tally.outgoingQueued = n.tally.outgoingQueued + more.length
  popped : m.tally.outgoingPopped = n.tally.outgoingPopped
  suppressed : m.tally.outgoingSuppressed = n.tally.outgoingSuppressed
  settings : m.settings = n.settings
  room : n.outgoing.length ≤ n.settings.maxOutbound →
    m.outgoing.length ≤ n.settings.maxOutbound

theorem Grows.refl (n : Node) : Grows n n [] :=
  ⟨(List.append_nil _).symm, rfl, rfl, rfl, rfl, fun h => h⟩

theorem Grows.trans {l : Node} {first second : List Outgoing}
    (hlm : Grows l m first) (hmn : Grows m n second) :
    Grows l n (first ++ second) where
  outgoing := by rw [hmn.outgoing, hlm.outgoing, List.append_assoc]
  queued := by rw [hmn.queued, hlm.queued, List.length_append, Nat.add_assoc]
  popped := hmn.popped.trans hlm.popped
  suppressed := hmn.suppressed.trans hlm.suppressed
  settings := hmn.settings.trans hlm.settings
  room h := hlm.settings ▸ hmn.room (hlm.settings.symm ▸ hlm.room h)

/-- The queue of frames to be sent, what is counted of it and
what it is bounded by. -/
def post (n : Node) : List Outgoing × (Nat × Nat × Nat) × NodeSettings :=
  (n.outgoing, (n.tally.outgoingQueued, n.tally.outgoingPopped,
    n.tally.outgoingSuppressed), n.settings)

/-- Nothing else of the two nodes matters. -/
theorem Grows.of_post {n' m' : Node} {more : List Outgoing} (h : Grows n m more)
    (hn : n'.post = n.post) (hm : m'.post = m.post) : Grows n' m' more := by
  simp only [post, Prod.mk.injEq] at hn hm
  obtain ⟨houtgoing, ⟨hqueued, hpopped, hsuppressed⟩, hsettings⟩ := hn
  obtain ⟨houtgoing', ⟨hqueued', hpopped', hsuppressed'⟩, hsettings'⟩ := hm
  refine ⟨?_, ?_, ?_, ?_, ?_, ?_⟩
  · rw [houtgoing, houtgoing', h.outgoing]
  · rw [hqueued, hqueued', h.queued]
  · rw [hpopped, hpopped', h.popped]
  · rw [hsuppressed, hsuppressed', h.suppressed]
  · rw [hsettings, hsettings', h.settings]
  · rw [houtgoing, houtgoing', hsettings]
    exact h.room

theorem Grows.of_same (hpost : m.post = n.post) : Grows n m [] :=
  (Grows.refl n).of_post rfl hpost

theorem grows_foldl {α : Type} {g : Node → α → Node}
    (h : ∀ n a, ∃ more, Grows n (g n a) more) (as : List α) (n : Node) :
    ∃ more, Grows n (as.foldl g n) more := by
  induction as generalizing n with
  | nil => exact ⟨[], Grows.refl n⟩
  | cons a as ih =>
      obtain ⟨first, hfirst⟩ := h n a
      obtain ⟨second, hsecond⟩ := ih (g n a)
      exact ⟨first ++ second, hfirst.trans hsecond⟩

theorem grows_enqueueOne (n : Node) (o : Outbound) :
    ∃ more, Grows n (n.enqueueOne o) more := by
  rw [enqueueOne]
  split
  · exact ⟨[], Grows.refl n⟩
  · next hroom =>
      refine ⟨[⟨o.to, Frame.make n.id o.message⟩], rfl, rfl, rfl, rfl,
        rfl, fun _ => ?_⟩
      rw [List.length_append, List.length_singleton]
      omega

theorem grows_enqueue (n : Node) (out : List Outbound) :
    ∃ more, Grows n (n.enqueue out) more := by
  rw [enqueue]
  split
  · exact grows_foldl grows_enqueueOne out n
  · exact ⟨[], Grows.refl n⟩

theorem grows_greet (n : Node) (b : NodeId) :
    ∃ more, Grows n (n.greet b) more := by
  obtain ⟨more, h⟩ := grows_enqueue
    { n with flooding := (n.flooding.greet b n.replica n.links).2 }
    (n.flooding.greet b n.replica n.links).1
  exact ⟨more, h.of_post rfl rfl⟩

theorem grows_handle (n : Node) (frame : Frame) :
    ∃ more, Grows n (n.handle frame) more := by
  obtain ⟨more, h⟩ := grows_enqueue { n with
      replica := (n.flooding.receive frame n.replica n.links).replica
      flooding := (n.flooding.receive frame n.replica n.links).flooding }
    (n.flooding.receive frame n.replica n.links).out
  exact ⟨more, h.of_post rfl rfl⟩

theorem grows_announced (n : Node) : ∃ more, Grows n n.announced more := by
  obtain ⟨more, h⟩ := grows_enqueue
    { n with flooding := (n.flooding.announce n.replica n.links).2 }
    (n.flooding.announce n.replica n.links).1
  exact ⟨more, h.of_post rfl rfl⟩

theorem post_followNotices (n : Node) : n.followNotices.post = n.post := by
  rw [followNotices]
  dsimp only
  split <;> rfl

theorem grows_start (n : Node) : ∃ more, Grows n n.start more := by
  rw [start]
  split
  · exact ⟨[], Grows.refl n⟩
  · obtain ⟨more, h⟩ :=
      grows_foldl grows_greet n.links.admissible { n with started := true }
    exact ⟨more, h.of_post rfl rfl⟩

theorem grows_setAdmissible (n : Node) (b : NodeId) (admissible : Bool) :
    ∃ more, Grows n (n.setAdmissible b admissible).2 more := by
  rw [setAdmissible]
  dsimp only
  split
  · obtain ⟨more, h⟩ := grows_greet
      { n with links := (n.links.setAdmissible b admissible).2 } b
    exact ⟨more, h.of_post rfl rfl⟩
  · exact ⟨[], Grows.of_same rfl⟩

theorem grows_tick (n : Node) (now : Nat) :
    ∃ more, Grows n (n.tick now) more := by
  obtain ⟨more, h⟩ := grows_foldl grows_handle n.incoming (n.begun now)
  refine ⟨more, h.of_post rfl ?_⟩
  rw [tick_eq, post_followNotices, ← handled_eq]
  split <;> rfl

theorem grows_usePress (n : Node) (act : Press → Except Fault Version × Press) :
    ∃ more, Grows n (n.usePress act).2 more := by
  refine usePress_keeps (P := fun m => ∃ more, Grows n m more) (fun _ _ => ?_)
    (fun m hm => ?_)
    (fun m hm => ?_) act
  · exact ⟨[], Grows.of_same rfl⟩
  · obtain ⟨more, h⟩ := hm
    exact ⟨more, h.of_post rfl (post_followNotices m)⟩
  · obtain ⟨first, hfirst⟩ := hm
    obtain ⟨second, hsecond⟩ := grows_announced m
    exact ⟨first ++ second, hfirst.trans hsecond⟩

theorem post_queueFrame (n : Node) (frame : Frame) :
    (n.queueFrame frame).2.post = n.post := by
  rw [queueFrame]
  split <;> rfl

theorem post_queueBytes (n : Node) (bytes : List UInt8) :
    (n.queueBytes bytes).2.post = n.post := by
  rw [queueBytes]
  split
  · exact post_queueFrame n _
  · rfl

/-- A call that neither pops nor detaches only adds frames. -/
theorem grows_after (n : Node) (hpop : c ≠ .pop) (hdetach : c ≠ .detach) :
    ∃ more, Grows n (n.after c) more := by
  cases c with
  | start => exact grows_start n
  | detach => exact absurd rfl hdetach
  | addNeighbour b => exact ⟨[], Grows.of_same rfl⟩
  | removeNeighbour b => exact ⟨[], Grows.of_same rfl⟩
  | setAdmissible b admissible => exact grows_setAdmissible n b admissible
  | tick now => exact grows_tick n now
  | pop => exact absurd rfl hpop
  | addPrefix net flags => exact grows_usePress n _
  | removePrefix net => exact grows_usePress n _
  | queueFrame frame => exact ⟨[], Grows.of_same (post_queueFrame n frame)⟩
  | queueBytes bytes => exact ⟨[], Grows.of_same (post_queueBytes n bytes)⟩

/-! ## Every call -/

/-- The frames that a call puts into the queue of frames to be sent. -/
def accepted (n : Node) : Call → List Outgoing
  | .pop | .detach => []
  | c => (n.after c).outgoing.drop n.outgoing.length

/-- The frames that a call keeps back, because their neighbours
are not admissible. -/
def withheld (n : Node) : Call → List Outgoing
  | .pop => n.outgoing.takeWhile fun o => !n.isAdmissible o.to
  | _ => []

/-- What a call does to the queue of frames to be sent. -/
structure Posted (n : Node) (c : Call) : Prop where
  queued : (n.after c).tally.outgoingQueued =
    n.tally.outgoingQueued + (n.accepted c).length
  popped : (n.after c).tally.outgoingPopped =
    n.tally.outgoingPopped + (n.emitted c).toList.length
  suppressed : (n.after c).tally.outgoingSuppressed =
    n.tally.outgoingSuppressed + (n.withheld c).length
  whole : c ≠ .detach → n.outgoing ++ n.accepted c =
    n.withheld c ++ (n.emitted c).toList ++ (n.after c).outgoing
  room : n.outgoing.length ≤ n.settings.maxOutbound →
    (n.after c).outgoing.length ≤ n.settings.maxOutbound

/-- Popping counts what it keeps back and what it hands out, and leaves the
rest. -/
theorem popFrom_ledger (n : Node) (os : List Outgoing) :
    (n.popFrom os).2.tally.outgoingQueued = n.tally.outgoingQueued ∧
    (n.popFrom os).2.tally.outgoingPopped =
      n.tally.outgoingPopped + (n.popFrom os).1.toList.length ∧
    (n.popFrom os).2.tally.outgoingSuppressed =
      n.tally.outgoingSuppressed + (os.takeWhile fun o =>
        !n.isAdmissible o.to).length ∧
    os = (os.takeWhile fun o => !n.isAdmissible o.to) ++
      (n.popFrom os).1.toList ++
      (n.popFrom os).2.outgoing := by
  induction os generalizing n with
  | nil => exact ⟨rfl, rfl, rfl, rfl⟩
  | cons o os ih =>
      rw [popFrom]
      cases hadm : n.isAdmissible o.to with
      | true => simp [hadm]
      | false =>
          obtain ⟨hqueued, hpopped, hsuppressed, hsplit⟩ := ih n.countSuppressed
          have hsame : n.countSuppressed.isAdmissible = n.isAdmissible := rfl
          have hcount : n.countSuppressed.tally.outgoingSuppressed =
            n.tally.outgoingSuppressed + 1 := rfl
          rw [hsame] at hsuppressed hsplit
          rw [if_neg Bool.false_ne_true,
            List.takeWhile_cons_of_pos (by rw [hadm]; rfl)]
          refine ⟨hqueued, hpopped, ?_, ?_⟩
          · rw [hsuppressed, hcount, List.length_cons,
              Nat.add_assoc, Nat.add_comm 1]
          · rw [List.cons_append, List.cons_append, ← hsplit]

/-- A call that only adds to the queue keeps the order of what waits. -/
theorem posted_of_grows {more : List Outgoing} (h : Grows n (n.after c) more)
    (hpop : c ≠ .pop) (hdetach : c ≠ .detach) : Posted n c := by
  have haccepted : n.accepted c = more := by
    have hdrop : (n.after c).outgoing.drop n.outgoing.length = more := by
      rw [h.outgoing, List.drop_left]
    rw [← hdrop]
    cases c <;> first | rfl | contradiction
  have hemitted : n.emitted c = none := by
    cases c <;> first | rfl | contradiction
  have hwithheld : n.withheld c = [] := by
    cases c <;> first | rfl | contradiction
  refine ⟨?_, ?_, ?_, fun _ => ?_, h.room⟩
  · rw [haccepted, h.queued]
  · rw [hemitted, h.popped]
    rfl
  · rw [hwithheld, h.suppressed]
    rfl
  · rw [haccepted, hemitted, hwithheld, h.outgoing]
    rfl

theorem posted_after (n : Node) (c : Call) : Posted n c := by
  by_cases hpop : c = .pop
  · subst hpop
    obtain ⟨hqueued, hpopped, hsuppressed, hsplit⟩ :=
      popFrom_ledger n n.outgoing
    refine ⟨hqueued, hpopped, hsuppressed,
      fun _ => (List.append_nil _).trans hsplit, fun h => ?_⟩
    exact Nat.le_trans (pop_sublist n).1.length_le h
  · by_cases hdetach : c = .detach
    · subst hdetach
      exact ⟨rfl, rfl, rfl, fun h => absurd rfl h, fun _ => Nat.zero_le _⟩
    · obtain ⟨more, h⟩ := grows_after n hpop hdetach
      exact posted_of_grows h hpop hdetach

/-! ## Frames that come in -/

/-- The frame that is put into the queue of frames to be handled, if it is
taken. -/
def taken (n : Node) (frame : Frame) : List Frame :=
  if (n.queueFrame frame).1 then [frame] else []

/-- The frames that a call puts into the queue of frames to be handled. -/
def takenIn (n : Node) : Call → List Frame
  | .queueFrame frame => n.taken frame
  | .queueBytes bytes =>
    match Frame.parse bytes with
    | .ok frame => n.taken frame
    | .error _ => []
  | _ => []

/-- The frames that a call hands to the flooding: a tick hands over all that
wait (`flooded_tick`). -/
def heard (n : Node) : Call → List Frame
  | .tick _ => n.incoming
  | _ => []

/-- The flooding receives a frame, and the replica becomes what it makes of
it. -/
def flood (links : Links) (x : Flooding × Replica) (frame : Frame) :
    Flooding × Replica :=
  ((x.1.receive frame x.2 links).flooding,
    (x.1.receive frame x.2 links).replica)

theorem flooded_handle (n : Node) (frame : Frame) :
    ((n.handle frame).flooding, (n.handle frame).replica) =
        flood n.links (n.flooding, n.replica) frame ∧
      (n.handle frame).links = n.links := by
  obtain ⟨kept, tally, -, hqueue⟩ := enqueue_spec
    { n with
      replica := (n.flooding.receive frame n.replica n.links).replica
      flooding := (n.flooding.receive frame n.replica n.links).flooding }
    (n.flooding.receive frame n.replica n.links).out
  rw [handle, hqueue]
  exact ⟨rfl, rfl⟩

theorem flooded_foldl (n : Node) (frames : List Frame) :
    ((frames.foldl handle n).flooding, (frames.foldl handle n).replica) =
      frames.foldl (flood n.links) (n.flooding, n.replica) := by
  induction frames generalizing n with
  | nil => rfl
  | cons frame frames ih =>
      obtain ⟨hone, hlinks⟩ := flooded_handle n frame
      rw [List.foldl_cons, List.foldl_cons, ih, hone, hlinks]

/-- In a tick the flooding receives the frames that wait, one after the other,
and of the replica that it leaves only the notices are taken. -/
theorem flooded_tick (n : Node) (now : Nat) : ∃ replica,
    (n.heard (.tick now)).foldl (flood n.links) (n.flooding, n.replica) =
      ((n.tick now).flooding, replica) ∧
    (n.tick now).replica = replica.takeNotices.2 := by
  have hhandled : ((n.handled now).flooding, (n.handled now).replica) =
      n.incoming.foldl (flood n.links) (n.flooding, n.replica) :=
    flooded_foldl (n.begun now) n.incoming
  refine ⟨(n.handled now).replica, hhandled.symm.trans ?_, ?_⟩
  · rw [tick_eq, (followed_fields _).2.2.1]
    split <;> rfl
  · rw [tick_eq, (followed_fields _).1]
    split <;> rfl

/-- The queue of frames to be handled, and what is counted of it. -/
def intake (n : Node) : List Frame × Nat := (n.incoming, n.tally.incomingQueued)

theorem inward_intake : Inward intake :=
  ⟨fun _ _ _ => rfl, fun _ _ _ => rfl, fun _ => rfl, fun _ _ _ _ _ => rfl⟩

theorem intake_followNotices (n : Node) :
    n.followNotices.intake = n.intake := by
  rw [followNotices]
  dsimp only
  split <;> rfl

theorem intake_usePress (n : Node)
    (act : Press → Except Fault Version × Press) :
    (n.usePress act).2.intake = n.intake :=
  usePress_keeps (P := fun m => m.intake = n.intake) (fun _ _ => rfl)
    (fun m hm => (intake_followNotices m).trans hm)
    (fun m hm => (inward_intake.announced m).trans hm) act

theorem intake_tick (n : Node) (now : Nat) :
    (n.tick now).intake = ([], n.tally.incomingQueued) := by
  have hhandled : (n.handled now).intake = ([], n.tally.incomingQueued) :=
    foldl_same inward_intake.handle n.incoming (n.begun now)
  rw [tick_eq, intake_followNotices]
  split
  · exact hhandled
  · exact hhandled

theorem intake_queueFrame (n : Node) (frame : Frame) :
    (n.queueFrame frame).2.intake =
      (n.incoming ++ n.taken frame,
        n.tally.incomingQueued + (n.taken frame).length) := by
  rw [taken, queueFrame]
  split
  · simp [intake]
  · simp [intake]

/-- A call that does not detach adds the frames it takes in, and removes those
it handles; each one is counted when it is taken in. -/
theorem intake_after (n : Node) (c : Call) :
    (n.after c).tally.incomingQueued =
        n.tally.incomingQueued + (n.takenIn c).length ∧
      (c ≠ .detach →
        n.incoming ++ n.takenIn c = n.heard c ++ (n.after c).incoming) := by
  have hkept : ∀ {m : Node}, m.intake = n.intake →
      m.tally.incomingQueued = n.tally.incomingQueued ∧
        (c ≠ .detach → n.incoming ++ [] = m.incoming) :=
    fun h => ⟨congrArg Prod.snd h,
      fun _ => (List.append_nil _).trans (congrArg Prod.fst h).symm⟩
  have hqueue : ∀ frame,
      (n.queueFrame frame).2.tally.incomingQueued =
          n.tally.incomingQueued + (n.taken frame).length ∧
        (c ≠ .detach →
          n.incoming ++ n.taken frame = (n.queueFrame frame).2.incoming) := by
    intro frame
    obtain ⟨hincoming, hcount⟩ := Prod.mk.inj (intake_queueFrame n frame)
    exact ⟨hcount, fun _ => hincoming.symm⟩
  cases c with
  | start => exact hkept (inward_intake.start n)
  | detach => exact ⟨rfl, fun h => absurd rfl h⟩
  | addNeighbour b => exact hkept rfl
  | removeNeighbour b => exact hkept rfl
  | setAdmissible b admissible =>
      exact hkept (inward_intake.setAdmissible n b admissible)
  | tick now =>
      have htick := Prod.mk.inj (intake_tick n now)
      refine ⟨htick.2, fun _ => ?_⟩
      show n.incoming ++ [] = n.incoming ++ (n.tick now).incoming
      rw [htick.1]
  | pop => exact hkept (inward_intake.popFrom n n.outgoing)
  | addPrefix net flags => exact hkept (intake_usePress n _)
  | removePrefix net => exact hkept (intake_usePress n _)
  | queueFrame frame => exact hqueue frame
  | queueBytes bytes =>
      cases hparse : Frame.parse bytes with
      | ok frame =>
          simp only [after, queueBytes, takenIn, hparse]
          exact hqueue frame
      | error fault =>
          simp only [after, queueBytes, takenIn, hparse]
          exact hkept rfl

/-! ## Runs -/

def recorded {α : Type} (f : Node → Call → List α) : Node → List Call → List α
  | _, [] => []
  | n, c :: calls => f n c ++ recorded f (n.after c) calls

theorem handedOut_eq_recorded (n : Node) (calls : List Call) :
    n.handedOut calls = recorded (fun n c => (n.emitted c).toList) n calls := by
  induction calls generalizing n with
  | nil => rfl
  | cons c calls ih => rw [handedOut, recorded, ih]

/-- A counter that rises with every entry says how many there are. -/
theorem count_recorded {α : Type} {f : Node → Call → List α}
    (count : Node → Nat)
    (h : ∀ n c, count (n.after c) = count n + (f n c).length) (n : Node)
    (calls : List Call) :
    count (calls.foldl after n) = count n + (recorded f n calls).length := by
  induction calls generalizing n with
  | nil => rfl
  | cons c calls ih =>
      rw [List.foldl_cons, ih, h, recorded, List.length_append, Nat.add_assoc]

/-- The frames that are handed out, and then those that wait, are in the order
in which they were accepted. -/
theorem sublist_recorded (n : Node) (calls : List Call) :
    (n.handedOut calls ++ (calls.foldl after n).outgoing).Sublist
      (n.outgoing ++ recorded accepted n calls) := by
  induction calls generalizing n with
  | nil => exact (List.append_nil n.outgoing).symm ▸ List.Sublist.refl _
  | cons c calls ih =>
      have hstep : ((n.emitted c).toList ++ (n.after c).outgoing).Sublist
          (n.outgoing ++ n.accepted c) := by
        by_cases hdetach : c = .detach
        -- Detaching throws away what waits, which leaves the order of the rest.
        · subst hdetach
          exact List.nil_sublist _
        · rw [(posted_after n c).whole hdetach, List.append_assoc]
          exact List.sublist_append_right _ _
      calc
        ((n.emitted c).toList ++ (n.after c).handedOut calls) ++
            (calls.foldl after (n.after c)).outgoing
        _ = (n.emitted c).toList ++ ((n.after c).handedOut calls ++
              (calls.foldl after (n.after c)).outgoing) :=
          List.append_assoc _ _ _
        _ <+ (n.emitted c).toList ++
              ((n.after c).outgoing ++ recorded accepted (n.after c) calls) :=
          (ih (n.after c)).append_left _
        _ = ((n.emitted c).toList ++ (n.after c).outgoing) ++
              recorded accepted (n.after c) calls :=
          (List.append_assoc _ _ _).symm
        _ <+ (n.outgoing ++ n.accepted c) ++
            recorded accepted (n.after c) calls :=
          hstep.append_right _
        _ = n.outgoing ++
            (n.accepted c ++ recorded accepted (n.after c) calls) :=
          List.append_assoc _ _ _

/-- A node that is not detached loses no frame other than those
that it keeps back. -/
theorem perm_recorded (n : Node) {calls : List Call}
    (hdetach : .detach ∉ calls) :
    (n.outgoing ++ recorded accepted n calls).Perm
      (n.handedOut calls ++ recorded withheld n calls ++
        (calls.foldl after n).outgoing) := by
  induction calls generalizing n with
  | nil => exact (List.append_nil n.outgoing).symm ▸ List.Perm.refl _
  | cons c calls ih =>
      obtain ⟨hc, hcalls⟩ := not_or.1 (List.mem_cons.not.1 hdetach)
      have hstep := (posted_after n c).whole (Ne.symm hc)
      calc
        n.outgoing ++ (n.accepted c ++ recorded accepted (n.after c) calls)
        _ = n.withheld c ++ (n.emitted c).toList ++
              ((n.after c).outgoing ++
                recorded accepted (n.after c) calls) := by
          rw [← List.append_assoc, hstep, List.append_assoc]
        _ ~ n.withheld c ++ (n.emitted c).toList ++
              ((n.after c).handedOut calls ++
                recorded withheld (n.after c) calls ++
                (calls.foldl after (n.after c)).outgoing) :=
          (ih (n.after c) hcalls).append_left _
        _ ~ ((n.emitted c).toList ++ (n.after c).handedOut calls) ++
              (n.withheld c ++ recorded withheld (n.after c) calls) ++
                (calls.foldl after (n.after c)).outgoing := by
          -- What a pop keeps back stood before what it hands out.
          refine List.perm_iff_count.2 fun o => ?_
          simp only [List.count_append]
          omega

/-- The frames that come in are handled in order. -/
theorem heard_recorded (n : Node) {calls : List Call}
    (hdetach : .detach ∉ calls) :
    n.incoming ++ recorded takenIn n calls =
      recorded heard n calls ++ (calls.foldl after n).incoming := by
  induction calls generalizing n with
  | nil => exact List.append_nil _
  | cons c calls ih =>
      obtain ⟨hc, hcalls⟩ := not_or.1 (List.mem_cons.not.1 hdetach)
      have hstep := (intake_after n c).2 (Ne.symm hc)
      calc
        n.incoming ++ (n.takenIn c ++ recorded takenIn (n.after c) calls)
        _ = n.heard c ++
            ((n.after c).incoming ++ recorded takenIn (n.after c) calls) := by
          rw [← List.append_assoc, hstep, List.append_assoc]
        _ = n.heard c ++ (recorded heard (n.after c) calls ++
              (calls.foldl after (n.after c)).incoming) := by
                rw [ih (n.after c) hcalls]
        _ = n.heard c ++ recorded heard (n.after c) calls ++
              (calls.foldl after (n.after c)).incoming :=
          (List.append_assoc _ _ _).symm

/-! ## Links that are shut -/

/-- The call makes a neighbour admissible that was not. -/
def Readmits (n : Node) (b : NodeId) (c : Call) : Prop :=
  c = .setAdmissible b true ∧ (n.setAdmissible b true).1 = .restored

/-- No call readmits the neighbour. -/
def Bars (b : NodeId) : Node → List Call → Prop
  | _, [] => True
  | n, c :: calls => ¬ n.Readmits b c ∧ Bars b (n.after c) calls

/-- A frame is handed out only to a neighbour that is admissible. -/
theorem isAdmissible_of_emitted {o : Outgoing} (h : n.emitted c = some o) :
    n.isAdmissible o.to = true := by
  cases c with
  | pop =>
      rw [emitted, pop, popFrom_fst] at h
      exact List.find?_some (p := fun o : Outgoing => n.isAdmissible o.to) h
  | _ => cases h

/-- A neighbour is admissible only if it was, or when it has just been
readmitted. -/
theorem isAdmissible_after (h : (n.after c).isAdmissible b = true) :
    n.isAdmissible b = true ∨ n.Readmits b c := by
  cases c with
  | addNeighbour d =>
      exact Or.inl (Links.isAdmissible_addNeighbour.symm.trans h)
  | removeNeighbour d =>
      have hlinks : (if b = d then false else n.isAdmissible b) = true :=
        Links.isAdmissible_removeNeighbour.symm.trans h
      split at hlinks
      · cases hlinks
      · exact Or.inl hlinks
  | setAdmissible d admissible =>
      obtain ⟨kept, flooding, tally, -, -, heq⟩ :=
        setAdmissible_spec n d admissible
      rw [after, heq] at h
      have hlinks :
          (n.links.setAdmissible d admissible).2.isAdmissible b = true := h
      by_cases hbd : b = d
      · subst hbd
        cases hadm : n.isAdmissible b with
        | true => exact Or.inl rfl
        | false =>
            have hset := Links.isAdmissible_setAdmissible_self (l := n.links)
              (b := b) admissible
            have hadmissible : admissible = true := by
              rw [hlinks, eq_comm, Bool.and_eq_true] at hset
              exact hset.2
            subst hadmissible
            exact Or.inr ⟨rfl,
              (Links.setAdmissible_restored_iff true).2 ⟨hadm, hlinks⟩⟩
      · exact Or.inl ((Links.isAdmissible_setAdmissible_of_ne admissible
          hbd).symm.trans hlinks)
  | _ =>
      rw [isAdmissible, links_after n rfl] at h
      exact Or.inl h

/-- Nothing is handed out for a neighbour that stays shut. -/
theorem not_to_of_bars (hshut : n.isAdmissible b = false)
    (hbars : Bars b n calls) : ∀ o ∈ n.handedOut calls, o.to ≠ b := by
  induction calls generalizing n with
  | nil => exact fun o ho => (by cases ho)
  | cons c calls ih =>
      intro o ho
      rcases List.mem_append.1 ho with hnow | hlater
      · rintro rfl
        have hadm := isAdmissible_of_emitted (Option.mem_toList.1 hnow)
        rw [hshut] at hadm
        cases hadm
      · refine ih ?_ hbars.2 o hlater
        by_contra hopen
        rcases isAdmissible_after (Bool.not_eq_false _ ▸ hopen)
          with hbefore | hreadmits
        · rw [hshut] at hbefore
          cases hbefore
        · exact hbars.1 hreadmits

/-! ## Whole runs -/

/-- The frames to be sent and the frames to be handled in the
course of some calls. -/
structure Dispatches (n : Node) (calls : List Call) : Prop where
  /-- A frame is handed out to a neighbour that is admissible then, and not
  to the node itself. -/
  addressed : ∀ before o, before ++ [.pop] <+: calls →
    (before.foldl after n).pop.1 = some o →
    (before.foldl after n).isAdmissible o.to = true ∧ o.to ≠ n.id
  /-- What a pop keeps back is for neighbours that are not admissible then. -/
  skipped : ∀ before, before ++ [.pop] <+: calls →
    ∀ o ∈ (before.foldl after n).withheld .pop,
    (before.foldl after n).isAdmissible o.to = false
  in_order : (n.handedOut calls).Sublist (recorded accepted n calls)
  room : ∀ before, before <+: calls →
    (before.foldl after n).outgoing.length ≤ n.settings.maxOutbound
  queued : (calls.foldl after n).tally.outgoingQueued =
    (recorded accepted n calls).length
  popped : (calls.foldl after n).tally.outgoingPopped =
    (n.handedOut calls).length
  suppressed : (calls.foldl after n).tally.outgoingSuppressed =
    (recorded withheld n calls).length
  /-- Every frame that was accepted was handed out or kept back, or it waits. -/
  whole : .detach ∉ calls → (recorded accepted n calls).Perm
    (n.handedOut calls ++ recorded withheld n calls ++
      (calls.foldl after n).outgoing)
  outgoing : .detach ∉ calls → (calls.foldl after n).tally.outgoingQueued =
    (calls.foldl after n).tally.outgoingPopped +
      (calls.foldl after n).tally.outgoingSuppressed +
      (calls.foldl after n).outgoing.length
  /-- In a tick the flooding receives the frames that are heard,
  one after the other. -/
  received : ∀ before now, before ++ [.tick now] <+: calls →
    ((before.foldl after n).tick now).flooding =
      (((before.foldl after n).heard (.tick now)).foldl handle
        ((before.foldl after n).begun now)).flooding
  /-- That is, it is given each of them with the links of the node and
  with what it has made of the replica so far, of which only the notices
  are taken afterwards. -/
  flooded : ∀ before now, before ++ [.tick now] <+: calls → ∃ replica,
    ((before.foldl after n).heard (.tick now)).foldl
        (flood (before.foldl after n).links)
        ((before.foldl after n).flooding, (before.foldl after n).replica) =
      (((before.foldl after n).tick now).flooding, replica) ∧
    ((before.foldl after n).tick now).replica = replica.takeNotices.2
  /-- The frames that were taken in have been handled in their order, up
  to those that wait. -/
  in_turn : .detach ∉ calls →
    recorded takenIn n calls =
      recorded heard n calls ++ (calls.foldl after n).incoming
  incoming : .detach ∉ calls → (calls.foldl after n).tally.incomingQueued =
    (recorded heard n calls).length + (calls.foldl after n).incoming.length
  /-- Once a link is shut, nothing is handed out for it until it is opened
  again. -/
  shut : ∀ before c between b, before ++ c :: between <+: calls →
    (c = .setAdmissible b false ∨ c = .removeNeighbour b) →
    Bars b ((before.foldl after n).after c) between →
    ∀ o ∈ ((before.foldl after n).after c).handedOut between, o.to ≠ b

/-- No node is its own neighbour. -/
theorem not_hasNeighbour_self (id : NodeId) (role : Role)
    (settings : NodeSettings) (calls : List Call) :
    (calls.foldl after (make id role settings)).links.hasNeighbour id =
      false := by
  have hstep : ∀ (m : Node) c, m.links.owner = id ∧
      m.links.hasNeighbour id = false →
      (m.after c).links.owner = id ∧
      (m.after c).links.hasNeighbour id = false := by
    rintro m c ⟨howner, hself⟩
    refine ⟨(alike_after m c).links.trans howner, ?_⟩
    by_contra hnow
    rcases hasNeighbour_after m c (Bool.not_eq_false _ ▸ hnow)
      with hbefore | ⟨-, hne⟩
    · rw [hself] at hbefore
      cases hbefore
    · exact hne howner.symm
  exact (foldl_after (n := make id role settings) ⟨rfl, rfl⟩ hstep calls).2

/-- There is room for all frames that wait. -/
theorem length_outgoing_le (id : NodeId) (role : Role) (settings : NodeSettings)
    (calls : List Call) :
    (calls.foldl after (make id role settings)).outgoing.length ≤
      settings.maxOutbound := by
  have hstep : ∀ (m : Node) c, m.settings = settings ∧
      m.outgoing.length ≤ settings.maxOutbound →
      (m.after c).settings = settings ∧
      (m.after c).outgoing.length ≤ settings.maxOutbound := by
    rintro m c ⟨rfl, hroom⟩
    exact ⟨(alike_after m c).settings, (posted_after m c).room hroom⟩
  exact (foldl_after (n := make id role settings)
    ⟨rfl, Nat.zero_le _⟩ hstep calls).2

theorem flooding_tick (n : Node) (now : Nat) :
    (n.tick now).flooding =
      ((n.heard (.tick now)).foldl handle (n.begun now)).flooding := by
  rw [tick_eq, (followed_fields _).2.2.1]
  split <;> rfl

theorem isAdmissible_of_shut
    (h : c = .setAdmissible b false ∨ c = .removeNeighbour b) :
    (n.after c).isAdmissible b = false := by
  rcases h with rfl | rfl
  · obtain ⟨kept, flooding, tally, -, -, heq⟩ := setAdmissible_spec n b false
    rw [after, heq]
    exact (Links.isAdmissible_setAdmissible_self false).trans (Bool.and_false _)
  · exact Links.isAdmissible_removeNeighbour.trans (if_pos rfl)

theorem addressed_of_pop {id : NodeId} {role : Role} {settings : NodeSettings}
    {o : Outgoing}
    (h : (calls.foldl after (make id role settings)).pop.1 = some o) :
    (calls.foldl after (make id role settings)).isAdmissible o.to = true ∧
    o.to ≠ id := by
  have hadm := isAdmissible_of_emitted (c := .pop) h
  refine ⟨hadm, fun hself => ?_⟩
  have hneighbour := Links.hasNeighbour_of_isAdmissible hadm
  rw [hself, not_hasNeighbour_self] at hneighbour
  cases hneighbour

/-- The counts of a node are the numbers of what is recorded. -/
theorem counts_make (id : NodeId) (role : Role) (settings : NodeSettings)
    (calls : List Call) :
    let n := make id role settings
    let tally := (calls.foldl after n).tally
    tally.outgoingQueued = (recorded accepted n calls).length ∧
      tally.outgoingPopped = (n.handedOut calls).length ∧
      tally.outgoingSuppressed = (recorded withheld n calls).length ∧
      tally.incomingQueued = (recorded takenIn n calls).length := by
  intro n tally
  have hqueued := count_recorded (·.tally.outgoingQueued)
    (fun m c => (posted_after m c).queued) n calls
  have hpopped := count_recorded (·.tally.outgoingPopped)
    (fun m c => (posted_after m c).popped) n calls
  have hsuppressed := count_recorded (·.tally.outgoingSuppressed)
    (fun m c => (posted_after m c).suppressed) n calls
  have htaken := count_recorded (·.tally.incomingQueued)
    (fun m c => (intake_after m c).1) n calls
  rw [← handedOut_eq_recorded] at hpopped
  exact ⟨hqueued.trans (Nat.zero_add _), hpopped.trans (Nat.zero_add _),
    hsuppressed.trans (Nat.zero_add _), htaken.trans (Nat.zero_add _)⟩

/-- Whatever is asked of a node, it hands out in order what it accepted, to
neighbours that are admissible at that moment; never more waits than there is
room for; and as long as it is not detached, every frame is accounted for. -/
theorem dispatches_make (id : NodeId) (role : Role) (settings : NodeSettings)
    (calls : List Call) : (make id role settings).Dispatches calls := by
  let n := make id role settings
  let m := calls.foldl after n
  obtain ⟨hqueued, hpopped, hsuppressed, htaken⟩ :=
    counts_make id role settings calls
  have hwhole : .detach ∉ calls → (recorded accepted n calls).Perm
      (n.handedOut calls ++ recorded withheld n calls ++ m.outgoing) :=
    perm_recorded n
  have hheard : .detach ∉ calls →
      recorded takenIn n calls = recorded heard n calls ++ m.incoming :=
    heard_recorded n
  refine {
    addressed := fun before o _ hpop => addressed_of_pop hpop
    skipped := fun before _ o ho => ?_
    in_order := (List.sublist_append_left _ _).trans (sublist_recorded n calls)
    room := fun before _ => length_outgoing_le id role settings before
    queued := hqueued
    popped := hpopped
    suppressed := hsuppressed
    whole := hwhole
    outgoing := fun hdetach => ?_
    received := fun before now _ => flooding_tick _ now
    flooded := fun before now _ => flooded_tick _ now
    in_turn := hheard
    incoming := fun hdetach => ?_
    shut := fun before c between b _ hc hbars =>
      not_to_of_bars (isAdmissible_of_shut hc) hbars }
  · have hshut := List.all_eq_true.1 List.all_takeWhile o ho
    rwa [Bool.not_eq_true'] at hshut
  · calc
      m.tally.outgoingQueued
      _ = (n.handedOut calls ++ recorded withheld n calls ++
          m.outgoing).length :=
        hqueued.trans (hwhole hdetach).length_eq
      _ = m.tally.outgoingPopped + m.tally.outgoingSuppressed +
          m.outgoing.length := by
        rw [List.length_append, List.length_append, hpopped, hsuppressed]
  · calc
      m.tally.incomingQueued
      _ = (recorded heard n calls ++ m.incoming).length :=
        htaken.trans (congrArg List.length (hheard hdetach))
      _ = (recorded heard n calls).length + m.incoming.length :=
        List.length_append

/-- A relay passes a delta on to two neighbours, and shuts the link to
one of them before it pops: the frame for it is kept back, and the one
behind it is handed out. -/
example :
    let calls : List Call := [.addNeighbour ⟨1⟩, .addNeighbour ⟨3⟩,
      .addNeighbour ⟨4⟩, .setAdmissible ⟨1⟩ true, .setAdmissible ⟨3⟩ true,
      .setAdmissible ⟨4⟩ true, .start, .pop, .pop, .pop,
      .queueFrame (Frame.make ⟨1⟩ (.delta ⟨⟨0⟩, ⟨1⟩, [], [], [], []⟩)), .tick 1,
      .setAdmissible ⟨3⟩ false, .pop]
    let n := make ⟨2⟩ .relay NodeSettings.usual
    (n.handedOut calls).map (·.to) = [⟨1⟩, ⟨3⟩, ⟨4⟩, ⟨4⟩] ∧
      (recorded withheld n calls).map (·.to) = [⟨3⟩] := by decide +kernel

end Node

end OnMesh
