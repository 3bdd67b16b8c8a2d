import OnMesh.Proofs.Mesh.Carriage

/-!
# What the nodes get

What is seen to be handed over is what the nodes get.  In a step each node is
handed the bytes that are due at its station, in the order in which they were
put on the wire, and then it ticks and is popped.  Nothing else hands a frame to
a node, so in the course of a run a node is handed just what is seen, and as
long as the versions last it can read all of it.
-/

namespace OnMesh

open Wire (Frame Message)

namespace Node

variable {n : Node} {settings : NodeSettings}
  {bss : List (List UInt8)} {c : Call}

/-- The node was built with the settings, and these bytes were handed to it
since, in this order, and no other frame. -/
def Handed (n : Node) (settings : NodeSettings) (bss : List (List UInt8)) :
    Prop :=
  ∃ id role calls, n = List.foldl after (make id role settings) calls ∧
    calls.filter Call.handsOver = bss.map .queueBytes

theorem handed_make (id : NodeId) (role : Role) (settings : NodeSettings) :
    (make id role settings).Handed settings [] := ⟨id, role, [], rfl, rfl⟩

theorem Handed.foldl (h : n.Handed settings bss) {calls : List Call}
    {more : List (List UInt8)}
    (hcalls : calls.filter Call.handsOver = more.map .queueBytes) :
    (calls.foldl after n).Handed settings (bss ++ more) := by
  obtain ⟨id, role, before, rfl, hbefore⟩ := h
  refine ⟨id, role, before ++ calls, List.foldl_append.symm, ?_⟩
  rw [List.filter_append, hbefore, hcalls, List.map_append]

theorem Handed.after (h : n.Handed settings bss) (hc : c.handsOver = false) :
    (n.after c).Handed settings bss := by
  have hnone : [c].filter Call.handsOver =
      ([] : List (List UInt8)).map .queueBytes :=
    List.filter_cons_of_neg (by simp [hc])
  exact List.append_nil bss ▸ h.foldl hnone

theorem Handed.receivedAll (h : n.Handed settings bss)
    (more : List (List UInt8)) :
    (n.receivedAll more).Handed settings (bss ++ more) := by
  have hall : (more.map Call.queueBytes).filter Call.handsOver =
      more.map .queueBytes := by
    rw [List.filter_eq_self]
    intro c hc
    obtain ⟨bytes, -, rfl⟩ := List.mem_map.1 hc
    rfl
  have hsame : n.receivedAll more =
      (more.map Call.queueBytes).foldl Node.after n :=
    List.foldl_map.symm
  rw [hsame]
  exact h.foldl hall

end Node

namespace Mesh

variable {m : Mesh} {t : Station} {settings : Settings}

/-! ## What nodes are handed -/

/-- The bytes that were handed to the node at a station, oldest first. -/
def Watch.handedTo (w : Watch) (t : Station) : List (List UInt8) :=
  bytesFor t (w.handed.map (·.2.packet))

/-- The frames that the node at a station has handed out, oldest first. -/
def Watch.poppedBy (w : Watch) (t : Station) : List Outgoing :=
  (w.popped.filter fun p => p.source = t).map (·.outgoing)

/-- What a step makes of the node at a station.  The node is handed some bytes,
one after the other, then it ticks, and then it is popped until nothing is left;
and that is what is seen. -/
structure Serves (x y : Mesh × Watch) (t : Station) (n : Node)
    (bss : List (List UInt8)) : Prop where
  node : y.1.nodes.get? t = some ((n.receivedAll bss).tick y.1.now).popAll.2
  handed : y.2.handedTo t = x.2.handedTo t ++ bss
  popped : y.2.poppedBy t =
    x.2.poppedBy t ++ ((n.receivedAll bss).tick y.1.now).popAll.1

theorem bytesFor_append (t : Station) (ps qs : List Packet) :
    bytesFor t (ps ++ qs) = bytesFor t ps ++ bytesFor t qs := by
  rw [bytesFor, List.filter_append, List.map_append]
  rfl

/-- What arrives at a station is what is seen to be handed over there. -/
theorem Faithful.handedTo_step {w : Watch} (h : m.Faithful w) (t : Station) :
    (w.after m .step).handedTo t = w.handedTo t ++ m.arriving t := by
  rw [arriving, ← h.map_due, Watch.handedTo, Watch.handedTo, ← bytesFor_append]
  simp only [Watch.after, List.map_append, List.map_map, Function.comp_def]

/-- Of all frames that are popped, those of one station are what
its node hands out. -/
theorem filter_pops {n : Node} (hn : m.nodes.get? t = some n) :
    (m.pops.filter fun p => p.source = t).map (·.outgoing) = n.popAll.1 := by
  rw [pops, List.filter_flatMap, List.map_flatMap, Table.flatMap_entries_eq hn]
  · simp [List.filter_map, Function.comp_def]
  · intro e _ hne
    simp [List.filter_map, Function.comp_def, hne]

theorem Faithful.serves {w : Watch} (h : m.Faithful w) {n : Node}
    (hn : m.nodes.get? t = some n) :
    Serves (m, w) (m.step, w.after m .step) t n (m.arriving t) := by
  have hticked : m.later.deliverDue.tickAll.nodes.get? t =
      some ((n.receivedAll (m.arriving t)).tick (m.now + 1)) := by
    rw [get?_tickAll_deliverDue, hn, Option.map_some]
  refine ⟨?_, h.handedTo_step t, ?_⟩
  · rw [get?_step, hn, Option.map_some, now_step]
  · rw [now_step, ← filter_pops hticked, Watch.poppedBy, Watch.poppedBy,
      ← List.map_append, ← List.filter_append]
    rfl

/-- Each node was handed what is seen to have been handed over at its station,
and no other frame. -/
structure Attends (settings : Settings) (m : Mesh) (w : Watch) : Prop where
  settings_eq : m.settings = settings
  nodes : m.Each fun t n => n.Handed settings.node (w.handedTo t)
  targets : ∀ e ∈ w.handed, m.nodes.contains e.2.packet.target = true

section Attends

variable {w : Watch}

theorem attends_make (settings : Settings) :
    Attends settings (make settings) .nothing :=
  ⟨rfl, fun _ _ hn => (by cases hn), fun _ he => (by cases he)⟩

/-- Where there is no node, nothing was handed over. -/
theorem Attends.handedTo_of_none (h : Attends settings m w)
    (hnone : m.nodes.get? t = none) : w.handedTo t = [] := by
  rw [Watch.handedTo, bytesFor, List.filter_map, List.filter_eq_nil_iff.2]
  · rfl
  · intro e he htarget
    have hnode := h.targets e he
    rw [of_decide_eq_true htarget, Table.contains, hnone] at hnode
    cases hnode

/-- What a step hands to a node is added to what it was handed before. -/
theorem Attends.step (h : Attends settings m w) (hseen : m.Faithful w) :
    Attends settings m.step (w.after m .step) where
  settings_eq := by
    obtain ⟨nodes, inFlight, tally, heq⟩ := m.step_spec
    rw [heq]
    exact h.settings_eq
  nodes := by
    intro t k hk
    rw [get?_step] at hk
    obtain ⟨n, hn, rfl⟩ := Option.map_eq_some_iff.1 hk
    have hreceived := (h.nodes t n hn).receivedAll (m.arriving t)
    have hticked := hreceived.after (c := .tick (m.now + 1)) rfl
    show Node.Handed _ _ _
    rw [hseen.handedTo_step]
    exact Node.popAll_keeps (P := fun k => k.Handed settings.node _)
      (fun k hk => hk.after rfl) hticked
  targets := by
    intro e he
    refine m.hasNode_perform .step ?_
    rcases List.mem_append.1 he with he | he
    · exact h.targets e he
    · obtain ⟨x, hx, rfl⟩ := List.mem_map.1 he
      refine hseen.targets x.packet (hseen.wire ▸ ?_)
      exact List.mem_map_of_mem (List.mem_of_mem_filter hx)

theorem Attends.perform (h : Attends settings m w) (hseen : m.Faithful w)
    {op : Op} (hop : op.injects = false) :
    Attends settings (m.perform op) (w.after m op) := by
  by_cases hstep : op = .step
  · rw [hstep]
    exact h.step hseen
  · rw [Watch.after_of_ne_step hstep]
    refine ⟨?_, ?_, fun e he => m.hasNode_perform op (h.targets e he)⟩
    · obtain ⟨stream, nodes, stations, latencies, heq⟩ :=
        m.perform_of_ne_step hstep
      rw [heq]
      exact h.settings_eq
    · refine Each.perform_of_ne_step h.nodes hstep
        (fun s n c hc hn => hn.after (Node.Call.handsOver_of_isSetup hc))
        (fun s n c hcall hs => ?_) fun s id role hnone => ?_
      · subst hcall
        exact (h.nodes s n hs).after hop
      · rw [h.handedTo_of_none hnone, h.settings_eq]
        exact Node.handed_make id role settings.node

end Attends

theorem attends_watch {x : Mesh × Watch} (h : Attends settings x.1 x.2)
    (hseen : x.1.Faithful x.2) {ops : List Op}
    (hops : ∀ op ∈ ops, op.injects = false) :
    Attends settings (watch x ops).1 (watch x ops).2 := by
  induction ops generalizing x with
  | nil => exact h
  | cons op ops ih =>
      obtain ⟨hop, hops⟩ := List.forall_mem_cons.1 hops
      exact ih (h.perform hseen hop) (hseen.perform hop) hops

/-! ## Frames that can be read -/

/-- An authority that is to edit its data finds a version to count up to. -/
def Counts (m : Mesh) : Op → Prop
  | .call s c => c.isEdit = true → m.CanCount s
  | _ => True

instance : (op : Op) → Decidable (m.Counts op)
  | .call s c => inferInstanceAs (Decidable (c.isEdit = true → m.CanCount s))
  | .addNode .. | .startAll | .setAdmissible .. | .setLinkAdmissible ..
  | .linkWithLatency .. | .link .. | .step => .isTrue trivial

/-- No edit of a run exhausts the versions. -/
def CountsUp : Mesh → List Op → Prop
  | _, [] => True
  | m, op :: ops => m.Counts op ∧ CountsUp (m.perform op) ops

instance decidableCountsUp : (m : Mesh) → (ops : List Op) →
    Decidable (CountsUp m ops)
  | _, [] => .isTrue trivial
  | m, op :: ops =>
    have := decidableCountsUp (m.perform op) ops
    inferInstanceAs (Decidable (_ ∧ _))

/-- All nodes are tidy, and what is on the wire can be read. -/
structure Clean (m : Mesh) : Prop where
  nodes : m.Holds Node.Tidy
  packets : ∀ p ∈ m.inFlight, ∃ frame, Frame.parse p.bytes = .ok frame

theorem clean_make (settings : Settings) : (make settings).Clean :=
  ⟨fun _ _ hn => (by cases hn), fun _ hp => (by cases hp)⟩

/-- A step hands over readable frames only, so no node counts one as
malformed. -/
theorem Clean.step (h : m.Clean) : m.step.Clean := by
  have hdelivered : m.later.deliverDue.Holds Node.Tidy := by
    refine Each.foldl_deliver
      (m := { m.later with
        inFlight := m.later.inFlight.filter fun p => !(p.due ≤ m.later.now) })
      h.nodes fun p hp s n hn => ?_
    exact hn.queueBytes (h.packets p (List.mem_of_mem_filter hp))
  have hticked : m.later.deliverDue.tickAll.Holds Node.Tidy :=
    hdelivered.map fun n hn =>
      hn.after (c := .tick _) rfl (by simp [Node.Call.isEdit])
  have hpopped : m.later.deliverDue.tickAll.popped.Holds Node.Tidy :=
    hticked.map fun n hn => Node.popAll_keeps
      (fun k hk => hk.after (c := .pop) rfl (by simp [Node.Call.isEdit])) hn
  obtain ⟨tally, heq⟩ := m.later.deliverDue.tickAll.transmitAll_spec
  rw [step_eq, heq]
  refine ⟨hpopped, fun p hp => ?_⟩
  rcases List.mem_append.1 hp with hp | hp
  · rw [m.fields_tickAll_deliverDue.2.2.2.2] at hp
    exact h.packets p (List.mem_of_mem_filter hp)
  · obtain ⟨l, hl, -, hpacket⟩ := mem_arrivals_iff.1 hp
    obtain ⟨⟨s, n⟩, he, hl⟩ := List.mem_flatMap.1 hl
    obtain ⟨o, ho, hletter⟩ := List.mem_filterMap.1 hl
    have htidy := hticked s n (Table.get?_of_mem he)
    obtain ⟨tally, hpop⟩ := n.popAll_spec
    rw [hpop] at ho
    cases hbytes : o.frame.serialize with
    | error fault => simp [hbytes] at hletter
    | ok bytes =>
        rw [hbytes] at hletter
        cases hletter
        rw [hpacket]
        exact htidy.advancing.readable htidy.signed
          (List.mem_of_mem_filter ho) hbytes

theorem Clean.perform (h : m.Clean) {op : Op} (hop : op.injects = false)
    (hcounts : m.Counts op) : (m.perform op).Clean := by
  by_cases hstep : op = .step
  · rw [hstep]
    exact h.step
  · have hflight : (m.perform op).inFlight = m.inFlight := by
      obtain ⟨stream, nodes, stations, latencies, heq⟩ :=
        m.perform_of_ne_step hstep
      rw [heq]
    refine ⟨?_, fun p hp => h.packets p (hflight ▸ hp)⟩
    refine Each.perform_of_ne_step h.nodes hstep (fun s n c hc hn => ?_)
      (fun s n c hcall hs => ?_) fun s id role _ => Node.tidy_make id role _
    · refine hn.after (Node.Call.handsOver_of_isSetup hc) fun hedit => ?_
      cases c <;> cases hc <;> cases hedit
    · subst hcall
      refine (h.nodes s n hs).after hop fun hedit hpublish => ?_
      exact hcounts hedit n hs (Role.canPublish_eq_true_iff.1 hpublish)

theorem Clean.foldl (h : m.Clean) {ops : List Op}
    (hops : ∀ op ∈ ops, op.injects = false) (hcounts : m.CountsUp ops) :
    (ops.foldl Mesh.perform m).Clean := by
  induction ops generalizing m with
  | nil => exact h
  | cons op ops ih =>
      obtain ⟨hop, hops⟩ := List.forall_mem_cons.1 hops
      exact ih (h.perform hop hcounts.1) hops hcounts.2

/-! ## Everything is carried -/

/-- What becomes of the frames in a mesh that is watched from the beginning,
first during some operations and then during some more. -/
structure Conveys (settings : Settings) (before during : List Op)
    (x y : Mesh × Watch) : Prop where
  /-- Watching a mesh does not change it. -/
  run : y.1 = (before ++ during).foldl perform (make settings)
  /-- What was seen to be handed out, sent and handed over is
  what the mesh has done. -/
  seen : y.1.Faithful y.2
  /-- In every step a node is handed what is seen to be handed over at its
  station, and what it hands out is seen. -/
  served : ∀ earlier later,
    before ++ during = earlier ++ .step :: later → ∀ t n,
    (watch (make settings, .nothing) earlier).1.nodes.get? t = some n → ∃ bss,
      Serves (watch (make settings, .nothing) earlier)
        (watch (make settings, .nothing) (earlier ++ [.step])) t n bss
  /-- That is all that a node is handed as long as there is the mesh. -/
  received : ∀ t n, y.1.nodes.get? t = some n →
    n.Handed settings.node (y.2.handedTo t)
  /-- No frame is lost from the count. -/
  counted : y.1.tally.framesSent =
    y.1.tally.framesDelivered + y.1.inFlight.length +
    y.1.nodes.total fun n => n.tally.incomingDropped + n.tally.malformedFrames
  /-- No frame is malformed. -/
  readable : (make settings).CountsUp (before ++ during) →
    ∀ s n, y.1.nodes.get? s = some n → n.tally.malformedFrames = 0
  /-- While the latency of a link stays what it is, what goes on it is handed
  over in turn, once, and after that latency. -/
  inTurn : ∀ a b ticks, LatencyStays a b ticks x.1 during → 1 ≤ ticks ∧
    Ferries a b x.1.now ticks y.2 ∧
    (∀ e ∈ y.2.handed, e.2.along a b x.1.now = true →
      e.1 = e.2.sentAt + ticks) ∧
    ∀ e ∈ y.2.flying, e.along a b x.1.now = true → y.1.now < e.sentAt + ticks

theorem watch_append (x : Mesh × Watch) (ops more : List Op) :
    watch x (ops ++ more) = watch (watch x ops) more := List.foldl_append

/-- A step of a mesh that has been watched from the beginning serves every
node. -/
theorem exists_serves (settings : Settings) {ops : List Op}
    (hops : ∀ op ∈ ops, op.injects = false) {t : Station} {n : Node}
    (hn : (watch (make settings, .nothing) ops).1.nodes.get? t = some n) :
    ∃ bss, Serves (watch (make settings, .nothing) ops)
      (watch (make settings, .nothing) (ops ++ [.step])) t n bss := by
  rw [watch_append]
  exact ⟨_, ((faithful_make settings).watch
    (x := (make settings, .nothing)) hops).serves hn⟩

/-- What is put on the wire is counted when it is handed over, or it is still
there. -/
theorem Faithful.counted {w : Watch} (h : m.Faithful w) :
    m.tally.framesSent = m.tally.framesDelivered + m.inFlight.length +
      m.nodes.total fun n =>
        n.tally.incomingDropped + n.tally.malformedFrames := by
  have hsent := h.sent
  have hhanded := h.handed
  have honce := h.once.length_eq
  have hwire := congrArg List.length h.wire
  rw [List.length_append, List.length_map] at honce
  rw [List.length_map] at hwire
  rw [handedOver] at hhanded
  show _ = _ + _ + Table.total Node.refused _
  omega

/-- A mesh to whose nodes nothing is handed but what comes over the wire loses
no frame, hands none over twice, and keeps those of each link in order. -/
theorem conveys_watch (settings : Settings) (before during : List Op)
    (hops : ∀ op ∈ before ++ during, op.injects = false) :
    Conveys settings before during (watch (make settings, .nothing) before)
      (watch (watch (make settings, .nothing) before) during) := by
  have hbefore : ∀ op ∈ before, op.injects = false := fun op hop =>
    hops op (List.mem_append_left _ hop)
  have hduring : ∀ op ∈ during, op.injects = false := fun op hop =>
    hops op (List.mem_append_right _ hop)
  have hfirst :=
    (faithful_make settings).watch (x := (make settings, .nothing)) hbefore
  have hseen := hfirst.watch hduring
  have hattends := attends_watch
    (attends_watch (x := (make settings, .nothing)) (attends_make settings)
      (faithful_make settings) hbefore) hfirst hduring
  have hrun : (watch (watch (make settings, .nothing) before) during).1 =
      (before ++ during).foldl perform (make settings) := by
    rw [fst_watch, fst_watch, List.foldl_append]
  refine {
    run := hrun
    seen := hseen
    served := fun earlier later hsplit t n hn =>
      exists_serves settings (fun op hop => ?_) hn
    received := hattends.nodes
    counted := hseen.counted
    readable := fun hcounts s n hn => ?_
    inTurn := fun a b ticks hstays => ?_ }
  · exact hops op (hsplit ▸ List.mem_append_left _ hop)
  · rw [hrun] at hn
    exact (((clean_make settings).foldl hops hcounts).nodes s n hn).malformed
  · have hready : Ferries a b _ ticks _ := hfirst.ferries
    have hferries := hready.watch hfirst hduring hstays
    refine ⟨?_, hferries, fun e he halong => ?_, fun e he halong => ?_⟩
    · rw [← hstays.latency_eq]
      exact latency_pos _ a b
    · have hsent := hseen.once.mem_iff.2
        (List.mem_append_left _ (List.mem_map_of_mem he))
      rw [hseen.onTime e he]
      exact hferries.delay e.2 hsent halong
    · have hsent := hseen.once.mem_iff.2 (List.mem_append_right _ he)
      have hdelay := hferries.delay e hsent halong
      have hpending := hseen.pending e he
      omega

/-- Operations that lead to a leader and a leaf with a link of
latency two between them. -/
def distantPair : List Op :=
  [.addNode ⟨0⟩ .authority, .addNode ⟨1⟩ .leaf,
    .linkWithLatency ⟨0⟩ ⟨1⟩ 2, .startAll]

/-- The leader publishes a prefix, the leaf learns of it and leaves, and the
leader publishes another one. -/
def leafLeaves : List Op :=
  [.call ⟨0⟩
    (.addPrefix (Prefix.ofAddress ⟨0xfd00 <<< 112⟩ _ Prefix.slaacLength_le)
      ⟨Flags.slaacBit⟩),
    .step, .step, .step, .call ⟨1⟩ .detach,
    .call ⟨0⟩
      (.addPrefix (Prefix.ofAddress ⟨0xfd01 <<< 112⟩ _ Prefix.slaacLength_le)
      ⟨Flags.slaacBit⟩),
    .step, .step, .step]

/-- All frames for the leaf are handed to it two ticks after they were sent.  It
takes the two that reach it in time, and applies the delta among them. -/
theorem conveys_leafLeaves :
    ∃ x y, x = watch (make .usual, .nothing) distantPair ∧
    y = watch x leafLeaves ∧ Conveys .usual distantPair leafLeaves x y ∧
    (make .usual).CountsUp (distantPair ++ leafLeaves) ∧
    LatencyStays ⟨0⟩ ⟨1⟩ 2 x.1 leafLeaves ∧
    (y.2.handed.filter fun e => e.2.along ⟨0⟩ ⟨1⟩ x.1.now).map
        (fun e => (e.1, e.2.sentAt)) = [(3, 1), (3, 1), (5, 3), (6, 4)] ∧
    (y.1.nodes.get? ⟨1⟩).map (fun n => (n.tally.incomingQueued,
      n.flooding.tally.deltasApplied, n.tally.incomingDropped)) =
        some (2, 1, 2) :=
  ⟨_, _, rfl, rfl, conveys_watch .usual distantPair leafLeaves (by decide),
    by decide +kernel, by decide +kernel, by decide +kernel, by decide +kernel⟩

end Mesh

end OnMesh
