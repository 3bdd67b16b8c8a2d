import OnMesh.Host
import OnMesh.Proofs.Node.Identity

/-!
# A host does to its node what its commands say

A host is compared with its node called directly, each command followed by
popping frames until none comes.  Whoever takes frames out of the channel may do
so at any time, also between two frames that the host puts there.  The node does
not depend on it: a frame that finds the channel full is missing in the channel
and counted in the view, and that is all.
-/

namespace OnMesh

open Wire (Frame)

namespace Node

/-- Frames are popped one after the other until none comes. -/
inductive Emptied : Node → List Outgoing → Node → Prop
  | done {n m : Node} : n.pop = (none, m) → Emptied n [] m
  | next {n m k : Node} {o : Outgoing} {os : List Outgoing} :
      n.pop = (some o, m) → Emptied m os k → Emptied n (o :: os) k

/-- To pop all frames is to pop until none comes. -/
theorem emptied_popAll (n : Node) : Emptied n n.popAll.1 n.popAll.2 := by
  have hbound : ∀ (bound : Nat) (n : Node), n.outgoing.length < bound →
      Emptied n (popUpTo bound n).1 (popUpTo bound n).2 := by
    intro bound
    induction bound with
    | zero => exact fun n h => absurd h (Nat.not_lt_zero _)
    | succ bound ih =>
        intro n hlength
        rcases popFrom_spec n n.outgoing with
          ⟨tally, hpop, -⟩ | ⟨lost, o, rest, tally, hpop, hsplit, -, -⟩
        · have hpop : n.pop = (none, n.left [] tally) := hpop
          rw [popUpTo, hpop]
          exact Emptied.done hpop
        · have hpop : n.pop = (some o, n.left rest tally) := hpop
          rw [popUpTo, hpop]
          refine Emptied.next hpop (ih _ ?_)
          rw [hsplit, List.length_append, List.length_cons] at hlength
          show rest.length < bound
          omega
  exact hbound _ n (Nat.lt_succ_self _)

end Node

/-! ## Calling a node directly -/

/-- A node that is called directly, and what was popped from it. -/
structure Direct where
  node : Node
  /-- The tick that was told last. -/
  now : Nat
  popped : List Outgoing
  /-- Nobody has asked to stop. -/
  running : Bool

namespace Direct

def call (d : Direct) : Command → Direct
  | .start => { d with node := d.node.start }
  | .detach => { d with node := d.node.detach }
  | .inbound bytes =>
    if (d.node.queueBytes bytes).1 then
      { d with node := (d.node.queueBytes bytes).2.tick d.now }
    else { d with node := (d.node.queueBytes bytes).2 }
  | .addPrefix net flags => { d with node := (d.node.addPrefix net flags).2 }
  | .removePrefix net => { d with node := (d.node.removePrefix net).2 }
  | .addNeighbour b => { d with node := d.node.addNeighbour b }
  | .setAdmissible b admissible =>
    { d with node := (d.node.setAdmissible b admissible).2 }
  | .tick now => { d with node := d.node.tick now, now }
  | .shutdown => { d with running := false }

def popAll (d : Direct) : Direct :=
  { d with node := d.node.popAll.2, popped := d.popped ++ d.node.popAll.1 }

/-- Make the calls of a command, and pop all frames. -/
def handle (d : Direct) (c : Command) : Direct :=
  if !d.running then d
  else if c = .shutdown then d.call c
  else (d.call c).popAll

def run (node : Node) (cs : List Command) : Direct :=
  cs.foldl handle ⟨node, 0, [], true⟩

variable {d : Direct} {c : Command}

theorem run_append (node : Node) (cs : List Command) (c : Command) :
    run node (cs ++ [c]) = (run node cs).handle c := List.foldl_concat ..

theorem handle_of_stopped (h : d.running = false) : d.handle c = d := by
  rw [handle, h]; rfl

theorem handle_of_running (h : d.running = true) (hc : c ≠ .shutdown) :
    d.handle c = (d.call c).popAll := by
  rw [handle, h, if_neg (by decide), if_neg hc]

theorem popped_call (d : Direct) (c : Command) :
    (d.call c).popped = d.popped := by
  cases c <;> simp only [call]
  split <;> rfl

/-- Every call is one that a node can be given, and none gives it another
address. -/
theorem id_call (d : Direct) (c : Command) :
    (d.call c).node.id = d.node.id := by
  cases c with
  | start => exact (Node.alike_after d.node .start).id
  | detach => exact (Node.alike_after d.node .detach).id
  | inbound bytes =>
      have hqueue := (Node.alike_after d.node (.queueBytes bytes)).id
      rw [call]
      split
      · exact (Node.alike_after _ (.tick d.now)).id.trans hqueue
      · exact hqueue
  | addPrefix net flags =>
      exact (Node.alike_after d.node (.addPrefix net flags)).id
  | removePrefix net => exact (Node.alike_after d.node (.removePrefix net)).id
  | addNeighbour b => exact (Node.alike_after d.node (.addNeighbour b)).id
  | setAdmissible b admissible =>
      exact (Node.alike_after d.node (.setAdmissible b admissible)).id
  | tick now => exact (Node.alike_after d.node (.tick now)).id
  | shutdown => rfl

theorem id_popAll (d : Direct) : d.popAll.node.id = d.node.id :=
  Node.popAll_keeps (P := fun n => n.id = d.node.id)
    (fun m h => (Node.alike_after m .pop).id.trans h) rfl

end Direct

/-! ## Telling a host what to do -/

/-- The frame that leaves a host when its node hands one out, if it fits a
packet. -/
def Departure.of? (source : NodeId) (o : Outgoing) : Option Departure :=
  match o.frame.serialize with
  | .ok bytes => some ⟨source, o.to, bytes⟩
  | .error _ => none

/-- A frame that was to go into a channel, and the number of frames
that it found there. -/
structure Attempt where
  departure : Departure
  waiting : Nat

/-- A frame goes in if there is room for it. -/
def Attempt.fits (capacity : Nat) (a : Attempt) : Bool := a.waiting < capacity

/-- What happens at a channel: a frame is put there, or one is taken. -/
inductive Move where
  | send (o : Outgoing)
  | take

/-- The frame that is put into the channel. -/
def Move.sent? : Move → Option Outgoing
  | .send o => some o
  | .take => none

/-- A host, and what was seen at its channel, oldest first. -/
structure Story where
  host : Host
  /-- The frames that were taken. -/
  taken : List Departure
  /-- The frames that were to go in. -/
  attempts : List Attempt

namespace Story

variable {s : Story} {node : Node} {capacity : Nat}
  {cs : List Command} {c : Command}
  {moves : List Move}

def move (s : Story) : Move → Story
  | .send o => { s with
      host := s.host.forward o
      attempts := s.attempts ++
        ((Departure.of? s.host.node.id o).map fun d =>
          ⟨d, s.host.channel.length⟩).toList }
  | .take => { s with
      host := s.host.receive.2
      taken := s.taken ++ s.host.receive.1.toList }

def outbox (h : Host) (c : Command) : List Outgoing :=
  (h.execute c).2.node.popAll.1

/-- A host that carried out a command and has yet to put frames into its
channel. -/
def emptied (h : Host) (c : Command) : Host :=
  let h := (h.execute c).2
  { h with node := h.node.popAll.2 }

/-- The host takes a command, and things happen at the channel before
it renews the view. -/
def handle (s : Story) (c : Command) (moves : List Move) : Story :=
  if !s.host.running || c = .shutdown then
    { s with host := (s.host.handle c).2 }
  else
    let s := moves.foldl move { s with host := emptied s.host c }
    { s with host := s.host.publishView }

/-- What can have become of a host that was told some commands: frames may
be taken between the commands, and while the host puts into the channel what
its node has to send. -/
inductive Told (node : Node) (capacity : Nat) : List Command → Story → Prop
  | spawn : Told node capacity [] ⟨Host.spawn node capacity, [], []⟩
  | take {cs : List Command} {s : Story} : Told node capacity cs s →
      Told node capacity cs (s.move .take)
  | handle {cs : List Command} {s : Story} (c : Command) (moves : List Move) :
      Told node capacity cs s → moves.filterMap Move.sent? = outbox s.host c →
      Told node capacity (cs ++ [c]) (s.handle c moves)

/-- The host takes a command, and nobody takes frames meanwhile. -/
def alone (s : Story) (c : Command) : Story :=
  s.handle c ((outbox s.host c).map .send)

theorem filterMap_sent (os : List Outgoing) :
    (os.map Move.send).filterMap Move.sent? = os := by
  rw [List.filterMap_map]
  exact List.filterMap_some

theorem Told.alone (h : Told node capacity cs s) (c : Command) :
    Told node capacity (cs ++ [c]) (s.alone c) :=
  h.handle c _ (filterMap_sent _)

/-- That is how a host takes a command. -/
theorem alone_eq (s : Story) (c : Command) :
    (s.alone c).host = (s.host.handle c).2 ∧ (s.alone c).taken = s.taken := by
  have hfold : ∀ (os : List Outgoing) (s : Story),
      ((os.map Move.send).foldl move s).host = os.foldl Host.forward s.host ∧
        ((os.map Move.send).foldl move s).taken = s.taken := by
    intro os
    induction os with
    | nil => exact fun _ => ⟨rfl, rfl⟩
    | cons o os ih => exact fun s => ih _
  rw [Story.alone, handle]
  split
  · exact ⟨rfl, rfl⟩
  · next hgoes =>
      obtain ⟨hrunning, hc⟩ : s.host.running = true ∧ c ≠ .shutdown := by
        simpa using hgoes
      simp only [hfold, Host.handle, hrunning, hc, outbox]
      exact ⟨rfl, trivial⟩

/-- What becomes of a host that takes commands while nobody takes frames is what
was told, the whole of it. -/
theorem told_alone (node : Node) (capacity : Nat) (cs : List Command) :
    ∃ s, Told node capacity cs s ∧ s.taken = [] ∧
      s.host =
        cs.foldl (fun h c => (h.handle c).2) (Host.spawn node capacity) := by
  have hfold : ∀ (rest told : List Command) (s : Story),
      Told node capacity told s →
      Told node capacity (told ++ rest) (rest.foldl Story.alone s) ∧
        (rest.foldl Story.alone s).taken = s.taken ∧
        (rest.foldl Story.alone s).host =
          rest.foldl (fun h c => (h.handle c).2) s.host := by
    intro rest
    induction rest with
    | nil => exact fun told s h => ⟨(List.append_nil told).symm ▸ h, rfl, rfl⟩
    | cons c rest ih =>
        intro told s h
        obtain ⟨htold, htaken, hhost⟩ := ih _ _ (h.alone c)
        obtain ⟨hone, hnone⟩ := alone_eq s c
        rw [List.append_assoc, List.singleton_append] at htold
        exact ⟨htold, htaken.trans hnone, by
          rw [List.foldl_cons, hhost, hone]; rfl⟩
  exact ⟨_, hfold cs [] _ Told.spawn⟩

/-! ## At the channel -/

/-- How many frames found the channel full. -/
def refused (capacity : Nat) (s : Story) : Nat :=
  (s.attempts.filter fun a => !a.fits capacity).length

/-- What is in the channel and what was taken out of it went in because there
was room, and what did not go in was counted. -/
structure Tallies (capacity : Nat) (s : Story) : Prop where
  listening : s.host.listening = true
  capacity_eq : s.host.capacity = capacity
  /-- The channel hands out what went in, in the same order. -/
  passed : (s.attempts.filter (·.fits capacity)).map (·.departure) =
    s.taken ++ s.host.channel
  dropped : s.host.dropped = refused capacity s

theorem tallies_spawn (node : Node) (capacity : Nat) :
    Tallies capacity ⟨Host.spawn node capacity, [], []⟩ := ⟨rfl, rfl, rfl, rfl⟩

theorem forward_eq (h : Host) (o : Outgoing) :
    h.forward o = (Departure.of? h.node.id o).elim h h.send := by
  rw [Host.forward, Departure.of?]
  cases o.frame.serialize <;> rfl

/-- Nothing that happens at the channel reaches the rest of the host. -/
theorem host_move (s : Story) (m : Move) :
    ∃ channel dropped, (s.move m).host = { s.host with channel, dropped } := by
  cases m with
  | take =>
      rw [move, Host.receive]
      cases hchannel : s.host.channel with
      | nil => exact ⟨s.host.channel, s.host.dropped, rfl⟩
      | cons d channel => exact ⟨channel, s.host.dropped, rfl⟩
  | send o =>
      rw [move, forward_eq]
      cases Departure.of? s.host.node.id o with
      | none => exact ⟨s.host.channel, s.host.dropped, rfl⟩
      | some d =>
          simp only [Option.elim_some, Host.send]
          split
          · exact ⟨s.host.channel, s.host.dropped, rfl⟩
          · split
            · exact ⟨s.host.channel, s.host.dropped + 1, rfl⟩
            · exact ⟨s.host.channel ++ [d], s.host.dropped, rfl⟩

theorem Tallies.take (h : Tallies capacity s) :
    Tallies capacity (s.move .take) := by
  cases hchannel : s.host.channel with
  | nil =>
      have hsame : s.move .take = s := by
        simp [Story.move, Host.receive, hchannel]
      rw [hsame]
      exact h
  | cons d channel =>
      have htaken : s.move .take =
          { s with
            host := { s.host with channel }
            taken := s.taken ++ [d] } := by
        simp [Story.move, Host.receive, hchannel]
      rw [htaken]
      refine ⟨h.listening, h.capacity_eq, ?_, h.dropped⟩
      rw [h.passed, hchannel, List.append_assoc, List.singleton_append]

/-- A frame that is sent goes into the channel or is counted as dropped. -/
theorem Tallies.send (h : Tallies capacity s) (o : Outgoing) :
    Tallies capacity (s.move (.send o)) := by
  cases hdeparture : Departure.of? s.host.node.id o with
  | none =>
      have hsame : s.move (.send o) = s := by
        simp [Story.move, forward_eq, hdeparture]
      rw [hsame]
      exact h
  | some d =>
      by_cases hfull : capacity ≤ s.host.channel.length
      · have hlost : s.move (.send o) = { s with
            host := { s.host with dropped := s.host.dropped + 1 }
            attempts := s.attempts ++ [⟨d, s.host.channel.length⟩] } := by
          simp [Story.move, forward_eq, hdeparture, Host.send, h.listening,
            h.capacity_eq, hfull]
        have hfits : Attempt.fits capacity ⟨d, s.host.channel.length⟩ = false :=
          decide_eq_false (Nat.not_lt.2 hfull)
        rw [hlost]
        refine ⟨h.listening, h.capacity_eq, ?_, ?_⟩
        · rw [List.filter_append, List.filter_cons_of_neg (by simp [hfits]),
            List.filter_nil, List.append_nil]
          exact h.passed
        · rw [refused, List.filter_append, List.filter_cons_of_pos
            (by simp [hfits]), List.filter_nil, List.length_append, h.dropped]
          rfl
      · have hput : s.move (.send o) = { s with
            host := { s.host with channel := s.host.channel ++ [d] }
            attempts := s.attempts ++ [⟨d, s.host.channel.length⟩] } := by
          simp [Story.move, forward_eq, hdeparture, Host.send, h.listening,
            h.capacity_eq, hfull]
        have hfits : Attempt.fits capacity ⟨d, s.host.channel.length⟩ = true :=
          decide_eq_true (Nat.lt_of_not_le hfull)
        rw [hput]
        refine ⟨h.listening, h.capacity_eq, ?_, ?_⟩
        · rw [List.filter_append, List.filter_cons_of_pos (by simp [hfits]),
            List.filter_nil, List.map_append, h.passed, List.append_assoc]
          rfl
        · rw [refused, List.filter_append, List.filter_cons_of_neg
            (by simp [hfits]), List.filter_nil, List.append_nil]
          exact h.dropped

/-! ## The host and its node -/

/-- A host has the node that was called directly, and some frames that were
popped from it are still to go into the channel. -/
structure Owes (capacity : Nat) (pending : List Outgoing) (s : Story)
    (d : Direct) : Prop where
  node_eq : s.host.node = d.node
  now_eq : s.host.now = d.now
  running_eq : s.host.running = d.running
  attempted : s.attempts.map (·.departure) ++
    pending.filterMap (Departure.of? d.node.id) =
    d.popped.filterMap (Departure.of? d.node.id)
  channel : Tallies capacity s

/-- What became of a host is what became of its node, called directly. -/
structure Follows (capacity : Nat) (s : Story) (d : Direct) : Prop where
  node_eq : s.host.node = d.node
  now_eq : s.host.now = d.now
  running_eq : s.host.running = d.running
  /-- The view is that of the node, with the number of frames that
  found the channel full. -/
  view_eq : s.host.view = View.ofNode d.node (refused capacity s)
  /-- What was to go into the channel is what was popped and fits a
  packet, in the same order. -/
  attempted : s.attempts.map (·.departure) =
    d.popped.filterMap (Departure.of? d.node.id)
  channel : Tallies capacity s

variable {d : Direct} {pending : List Outgoing}

theorem Owes.take (h : Owes capacity pending s d) :
    Owes capacity pending (s.move .take) d := by
  obtain ⟨channel, dropped, hhost⟩ := s.host_move .take
  exact ⟨by rw [hhost]; exact h.node_eq, by rw [hhost]; exact h.now_eq,
    by rw [hhost]; exact h.running_eq, h.attempted, h.channel.take⟩

theorem Owes.send {o : Outgoing} (h : Owes capacity (o :: pending) s d) :
    Owes capacity pending (s.move (.send o)) d := by
  obtain ⟨channel, dropped, hhost⟩ := s.host_move (.send o)
  refine ⟨by rw [hhost]; exact h.node_eq, by rw [hhost]; exact h.now_eq,
    by rw [hhost]; exact h.running_eq, ?_, h.channel.send o⟩
  rw [← h.attempted, move, h.node_eq, List.filterMap_cons]
  cases Departure.of? d.node.id o with
  | none => simp
  | some sent => simp

/-- Whatever happens at the channel, the host pays what it owes. -/
theorem Owes.foldl_move (h : Owes capacity pending s d)
    (hmoves : moves.filterMap Move.sent? = pending) :
    Owes capacity [] (moves.foldl move s) d := by
  induction moves generalizing s pending with
  | nil =>
      obtain rfl : pending = [] := hmoves.symm
      exact h
  | cons m moves ih =>
      cases m with
      | take => exact ih h.take hmoves
      | send o =>
          have hpending : o :: moves.filterMap Move.sent? = pending := hmoves
          exact ih (hpending ▸ h).send rfl

theorem follows_spawn (node : Node) (capacity : Nat) :
    Follows capacity ⟨Host.spawn node capacity, [], []⟩ (Direct.run node []) :=
  ⟨rfl, rfl, rfl, rfl, rfl, tallies_spawn node capacity⟩

/-- Frames that are taken do not show in the view. -/
theorem Follows.take (h : Follows capacity s d) :
    Follows capacity (s.move .take) d := by
  have howes : Owes capacity [] s d :=
    ⟨h.node_eq, h.now_eq, h.running_eq,
      (List.append_nil _).trans h.attempted, h.channel⟩
  obtain ⟨channel, dropped, hhost⟩ := s.host_move .take
  exact ⟨howes.take.node_eq, howes.take.now_eq, howes.take.running_eq,
    by rw [hhost]; exact h.view_eq, h.attempted, howes.take.channel⟩

/-- Once everything is in the channel, the view is renewed. -/
theorem Owes.publish (h : Owes capacity [] s d) :
    Follows capacity { s with host := s.host.publishView } d :=
  ⟨h.node_eq, h.now_eq, h.running_eq,
    show View.ofNode s.host.node s.host.dropped = _ by
    rw [h.node_eq, h.channel.dropped]; rfl,
      (List.append_nil _).symm.trans h.attempted, ⟨h.channel.listening,
        h.channel.capacity_eq, h.channel.passed, h.channel.dropped⟩⟩

/-- To carry out a command is to make its calls. -/
theorem execute_eq {h : Host} (hnode : h.node = d.node) (hnow : h.now = d.now)
    (hc : c ≠ .shutdown) :
    (h.execute c).2 = { h with
      node := (d.call c).node, now := (d.call c).now } ∧
      (d.call c).running = d.running := by
  cases c with
  | shutdown => exact absurd rfl hc
  | inbound bytes =>
      rw [Direct.call]
      split <;> rename_i htaken <;>
        exact ⟨by simp only [Host.execute, hnode, hnow, htaken]; rfl, rfl⟩
  | _ => exact ⟨by simp only [Host.execute, Direct.call, hnode, hnow], rfl⟩

/-- A host that carried out a command owes what was popped after its calls. -/
theorem Follows.owes (h : Follows capacity s d) (hc : c ≠ .shutdown) :
    Owes capacity (outbox s.host c) { s with host := emptied s.host c }
      (d.call c).popAll := by
  obtain ⟨hexecute, hgoes⟩ := execute_eq h.node_eq h.now_eq hc
  have hout : outbox s.host c = (d.call c).node.popAll.1 := by
    rw [outbox, hexecute]
  have hemptied : emptied s.host c = { s.host with
      node := (d.call c).popAll.node, now := (d.call c).now } := by
    rw [emptied, hexecute]
    rfl
  have hid : (d.call c).popAll.node.id = d.node.id :=
    (Direct.id_popAll _).trans (Direct.id_call d c)
  have hpopped : (d.call c).popAll.popped = d.popped ++ outbox s.host c := by
    rw [hout, Direct.popAll, Direct.popped_call]
  refine ⟨congrArg Host.node hemptied, congrArg Host.now hemptied, ?_, ?_, ?_⟩
  · exact (congrArg Host.running hemptied).trans (h.running_eq.trans hgoes.symm)
  · rw [hpopped, hid, List.filterMap_append, ← h.attempted]
  · rw [hemptied]
    exact ⟨h.channel.listening, h.channel.capacity_eq, h.channel.passed,
      h.channel.dropped⟩

/-- Whatever happens at the channel, the host carries out a
command as its node does. -/
theorem Follows.handle (h : Follows capacity s d)
    (hmoves : moves.filterMap Move.sent? = outbox s.host c) :
    Follows capacity (s.handle c moves) (d.handle c) := by
  have hrunning := h.running_eq
  cases hstate : d.running with
  | false =>
      rw [hstate] at hrunning
      have hsame : s.handle c moves = s := by
        simp [Story.handle, Host.handle, hrunning]
      rw [hsame, Direct.handle_of_stopped hstate]
      exact h
  | true =>
      rw [hstate] at hrunning
      by_cases hc : c = .shutdown
      · have hstop : s.handle c moves =
            { s with host := { s.host with running := false } } := by
          simp [Story.handle, Host.handle, Host.execute, hrunning, hc]
        have hdirect : d.handle c = { d with running := false } := by
          simp [Direct.handle, Direct.call, hstate, hc]
        rw [hstop, hdirect]
        exact ⟨h.node_eq, h.now_eq, rfl, h.view_eq, h.attempted,
          h.channel.listening, h.channel.capacity_eq, h.channel.passed,
          h.channel.dropped⟩
      · rw [Story.handle, if_neg (by simp [hrunning, hc]),
          Direct.handle_of_running hstate hc]
        exact ((h.owes hc).foldl_move hmoves).publish

theorem Told.follows (h : Told node capacity cs s) :
    Follows capacity s (Direct.run node cs) := by
  induction h with
  | spawn => exact follows_spawn node capacity
  | take _ ih => exact ih.take
  | handle c moves _ hmoves ih =>
      rw [Direct.run_append]
      exact ih.handle hmoves

/-- What became of a host that was told some commands is what became of its
node, called directly, and the node shows neither how much the channel held nor
who took frames when. -/
structure Refines (node : Node) (capacity : Nat) (cs : List Command)
    (s : Story) : Prop extends Follows capacity s (Direct.run node cs) where
  /-- A node that is called directly is popped until no frame comes. -/
  emptied : ∀ n : Node, n.Emptied n.popAll.1 n.popAll.2
  same_node : ∀ capacity' s', Told node capacity' cs s' →
    s'.host.node = s.host.node
  /-- Nor does it show that nobody took any. -/
  unattended : ∀ capacity',
    (cs.foldl (fun h c => (h.handle c).2) (Host.spawn node capacity')).node =
      s.host.node
  /-- A host that nobody takes frames from is one of those that were told, with
  its view, its channel and the count of frames that found the channel full. -/
  alone : ∀ capacity', ∃ s', Told node capacity' cs s' ∧
    Follows capacity' s' (Direct.run node cs) ∧ s'.taken = [] ∧
    s'.host = cs.foldl (fun h c => (h.handle c).2) (Host.spawn node capacity')

/-- A host that was told commands has the node that direct calls lead to, and
its channel and its view show what these calls hand out. -/
theorem refines_of_told (h : Told node capacity cs s) :
    Refines node capacity cs s := by
  have hsame : ∀ capacity' s', Told node capacity' cs s' →
      s'.host.node = s.host.node :=
    fun _ _ h' => h'.follows.node_eq.trans h.follows.node_eq.symm
  refine ⟨h.follows, Node.emptied_popAll, hsame, fun capacity' => ?_,
    fun capacity' => ?_⟩
  · obtain ⟨s', htold, -, hhost⟩ := told_alone node capacity' cs
    rw [← hhost]
    exact hsame capacity' s' htold
  · obtain ⟨s', htold, htaken, hhost⟩ := told_alone node capacity' cs
    exact ⟨s', htold, htold.follows, htaken, hhost⟩

/-- An authority finds two neighbours admissible. -/
def greetings : List Command :=
  [.start, .addNeighbour ⟨2⟩, .addNeighbour ⟨3⟩, .setAdmissible ⟨2⟩ true,
    .setAdmissible ⟨3⟩ true]

/-- The channel of the authority holds one frame, and nobody takes any. -/
def greeted : Story :=
  greetings.foldl alone
    ⟨Host.spawn (Node.make ⟨1⟩ .authority NodeSettings.usual) 1, [], []⟩

/-- It publishes, and the frame in the channel is taken before those
about the prefix go in. -/
def congested : Story :=
  (greeted.handle (.addPrefix default Flags.none)
    (.take :: (outbox greeted.host
      (.addPrefix default Flags.none)).map .send)).alone .shutdown

theorem refines_congested :
    Told (Node.make ⟨1⟩ .authority NodeSettings.usual) 1
      (greetings ++ [.addPrefix default Flags.none] ++ [.shutdown]) congested ∧
    Refines (Node.make ⟨1⟩ .authority NodeSettings.usual) 1
      (greetings ++ [.addPrefix default Flags.none] ++ [.shutdown]) congested ∧
    congested.attempts.map (·.departure.target) = [⟨2⟩, ⟨3⟩, ⟨2⟩, ⟨3⟩] ∧
    congested.taken.map (·.target) = [⟨2⟩] ∧
    congested.host.channel.map (·.target) = [⟨2⟩] ∧
    congested.host.view.outboundDropped = 2 := by
  have hgreeted :
      Told (Node.make ⟨1⟩ .authority NodeSettings.usual) 1 greetings greeted :=
    ((((Told.spawn.alone _).alone _).alone _).alone _).alone _
  have hcongested :=
    (hgreeted.handle (.addPrefix default Flags.none) (.take :: _)
    (filterMap_sent _)).alone .shutdown
  exact ⟨hcongested, refines_of_told hcongested, by decide +kernel, by
    decide +kernel, by decide +kernel, by decide +kernel⟩

end Story

end OnMesh
