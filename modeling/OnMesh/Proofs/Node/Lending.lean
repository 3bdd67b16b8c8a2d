import OnMesh.Proofs.Node.Upkeep

/-!
# When a context id is lent again

The pool of the authority remembers an id that was unbound only until its delay
has passed, and it is asked to forget at ticks and before edits.  Seen over the
whole life of the authority this is a law about its history: an id can be lent
again exactly if no published prefix has it and it was never unbound, or long
enough ago.
-/

namespace OnMesh

open Wire (Frame)

/-! ## Edits and what they give back -/

namespace Press

/-- An edit adds a loan at most, and the data stay or go on to the next
version. -/
structure Moved (p q : Press) : Prop where
  lends : ∃ live, q.pool = { p.pool with live } ∧
    ∀ id, p.pool.live.contains id = true → live.contains id = true
  replica : q.replica = p.replica ∨ ∃ edited,
    q.replica = p.replica.advance edited

theorem Turned.replica_cases {p q : Press} {answer : Except Fault Version}
    (h : p.Turned answer q) :
    q.replica = p.replica ∨ ∃ edited, q.replica = p.replica.advance edited := by
  rcases h.cases with ⟨hsame, -⟩ | ⟨edited, hadvance, -⟩
  · exact Or.inl hsame
  · exact Or.inr ⟨edited, hadvance⟩

theorem moved_publish (p : Press) (net : Prefix) (flags : Flags) :
    Moved p (p.publish net flags).2 := by
  refine ⟨?_, (turned_publish p net flags).replica_cases⟩
  obtain ⟨live, hpool, hlive⟩ := p.pool.allocate_lends net
  cases hrole : p.role.canPublish with
  | false =>
      rw [publish_of_not_canPublish hrole]
      exact ⟨p.pool.live, rfl, fun _ h => h⟩
  | true =>
      rcases halloc : p.pool.allocate net with ⟨fault | context, pool⟩
      · rw [publish_of_exhausted hrole flags halloc]
        rw [halloc] at hpool
        exact ⟨live, hpool, hlive⟩
      · rw [publish_of_allocated hrole flags halloc]
        rw [halloc] at hpool
        exact ⟨live, hpool, hlive⟩

theorem moved_withdraw (p : Press) (net : Prefix) :
    Moved p (p.withdraw net).2 := by
  refine ⟨⟨p.pool.live, ?_, fun _ h => h⟩,
    (turned_withdraw p net).replica_cases⟩
  cases hrole : p.role.canPublish with
  | false =>
      rw [withdraw, hrole]
      rfl
  | true => rw [withdraw_of_canPublish hrole]

/-- Once the pool has seen an edit, the ids that it unbound are held from now
on, and all other ids that are not bound are as they were. -/
theorem Moved.retiring_drain {p q : Press} (h : Moved p q)
    (hstep : p.replica.InStep p.pool) (hnotices : p.replica.notices = [])
    {id : ContextId} (hafter : q.drain.replica.data.contexts.get? id = none) :
    q.drain.pool.retiring.get? id =
      if p.replica.data.contexts.get? id = none then p.pool.retiring.get? id
      else some p.pool.now := by
  obtain ⟨live, hpool, hlive⟩ := h.lends
  rcases h.replica with hsame | ⟨edited, hadvance⟩
  · have hdrained : q.drain.pool = q.pool := by
      rw [drain, hsame, Replica.takeNotices, hnotices]
      rfl
    have hnone : p.replica.data.contexts.get? id = none := by
      rw [← hsame]
      exact hafter
    rw [hdrained, hpool, if_pos hnone]
  · have hdrained : q.drain.pool =
        q.pool.observe (Notice.ofDelta (Delta.between p.replica.data
        { edited with version := p.replica.version.next })) := by
      rw [drain, hadvance, Replica.takeNotices, Replica.advance,
        Replica.commit, hnotices]
      rfl
    have hdata : q.drain.replica.data =
        { edited with version := p.replica.version.next } := by
      rw [drain, hadvance]
      rfl
    rw [hdata] at hafter
    rw [hdrained, ContextPool.retiring_observe_between q.pool ?_ hafter, hpool]
    intro hbound
    obtain ⟨b, hb⟩ := Option.ne_none_iff_exists'.1 hbound
    rw [hpool]
    apply hlive
    rw [Table.contains, hstep.lent id b hb]
    rfl

theorem Moved.delay_drain {p q : Press} (h : Moved p q)
    (hnotices : p.replica.notices = []) :
    q.drain.pool.reuseDelay = p.pool.reuseDelay := by
  obtain ⟨live, hpool, -⟩ := h.lends
  rcases h.replica with hsame | ⟨edited, hadvance⟩
  · rw [drain, hsame, Replica.takeNotices, hnotices, hpool]
    rfl
  · rw [drain, hadvance, Replica.takeNotices, Replica.advance, Replica.commit,
      hnotices, hpool]
    exact (ContextPool.clock_observe _ _).2

/-- A prefix that is published already keeps its id, whether any id is free or
not. -/
theorem Ready.publish_of_published {range : ContextRange} {p : Press}
    (h : p.Ready range) {net : Prefix}
    (hpublished : p.replica.data.prefixes.contains net = true) (flags : Flags) :
    (∃ version, (p.publish net flags).1 = .ok version) ∧
      (p.publish net flags).2.replica.data.contexts =
        p.replica.data.contexts := by
  obtain ⟨id, hid⟩ := h.inStep.bound net hpublished
  have hlive := h.inStep.lent id _ hid
  have halloc : p.pool.allocate net = (.ok id, p.pool) :=
    ContextPool.allocate_of_live hlive fun j hj =>
      h.inStep.orderly.once j id net hj hlive
  have hlent : Replica.Lent p.pool net id p.pool :=
    ⟨rfl, h.inStep.orderly, hlive, fun _ _ => rfl, Or.inl hlive⟩
  have hedited := Replica.edited_edit p.replica (.publish net flags id)
  rw [publish_of_allocated h.role flags halloc]
  generalize p.replica.edit (.publish net flags id) = result at hedited ⊢
  obtain ⟨answer, replica⟩ := result
  cases hedited with
  | forbidden _ hnot =>
      rw [h.authority] at hnot
      cases hnot
  | current _ _ => exact ⟨⟨_, rfl⟩, rfl⟩
  | published _ _ =>
      refine ⟨⟨_, rfl⟩, Table.ext_get? fun j => ?_⟩
      show (Replica.rebind p.replica.data
        (p.replica.publishedEntry net flags) id).contexts.get? j = _
      rw [h.inStep.get?_published hlent]
      split
      · next hj => rw [hj, hid]
      · rfl

/-- A new prefix is refused if no id is free. -/
theorem Ready.publish_of_exhausted {range : ContextRange} {p : Press}
    (h : p.Ready range) {net : Prefix}
    (hnew : ∀ j, p.pool.live.get? j ≠ some net)
    (hnone : p.pool.lowestFree? = none) (flags : Flags) :
    (p.publish net flags).1 = .error .exhaustedContexts := by
  have halloc := ContextPool.allocate_of_exhausted hnew hnone
  rw [Press.publish_of_exhausted h.role flags halloc]

/-- A new prefix is published under the lowest free id, if there is one. -/
theorem Ready.publish_of_free {range : ContextRange} {p : Press}
    (h : p.Ready range) {net : Prefix}
    (hnew : ∀ j, p.pool.live.get? j ≠ some net) {id : ContextId}
    (hfree : p.pool.lowestFree? = some id) (flags : Flags) :
    (p.publish net flags).1 = .ok p.replica.version.next ∧
      ∀ j, (p.publish net flags).2.replica.data.bindings.get? j = some net ↔
      j = id := by
  have halloc := ContextPool.allocate_of_free hnew hfree
  have hallocated := ContextPool.allocated_allocate p.pool net
  rw [halloc] at hallocated
  have hlent := lent_of_allocated h.inStep.orderly hallocated
  have hedited := Replica.edited_edit p.replica (.publish net flags id)
  rw [publish_of_allocated h.role flags halloc]
  generalize p.replica.edit (.publish net flags id) = result at hedited ⊢
  obtain ⟨answer, replica⟩ := result
  cases hedited with
  | forbidden _ hnot =>
      rw [h.authority] at hnot
      cases hnot
  | current _ hcurrent =>
      -- The data would bind the id already, and then it would be on loan.
      have hbound := (NetworkData.contextEntry?_eq_some_iff.1 hcurrent.2).2
      exact absurd (h.inStep.lent id _ hbound) (hnew id)
  | published _ _ =>
      refine ⟨rfl, fun j => ?_⟩
      show ((Replica.rebind p.replica.data
        (p.replica.publishedEntry net flags) id).contexts.map
          Binding.net).get? j = some net ↔ _
      rw [Table.get?_map, h.inStep.get?_published hlent]
      split
      · next hj => simp [hj]
      · next hj =>
          refine iff_of_false ?_ hj
          rw [Option.map_eq_some_iff]
          rintro ⟨b, hb, rfl⟩
          exact hnew j (h.inStep.lent j b hb)

end Press

namespace Node

/-! ## The clock -/

theorem now_followNotices (n : Node) : n.followNotices.now = n.now := by
  obtain ⟨addresses, tally, hfollow, -, -⟩ := followNotices_spec n
  rw [hfollow]
  rfl

theorem now_used {n n' : Node} {p : Press} (h : Used n p n') :
    n'.now = n.now := by
  cases h with
  | refused => rfl
  | unchanged => exact now_followNotices _
  | advanced => exact now_followNotices _

/-- Only a tick moves the clock. -/
theorem now_after (n : Node) {c : Call} (hc : ∀ now, c ≠ .tick now) :
    (n.after c).now = n.now := by
  cases c with
  | start =>
      cases hstarted : n.started with
      | true => rw [after, start_of_started hstarted]
      | false =>
          obtain ⟨kept, flooding, tally, -, -, heq⟩ := start_spec hstarted
          rw [after, heq]
          rfl
  | detach => rfl
  | addNeighbour b => rfl
  | removeNeighbour b => rfl
  | setAdmissible b admissible =>
      obtain ⟨kept, flooding, tally, -, -, heq⟩ :=
        setAdmissible_spec n b admissible
      rw [after, heq]
      rfl
  | tick now => exact absurd rfl (hc now)
  | pop =>
      rcases popFrom_spec n n.outgoing with
        ⟨tally, hpop, -⟩ | ⟨lost, o, rest, tally, hpop, -⟩ <;>
      · rw [after, pop, hpop]
        rfl
  | addPrefix net flags => exact now_used (used_addPrefix n net flags)
  | removePrefix net => exact now_used (used_removePrefix n net)
  | queueFrame frame =>
      rw [after, queueFrame]
      split <;> rfl
  | queueBytes bytes =>
      rw [after, queueBytes]
      split
      · rw [queueFrame]
        split <;> rfl
      · rfl

theorem now_handle (n : Node) (frame : Frame) :
    (n.handle frame).now = n.now := by
  obtain ⟨out, replica, kept, flooding, tally, -, -, -, heq⟩ :=
    handle_spec n frame
  rw [heq]
  rfl

theorem now_foldl_handle (n : Node) (frames : List Frame) :
    (frames.foldl handle n).now = n.now := foldl_same now_handle frames n

theorem now_tick (n : Node) (now : Nat) : (n.tick now).now = now := by
  have hhandled : (n.handled now).now = now := now_foldl_handle _ _
  rw [tick_eq, now_followNotices]
  split
  · exact hhandled
  · exact hhandled

/-! ## One call -/

theorem pool_foldl_handle (n : Node) (frames : List Frame) :
    (frames.foldl handle n).pool = n.pool :=
  foldl_same (fun n frame => (handle_fields n frame).1) frames n

theorem replica_foldl_handle {n : Node} (h : n.replica.authority = true)
    (frames : List Frame) : (frames.foldl handle n).replica = n.replica := by
  induction frames generalizing n with
  | nil => rfl
  | cons frame frames ih =>
      have hsame := replica_handle_of_authority h frame
      rw [List.foldl_cons, ih (by rw [hsame, h]), hsame]

theorem followNotices_of_nil {n : Node} (h : n.replica.notices = []) :
    n.followNotices = n := by
  simp only [followNotices, Replica.takeNotices, h, List.isEmpty_nil, if_true]
  rw [← h]

/-- A tick of the authority frees ids and leaves the data alone. -/
theorem tick_of_stocked {n : Node} (hstocked : n.Stocked)
    (hrole : n.role.canPublish = true) (hnotices : n.replica.notices = [])
    (now : Nat) :
    (n.tick now).pool = (n.pool.expire now).2 ∧
    (n.tick now).replica = n.replica := by
  have hauthority : n.replica.authority = true := (hstocked hrole).authority
  have hreplica : (n.handled now).replica = n.replica := by
    rw [handled_eq]
    exact replica_foldl_handle (n := n.begun now) hauthority _
  have hpool : (n.handled now).pool = n.pool := pool_foldl_handle _ _
  have hpublish : (n.handled now).role.canPublish = true := by
    rw [handled_eq, (alike_foldl_handle _ _).role]
    exact hrole
  rw [tick_eq, if_pos hpublish,
    followNotices_of_nil (by rw [← hnotices, ← hreplica]; rfl)]
  exact ⟨by rw [expirePool, hpool], hreplica⟩

/-- After an edit the pool has seen all notices. -/
theorem used_drained {n n' : Node} {p : Press} (h : Used n p n')
    (hrole : n.role.canPublish = true) (hnotices : n.replica.notices = []) :
    n'.pool = p.drain.pool ∧ n'.replica = p.drain.replica := by
  have hfollow : ∀ m : Node, m.role.canPublish = true → m.pool = p.pool →
      m.replica = p.replica →
      m.followNotices.pool = p.drain.pool ∧
      m.followNotices.replica = p.drain.replica := by
    intro m hm hpool hreplica
    have hpress := press_followNotices hm
    constructor
    · calc
        m.followNotices.pool = m.press.drain.pool := congrArg Press.pool hpress
        _ = p.drain.pool := by
          rw [Press.drain, Press.drain, press, hpool, hreplica]
    · calc
        m.followNotices.replica = m.press.drain.replica :=
          congrArg Press.replica hpress
        _ = p.drain.replica := by rw [Press.drain, Press.drain, press, hreplica]
  cases h with
  | refused hreplica =>
      have hsame := hfollow { n with pool := p.pool } hrole rfl hreplica.symm
      rw [followNotices_of_nil (n := { n with pool := p.pool }) hnotices]
        at hsame
      exact hsame
  | unchanged hreplica =>
      exact hfollow { n with pool := p.pool } hrole rfl hreplica.symm
  | advanced =>
      exact hfollow { n with replica := p.replica, pool := p.pool }
        hrole rfl rfl

/-- The id stands for a published prefix. -/
def binds (n : Node) (id : ContextId) : Bool :=
  (n.data.contexts.get? id).any fun b => n.data.prefixes.contains b.net

theorem binds_eq_false_iff {n : Node} (h : n.Stocked)
    (hrole : n.role.canPublish = true) {id : ContextId} :
    n.binds id = false ↔ n.data.contexts.get? id = none := by
  rw [binds]
  cases hb : n.data.contexts.get? id with
  | none => simp
  | some b =>
      have hpublished : n.data.prefixes.contains b.net = true :=
        ((h hrole).inStep.published id b hb).2
      simp [hpublished]

/-- What a call leaves of the ids that are held back: those that it
unbinds are held from now on, and of the others at most those are freed
whose delay has passed. -/
structure HoldsBack (n m : Node) : Prop where
  delay : m.pool.reuseDelay = n.pool.reuseDelay
  unbound : ∀ id, n.binds id = true → m.binds id = false →
    m.pool.retiring.get? id = some m.now
  held : ∀ id, n.binds id = false → m.binds id = false →
    m.pool.retiring.get? id = n.pool.retiring.get? id ∨
      m.pool.retiring.get? id =
        (n.pool.retiring.get? id).filter fun released =>
          !n.pool.isDue m.now released

theorem holdsBack_of_untouched {n m : Node} (hreplica : m.replica = n.replica)
    (hpool : m.pool = n.pool) : HoldsBack n m where
  delay := by rw [hpool]
  unbound := by
    intro id hbound hfree
    rw [binds, data, hreplica] at hfree
    rw [binds, data, hfree] at hbound
    cases hbound
  held := fun id _ _ => Or.inl (by rw [hpool])

theorem holdsBack_tick {n : Node} (hstocked : n.Stocked)
    (hrole : n.role.canPublish = true) (hnotices : n.replica.notices = [])
    (now : Nat) : HoldsBack n (n.tick now) where
  delay := by rw [(tick_of_stocked hstocked hrole hnotices now).1]; rfl
  unbound := by
    intro id hbound hfree
    rw [binds, data, (tick_of_stocked hstocked hrole hnotices now).2] at hfree
    rw [binds, data, hfree] at hbound
    cases hbound
  held := by
    intro id _ _
    right
    rw [(tick_of_stocked hstocked hrole hnotices now).1, now_tick,
      ContextPool.retiring_expire]

/-- An edit holds back the ids that it unbinds, and frees only
those that are due. -/
theorem holdsBack_used {n n' : Node} {p : Press} (hused : Used n p n')
    (hmoved : (n.expirePool n.now).press.Moved p) (hstocked : n.Stocked)
    (hrole : n.role.canPublish = true) (hnotices : n.replica.notices = [])
    (hafter : n'.Stocked) : HoldsBack n n' := by
  obtain ⟨hpool, hreplica⟩ := used_drained hused hrole hnotices
  have hstep := (hstocked.expirePool n.now hrole).inStep
  have hrole' : n'.role.canPublish = true := by
    rw [(alike_used hused).role]
    exact hrole
  have hretiring : ∀ id, n'.binds id = false → n'.pool.retiring.get? id =
      if n.data.contexts.get? id = none then
        (n.pool.expire n.now).2.retiring.get? id
      else some n.now := by
    intro id hfree
    rw [binds_eq_false_iff hafter hrole', data, hreplica] at hfree
    rw [hpool]
    exact hmoved.retiring_drain hstep hnotices hfree
  refine ⟨?_, ?_, ?_⟩
  · rw [hpool]
    exact hmoved.delay_drain hnotices
  · intro id hbound hfree
    have hold : n.data.contexts.get? id ≠ none := by
      intro hnone
      rw [(binds_eq_false_iff hstocked hrole).2 hnone] at hbound
      cases hbound
    rw [hretiring id hfree, if_neg hold, now_used hused]
  · intro id hold hfree
    rw [binds_eq_false_iff hstocked hrole] at hold
    rw [hretiring id hfree, if_pos hold, now_used hused,
      ContextPool.retiring_expire]
    exact Or.inr rfl

/-- Every call of an attached authority, and every tick, leaves the ids
that are held back so. -/
theorem holdsBack_after {n : Node} (hstocked : n.Stocked)
    (hrole : n.role.canPublish = true) (hnotices : n.replica.notices = [])
    {c : Call} (hdetach : c ≠ .detach) : HoldsBack n (n.after c) := by
  have hafter := hstocked.after c
  cases c with
  | detach => exact absurd rfl hdetach
  | tick now => exact holdsBack_tick hstocked hrole hnotices now
  | addPrefix net flags =>
      exact holdsBack_used (used_addPrefix n net flags)
        (Press.moved_publish _ net flags) hstocked
        hrole hnotices hafter
  | removePrefix net =>
      exact holdsBack_used (used_removePrefix n net)
        (Press.moved_withdraw _ net) hstocked
        hrole hnotices hafter
  | _ =>
      have hsame := untouched_after n (c := _) rfl hdetach (by simp)
      exact holdsBack_of_untouched hsame.replica hsame.pool

/-! ## The life of an authority -/

/-- The tick at which an id was last unbound, if it was, seen in the states that
a node passed, latest first. -/
def unboundAt? (id : ContextId) : List Node → Option Nat
  | n :: m :: past =>
    if m.binds id = true ∧ n.binds id = false then some n.now
    else unboundAt? id (m :: past)
  | _ => none

/-- An authority since it was built or last detached: the states that it passed,
latest first, the last tick if there was one, and its present state.  Anything
can be asked of it, but ticks do not go back. -/
inductive Life : List Node → Option Nat → Node → Prop
  | built (id : NodeId) (settings : NodeSettings) :
      Life [] none (make id .authority settings)
  | detached (id : NodeId) (settings : NodeSettings) (calls : List Call) :
      Life [] none (calls.foldl after (make id .authority settings)).detach
  | tick {past : List Node} {last : Option Nat} {n : Node} (now : Nat) :
      Life past last n →
      (∀ earlier ∈ last, earlier ≤ now) →
      Life (n :: past) (some now) (n.tick now)
  | call {past : List Node} {last : Option Nat} {n : Node} (c : Call) :
      Life past last n →
      c ≠ .detach → (∀ now, c ≠ .tick now) → Life (n :: past) last (n.after c)

/-- The ids that can be lent: those of the range that no published prefix has
and that were never unbound, or not within the delay. -/
def reusable (past : List Node) (n : Node) : Set ContextId :=
  {id | n.settings.contextRange.low.value ≤ id.value ∧
    id.value ≤ n.settings.contextRange.high.value ∧ n.binds id = false ∧
    ∀ released, unboundAt? id (n :: past) = some released →
      n.settings.reuseDelay ≤ n.now - released}

theorem mem_reusable_iff {past : List Node} {n : Node} {id : ContextId} :
    id ∈ reusable past n ↔ n.settings.contextRange.low.value ≤ id.value ∧
      id.value ≤ n.settings.contextRange.high.value ∧ n.binds id = false ∧
      ∀ released, unboundAt? id (n :: past) = some released →
        n.settings.reuseDelay ≤ n.now - released := Iff.rfl

/-- The pool of an authority remembers what matters of its life. -/
structure Remembers (past : List Node) (last : Option Nat) (n : Node) :
    Prop where
  role : n.role.canPublish = true
  stocked : n.Stocked
  notices : n.replica.notices = []
  delay : n.pool.reuseDelay = n.settings.reuseDelay
  /-- An id that is held back was last unbound when the pool says. -/
  held : ∀ id released, n.binds id = false →
    n.pool.retiring.get? id = some released →
    unboundAt? id (n :: past) = some released
  /-- An id that is not held back was unbound long enough ago, if ever. -/
  freed : ∀ id released, n.binds id = false → n.pool.retiring.get? id = none →
    unboundAt? id (n :: past) = some released →
    n.settings.reuseDelay ≤ n.now - released
  ticked : ∀ now ∈ last, n.now = now
  /-- Before the first tick the clock stands still. -/
  unticked : last = none →
    ∀ id released, unboundAt? id (n :: past) = some released →
    released = n.now

theorem unboundAt?_cons (id : ContextId) (m n : Node) (past : List Node) :
    unboundAt? id (m :: n :: past) =
      if n.binds id = true ∧ m.binds id = false then some m.now
      else unboundAt? id (n :: past) := rfl

/-- What one call keeps, whether it is a tick or not. -/
theorem Remembers.next {past : List Node} {last last' : Option Nat} {n m : Node}
    (h : Remembers past last n) (halike : Alike n m) (hstocked : m.Stocked)
    (hnotices : m.replica.notices = []) (hback : HoldsBack n m)
    (hlong : ∀ id released, unboundAt? id (n :: past) = some released →
      n.settings.reuseDelay ≤ n.now - released →
      n.settings.reuseDelay ≤ m.now - released)
    (hticked : ∀ now ∈ last', m.now = now)
    (hunticked : last' = none → last = none ∧ m.now = n.now) :
    Remembers (n :: past) last' m where
  role := by
    rw [halike.role]
    exact h.role
  stocked := hstocked
  notices := hnotices
  delay := by rw [hback.delay, h.delay, halike.settings]
  held := by
    intro id released hfree hheld
    rw [unboundAt?_cons]
    cases hbound : n.binds id with
    | true =>
        rw [hback.unbound id hbound hfree] at hheld
        rw [if_pos ⟨rfl, hfree⟩, hheld]
    | false =>
        rw [if_neg (by simp)]
        apply h.held id released hbound
        rcases hback.held id hbound hfree with hsame | hfilter
        · rw [← hsame, hheld]
        · rw [hfilter] at hheld
          exact (Option.filter_eq_some_iff.1 hheld).1
  freed := by
    intro id released hfree hnone hunbound
    rw [halike.settings]
    rw [unboundAt?_cons] at hunbound
    cases hbound : n.binds id with
    | true =>
        rw [hback.unbound id hbound hfree] at hnone
        cases hnone
    | false =>
        rw [hbound, if_neg (by simp)] at hunbound
        cases hheld : n.pool.retiring.get? id with
        | none =>
            exact hlong id released hunbound
              (h.freed id released hbound hheld hunbound)
        | some stamp =>
            have hstamp := h.held id stamp hbound hheld
            rw [hunbound] at hstamp
            cases hstamp
            rcases hback.held id hbound hfree with hsame | hfilter
            · rw [hsame, hheld] at hnone
              cases hnone
            · rw [hfilter, hheld, Option.filter_eq_none_iff] at hnone
              have hdue := hnone released rfl
              rw [Bool.not_eq_true, Bool.not_eq_false', ContextPool.isDue,
                decide_eq_true_iff, h.delay] at hdue
              exact hdue
  ticked := hticked
  unticked := by
    intro hnone id released hunbound
    obtain ⟨hlast, hnow⟩ := hunticked hnone
    rw [unboundAt?_cons] at hunbound
    split at hunbound
    · exact (Option.some.inj hunbound).symm
    · rw [hnow]
      exact h.unticked hlast id released hunbound

/-- A tick that does not go back leaves the memory of released ids intact. -/
theorem Remembers.tick {past : List Node} {last : Option Nat} {n : Node}
    (h : Remembers past last n) {now : Nat}
    (hmono : ∀ earlier ∈ last, earlier ≤ now) :
    Remembers (n :: past) (some now) (n.tick now) := by
  have hsame := tick_of_stocked h.stocked h.role h.notices now
  refine h.next (alike_tick n now) (h.stocked.tick now)
    (by rw [hsame.2, h.notices])
    (holdsBack_tick h.stocked h.role h.notices now) ?_ ?_ (by simp)
  · intro id released hunbound hlong
    rw [now_tick]
    cases hlast : last with
    | none =>
        rw [h.unticked hlast id released hunbound] at hlong
        omega
    | some earlier =>
        have hle := hmono earlier (by rw [hlast]; rfl)
        rw [h.ticked earlier (by rw [hlast]; rfl)] at hlong
        omega
  · intro t ht
    rw [now_tick]
    exact Option.some.inj ht

theorem Remembers.call {past : List Node} {last : Option Nat} {n : Node}
    (h : Remembers past last n) {c : Call} (hdetach : c ≠ .detach)
    (htick : ∀ now, c ≠ .tick now) (hconfigured : n.Configured) :
    Remembers (n :: past) last (n.after c) := by
  have hnow := now_after n htick
  refine h.next (alike_after n c) (h.stocked.after c)
    (hconfigured.after c).notices
    (holdsBack_after h.stocked h.role h.notices hdetach) ?_ ?_ ?_
  · intro id released _ hlong
    rw [hnow]
    exact hlong
  · intro now hlast
    rw [hnow]
    exact h.ticked now hlast
  · intro hlast
    exact ⟨hlast, hnow⟩

/-- The pool of an authority holds ids back as long as the settings say. -/
structure Timed (n : Node) : Prop where
  role : n.role.canPublish = true
  stocked : n.Stocked
  configured : n.Configured
  delay : n.pool.reuseDelay = n.settings.reuseDelay

theorem timed_make (id : NodeId) (settings : NodeSettings) :
    (make id .authority settings).Timed :=
  ⟨rfl, stocked_make id .authority settings,
    configured_make id .authority settings, rfl⟩

theorem Timed.after {n : Node} (h : n.Timed) (c : Call) :
    (n.after c).Timed where
  role := by
    rw [(alike_after n c).role]
    exact h.role
  stocked := h.stocked.after c
  configured := h.configured.after c
  delay := by
    by_cases hdetach : c = .detach
    · subst hdetach
      exact h.delay
    · rw [(holdsBack_after h.stocked h.role h.configured.notices hdetach).delay,
        h.delay, (alike_after n c).settings]

/-- At the start of a life no id is held back, and none was ever unbound. -/
theorem Timed.remembers {n : Node} (h : n.Timed)
    (hempty : n.pool.retiring = Table.empty) : Remembers [] none n where
  role := h.role
  stocked := h.stocked
  notices := h.configured.notices
  delay := h.delay
  held := by
    intro id released _ hheld
    rw [hempty] at hheld
    cases hheld
  freed := by
    intro id released _ _ hunbound
    cases hunbound
  ticked := by
    intro now hnow
    cases hnow
  unticked := by
    intro _ id released hunbound
    cases hunbound

theorem Life.remembers {past : List Node} {last : Option Nat} {n : Node}
    (h : Life past last n) : n.Timed ∧ Remembers past last n := by
  induction h with
  | built id settings =>
      exact ⟨timed_make id settings, (timed_make id settings).remembers rfl⟩
  | detached id settings calls =>
      have htimed :
          (calls.foldl after (make id .authority settings)).detach.Timed :=
        (foldl_after (timed_make id settings)
          (fun _ c h => h.after c) calls).after .detach
      exact ⟨htimed, htimed.remembers rfl⟩
  | tick now _ hmono ih => exact ⟨ih.1.after (.tick now), ih.2.tick hmono⟩
  | call c _ hdetach htick ih =>
      exact ⟨ih.1.after c, ih.2.call hdetach htick ih.1.configured⟩

/-! ## Publishing -/

/-- What can be lent is what the pool finds free once it has been asked to
forget. -/
theorem Remembers.isFree_iff {past : List Node} {last : Option Nat} {n : Node}
    (h : Remembers past last n) {id : ContextId} :
    (n.pool.expire n.now).2.IsFree id ↔ id ∈ reusable past n := by
  have hready := h.stocked h.role
  have hrange : n.pool.range = n.settings.contextRange := hready.range
  have hbindings : n.pool.live = n.data.bindings :=
    hready.inStep.live_eq h.notices
  have hlive : n.pool.live.get? id = none ↔ n.binds id = false := by
    rw [hbindings, NetworkData.bindings, Table.get?_map, Option.map_eq_none_iff,
      binds_eq_false_iff h.stocked h.role]
  have hretiring : n.binds id = false →
      ((n.pool.expire n.now).2.retiring.get? id = none ↔
      ∀ released, unboundAt? id (n :: past) = some released →
        n.settings.reuseDelay ≤ n.now - released) := by
    intro hfree
    rw [ContextPool.retiring_expire, Option.filter_eq_none_iff]
    constructor
    · intro hdue released hunbound
      cases hheld : n.pool.retiring.get? id with
      | none => exact h.freed id released hfree hheld hunbound
      | some stamp =>
          rw [h.held id stamp hfree hheld] at hunbound
          cases hunbound
          simpa [ContextPool.isDue, h.delay] using hdue released hheld
    · intro hlong stamp hheld
      simpa [ContextPool.isDue, h.delay]
        using hlong stamp (h.held id stamp hfree hheld)
  rw [ContextPool.IsFree]
  show id ∈ n.pool.range.ids ∧ n.pool.live.get? id = none ∧
    (n.pool.expire n.now).2.retiring.get? id = none ↔ _
  rw [hrange, ContextRange.mem_ids_iff, hlive, mem_reusable_iff, and_assoc]
  exact and_congr_right fun _ => and_congr_right fun _ =>
    and_congr_right hretiring

theorem usePress_fst (n : Node) (act : Press → Except Fault Version × Press) :
    (n.usePress act).1 = (act (n.expirePool n.now).press).1 := by
  rcases hact : act (n.expirePool n.now).press with ⟨fault | version, p⟩ <;>
  · simp only [usePress, hact]

theorem data_usePress (n : Node) (act : Press → Except Fault Version × Press) :
    (n.usePress act).2.data =
      (act (n.expirePool n.now).press).2.replica.data := by
  rcases hact : act (n.expirePool n.now).press with ⟨fault | version, p⟩
  · simp only [usePress, hact]
    rfl
  · simp only [usePress, hact]
    show (afterEdit { n with replica := p.replica, pool := p.pool }
      n.version version).data = _
    rw [afterEdit_eq]
    split
    · rw [data, replica_announced, (followed_fields _).1]
      rfl
    · rw [data, (followed_fields _).1]
      rfl

/-- What the authority does when it is asked to publish a prefix. -/
structure Lends (past : List Node) (n : Node) (net : Prefix) (flags : Flags) :
    Prop where
  /-- A new prefix is refused if nothing can be lent. -/
  exhausted : n.data.prefixes.contains net = false → reusable past n = ∅ →
    (n.addPrefix net flags).1 = .error .exhaustedContexts
  /-- Otherwise it gets the lowest id that can be lent, and no other. -/
  lowest : n.data.prefixes.contains net = false → (reusable past n).Nonempty →
    ∃ id ∈ reusable past n, (∀ j ∈ reusable past n, id.value ≤ j.value) ∧
      (n.addPrefix net flags).1 = .ok n.version.next ∧
      ∀ j, (n.addPrefix net flags).2.data.bindings.get? j = some net ↔ j = id
  /-- A prefix that is published keeps its id, also if nothing can be lent. -/
  kept : n.data.prefixes.contains net = true →
    (∃ version, (n.addPrefix net flags).1 = .ok version) ∧
      (n.addPrefix net flags).2.data.contexts = n.data.contexts

/-- At any time in the life of an authority, whatever it was asked
to do, a prefix is published under the lowest id that was not
unbound within the delay. -/
theorem Life.lends {past : List Node} {last : Option Nat} {n : Node}
    (h : Life past last n) (net : Prefix) (flags : Flags) :
    Lends past n net flags := by
  obtain ⟨-, hremembers⟩ := h.remembers
  have hready := hremembers.stocked.expirePool n.now hremembers.role
  have hanswer : (n.addPrefix net flags).1 =
      ((n.expirePool n.now).press.publish net flags).1 :=
    usePress_fst n _
  have hdata : (n.addPrefix net flags).2.data =
      ((n.expirePool n.now).press.publish net flags).2.replica.data :=
    data_usePress n _
  have hnew : n.data.prefixes.contains net = false →
      ∀ j, (n.expirePool n.now).press.pool.live.get? j ≠ some net :=
    fun hunpublished => hready.inStep.not_lent hremembers.notices hunpublished
  refine ⟨?_, ?_, ?_⟩
  · intro hunpublished hempty
    rw [hanswer]
    apply hready.publish_of_exhausted (hnew hunpublished)
    rw [ContextPool.lowestFree?_eq_none_iff]
    intro id hfree
    have hmem := hremembers.isFree_iff.1 hfree
    rw [hempty] at hmem
    exact hmem
  · rintro hunpublished ⟨other, hother⟩
    cases hlowest : (n.expirePool n.now).press.pool.lowestFree? with
    | none =>
        exact absurd (hremembers.isFree_iff.2 hother)
          (ContextPool.lowestFree?_eq_none_iff.1 hlowest other)
    | some id =>
        obtain ⟨hfree, hleast⟩ := ContextPool.lowestFree?_eq_some hlowest
        obtain ⟨hok, hbound⟩ :=
          hready.publish_of_free (hnew hunpublished) hlowest flags
        refine ⟨id, hremembers.isFree_iff.1 hfree, ?_, ?_, ?_⟩
        · intro j hj
          exact hleast j (hremembers.isFree_iff.2 hj)
        · rw [hanswer, hok]
          rfl
        · rw [hdata]
          exact hbound
  · intro hpublished
    obtain ⟨hok, hsame⟩ := hready.publish_of_published hpublished flags
    rw [hanswer, hdata]
    exact ⟨hok, hsame⟩

def publishedOnce : Node :=
  (make ⟨1⟩ .authority NodeSettings.usual).after (.addPrefix default Flags.none)

def withdrawnOnce : Node := publishedOnce.after (.removePrefix default)

/-- The authority three ticks later, while the id is still held back. -/
def withdrawnOnceLater : Node := withdrawnOnce.tick 3

theorem lends_withdrawnOnceLater :
    unboundAt? ⟨1⟩ [withdrawnOnceLater, withdrawnOnce, publishedOnce,
        make ⟨1⟩ .authority NodeSettings.usual] = some 0 ∧
      Lends [withdrawnOnce, publishedOnce,
        make ⟨1⟩ .authority NodeSettings.usual]
        withdrawnOnceLater default Flags.none := by
  have hbuilt : Life [] none (make ⟨1⟩ .authority NodeSettings.usual) :=
    Life.built ⟨1⟩ NodeSettings.usual
  have hpublished : Life _ none publishedOnce :=
    hbuilt.call (.addPrefix default Flags.none) (by simp) (by simp)
  have hwithdrawn : Life _ none withdrawnOnce :=
    hpublished.call (.removePrefix default) (by simp) (by simp)
  have hlater : Life _ (some 3) withdrawnOnceLater :=
    hwithdrawn.tick 3 (by simp)
  exact ⟨by decide +kernel, hlater.lends default Flags.none⟩

end Node

end OnMesh
