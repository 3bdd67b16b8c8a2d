import OnMesh.Proofs.ContextPool
import OnMesh.Proofs.Press

/-!
# Context bindings and loans

The pool of context ids follows the data late: an id is lent before it is bound,
and it comes back only when the notice of its removal is observed.  A replica
and a pool are in step if replaying the notices that nobody has taken on the
loans gives just what the data bind.  Publishing, withdrawing, expiring and
taking the notices keep them in step, in any order.
-/

namespace OnMesh

/-- The ids that the data bind, and the prefixes that they stand for. -/
def NetworkData.bindings (d : NetworkData) : Table ContextId Prefix :=
  d.contexts.map Binding.net

def NetworkData.BindsOnce (d : NetworkData) : Prop := ∀ i j b c,
  d.contexts.get? i = some b → d.contexts.get? j = some c →
  b.net = c.net → i = j

theorem NetworkData.bindsOnce_empty : NetworkData.empty.BindsOnce :=
  fun _ _ _ _ hi => (nomatch hi)

/-- The data bind one id to each published prefix and no other ids, and the pool
will agree once it has seen all notices. -/
structure Replica.InStep (r : Replica) (pool : ContextPool) : Prop where
  bound : ∀ net, r.data.prefixes.contains net = true →
    ∃ id, r.data.contexts.get? id = some ⟨net, true⟩
  published : ∀ id b, r.data.contexts.get? id = some b →
    b.compress = true ∧ r.data.prefixes.contains b.net = true
  lent : ∀ id b, r.data.contexts.get? id = some b →
    pool.live.get? id = some b.net
  replays : r.notices.foldl (fun live n => n.replay live) pool.live =
    r.data.bindings
  orderly : pool.Orderly

namespace Replica

variable {r : Replica} {pool : ContextPool} {net : Prefix} {context : ContextId}

theorem inStep_make (owner : NodeId) (authority : Bool) (range : ContextRange)
    (reuseDelay : Nat) :
    (make owner authority).InStep (ContextPool.make range reuseDelay) where
  bound := by
    intro net h
    cases h
  published := by
    intro id b h
    cases h
  lent := by
    intro id b h
    cases h
  replays := rfl
  orderly := ContextPool.orderly_make range reuseDelay

theorem inStep_reset (r : Replica) (pool : ContextPool) :
    r.reset.takeNotices.2.InStep pool.reset where
  bound := by
    intro net h
    cases h
  published := by
    intro id b h
    cases h
  lent := by
    intro id b h
    cases h
  replays := rfl
  orderly := ContextPool.orderly_reset pool

/-- Loans are orderly, and so are the bindings that agree with them. -/
theorem InStep.bindsOnce (h : r.InStep pool) : r.data.BindsOnce := by
  intro i j b c hi hj hnet
  have hlive := h.lent i b hi
  rw [hnet] at hlive
  exact h.orderly.once i j c.net hlive (h.lent j c hj)

/-- Once the pool has observed every notice, the loans are what the data
bind. -/
theorem InStep.live_drained (h : r.InStep pool) :
    (r.notices.foldl ContextPool.observe pool).live = r.data.bindings := by
  rw [ContextPool.live_foldl_observe, h.replays]

/-- A pool that has observed every notice lends what the data bind. -/
theorem InStep.live_eq (h : r.InStep pool) (hnotices : r.notices = []) :
    pool.live = r.data.bindings := by
  have hlive := h.live_drained
  rwa [hnotices] at hlive

/-- It lends no id to a prefix that is not published. -/
theorem InStep.not_lent (h : r.InStep pool) (hnotices : r.notices = [])
    (hnew : r.data.prefixes.contains net = false) (id : ContextId) :
    pool.live.get? id ≠ some net := by
  intro hid
  rw [h.live_eq hnotices] at hid
  obtain ⟨b, hb, rfl⟩ := Table.get?_map_eq_some_iff.1 hid
  have hpublished := (h.published id b hb).2
  rw [hnew] at hpublished
  cases hpublished

theorem InStep.takeNotices (h : r.InStep pool) :
    r.takeNotices.2.InStep (r.notices.foldl ContextPool.observe pool) := by
  have hlive := h.live_drained
  have hget : ∀ id net,
      (r.notices.foldl ContextPool.observe pool).live.get? id = some net →
      pool.live.get? id = some net := by
    intro id net hid
    rw [hlive, NetworkData.bindings] at hid
    obtain ⟨b, hb, rfl⟩ := Table.get?_map_eq_some_iff.1 hid
    exact h.lent id b hb
  refine ⟨h.bound, h.published, ?_, hlive, h.orderly.foldl_observe _ hget⟩
  intro id b hb
  rw [hlive]
  exact Table.get?_map_eq_some_iff.2 ⟨b, hb, rfl⟩

theorem InStep.expire (h : r.InStep pool) (now : Nat) :
    r.InStep (pool.expire now).2 :=
  ⟨h.bound, h.published, h.lent, h.replays, h.orderly.expire now⟩

/-! ## Edits -/

/-- Replaying one more notice gives the edited bindings, if the replay so far
agrees with the data wherever the edit brings nothing new. -/
theorem replays_advance {live : Table ContextId Prefix} {edited : NetworkData}
    (h : ∀ id, (r.notices.foldl
      (fun live n => n.replay live) live).get? id = r.data.bindings.get? id ∨
      ∃ b, edited.contexts.get? id = some b ∧
      r.data.contexts.get? id ≠ some b) :
    (r.advance edited).notices.foldl (fun live n => n.replay live) live =
      (r.advance edited).data.bindings := by
  apply Table.ext_get?
  intro id
  rw [advance, commit, List.foldl_append, List.foldl_cons, List.foldl_nil]
  rcases h id with hsame | ⟨b, hnew, hold⟩
  · rw [Notice.get?_replay_congr _ hsame, NetworkData.bindings,
      Notice.replay_ofDelta_between r.data, NetworkData.bindings]
  · have hnext : ({ edited with version := r.version.next } :
        NetworkData).contexts.get? id =
        some b := hnew
    rw [Notice.get?_replay_of_new hnext hold]
    exact (Table.get?_map_eq_some_iff.2 ⟨b, hnext, rfl⟩).symm

theorem get?_prefixes_unbind (data : NetworkData) (net q : Prefix) :
    (unbind data net).prefixes.get? q = if q = net then none else
        data.prefixes.get? q :=
  Table.get?_erase data.prefixes q net

theorem get?_contexts_unbind {data : NetworkData} {id : ContextId}
    {b : Binding} :
    (unbind data net).contexts.get? id = some b ↔
      data.contexts.get? id = some b ∧ b.net ≠ net := by
  simp [unbind, Option.filter_eq_some_iff]

/-- A prefix that is withdrawn takes its contexts with it, in the data and in
the pool. -/
theorem InStep.unbind (h : r.InStep pool) (net : Prefix) :
    (r.advance (Replica.unbind r.data net)).InStep pool where
  bound := by
    intro q hq
    have hget : (Replica.unbind r.data net).prefixes.contains q = true := hq
    rw [Table.contains, get?_prefixes_unbind] at hget
    split at hget
    · cases hget
    · next hne =>
        obtain ⟨id, hid⟩ := h.bound q hget
        exact ⟨id, get?_contexts_unbind.2 ⟨hid, hne⟩⟩
  published := by
    intro id b hb
    obtain ⟨hid, hne⟩ := get?_contexts_unbind.1 hb
    obtain ⟨hcompress, hpublished⟩ := h.published id b hid
    refine ⟨hcompress, ?_⟩
    show (Replica.unbind r.data net).prefixes.contains b.net = true
    rw [Table.contains, get?_prefixes_unbind, if_neg hne]
    exact hpublished
  lent := fun id b hb => h.lent id b (get?_contexts_unbind.1 hb).1
  replays := by
    apply replays_advance
    intro id
    rw [h.replays]
    exact Or.inl rfl
  orderly := h.orderly

/-- Rebinding a prefix to the only id that it can have changes no other
binding. -/
theorem get?_contexts_rebind {data : NetworkData} {e : PrefixEntry}
    (honly : ∀ id b, data.contexts.get? id = some b →
      b.net = e.net → id = context) (id : ContextId) :
    (rebind data e context).contexts.get? id =
      if id = context then some ⟨e.net, true⟩ else data.contexts.get? id := by
  rw [rebind, Table.get?_insert]
  split
  · rfl
  · next hne =>
      rw [Table.get?_filter]
      cases hb : data.contexts.get? id with
      | none => rfl
      | some b =>
          have hnet : b.net ≠ e.net := fun hnet => hne (honly id b hb hnet)
          simp [hnet]

theorem contains_prefixes_rebind {data : NetworkData} {e : PrefixEntry}
    (context : ContextId) {q : Prefix} :
    (rebind data e context).prefixes.contains q = true ↔
      q = e.net ∨ data.prefixes.contains q = true := by
  rw [Table.contains, rebind, Table.get?_insert, Table.contains]
  split
  · next h => simp [h]
  · next h => simp [h]

/-- `lent` is the pool after it was asked for the id of a prefix. -/
structure Lent (pool : ContextPool) (net : Prefix) (context : ContextId)
    (lent : ContextPool) : Prop where
  range : lent.range = pool.range
  orderly : lent.Orderly
  holds : lent.live.get? context = some net
  other : ∀ id, id ≠ context → lent.live.get? id = pool.live.get? id
  free : pool.live.get? context = some net ∨ pool.live.get? context = none

section Publish

variable {lent : ContextPool}

/-- Every binding of the data is among the loans, also after one more loan. -/
theorem InStep.get?_lent (h : r.InStep pool) (hl : Lent pool net context lent)
    {id : ContextId} {b : Binding} (hb : r.data.contexts.get? id = some b) :
    lent.live.get? id = some b.net := by
  have hlive := h.lent id b hb
  by_cases hid : id = context
  · subst hid
    rcases hl.free with hfree | hfree
    · rw [hl.holds, ← hfree, hlive]
    · rw [hfree] at hlive
      cases hlive
  · rw [hl.other id hid, hlive]

/-- Publishing binds the id that was lent, and changes no other binding. -/
theorem InStep.get?_published (h : r.InStep pool)
    (hl : Lent pool net context lent) (flags : Flags) (id : ContextId) :
    (Replica.rebind r.data
      (r.publishedEntry net flags) context).contexts.get? id =
      if id = context then some ⟨net, true⟩ else r.data.contexts.get? id := by
  apply get?_contexts_rebind
  intro j b hb hnet
  exact hl.orderly.once j context net
    ((h.get?_lent hl hb).trans (congrArg some hnet)) hl.holds

/-- A binding stays as it is when a prefix is published. -/
theorem InStep.published_of_bound (h : r.InStep pool)
    (hl : Lent pool net context lent) (flags : Flags) {id : ContextId}
    {b : Binding} (hb : r.data.contexts.get? id = some b) :
    (Replica.rebind r.data
      (r.publishedEntry net flags) context).contexts.get? id = some b := by
  rw [h.get?_published hl]
  split
  · next hid =>
      subst hid
      have hnet := (h.get?_lent hl hb).symm.trans hl.holds
      obtain ⟨bnet, compress⟩ := b
      have hcompress := (h.published id _ hb).1
      cases hnet
      cases hcompress
      rfl
  · exact hb

/-- Publishing a prefix under the id that the pool has lent to it,
just now or before. -/
theorem InStep.rebind (h : r.InStep pool) (hl : Lent pool net context lent)
    (flags : Flags) :
    (r.advance (Replica.rebind r.data
      (r.publishedEntry net flags) context)).InStep lent where
  bound := by
    intro q hq
    rcases (contains_prefixes_rebind context).1 hq with rfl | hq
    · exact ⟨context, (h.get?_published hl flags context).trans (if_pos rfl)⟩
    · obtain ⟨id, hid⟩ := h.bound q hq
      exact ⟨id, h.published_of_bound hl flags hid⟩
  published := by
    intro id b hb
    have hget := (h.get?_published hl flags id).symm.trans hb
    split at hget
    · cases hget
      refine ⟨rfl, ?_⟩
      exact (contains_prefixes_rebind context).2 (Or.inl rfl)
    · obtain ⟨hcompress, hpublished⟩ := h.published id b hget
      exact ⟨hcompress,
        (contains_prefixes_rebind context).2 (Or.inr hpublished)⟩
  lent := by
    intro id b hb
    have hget := (h.get?_published hl flags id).symm.trans hb
    split at hget
    · next hid =>
        cases hget
        rw [hid, hl.holds]
    · exact h.get?_lent hl hget
  replays := by
    apply replays_advance
    intro id
    by_cases hid : id = context
    · subst hid
      by_cases hbound : r.data.contexts.get? id = some ⟨net, true⟩
      · left
        have hsame : lent.live.get? id = pool.live.get? id := by
          rw [hl.holds, h.lent id _ hbound]
        rw [Notice.get?_foldl_replay_congr _ hsame, h.replays]
      · exact Or.inr ⟨⟨net, true⟩,
          (h.get?_published hl flags id).trans (if_pos rfl), hbound⟩
    · left
      rw [Notice.get?_foldl_replay_congr _ (hl.other id hid), h.replays]
  orderly := hl.orderly

end Publish

end Replica

/-! ## The press -/

namespace Press

variable {range : ContextRange} {p : Press}

/-- What can be done with a press, in any order. -/
inductive Act where
  | publish (net : Prefix) (flags : Flags)
  | withdraw (net : Prefix)
  | expire (now : Nat)
  /-- Take all notices and let the pool observe each in order. -/
  | drain

/-- The press once its pool has observed all notices. -/
def drain (p : Press) : Press :=
  { p with
    replica := p.replica.takeNotices.2
    pool := p.replica.takeNotices.1.foldl ContextPool.observe p.pool }

def act (p : Press) : Act → Press
  | .publish net flags => (p.publish net flags).2
  | .withdraw net => (p.withdraw net).2
  | .expire now => { p with pool := (p.pool.expire now).2 }
  | .drain => p.drain

def make (node owner : NodeId) (range : ContextRange) (reuseDelay : Nat) :
    Press :=
  ⟨node, .authority, Replica.make owner true, ContextPool.make range reuseDelay⟩

/-- The press is that of an authority, and its replica and its pool are in
step. -/
structure Ready (range : ContextRange) (p : Press) : Prop where
  range : p.pool.range = range
  role : p.role.canPublish = true
  authority : p.replica.authority = true
  inStep : p.replica.InStep p.pool

/-- What asking for an id comes to while the loans are orderly. -/
theorem lent_of_allocated {net : Prefix} {context : ContextId}
    {pool : ContextPool} (h : p.pool.Orderly)
    (halloc : p.pool.Allocated net (.ok context) pool) :
    Replica.Lent p.pool net context pool := by
  cases halloc with
  | found hlive => exact ⟨rfl, h, hlive, fun _ _ => rfl, Or.inl hlive⟩
  | lent hnew hmem hfree hidle =>
      refine ⟨rfl, h.lend hnew hmem hidle, ?_, ?_, Or.inr hfree⟩
      · simp
      · intro id hid
        simp [hid]

/-- A prefix is published under an id that is lent to it, or nothing happens. -/
theorem Ready.publish_cases (h : p.Ready range) (net : Prefix) (flags : Flags) :
    (p.publish net flags).2 = p ∨
      ∃ context pool, Replica.Lent p.pool net context pool ∧
        (p.publish net flags).2 = { p with
          replica := p.replica.advance
            (Replica.rebind p.replica.data
              (p.replica.publishedEntry net flags) context)
          pool } := by
  have hallocated := ContextPool.allocated_allocate p.pool net
  rcases halloc : p.pool.allocate net with ⟨fault | context, pool⟩
  · rw [halloc] at hallocated
    rw [publish_of_exhausted h.role flags halloc]
    cases hallocated
    exact Or.inl rfl
  · rw [halloc] at hallocated
    rw [publish_of_allocated h.role flags halloc]
    have hlent := lent_of_allocated h.inStep.orderly hallocated
    have hedited := Replica.edited_edit p.replica (.publish net flags context)
    generalize p.replica.edit (.publish net flags context) = result at hedited ⊢
    obtain ⟨answer, replica⟩ := result
    cases hedited with
    | forbidden _ hnot =>
        rw [h.authority] at hnot
        cases hnot
    | current _ hcurrent =>
        left
        -- The data bind the id already, so it was on loan before.
        have hbound := (NetworkData.contextEntry?_eq_some_iff.1 hcurrent.2).2
        have hlive := h.inStep.lent context _ hbound
        cases hallocated with
        | found _ => rfl
        | lent _ _ hfree _ =>
            rw [hfree] at hlive
            cases hlive
    | published _ _ => exact Or.inr ⟨context, pool, hlent, rfl⟩

theorem Ready.publish (h : p.Ready range) (net : Prefix) (flags : Flags) :
    (p.publish net flags).2.Ready range := by
  rcases h.publish_cases net flags with heq | ⟨context, pool, hlent, heq⟩
  · rw [heq]
    exact h
  · rw [heq]
    exact ⟨hlent.range.trans h.range, h.role, h.authority,
      h.inStep.rebind hlent flags⟩

theorem Ready.withdraw (h : p.Ready range) (net : Prefix) :
    (p.withdraw net).2.Ready range := by
  rw [withdraw_of_canPublish h.role]
  have hedited := Replica.edited_edit p.replica (.withdraw net)
  generalize p.replica.edit (.withdraw net) = result at hedited ⊢
  obtain ⟨answer, replica⟩ := result
  cases hedited with
  | forbidden _ _ => exact h
  | withdrawn _ _ => exact ⟨h.range, h.role, h.authority, h.inStep.unbind net⟩
  | unknown _ _ => exact h

theorem Ready.act (h : p.Ready range) (a : Act) : (p.act a).Ready range := by
  cases a with
  | publish net flags => exact h.publish net flags
  | withdraw net => exact h.withdraw net
  | expire now => exact ⟨h.range, h.role, h.authority, h.inStep.expire now⟩
  | drain =>
      refine ⟨?_, h.role, h.authority, h.inStep.takeNotices⟩
      exact (ContextPool.range_foldl_observe _ _).trans h.range

theorem ready_make (node owner : NodeId) (range : ContextRange)
    (reuseDelay : Nat) : (make node owner range reuseDelay).Ready range :=
  ⟨rfl, rfl, rfl, Replica.inStep_make owner true range reuseDelay⟩

theorem Ready.foldl_act (h : p.Ready range) (acts : List Act) :
    (acts.foldl Press.act p).Ready range := by
  induction acts generalizing p with
  | nil => exact h
  | cons a acts ih => exact ih (h.act a)

/-- What a press guarantees of the bindings and of the loans,
whatever was done with it. -/
structure KeepsBindings (range : ContextRange) (p : Press) : Prop where
  /-- A published prefix has exactly one context. -/
  one_context : ∀ net, p.replica.data.prefixes.contains net = true →
    ∃! id, p.replica.data.bindings.get? id = some net
  /-- A context belongs to a published prefix. -/
  published : ∀ id net, p.replica.data.bindings.get? id = some net →
    p.replica.data.prefixes.contains net = true
  /-- What the data bind is on loan. -/
  on_loan : ∀ id net, p.replica.data.bindings.get? id = some net →
    p.pool.live.get? id = some net
  /-- Publishing rebinds no id that the data bind. -/
  kept : ∀ net flags id bound, p.replica.data.bindings.get? id = some bound →
    (p.publish net flags).2.replica.data.bindings.get? id = some bound
  disjoint : ∀ id, p.pool.isLive id = true → p.pool.isRetiring id = false
  one_id : ∀ i j net, p.pool.live.get? i = some net →
    p.pool.live.get? j = some net → i = j
  in_range : ∀ id net, p.pool.live.get? id = some net →
    range.low.value ≤ id.value ∧ id.value ≤ range.high.value
  /-- Right after the notices have been observed, the loans are
  what the data bind. -/
  drained : p.drain.pool.live = p.drain.replica.data.bindings

/-- A press that is ready guarantees all that is promised of its bindings. -/
theorem Ready.keepsBindings (h : p.Ready range) : p.KeepsBindings range where
  one_context := by
    intro net hnet
    obtain ⟨id, hid⟩ := h.inStep.bound net hnet
    have hlive := h.inStep.lent id _ hid
    refine ⟨id, Table.get?_map_eq_some_iff.2 ⟨_, hid, rfl⟩, ?_⟩
    intro j hj
    obtain ⟨b, hb, rfl⟩ := Table.get?_map_eq_some_iff.1 hj
    exact h.inStep.orderly.once j id b.net (h.inStep.lent j b hb) hlive
  published := by
    intro id net hid
    obtain ⟨b, hb, rfl⟩ := Table.get?_map_eq_some_iff.1 hid
    exact (h.inStep.published id b hb).2
  on_loan := by
    intro id net hid
    obtain ⟨b, hb, rfl⟩ := Table.get?_map_eq_some_iff.1 hid
    exact h.inStep.lent id b hb
  kept := by
    intro net flags id bound hid
    obtain ⟨b, hb, rfl⟩ := Table.get?_map_eq_some_iff.1 hid
    rcases h.publish_cases net flags with heq | ⟨context, pool, hlent, heq⟩
    · rw [heq]
      exact hid
    · rw [heq]
      exact Table.get?_map_eq_some_iff.2
        ⟨b, h.inStep.published_of_bound hlent flags hb, rfl⟩
  disjoint := h.inStep.orderly.disjoint
  one_id := h.inStep.orderly.once
  in_range := by
    intro id net hid
    rw [← h.range]
    exact ContextRange.mem_ids_iff.1 (h.inStep.orderly.inRange id net hid)
  drained := h.inStep.live_drained

/-- Whatever is done with the press of a fresh authority, however
long notices stay untaken, the bindings of the data and the loans of
the pool stay in step. -/
theorem keepsBindings_of_acts (node owner : NodeId) (range : ContextRange)
    (reuseDelay : Nat) (acts : List Act) :
    (acts.foldl act (make node owner range reuseDelay)).KeepsBindings range :=
  ((ready_make node owner range reuseDelay).foldl_act acts).keepsBindings

end Press

end OnMesh
