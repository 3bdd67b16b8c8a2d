import OnMesh.ContextPool
import OnMesh.Proofs.Delta

/-!
# Loans of context ids

Observing a notice does to the ids on loan what the notice says, whatever the
pool looks like otherwise: `Notice.replay` is that change of the loans alone.
An id is never on loan and held back at once, and of the ids that are neither
the lowest one is lent next.
-/

namespace OnMesh

/-- The notice's changes of contexts, made on a table of ids and prefixes. -/
def Notice.replay (n : Notice) (live : Table ContextId Prefix) :
    Table ContextId Prefix :=
  (live.eraseAll n.contextsRemoved).insertAll
    (n.contextsAdded.map fun c => (c.id, c.net))

/-- What a notice leaves at an id depends only on what was there. -/
theorem Notice.get?_replay_congr (n : Notice) {s t : Table ContextId Prefix}
    {id : ContextId} (h : s.get? id = t.get? id) :
    (n.replay s).get? id = (n.replay t).get? id := by
  rw [replay, replay]
  generalize n.contextsAdded.map (fun c => (c.id, c.net)) = added
  have herased : (s.eraseAll n.contextsRemoved).get? id =
      (t.eraseAll n.contextsRemoved).get? id := by
    rw [Table.get?_eraseAll, Table.get?_eraseAll, h]
  generalize s.eraseAll n.contextsRemoved = s' at herased ⊢
  generalize t.eraseAll n.contextsRemoved = t' at herased ⊢
  induction added generalizing s' t' with
  | nil => exact herased
  | cons e added ih =>
      apply ih
      rw [Table.get?_insert, Table.get?_insert, herased]

theorem Notice.get?_foldl_replay_congr (notices : List Notice)
    {s t : Table ContextId Prefix} {id : ContextId}
    (h : s.get? id = t.get? id) :
    (notices.foldl (fun live n => n.replay live) s).get? id =
      (notices.foldl (fun live n => n.replay live) t).get? id := by
  induction notices generalizing s t with
  | nil => exact h
  | cons n notices ih => exact ih (n.get?_replay_congr h)

/-- The notice's changes, made on the contexts of some data. -/
def Notice.carry (n : Notice) (contexts : Table ContextId Binding) :
    Table ContextId Binding :=
  (contexts.eraseAll n.contextsRemoved).insertAll
    (NetworkData.contextRows n.contextsAdded)

theorem Delta.contexts_apply (d : Delta) (data : NetworkData) :
    (d.apply data).contexts = (Notice.ofDelta d).carry data.contexts := by
  rw [apply, NetworkData.insertEntries_eq]
  rfl

theorem Notice.map_net_carry (n : Notice) (contexts : Table ContextId Binding) :
    (n.carry contexts).map Binding.net =
      n.replay (contexts.map Binding.net) := by
  rw [carry, Table.map_insertAll, Table.map_eraseAll,
    NetworkData.contextRows, List.map_map]
  rfl

/-- Changes of contexts from one state of the data to another, replayed on the
first one's bindings, give those of the second one. -/
theorem Notice.replay_ofDelta_between (old new : NetworkData) :
    (ofDelta (Delta.between old new)).replay (old.contexts.map Binding.net) =
      new.contexts.map Binding.net := by
  rw [← map_net_carry, ← Delta.contexts_apply, Delta.apply_between]

/-- A binding that is new is there after the replay, whatever was there
before. -/
theorem Notice.get?_replay_of_new {old new : NetworkData} {id : ContextId}
    {b : Binding} (hnew : new.contexts.get? id = some b)
    (hold : old.contexts.get? id ≠ some b) (live : Table ContextId Prefix) :
    ((ofDelta (Delta.between old new)).replay live).get? id = some b.net := by
  apply Table.get?_insertAll_of_mem
  · refine List.mem_map.2 ⟨⟨id, b.net, b.compress⟩, ?_, rfl⟩
    exact Delta.mem_contextsAdded_between.2 ⟨hnew, hold⟩
  · rintro ⟨j, net⟩ hj rfl
    obtain ⟨c, hc, heq⟩ := List.mem_map.1 hj
    cases heq
    have hget := (Delta.mem_contextsAdded_between.1 hc).1
    dsimp only at hnew
    rw [hget] at hnew
    cases hnew
    rfl

namespace ContextRange

/-- The ids of a range are those between its ends. -/
theorem mem_ids_iff {r : ContextRange} {id : ContextId} :
    id ∈ r.ids ↔ r.low.value ≤ id.value ∧ id.value ≤ r.high.value := by
  obtain ⟨v⟩ := id
  rw [ids, List.mem_map, UInt8.le_iff_toNat_le, UInt8.le_iff_toNat_le]
  have hv := v.toNat_lt
  have hhigh := r.high.value.toNat_lt
  constructor
  · rintro ⟨i, hi, heq⟩
    rw [List.mem_range, size] at hi
    have hval : v = UInt8.ofNat (r.low.value.toNat + i) := by cases heq; rfl
    rw [hval, UInt8.toNat_ofNat_of_lt' (by show _ < 2 ^ 8; omega)]
    omega
  · rintro ⟨hlow, hup⟩
    have hlow' : r.low.value.toNat ≤ v.toNat := hlow
    have hup' : v.toNat ≤ r.high.value.toNat := hup
    refine ⟨v.toNat - r.low.value.toNat, ?_, ?_⟩
    · rw [List.mem_range, size]
      omega
    · rw [show r.low.value.toNat + (v.toNat - r.low.value.toNat) = v.toNat by
        omega, UInt8.ofNat_toNat]

/-- The ids of a range come in ascending order. -/
theorem ascending_ids (r : ContextRange) :
    r.ids.Pairwise fun i j => i.value < j.value := by
  rw [ids, List.pairwise_map]
  refine List.pairwise_lt_range.imp_of_mem ?_
  intro i j hi hj hlt
  have hhigh := r.high.value.toNat_lt
  rw [List.mem_range, size] at hi hj
  rw [UInt8.lt_iff_toNat_lt, UInt8.toNat_ofNat_of_lt' (by
    show _ < 2 ^ 8; omega), UInt8.toNat_ofNat_of_lt' (by show _ < 2 ^ 8; omega)]
  omega

end ContextRange

namespace ContextPool

/-- No id is on loan and held back at once. -/
def IsDisjoint (p : ContextPool) : Prop :=
  ∀ id, p.isLive id = true → p.isRetiring id = false

theorem live_release (p : ContextPool) (id : ContextId) (now : Nat) :
    (p.release id now).live = p.live.erase id := by
  rw [release]
  split
  · rfl
  · next h =>
      apply Table.ext_get?
      intro j
      rw [Table.get?_erase]
      split
      · next hj =>
          rw [hj, ← Table.contains_eq_false_iff]
          exact Bool.not_eq_true _ ▸ h
      · rfl

theorem live_returned (p : ContextPool) (ids : List ContextId) :
    (ids.foldl (fun p id => p.release id p.now) p).live =
      p.live.eraseAll ids := by
  induction ids generalizing p with
  | nil => rfl
  | cons id ids ih => rw [List.foldl_cons, ih, live_release]; rfl

theorem live_lent (p : ContextPool) (cs : List ContextEntry) :
    (cs.foldl lend p).live =
      p.live.insertAll (cs.map fun c => (c.id, c.net)) := by
  induction cs generalizing p with
  | nil => rfl
  | cons c cs ih => rw [List.foldl_cons, ih]; rfl

/-- Observing a notice replays it on the loans. -/
theorem live_observe (p : ContextPool) (n : Notice) :
    (p.observe n).live = n.replay p.live := by
  rw [observe, live_lent, live_returned, Notice.replay]

theorem live_foldl_observe (p : ContextPool) (notices : List Notice) :
    (notices.foldl observe p).live =
      notices.foldl (fun live n => n.replay live) p.live := by
  induction notices generalizing p with
  | nil => rfl
  | cons n notices ih => rw [List.foldl_cons, ih, live_observe, List.foldl_cons]

theorem range_observe (p : ContextPool) (n : Notice) :
    (p.observe n).range = p.range := by
  have hreturned : ∀ ids : List ContextId,
      (ids.foldl (fun p id => p.release id p.now) p).range = p.range := by
    intro ids
    induction ids generalizing p with
    | nil => rfl
    | cons id ids ih =>
        rw [List.foldl_cons, ih, release]
        split <;> rfl
  have hlent : ∀ (cs : List ContextEntry) (q : ContextPool),
      (cs.foldl lend q).range = q.range := by
    intro cs
    induction cs with
    | nil => exact fun _ => rfl
    | cons c cs ih => exact fun q => ih (q.lend c)
  rw [observe, hlent, hreturned]

theorem range_foldl_observe (p : ContextPool) (notices : List Notice) :
    (notices.foldl observe p).range = p.range := by
  induction notices generalizing p with
  | nil => rfl
  | cons n notices ih => rw [List.foldl_cons, ih, range_observe]

/-! ## Disjointness -/

theorem isDisjoint_make (range : ContextRange) (reuseDelay : Nat) :
    (make range reuseDelay).IsDisjoint := fun _ _ => rfl

theorem IsDisjoint.release {p : ContextPool} (h : p.IsDisjoint) (id : ContextId)
    (now : Nat) : (p.release id now).IsDisjoint := by
  rw [ContextPool.release]
  split
  · intro j hj
    have hne : j ≠ id := by
      rintro rfl
      simp [isLive, Table.contains] at hj
    have hlive : p.isLive j = true := by
      simpa [isLive, Table.contains, hne] using hj
    simpa [isRetiring, Table.contains, hne] using h j hlive
  · exact h

theorem IsDisjoint.lend {p : ContextPool} (h : p.IsDisjoint)
    (c : ContextEntry) : (p.lend c).IsDisjoint := by
  intro j hj
  by_cases hid : j = c.id
  · simp [isRetiring, Table.contains, ContextPool.lend, hid]
  · have hlive : p.isLive j = true := by
      simpa [isLive, Table.contains, ContextPool.lend, hid] using hj
    simpa [isRetiring, Table.contains, ContextPool.lend, hid] using h j hlive

theorem IsDisjoint.observe {p : ContextPool} (h : p.IsDisjoint) (n : Notice) :
    (p.observe n).IsDisjoint := by
  rw [ContextPool.observe]
  have hreturned : ∀ ids : List ContextId,
      (ids.foldl (fun p id => p.release id p.now) p).IsDisjoint := by
    intro ids
    induction ids generalizing p with
    | nil => exact h
    | cons id ids ih => exact ih (h.release id p.now)
  have hlent : ∀ (cs : List ContextEntry) (q : ContextPool), q.IsDisjoint →
      (cs.foldl ContextPool.lend q).IsDisjoint := by
    intro cs
    induction cs with
    | nil => exact fun _ hq => hq
    | cons c cs ih => exact fun q hq => ih _ (hq.lend c)
  exact hlent _ _ (hreturned _)

theorem IsDisjoint.foldl_observe {p : ContextPool} (h : p.IsDisjoint)
    (notices : List Notice) :
    (notices.foldl ContextPool.observe p).IsDisjoint := by
  induction notices generalizing p with
  | nil => exact h
  | cons n notices ih => exact ih (h.observe n)

theorem IsDisjoint.expire {p : ContextPool} (h : p.IsDisjoint) (now : Nat) :
    (p.expire now).2.IsDisjoint := by
  intro j hj
  have hfree : p.retiring.get? j = none :=
    Table.contains_eq_false_iff.1 (h j hj)
  rw [isRetiring, Table.contains_eq_false_iff]
  simp [ContextPool.expire, hfree]

/-! ## Allocation -/

/-- What asking for the id of a prefix comes to: the id that it has on loan, a
free id of the range, or a refusal. -/
inductive Allocated (p : ContextPool) (net : Prefix) : Except Fault ContextId →
    ContextPool → Prop
  | found {id : ContextId} : p.live.get? id = some net →
      Allocated p net (.ok id) p
  | lent {id : ContextId} : (∀ j, p.live.get? j ≠ some net) → id ∈ p.range.ids →
      p.live.get? id = none → p.isRetiring id = false →
      Allocated p net (.ok id) { p with live := p.live.insert id net }
  | exhausted : (∀ j, p.live.get? j ≠ some net) → p.lowestFree? = none →
      Allocated p net (.error .exhaustedContexts) p

theorem allocated_allocate (p : ContextPool) (net : Prefix) :
    Allocated p net (p.allocate net).1 (p.allocate net).2 := by
  rw [allocate]
  cases hfound : p.live.find? fun _ q => q = net with
  | some e =>
      obtain ⟨hid, hnet⟩ := Table.find?_eq_some (k := e.1) (a := e.2) hfound
      rw [of_decide_eq_true hnet] at hid
      exact Allocated.found hid
  | none =>
      have hnew : ∀ j, p.live.get? j ≠ some net := by
        intro j hj
        exact absurd rfl
          (of_decide_eq_false (Table.find?_eq_none_iff.1 hfound j net hj))
      cases hfree : p.lowestFree? with
      | none => exact Allocated.exhausted hnew hfree
      | some id =>
          have hmem := List.mem_of_find?_eq_some hfree
          have hp := List.find?_some hfree
          rw [Bool.and_eq_true, Bool.not_eq_true', Bool.not_eq_true'] at hp
          exact Allocated.lent hnew hmem
            (Table.contains_eq_false_iff.1 hp.1) hp.2

/-- An id is free if it is neither on loan nor held back. -/
def IsFree (p : ContextPool) (id : ContextId) : Prop :=
  id ∈ p.range.ids ∧ p.live.get? id = none ∧ p.retiring.get? id = none

theorem isFree_iff {p : ContextPool} {id : ContextId} :
    p.IsFree id ↔ id ∈ p.range.ids ∧
    (!p.isLive id && !p.isRetiring id) = true := by
  rw [IsFree, Bool.and_eq_true, Bool.not_eq_true', Bool.not_eq_true', isLive,
    isRetiring, Table.contains_eq_false_iff, Table.contains_eq_false_iff]

theorem lowestFree?_eq_none_iff {p : ContextPool} :
    p.lowestFree? = none ↔ ∀ id, ¬ p.IsFree id := by
  simp only [lowestFree?, List.find?_eq_none, isFree_iff, not_and]

/-- The id that is lent next is the lowest of those that are free. -/
theorem lowestFree?_eq_some {p : ContextPool} {id : ContextId}
    (h : p.lowestFree? = some id) :
    p.IsFree id ∧ ∀ j, p.IsFree j → id.value ≤ j.value := by
  obtain ⟨hfree, before, later, hids, hbefore⟩ :=
    List.find?_eq_some_iff_append.1 h
  have hmem : id ∈ p.range.ids := by simp [hids]
  refine ⟨isFree_iff.2 ⟨hmem, hfree⟩, ?_⟩
  intro j hj
  obtain ⟨hjmem, hjfree⟩ := isFree_iff.1 hj
  have hasc := p.range.ascending_ids
  rw [hids, List.pairwise_append, List.pairwise_cons] at hasc
  rw [hids, List.mem_append, List.mem_cons] at hjmem
  rcases hjmem with hj | rfl | hj
  · have hnot := hbefore j hj
    rw [hjfree] at hnot
    cases hnot
  · exact UInt8.le_refl _
  · exact UInt8.le_of_lt (hasc.2.1.1 j hj)

/-- A prefix that has an id on loan is given that id. -/
theorem allocate_of_live {p : ContextPool} {net : Prefix} {id : ContextId}
    (hlive : p.live.get? id = some net)
    (honce : ∀ j, p.live.get? j = some net → j = id) :
    p.allocate net = (.ok id, p) := by
  have hfind : (p.live.find? fun _ q => q = net) = some (id, net) := by
    apply Table.find?_eq_some_of_unique hlive (decide_eq_true rfl)
    intro j q hj hq
    exact honce j (hj.trans (congrArg some (of_decide_eq_true hq)))
  rw [allocate, hfind]

theorem find?_live_eq_none {p : ContextPool} {net : Prefix}
    (hnew : ∀ j, p.live.get? j ≠ some net) :
    (p.live.find? fun _ q => q = net) = none := by
  rw [Table.find?_eq_none_iff]
  intro j q hj
  apply decide_eq_false
  rintro rfl
  exact hnew j hj

/-- A prefix without one is given the lowest free id. -/
theorem allocate_of_free {p : ContextPool} {net : Prefix} {id : ContextId}
    (hnew : ∀ j, p.live.get? j ≠ some net) (hfree : p.lowestFree? = some id) :
    p.allocate net = (.ok id, { p with live := p.live.insert id net }) := by
  simp only [allocate, find?_live_eq_none hnew, hfree]

theorem allocate_of_exhausted {p : ContextPool} {net : Prefix}
    (hnew : ∀ j, p.live.get? j ≠ some net) (hnone : p.lowestFree? = none) :
    p.allocate net = (.error .exhaustedContexts, p) := by
  simp only [allocate, find?_live_eq_none hnew, hnone]

/-- Asking for an id touches the loans only, and ends none. -/
theorem allocate_lends (p : ContextPool) (net : Prefix) :
    ∃ live, (p.allocate net).2 = { p with live } ∧
      ∀ id, p.live.contains id = true → live.contains id = true := by
  have hallocated := allocated_allocate p net
  generalize p.allocate net = result at hallocated ⊢
  obtain ⟨answer, pool⟩ := result
  cases hallocated with
  | found _ => exact ⟨_, rfl, fun _ h => h⟩
  | lent _ _ _ _ =>
      refine ⟨_, rfl, ?_⟩
      intro j hj
      rw [Table.contains, Table.get?_insert]
      split
      · rfl
      · exact hj
  | exhausted _ _ => exact ⟨_, rfl, fun _ h => h⟩

/-! ## Ids that come back -/

theorem retiring_release (p : ContextPool) (id j : ContextId) (now : Nat) :
    (p.release id now).retiring.get? j =
      if j = id ∧ p.isLive id = true then some now else p.retiring.get? j := by
  rw [release]
  by_cases hlive : p.isLive id = true
  · simp [hlive]
  · simp [hlive]

/-- Every id that was on loan comes back with the tick of the pool. -/
theorem retiring_returned (p : ContextPool) (ids : List ContextId)
    (j : ContextId) :
    (ids.foldl (fun p id => p.release id p.now) p).retiring.get? j =
      if j ∈ ids ∧ p.isLive j = true then some p.now
      else p.retiring.get? j := by
  induction ids generalizing p with
  | nil => simp
  | cons id ids ih =>
      have hnow : (p.release id p.now).now = p.now := by
        rw [release]
        split <;> rfl
      rw [List.foldl_cons, ih, hnow, retiring_release, isLive, live_release,
        Table.contains, Table.get?_erase]
      by_cases hj : j = id
      · subst hj
        simp
      · simp [hj, isLive, Table.contains]

theorem retiring_lent (p : ContextPool) (cs : List ContextEntry)
    (j : ContextId) :
    (cs.foldl lend p).retiring.get? j =
      if ∃ c ∈ cs, c.id = j then none else p.retiring.get? j := by
  induction cs generalizing p with
  | nil => simp
  | cons c cs ih =>
      rw [List.foldl_cons, ih, lend, Table.get?_erase]
      by_cases hj : c.id = j
      · simp [hj]
      · simp [hj, Ne.symm hj]

/-- An id that a notice brings is held back no longer, one that it takes away is
held back from now on, and all others stay as they are. -/
theorem retiring_observe (p : ContextPool) (n : Notice) (j : ContextId) :
    (p.observe n).retiring.get? j =
      if ∃ c ∈ n.contextsAdded, c.id = j then none
      else if j ∈ n.contextsRemoved ∧ p.isLive j = true then some p.now
      else p.retiring.get? j := by
  rw [observe, retiring_lent, retiring_returned]

/-- Of the ids that new data do not bind, those that the old data did
are held from now on. -/
theorem retiring_observe_between (p : ContextPool) {old new : NetworkData}
    {id : ContextId} (hlive : old.contexts.get? id ≠ none → p.isLive id = true)
    (hnew : new.contexts.get? id = none) :
    (p.observe (Notice.ofDelta (Delta.between old new))).retiring.get? id =
      if old.contexts.get? id = none then p.retiring.get? id
      else some p.now := by
  have hadded : ¬ ∃ c ∈ (Notice.ofDelta (Delta.between old new)).contextsAdded,
      c.id = id := by
    rintro ⟨c, hc, rfl⟩
    rw [(Delta.mem_contextsAdded_between.1 hc).1] at hnew
    cases hnew
  have hremoved :
      id ∈ (Notice.ofDelta (Delta.between old new)).contextsRemoved ↔
      old.contexts.get? id ≠ none := by
    rw [Option.ne_none_iff_exists']
    constructor
    · intro h
      exact (Delta.mem_contextsRemoved_between.1 h).1
    · intro h
      exact Delta.mem_contextsRemoved_between.2 ⟨h, hnew⟩
  rw [retiring_observe, if_neg hadded]
  by_cases hold : old.contexts.get? id = none
  · simp [hremoved, hold]
  · simp [hremoved, hold, hlive hold]

/-- Notices move no clock. -/
theorem clock_observe (p : ContextPool) (n : Notice) :
    (p.observe n).now = p.now ∧ (p.observe n).reuseDelay = p.reuseDelay := by
  have hreturned : ∀ (ids : List ContextId) (q : ContextPool),
      (ids.foldl (fun p id => p.release id p.now) q).now = q.now ∧
        (ids.foldl (fun p id => p.release id p.now) q).reuseDelay =
          q.reuseDelay := by
    intro ids
    induction ids with
    | nil => exact fun _ => ⟨rfl, rfl⟩
    | cons id ids ih =>
        intro q
        have hone : (q.release id q.now).now = q.now ∧
            (q.release id q.now).reuseDelay = q.reuseDelay := by
          rw [release]
          split <;> exact ⟨rfl, rfl⟩
        exact ⟨(ih _).1.trans hone.1, (ih _).2.trans hone.2⟩
  have hlent : ∀ (cs : List ContextEntry) (q : ContextPool),
      (cs.foldl lend q).now = q.now ∧
      (cs.foldl lend q).reuseDelay = q.reuseDelay := by
    intro cs
    induction cs with
    | nil => exact fun _ => ⟨rfl, rfl⟩
    | cons c cs ih => exact fun q => ih (q.lend c)
  rw [observe]
  exact ⟨(hlent _ _).1.trans (hreturned _ p).1,
    (hlent _ _).2.trans (hreturned _ p).2⟩

/-- Held ids are freed exactly when their delay has passed. -/
theorem retiring_expire (p : ContextPool) (now : Nat) (id : ContextId) :
    (p.expire now).2.retiring.get? id =
      (p.retiring.get? id).filter fun released => !p.isDue now released :=
  Table.get?_filter _ _ _

/-! ## Orderly loans -/

/-- Ids on loan are in the range and not held back, and a prefix has
at most one of them. -/
structure Orderly (p : ContextPool) : Prop where
  once : ∀ i j net, p.live.get? i = some net → p.live.get? j = some net → i = j
  inRange : ∀ id net, p.live.get? id = some net → id ∈ p.range.ids
  disjoint : p.IsDisjoint

theorem orderly_make (range : ContextRange) (reuseDelay : Nat) :
    (make range reuseDelay).Orderly where
  once := by
    intro i j net h
    cases h
  inRange := by
    intro id net h
    cases h
  disjoint := isDisjoint_make range reuseDelay

theorem orderly_reset (p : ContextPool) : p.reset.Orderly where
  once := by
    intro i j net h
    cases h
  inRange := by
    intro id net h
    cases h
  disjoint := fun _ _ => rfl

theorem Orderly.expire {p : ContextPool} (h : p.Orderly) (now : Nat) :
    (p.expire now).2.Orderly :=
  ⟨h.once, h.inRange, h.disjoint.expire now⟩

/-- Loans stay orderly if none is new. -/
theorem Orderly.of_live {p q : ContextPool} (h : p.Orderly)
    (hrange : q.range = p.range)
    (hlive : ∀ id net, q.live.get? id = some net → p.live.get? id = some net)
    (hdisjoint : q.IsDisjoint) : q.Orderly where
  once := fun i j net hi hj => h.once i j net (hlive i net hi) (hlive j net hj)
  inRange := by
    intro id net hid
    rw [hrange]
    exact h.inRange id net (hlive id net hid)
  disjoint := hdisjoint

/-- Observing notices keeps loans orderly if no loan is new afterwards. -/
theorem Orderly.foldl_observe {p : ContextPool} (h : p.Orderly)
    (notices : List Notice)
    (hlive : ∀ id net,
      (notices.foldl ContextPool.observe p).live.get? id = some net →
      p.live.get? id = some net) :
    (notices.foldl ContextPool.observe p).Orderly :=
  h.of_live (range_foldl_observe p notices) hlive
    (h.disjoint.foldl_observe notices)

theorem Orderly.release {p : ContextPool} (h : p.Orderly) (id : ContextId)
    (now : Nat) : (p.release id now).Orderly := by
  refine h.of_live ?_ ?_ (h.disjoint.release id now)
  · rw [ContextPool.release]
    split <;> rfl
  · intro j net hj
    rw [live_release, Table.get?_erase] at hj
    split at hj
    · cases hj
    · exact hj

/-- A free id of the range can be lent to a prefix that has none. -/
theorem Orderly.lend {p : ContextPool} (h : p.Orderly) {id : ContextId}
    {net : Prefix} (hnew : ∀ j, p.live.get? j ≠ some net)
    (hmem : id ∈ p.range.ids) (hfree : p.isRetiring id = false) :
    ({ p with live := p.live.insert id net } : ContextPool).Orderly where
  once := by
    intro i j q hi hj
    simp only [Table.get?_insert] at hi hj
    split at hi <;> split at hj
    · next hid hjd => rw [hid, hjd]
    · cases hi
      exact absurd hj (hnew j)
    · cases hj
      exact absurd hi (hnew i)
    · exact h.once i j q hi hj
  inRange := by
    intro j q hj
    simp only [Table.get?_insert] at hj
    split at hj
    · next hid => exact hid ▸ hmem
    · exact h.inRange j q hj
  disjoint := by
    intro j hj
    by_cases hid : j = id
    · rw [hid]
      exact hfree
    · have hlive : p.isLive j = true := by
        simpa [isLive, Table.contains, hid] using hj
      exact h.disjoint j hlive

end ContextPool

end OnMesh
