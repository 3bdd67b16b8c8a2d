import OnMesh.Proofs.ContextPool

/-!
# Loans over any time

The ticks that a pool is told need not agree: an id can come back at a tick that
is still ahead, and time can run backwards.  Whatever is asked of the pool, its
two tables are what the past says.  An id is on loan if it was lent and has not
come back since, and it is held if it came back and nothing has freed it since.
-/

namespace OnMesh.ContextPool

/-- What can be asked of a pool that follows no notices. -/
inductive Act where
  | allocate (net : Prefix)
  | release (id : ContextId) (now : Nat)
  | expire (now : Nat)
  | reset

def act (p : ContextPool) : Act → ContextPool
  | .allocate net => (p.allocate net).2
  | .release id now => p.release id now
  | .expire now => (p.expire now).2
  | .reset => p.reset

def Act.Ends (id : ContextId) : Act → Prop
  | .release j _ => j = id
  | .reset => True
  | _ => False

/-- Whether the act frees an id that came back at the given tick. -/
def Act.Frees (reuseDelay released : Nat) : Act → Prop
  | .expire now => reuseDelay ≤ now - released
  | .reset => True
  | _ => False

/-- The pool is asked for the id of the prefix, and that is the id it gives. -/
def Lends (id : ContextId) (net : Prefix) (p : ContextPool) (a : Act) : Prop :=
  a = .allocate net ∧ (p.allocate net).1 = .ok id

/-- The id is on loan and comes back at the given tick. -/
def TakesBack (id : ContextId) (released : Nat) (p : ContextPool) (a : Act) :
    Prop :=
  a = .release id released ∧ p.isLive id = true

variable {range : ContextRange} {reuseDelay : Nat} {p : ContextPool}
  {id : ContextId}
  {net : Prefix} {released : Nat}

theorem IsDisjoint.live_eq_none (h : p.IsDisjoint)
    (hheld : p.retiring.get? id = some released) : p.live.get? id = none := by
  rw [← Table.contains_eq_false_iff, ← Bool.not_eq_true]
  intro hlive
  have hidle : p.retiring.get? id = none :=
    Table.contains_eq_false_iff.1 (h id hlive)
  rw [hheld] at hidle
  cases hidle

theorem Orderly.mem_ids (h : p.Orderly) (hlive : p.isLive id = true) :
    id ∈ p.range.ids := by
  obtain ⟨net, hnet⟩ := Option.isSome_iff_exists.1 hlive
  exact h.inRange id net hnet

/-! ## One act -/

theorem settings_act (p : ContextPool) (a : Act) :
    (p.act a).range = p.range ∧ (p.act a).reuseDelay = p.reuseDelay := by
  cases a with
  | allocate net =>
      obtain ⟨live, hpool, -⟩ := p.allocate_lends net
      rw [act, hpool]
      exact ⟨rfl, rfl⟩
  | release id now =>
      rw [act, release]
      split <;> exact ⟨rfl, rfl⟩
  | expire now => exact ⟨rfl, rfl⟩
  | reset => exact ⟨rfl, rfl⟩

theorem lends_allocate_iff {other : Prefix} :
    Lends id net p (.allocate other) ↔
    other = net ∧ (p.allocate other).1 = .ok id := by
  constructor
  · rintro ⟨hact, hanswer⟩
    cases hact
    exact ⟨rfl, hanswer⟩
  · rintro ⟨rfl, hanswer⟩
    exact ⟨rfl, hanswer⟩

/-- An id is on loan after an act if the act lends it, or if it was before and
the act does not end that. -/
theorem live_act_iff (p : ContextPool) (a : Act) (id : ContextId)
    (net : Prefix) :
    (p.act a).live.get? id = some net ↔
      Lends id net p a ∨ p.live.get? id = some net ∧ ¬ a.Ends id := by
  cases a with
  | allocate other =>
      have hallocated := p.allocated_allocate other
      rw [lends_allocate_iff, act]
      generalize p.allocate other = result at hallocated ⊢
      obtain ⟨answer, pool⟩ := result
      cases hallocated with
      | found hlive =>
          constructor
          · exact fun hbefore => Or.inr ⟨hbefore, not_false⟩
          · rintro (⟨rfl, hanswer⟩ | ⟨hbefore, -⟩)
            · cases hanswer
              exact hlive
            · exact hbefore
      | @lent j _ _ hfree _ =>
          rw [Table.get?_insert]
          by_cases hid : id = j
          · simp [hid, hfree]
          · simp [hid, Ne.symm hid, Act.Ends]
      | exhausted _ _ => simp [Act.Ends]
  | release j now =>
      rw [act, live_release, Table.get?_erase]
      by_cases hid : id = j
      · simp [Lends, Act.Ends, hid]
      · simp [Lends, Act.Ends, hid, Ne.symm hid]
  | expire now => simp [act, expire, Lends, Act.Ends]
  | reset => simp [act, reset, Lends, Act.Ends]

/-- An id is held after an act if the act takes it back, or if it was before and
the act does not free it. -/
theorem retiring_act_iff (h : p.IsDisjoint) (a : Act) (id : ContextId)
    (released : Nat) :
    (p.act a).retiring.get? id = some released ↔
      TakesBack id released p a ∨
        p.retiring.get? id = some released ∧
        ¬ a.Frees p.reuseDelay released := by
  cases a with
  | allocate net =>
      obtain ⟨live, hpool, -⟩ := p.allocate_lends net
      simp [act, hpool, TakesBack, Act.Frees]
  | release j now =>
      rw [act, retiring_release]
      by_cases hback : id = j ∧ p.isLive j = true
      · obtain ⟨rfl, hlive⟩ := hback
        -- An id that comes back was not held before, so there is
        -- no older tick to keep.
        have hidle : p.retiring.get? id = none :=
          Table.contains_eq_false_iff.1 (h id hlive)
        simp [TakesBack, hlive, hidle]
      · rw [if_neg hback]
        have hnot : ¬ TakesBack id released p (.release j now) := by
          rintro ⟨hact, hlive⟩
          cases hact
          exact hback ⟨rfl, hlive⟩
        simp [hnot, Act.Frees]
  | expire now =>
      rw [act, retiring_expire, Option.filter_eq_some_iff]
      simp [TakesBack, Act.Frees, isDue]
  | reset => simp [act, reset, TakesBack, Act.Frees]

/-! ## Regulated pools -/

/-- The pool has the given range and delay, and its ids are where they
belong. -/
structure Regulated (range : ContextRange) (reuseDelay : Nat)
    (p : ContextPool) : Prop where
  range : p.range = range
  reuseDelay : p.reuseDelay = reuseDelay
  orderly : p.Orderly
  heldInRange : ∀ id released, p.retiring.get? id = some released →
    id ∈ p.range.ids

theorem regulated_make (range : ContextRange) (reuseDelay : Nat) :
    (make range reuseDelay).Regulated range reuseDelay where
  range := rfl
  reuseDelay := rfl
  orderly := orderly_make range reuseDelay
  heldInRange := by
    intro id released h
    cases h

theorem Orderly.act (h : p.Orderly) (a : Act) : (p.act a).Orderly := by
  cases a with
  | allocate net =>
      have hallocated := p.allocated_allocate net
      rcases halloc : p.allocate net with ⟨answer, pool⟩
      rw [halloc] at hallocated
      rw [ContextPool.act, halloc]
      cases hallocated with
      | found _ => exact h
      | lent hnew hmem _ hidle => exact h.lend hnew hmem hidle
      | exhausted _ _ => exact h
  | release id now => exact h.release id now
  | expire now => exact h.expire now
  | reset => exact p.orderly_reset

theorem Regulated.act (h : p.Regulated range reuseDelay) (a : Act) :
    (p.act a).Regulated range reuseDelay := by
  obtain ⟨hrange, hdelay⟩ := p.settings_act a
  refine ⟨hrange.trans h.range, hdelay.trans h.reuseDelay, h.orderly.act a, ?_⟩
  intro id released hheld
  rw [hrange]
  rcases (retiring_act_iff h.orderly.disjoint a id released).1 hheld
    with ⟨-, hlive⟩ | ⟨hold, -⟩
  · exact h.orderly.mem_ids hlive
  · exact h.heldInRange id released hold

theorem Regulated.foldl_act (h : p.Regulated range reuseDelay)
    (acts : List Act) :
    (acts.foldl ContextPool.act p).Regulated range reuseDelay := by
  induction acts generalizing p with
  | nil => exact h
  | cons a acts ih => exact ih (h.act a)

theorem Regulated.mem_range (h : p.Regulated range reuseDelay)
    (hused : p.isLive id = true ∨ p.isRetiring id = true) :
    range.low.value ≤ id.value ∧ id.value ≤ range.high.value := by
  rw [← h.range, ← ContextRange.mem_ids_iff]
  rcases hused with hlive | hheld
  · exact h.orderly.mem_ids hlive
  · obtain ⟨released, hreleased⟩ := Option.isSome_iff_exists.1 hheld
    exact h.heldInRange id released hreleased

/-- An id that is held comes free with the first act that frees it. -/
theorem Regulated.isFree_act (h : p.Regulated range reuseDelay)
    (hheld : p.retiring.get? id = some released) {a : Act}
    (ha : a.Frees reuseDelay released) : (p.act a).IsFree id := by
  -- An act that frees an id neither lends one nor takes one back.
  have hidle : p.live.get? id = none := h.orderly.disjoint.live_eq_none hheld
  refine ⟨?_, ?_, ?_⟩
  · rw [(p.settings_act a).1]
    exact h.heldInRange id released hheld
  · rw [Option.eq_none_iff_forall_ne_some]
    intro net hnet
    rcases (p.live_act_iff a id net).1 hnet with ⟨rfl, -⟩ | ⟨hlive, -⟩
    · exact ha
    · rw [hidle] at hlive
      cases hlive
  · rw [Option.eq_none_iff_forall_ne_some]
    intro now hnow
    rcases (retiring_act_iff h.orderly.disjoint a id now).1 hnow
      with ⟨rfl, -⟩ | ⟨hsame, hnot⟩
    · exact ha
    · rw [hheld] at hsame
      cases hsame
      exact hnot (h.reuseDelay.symm ▸ ha)

/-! ## Many acts -/

/-- Some act began something, and no act after it ended that. -/
def Since (begins : ContextPool → Act → Prop) (ends : Act → Prop)
    (p : ContextPool) (acts : List Act) : Prop :=
  ∃ before a later, acts = before ++ a :: later ∧
    begins (before.foldl act p) a ∧
    ∀ b ∈ later, ¬ ends b

section Since

variable {begins : ContextPool → Act → Prop} {ends : Act → Prop}

theorem not_since_nil : ¬ Since begins ends p [] := by
  rintro ⟨before, a, later, hacts, -⟩
  simp at hacts

theorem since_cons_iff {a : Act} {acts : List Act} :
    Since begins ends p (a :: acts) ↔
      (begins p a ∧ ∀ b ∈ acts, ¬ ends b) ∨
      Since begins ends (p.act a) acts := by
  constructor
  · rintro ⟨before, b, later, hacts, hbegins, hends⟩
    cases before with
    | nil =>
        cases hacts
        exact Or.inl ⟨hbegins, hends⟩
    | cons c before =>
        cases hacts
        exact Or.inr ⟨before, b, later, rfl, hbegins, hends⟩
  · rintro (⟨hbegins, hends⟩ | ⟨before, b, later, rfl, hbegins, hends⟩)
    · exact ⟨[], a, acts, rfl, hbegins, hends⟩
    · exact ⟨a :: before, b, later, rfl, hbegins, hends⟩

/-- What every act begins, ends or leaves alone holds after many acts if it
began in their course and has not ended since, or if it held at first and
none of them ended it. -/
theorem Regulated.foldl_act_iff (holds : ContextPool → Prop)
    (hstep : ∀ q a, q.Regulated range reuseDelay →
      (holds (q.act a) ↔ begins q a ∨ holds q ∧ ¬ ends a))
    (h : p.Regulated range reuseDelay) (acts : List Act) :
    holds (acts.foldl ContextPool.act p) ↔
      Since begins ends p acts ∨ holds p ∧ ∀ a ∈ acts, ¬ ends a := by
  -- What holds already when the first act comes is carried along as the second
  -- case.
  induction acts generalizing p with
  | nil => simp [not_since_nil]
  | cons a acts ih =>
      rw [List.foldl_cons, ih (h.act a), hstep p a h, since_cons_iff,
        List.forall_mem_cons]
      tauto

end Since

/-- What is on loan was lent in the course of the acts or before, and has
not come back since. -/
theorem Regulated.live_foldl_act_iff (h : p.Regulated range reuseDelay)
    (acts : List Act) (id : ContextId) (net : Prefix) :
    (acts.foldl ContextPool.act p).live.get? id = some net ↔
      Since (Lends id net) (Act.Ends id) p acts ∨
        p.live.get? id = some net ∧ ∀ a ∈ acts, ¬ a.Ends id :=
  h.foldl_act_iff (fun q => q.live.get? id = some net)
    (fun q a _ => q.live_act_iff a id net) acts

/-- What is held came back in the course of the acts or before, and nothing
has freed it since. -/
theorem Regulated.retiring_foldl_act_iff (h : p.Regulated range reuseDelay)
    (acts : List Act) (id : ContextId) (released : Nat) :
    (acts.foldl ContextPool.act p).retiring.get? id = some released ↔
      Since (TakesBack id released) (Act.Frees reuseDelay released) p acts ∨
        p.retiring.get? id = some released ∧
        ∀ a ∈ acts, ¬ a.Frees reuseDelay released := by
  refine h.foldl_act_iff (fun q => q.retiring.get? id = some released) ?_ acts
  intro q a hq
  rw [retiring_act_iff hq.orderly.disjoint, hq.reuseDelay]

/-! ## What a pool guarantees -/

/-- No prefix is given an id that is held. -/
theorem allocate_ne_of_held (h : p.IsDisjoint)
    (hheld : p.retiring.get? id = some released) (net : Prefix) :
    (p.allocate net).1 ≠ .ok id := by
  have hallocated := p.allocated_allocate net
  generalize p.allocate net = result at hallocated ⊢
  obtain ⟨answer, pool⟩ := result
  rintro rfl
  cases hallocated with
  | found hlive =>
      rw [h.live_eq_none hheld] at hlive
      cases hlive
  | lent _ _ _ hfree =>
      rw [Table.contains_eq_false_iff.1 hfree] at hheld
      cases hheld

/-- How a pool answers when it is asked for the id of a prefix. -/
structure Allots (p : ContextPool) : Prop where
  /-- A prefix that has an id on loan is given that id, and nothing changes. -/
  found : ∀ net id, p.live.get? id = some net → p.allocate net = (.ok id, p)
  /-- Any other prefix is lent the lowest id that is free, if there is one. -/
  lowest : ∀ net, (∀ id, p.live.get? id ≠ some net) → (∃ id, p.IsFree id) →
    ∃ id, p.IsFree id ∧ (∀ j, p.IsFree j → id.value ≤ j.value) ∧
      p.allocate net = (.ok id, { p with live := p.live.insert id net })
  exhausted : ∀ net, (p.allocate net).1 = .error .exhaustedContexts ↔
    (∀ id, p.live.get? id ≠ some net) ∧ ∀ id, ¬ p.IsFree id
  /-- There is no other fault, and a refusal changes nothing. -/
  refused : ∀ net fault, (p.allocate net).1 = .error fault →
    p.allocate net = (.error .exhaustedContexts, p)

theorem eq_exhausted_of_error {fault : Fault}
    (h : (p.allocate net).1 = .error fault) :
    p.allocate net = (.error .exhaustedContexts, p) ∧
      (∀ id, p.live.get? id ≠ some net) ∧ ∀ id, ¬ p.IsFree id := by
  have hallocated := p.allocated_allocate net
  generalize p.allocate net = result at hallocated h ⊢
  obtain ⟨answer, pool⟩ := result
  cases hallocated with
  | found _ => cases h
  | lent _ _ _ _ => cases h
  | exhausted hnew hnone => exact ⟨rfl, hnew, lowestFree?_eq_none_iff.1 hnone⟩

theorem Orderly.allots (h : p.Orderly) : p.Allots where
  found := fun net id hlive => allocate_of_live hlive fun j hj =>
    h.once j id net hj hlive
  lowest := by
    rintro net hnew ⟨j, hj⟩
    cases hlowest : p.lowestFree? with
    | none => exact absurd hj (lowestFree?_eq_none_iff.1 hlowest j)
    | some id =>
        obtain ⟨hfree, hleast⟩ := lowestFree?_eq_some hlowest
        exact ⟨id, hfree, hleast, allocate_of_free hnew hlowest⟩
  exhausted := by
    intro net
    refine ⟨fun herror => (eq_exhausted_of_error herror).2, ?_⟩
    rintro ⟨hnew, hnone⟩
    rw [allocate_of_exhausted hnew (lowestFree?_eq_none_iff.2 hnone)]
  refused := fun _ _ herror => (eq_exhausted_of_error herror).1

/-- What becomes of an id that comes back, whatever the pool is asked for
later. -/
structure Withholds (reuseDelay : Nat) (p : ContextPool) : Prop where
  /-- As long as nothing frees it, it is given to no prefix. -/
  held : ∀ id released (later : List Act), p.isLive id = true →
    (∀ a ∈ later, ¬ a.Frees reuseDelay released) →
      ∀ net, ((later.foldl act (p.release id released)).allocate net).1 ≠ .ok id
  /-- The first act that frees it makes it available. -/
  freed : ∀ id released (later : List Act) a, p.isLive id = true →
    (∀ b ∈ later, ¬ b.Frees reuseDelay released) → a.Frees reuseDelay released →
      ((later.foldl act (p.release id released)).act a).IsFree id
  /-- Only an id that is on loan can come back. -/
  ignored : ∀ id now, p.isLive id = false → p.release id now = p

theorem Regulated.held_after_release (h : p.Regulated range reuseDelay)
    (hlive : p.isLive id = true) {later : List Act}
    (hlater : ∀ a ∈ later, ¬ a.Frees reuseDelay released) :
    (later.foldl ContextPool.act (p.release id released)).retiring.get? id =
      some released := by
  have hreleased : (p.release id released).retiring.get? id =
      some released := by
    rw [retiring_release, if_pos ⟨rfl, hlive⟩]
  have hregulated : (p.release id released).Regulated range reuseDelay :=
    h.act (.release id released)
  exact (hregulated.retiring_foldl_act_iff later id released).2
    (Or.inr ⟨hreleased, hlater⟩)

theorem Regulated.withholds (h : p.Regulated range reuseDelay) :
    p.Withholds reuseDelay where
  held := by
    intro id released later hlive hlater
    have hregulated := (h.act (.release id released)).foldl_act later
    exact allocate_ne_of_held hregulated.orderly.disjoint
      (h.held_after_release hlive hlater)
  freed := by
    intro id released later a hlive hlater ha
    have hregulated := (h.act (.release id released)).foldl_act later
    exact hregulated.isFree_act (h.held_after_release hlive hlater) ha
  ignored := by
    intro id now hidle
    rw [release, hidle]
    rfl

/-- What a pool guarantees after some acts on a pool of the given range and
delay. -/
structure LendsSafely (range : ContextRange) (reuseDelay : Nat)
    (acts : List Act) (p : ContextPool) : Prop where
  one_id : ∀ i j net, p.live.get? i = some net →
    p.live.get? j = some net → i = j
  disjoint : ∀ id, ¬ (p.isLive id = true ∧ p.isRetiring id = true)
  in_range : ∀ id, p.isLive id = true ∨ p.isRetiring id = true →
    range.low.value ≤ id.value ∧ id.value ≤ range.high.value
  free_iff : ∀ id, p.IsFree id ↔
    (range.low.value ≤ id.value ∧ id.value ≤ range.high.value) ∧
    p.isLive id = false ∧ p.isRetiring id = false
  allots : p.Allots
  withholds : p.Withholds reuseDelay
  /-- An id is on loan if it was lent and has not come back since. -/
  live_iff : ∀ id net, p.live.get? id = some net ↔
    Since (Lends id net) (Act.Ends id) (make range reuseDelay) acts
  /-- An id is held if it came back and nothing has freed it since. -/
  retiring_iff : ∀ id released, p.retiring.get? id = some released ↔
    Since (TakesBack id released) (Act.Frees reuseDelay released)
      (make range reuseDelay) acts

/-- Whatever a fresh pool is asked for, and however the ticks run that
it is told, it lends every id to one prefix at a time and none before
its delay has passed. -/
theorem lendsSafely_of_acts (range : ContextRange) (reuseDelay : Nat)
    (acts : List Act) :
    (acts.foldl act (make range reuseDelay)).LendsSafely range
      reuseDelay acts := by
  have hfresh := regulated_make range reuseDelay
  have h := hfresh.foldl_act acts
  refine ⟨h.orderly.once, ?_, fun _ => h.mem_range, ?_, h.orderly.allots,
    h.withholds, ?_, ?_⟩
  · rintro id ⟨hlive, hheld⟩
    rw [h.orderly.disjoint id hlive] at hheld
    cases hheld
  · intro id
    rw [IsFree, h.range, ContextRange.mem_ids_iff, isLive, isRetiring,
      Table.contains_eq_false_iff, Table.contains_eq_false_iff]
  · intro id net
    rw [hfresh.live_foldl_act_iff]
    simp [make]
  · intro id released
    rw [hfresh.retiring_foldl_act_iff]
    simp [make]

-- The id comes back at tick 10, so neither tick 12 nor an earlier one frees it.
example :
    let p :=
      [Act.allocate default, .release ⟨1⟩ 10, .expire 12, .expire 3].foldl act
      (make ⟨⟨1⟩, ⟨1⟩⟩ 5)
    (p.allocate default).1 = .error .exhaustedContexts ∧
      ((p.act (.expire 15)).allocate default).1 = .ok ⟨1⟩ := by
  decide

end OnMesh.ContextPool
