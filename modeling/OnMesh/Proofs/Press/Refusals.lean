import OnMesh.Proofs.Bindings

/-!
# Refusals of the press

The press refuses a call for want of a role that may publish, of a free context
id, or of the right to edit its replica.  The last check comes after an id was
lent.  So if the role may publish and the replica may not be edited, then a
prefix that has no id is given one, and nothing ever takes it back.  Every other
refusal leaves the replica and the pool as they were.
-/

namespace OnMesh.Press

variable {p : Press} {net : Prefix} {flags : Flags} {fault : Fault}
  {id : ContextId}

/-- The press after it has lent an id for nothing. -/
def lending (p : Press) (id : ContextId) (net : Prefix) : Press :=
  { p with pool := { p.pool with live := p.pool.live.insert id net } }

/-- How publishing a prefix can be refused: the fault, and the press
afterwards. -/
inductive PublishRefused (p : Press) (net : Prefix) : Fault → Press → Prop
  | unauthorized : p.role.canPublish = false →
      PublishRefused p net (.notAuthority p.node) p
  | exhausted : p.role.canPublish = true →
      (∀ id, p.pool.live.get? id ≠ some net) →
      (∀ id, ¬ p.pool.IsFree id) → PublishRefused p net .exhaustedContexts p
  /-- The replica may not be edited, and the prefix has an id. -/
  | barred {id : ContextId} : p.role.canPublish = true →
      p.replica.authority = false →
      p.pool.live.get? id = some net →
      PublishRefused p net (.notAuthority p.replica.owner) p
  /-- The replica may not be edited, but the prefix has been given an id. -/
  | overreached {id : ContextId} : p.role.canPublish = true →
      p.replica.authority = false →
      (∀ j, p.pool.live.get? j ≠ some net) → p.pool.IsFree id →
      PublishRefused p net (.notAuthority p.replica.owner) (p.lending id net)

/-- How withdrawing a prefix can be refused. -/
inductive WithdrawRefused (p : Press) (net : Prefix) : Fault → Prop
  | unauthorized : p.role.canPublish = false →
      WithdrawRefused p net (.notAuthority p.node)
  | barred : p.role.canPublish = true → p.replica.authority = false →
      WithdrawRefused p net (.notAuthority p.replica.owner)
  | unknown : p.role.canPublish = true → p.replica.authority = true →
      p.replica.data.prefixes.contains net = false →
      WithdrawRefused p net (.unknownPrefix net.text)

/-- A refused publication is refused in one of the ways that are listed. -/
theorem publishRefused_of_error (h : (p.publish net flags).1 = .error fault) :
    PublishRefused p net fault (p.publish net flags).2 := by
  cases hrole : p.role.canPublish with
  | false =>
      rw [publish_of_not_canPublish hrole] at h ⊢
      cases h
      exact PublishRefused.unauthorized hrole
  | true =>
      have hallocated := p.pool.allocated_allocate net
      rcases halloc : p.pool.allocate net with ⟨fault' | context, pool⟩
      · rw [halloc] at hallocated
        rw [publish_of_exhausted hrole flags halloc] at h ⊢
        cases h
        cases hallocated with
        | exhausted hnew hnone =>
            exact PublishRefused.exhausted hrole hnew
              (ContextPool.lowestFree?_eq_none_iff.1 hnone)
      · -- Once there is an id, only a replica that may not be edited refuses.
        rw [halloc] at hallocated
        have hedited := p.replica.edited_edit (.publish net flags context)
        rw [publish_of_allocated hrole flags halloc] at h ⊢
        rw [h] at hedited
        generalize (p.replica.edit (.publish net flags context)).2 =
          after at hedited ⊢
        cases hedited with
        | forbidden _ hauth =>
            cases hallocated with
            | found hlive => exact PublishRefused.barred hrole hauth hlive
            | lent hnew hmem hfree hidle =>
                exact PublishRefused.overreached hrole hauth hnew
                  ⟨hmem, hfree, Table.contains_eq_false_iff.1 hidle⟩

theorem withdrawRefused_of_error (h : (p.withdraw net).1 = .error fault) :
    WithdrawRefused p net fault ∧ (p.withdraw net).2 = p := by
  cases hrole : p.role.canPublish with
  | false =>
      rw [withdraw, hrole] at h ⊢
      cases h
      exact ⟨WithdrawRefused.unauthorized hrole, rfl⟩
  | true =>
      have hedited := p.replica.edited_edit (.withdraw net)
      rw [withdraw_of_canPublish hrole] at h ⊢
      rw [h] at hedited
      generalize (p.replica.edit (.withdraw net)).2 = after at hedited ⊢
      cases hedited with
      | forbidden _ hauth => exact ⟨WithdrawRefused.barred hrole hauth, rfl⟩
      | unknown hauth hunknown =>
          exact ⟨WithdrawRefused.unknown hrole hauth hunknown, rfl⟩

/-! ## Replicas that may not be edited -/

/-- A press that asks for an id that it cannot use: its role may
publish, its replica may not be edited, and the prefix has no id yet
while there is one to be had. -/
def Overreaches (p : Press) (net : Prefix) : Prop :=
  p.role.canPublish = true ∧ p.replica.authority = false ∧
    (∀ id, p.pool.live.get? id ≠ some net) ∧ ∃ id, p.pool.IsFree id

theorem lending_ne (hfree : p.pool.IsFree id) (net : Prefix) :
    p.lending id net ≠ p := by
  intro heq
  have hlive : (p.lending id net).pool.live.get? id = some net :=
    (Table.get?_insert _ _ _ _).trans (if_pos rfl)
  rw [heq, hfree.2.1] at hlive
  cases hlive

/-- Only an overreach leaves something behind, and only in the pool. -/
theorem PublishRefused.traces {p' : Press} (h : PublishRefused p net fault p') :
    p'.replica = p.replica ∧ (p' = p ↔ ¬ p.Overreaches net) := by
  cases h with
  | unauthorized hrole =>
      refine ⟨rfl, fun _ hover => ?_, fun _ => rfl⟩
      rw [hover.1] at hrole
      cases hrole
  | exhausted _ _ hnone =>
      refine ⟨rfl, fun _ hover => ?_, fun _ => rfl⟩
      obtain ⟨-, -, -, id, hfree⟩ := hover
      exact hnone id hfree
  | barred _ _ hlive =>
      exact ⟨rfl, fun _ hover => hover.2.2.1 _ hlive, fun _ => rfl⟩
  | overreached hrole hauth hnew hfree =>
      exact ⟨rfl, fun heq => absurd heq (lending_ne hfree net),
        fun hnot => absurd ⟨hrole, hauth, hnew, _, hfree⟩ hnot⟩

/-- A replica that may not be edited refuses everything that is published. -/
theorem publish_error (hauth : p.replica.authority = false) (net : Prefix)
    (flags : Flags) : ∃ fault, (p.publish net flags).1 = .error fault := by
  cases hrole : p.role.canPublish with
  | false => exact ⟨_, by rw [publish_of_not_canPublish hrole]⟩
  | true =>
      rcases halloc : p.pool.allocate net with ⟨fault | context, pool⟩
      · exact ⟨fault, by rw [publish_of_exhausted hrole flags halloc]⟩
      · refine ⟨.notAuthority p.replica.owner, ?_⟩
        rw [publish_of_allocated hrole flags halloc, Replica.edit, hauth]
        rfl

theorem replica_withdraw (hauth : p.replica.authority = false) (net : Prefix) :
    (p.withdraw net).2.replica = p.replica := by
  rcases (turned_withdraw p net).cases with ⟨hsame, -⟩ | ⟨_, -, -, hnot, -⟩
  · exact hsame
  · rw [hauth] at hnot
    cases hnot

theorem pool_withdraw (p : Press) (net : Prefix) :
    (p.withdraw net).2.pool = p.pool := by
  cases hrole : p.role.canPublish with
  | false =>
      rw [withdraw, hrole]
      rfl
  | true => rw [withdraw_of_canPublish hrole]

/-- As long as its replica may not be edited, a press keeps every
loan, whatever is done. -/
theorem act_keeps_loan (hauth : p.replica.authority = false)
    (hnotices : p.replica.notices = []) (hlive : p.pool.live.get? id = some net)
    (a : Act) :
    (p.act a).replica = p.replica ∧ (p.act a).pool.live.get? id = some net := by
  cases a with
  | publish other flags =>
      obtain ⟨fault, herror⟩ := publish_error hauth other flags
      have hrefused := publishRefused_of_error herror
      show (p.publish other flags).2.replica = _ ∧
        (p.publish other flags).2.pool.live.get? id = _
      refine ⟨hrefused.traces.1, ?_⟩
      generalize (p.publish other flags).2 = p' at hrefused ⊢
      cases hrefused with
      | @overreached j _ _ _ hfree =>
          have hne : id ≠ j := by
            rintro rfl
            rw [hfree.2.1] at hlive
            cases hlive
          exact (Table.get?_insert _ _ _ _).trans ((if_neg hne).trans hlive)
      | _ => exact hlive
  | withdraw other =>
      refine ⟨replica_withdraw hauth other, ?_⟩
      show (p.withdraw other).2.pool.live.get? id = some net
      rw [pool_withdraw, hlive]
  | expire now => exact ⟨rfl, hlive⟩
  | drain =>
      have hnone : p.drain = p := by
        obtain ⟨node, role, replica, pool⟩ := p
        obtain ⟨owner, authority, data, lastDelta, notices⟩ := replica
        cases hnotices
        rfl
      show p.drain.replica = p.replica ∧ p.drain.pool.live.get? id = some net
      rw [hnone]
      exact ⟨rfl, hlive⟩

theorem foldl_act_keeps_loan (hauth : p.replica.authority = false)
    (hnotices : p.replica.notices = []) (hlive : p.pool.live.get? id = some net)
    (acts : List Act) : (acts.foldl act p).pool.live.get? id = some net := by
  induction acts generalizing p with
  | nil => exact hlive
  | cons a acts ih =>
      obtain ⟨hreplica, hkept⟩ := act_keeps_loan hauth hnotices hlive a
      exact ih (by rw [hreplica]; exact hauth)
        (by rw [hreplica]; exact hnotices) hkept

/-! ## What refusals leave -/

/-- Refused calls leave no trace, with one exception: a press that
overreaches loses an id. -/
structure RefusesCleanly (p : Press) : Prop where
  published : ∀ net flags fault p', p.publish net flags = (.error fault, p') →
    PublishRefused p net fault p' ∧ p'.replica = p.replica ∧
    (p' = p ↔ ¬ p.Overreaches net)
  withdrawn : ∀ net fault p', p.withdraw net = (.error fault, p') →
    WithdrawRefused p net fault ∧ p' = p
  /-- The call that overreaches is refused, and the id that it was
  lent stays on loan. -/
  overreached : ∀ net flags, p.Overreaches net → ∃ id, p.pool.IsFree id ∧
    p.publish net flags = (.error (.notAuthority p.replica.owner),
      p.lending id net) ∧
    (p.replica.notices = [] → ∀ acts : List Act,
      (acts.foldl act (p.lending id net)).pool.live.get? id = some net)

theorem publish_of_overreaches (h : p.Overreaches net) (flags : Flags) :
    ∃ id, p.pool.IsFree id ∧
      p.publish net flags =
        (.error (.notAuthority p.replica.owner), p.lending id net) := by
  obtain ⟨hrole, hauth, hnew, -⟩ := id h
  obtain ⟨fault, herror⟩ := publish_error hauth net flags
  have hrefused := publishRefused_of_error herror
  have htraces := hrefused.traces.2
  rcases hpublish : p.publish net flags with ⟨answer, p'⟩
  rw [hpublish] at herror hrefused htraces
  dsimp only at herror hrefused htraces
  cases herror
  have hne : p' ≠ p := fun heq => htraces.1 heq h
  cases hrefused with
  | overreached _ _ _ hfree => exact ⟨_, hfree, rfl⟩
  | _ => exact absurd rfl hne

/-- Whatever press it is, a refused call leaves the replica and the pool as they
were, unless an id was lent to a prefix that the replica may not publish. -/
theorem refusesCleanly (p : Press) : p.RefusesCleanly where
  published := by
    intro net flags fault p' h
    have hrefused := publishRefused_of_error (congrArg Prod.fst h)
    rw [h] at hrefused
    exact ⟨hrefused, hrefused.traces⟩
  withdrawn := by
    intro net fault p' h
    obtain ⟨hrefused, hsame⟩ := withdrawRefused_of_error (congrArg Prod.fst h)
    rw [h] at hsame
    exact ⟨hrefused, hsame⟩
  overreached := by
    intro net flags h
    obtain ⟨id, hfree, hpublish⟩ := publish_of_overreaches h flags
    refine ⟨id, hfree, hpublish, fun hnotices acts => ?_⟩
    have hlive : (p.lending id net).pool.live.get? id = some net :=
      (Table.get?_insert _ _ _ _).trans (if_pos rfl)
    exact foldl_act_keeps_loan (p := p.lending id net) h.2.1 hnotices hlive acts

/-- A role that may publish with a replica that may not be edited: the
refused call costs an id. -/
theorem not_clean_of_barred_replica :
    let p : Press :=
      ⟨⟨1⟩, .authority, Replica.make ⟨1⟩ false,
        ContextPool.make ContextRange.usual ContextPool.usualDelay⟩
    (p.publish default Flags.none).1 = .error (.notAuthority ⟨1⟩) ∧
      p.pool.isLive ⟨1⟩ = false ∧
      (p.publish default Flags.none).2.pool.isLive ⟨1⟩ = true := by
  decide

end OnMesh.Press
