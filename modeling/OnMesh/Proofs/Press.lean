import OnMesh.Press
import OnMesh.Proofs.Replica

/-!
# Turns of the press

Publishing and withdrawing either leave the replica as it is, and then an answer
is the version held, or they go on to the next version; only a node that may
publish gets that far.
-/

namespace OnMesh.Press

/-- What using the press can come to, as far as the replica is concerned. -/
structure Turned (p : Press) (answer : Except Fault Version) (p' : Press) :
    Prop where
  cases : p'.replica = p.replica ∧
    (∀ v, answer = .ok v → v = p.replica.version) ∨
    ∃ edited, p'.replica = p.replica.advance edited ∧ p.role.canPublish = true ∧
      p.replica.authority = true ∧ answer = .ok p.replica.version.next

theorem turned_of_edited {p p' : Press} {e : Edit}
    {answer : Except Fault Version} (hrole : p.role.canPublish = true)
    (h : Replica.Edited p.replica e answer p'.replica) :
    Turned p answer p' := by
  refine ⟨?_⟩
  rcases h.eq_or_advance with hsame | ⟨edited, hreplica, hauth, hanswer⟩
  · exact Or.inl hsame
  · exact Or.inr ⟨edited, hreplica, hrole, hauth, hanswer⟩

theorem publish_of_not_canPublish {p : Press} (h : p.role.canPublish = false)
    (net : Prefix) (flags : Flags) :
    p.publish net flags = (.error (.notAuthority p.node), p) := by
  rw [publish, h]
  rfl

theorem publish_of_exhausted {p : Press} (h : p.role.canPublish = true)
    {net : Prefix} {fault : Fault} {pool : ContextPool} (flags : Flags)
    (halloc : p.pool.allocate net = (.error fault, pool)) :
    p.publish net flags = (.error fault, { p with pool }) := by
  simp only [publish, h, halloc]
  rfl

theorem publish_of_allocated {p : Press} (h : p.role.canPublish = true)
    {net : Prefix} {context : ContextId} {pool : ContextPool} (flags : Flags)
    (halloc : p.pool.allocate net = (.ok context, pool)) :
    p.publish net flags = ((p.replica.edit (.publish net flags context)).1,
      { p with replica := (p.replica.edit (.publish net flags context)).2,
               pool }) := by
  simp only [publish, h, halloc]
  rfl

theorem withdraw_of_canPublish {p : Press} (h : p.role.canPublish = true)
    (net : Prefix) :
    p.withdraw net = ((p.replica.edit (.withdraw net)).1,
      { p with replica := (p.replica.edit (.withdraw net)).2 }) := by
  simp only [withdraw, h]
  rfl

theorem turned_publish (p : Press) (net : Prefix) (flags : Flags) :
    Turned p (p.publish net flags).1 (p.publish net flags).2 := by
  cases hrole : p.role.canPublish with
  | false =>
      rw [publish_of_not_canPublish hrole]
      exact ⟨Or.inl ⟨rfl, by simp⟩⟩
  | true =>
      rcases halloc : p.pool.allocate net with ⟨fault | context, pool⟩
      · rw [publish_of_exhausted hrole flags halloc]
        exact ⟨Or.inl ⟨rfl, by simp⟩⟩
      · rw [publish_of_allocated hrole flags halloc]
        exact turned_of_edited hrole (Replica.edited_edit _ _)

theorem turned_withdraw (p : Press) (net : Prefix) :
    Turned p (p.withdraw net).1 (p.withdraw net).2 := by
  cases hrole : p.role.canPublish with
  | false =>
      rw [withdraw, hrole]
      exact ⟨Or.inl ⟨rfl, by simp⟩⟩
  | true =>
      rw [withdraw_of_canPublish hrole]
      exact turned_of_edited hrole (Replica.edited_edit _ _)

end OnMesh.Press
