import OnMesh.Proofs.Bindings
import OnMesh.Proofs.Replica.Notices

/-!
# Followers of a replica

Whoever follows a replica sees its notices only, not the data.  The notices are
enough: carried out one after the other on no contexts at all, they give the
contexts that the replica holds.  A pool that observes them, with the time being
told to it now and then, lends just the ids that the data bind.
-/

namespace OnMesh

namespace ContextPool

/-- What a pool that follows a replica is told. -/
inductive Tiding where
  | notice (n : Notice)
  | tick (now : Nat)

def Tiding.notice? : Tiding → Option Notice
  | .notice n => some n
  | .tick _ => none

def heed (p : ContextPool) : Tiding → ContextPool
  | .notice n => p.observe n
  | .tick now => (p.expire now).2

/-- What is on loan depends on the notices and not on the time. -/
theorem live_foldl_heed (p : ContextPool) (tidings : List Tiding) :
    (tidings.foldl heed p).live =
      (tidings.filterMap Tiding.notice?).foldl
        (fun live n => n.replay live) p.live := by
  induction tidings generalizing p with
  | nil => rfl
  | cons t tidings ih =>
      cases t with
      | notice n =>
          exact (ih (p.observe n)).trans
            (congrArg (List.foldl _ · _) (p.live_observe n))
      | tick now => exact ih (p.expire now).2

theorem IsDisjoint.foldl_heed {p : ContextPool} (h : p.IsDisjoint)
    (tidings : List Tiding) : (tidings.foldl heed p).IsDisjoint := by
  induction tidings generalizing p with
  | nil => exact h
  | cons t tidings ih =>
      cases t with
      | notice n => exact ih (h.observe n)
      | tick now => exact ih (h.expire now)

end ContextPool

/-- Ids are lent as notices say if the prefixes of the contexts are
all that is looked at. -/
theorem Notice.map_net_foldl_carry (notices : List Notice)
    (contexts : Table ContextId Binding) :
    (notices.foldl
      (fun contexts n => n.carry contexts) contexts).map Binding.net =
      notices.foldl (fun live n => n.replay live)
        (contexts.map Binding.net) := by
  induction notices generalizing contexts with
  | nil => rfl
  | cons n notices ih =>
      rw [List.foldl_cons, ih, map_net_carry, List.foldl_cons]

namespace Chronicle

variable {c c' : Chronicle} {op : Replica.Op}

/-- The contexts that the notices add up to. -/
def retold (c : Chronicle) : Table ContextId Binding :=
  c.notices.foldl (fun contexts n => n.carry contexts) Table.empty

theorem retold_of_concat {n : Notice} (h : c'.notices = c.notices ++ [n]) :
    c'.retold = n.carry c.retold := by
  rw [retold, h, List.foldl_append]
  rfl

/-- What an operation changes in the contexts, it tells. -/
theorem Told.retold (h : c.Told op c')
    (hretold : c.retold = c.replica.data.contexts) :
    c'.retold = c'.replica.data.contexts := by
  cases h with
  | unchanged _ hdata hnotices =>
      rw [Chronicle.retold, hnotices, hdata]
      exact hretold
  | changed _ hdata hnotices =>
      rw [retold_of_concat hnotices, hdata, hretold, Delta.contexts_apply]
  | forgotten _ _ hdata hnotices =>
      rw [retold_of_concat hnotices, hdata, hretold, ← Delta.contexts_apply,
        Delta.apply_between]
  | renumbered _ hempty hdata hnotices =>
      -- There were no contexts to forget.
      rw [Chronicle.retold, hnotices, hdata]
      exact hretold.trans (NetworkData.isEmpty_iff.1 hempty).2

theorem retold_run (h : c.retold = c.replica.data.contexts)
    (ops : List Replica.Op) :
    (c.run ops).retold = (c.run ops).replica.data.contexts := by
  induction ops generalizing c with
  | nil => exact h
  | cons op ops ih => exact ih ((c.told_perform op).retold h)

/-- Whoever hears all notices in order knows the contexts, and a pool that does
lends the ids that are bound and holds none of them back. -/
structure Followed (c : Chronicle) : Prop where
  contexts : c.retold = c.replica.data.contexts
  pool : ∀ range reuseDelay (tidings : List ContextPool.Tiding),
    tidings.filterMap ContextPool.Tiding.notice? = c.notices →
      (tidings.foldl ContextPool.heed
        (ContextPool.make range reuseDelay)).live =
          c.replica.data.bindings ∧
        (tidings.foldl ContextPool.heed
          (ContextPool.make range reuseDelay)).IsDisjoint

/-- Whatever is done to a new replica, those who follow it keep up. -/
theorem followed_run (owner : NodeId) (authority : Bool)
    (ops : List Replica.Op) : ((start owner authority).run ops).Followed where
  contexts := retold_run (c := start owner authority) rfl ops
  pool := by
    intro range reuseDelay tidings hall
    refine ⟨?_,
      (ContextPool.isDisjoint_make range reuseDelay).foldl_heed tidings⟩
    rw [ContextPool.live_foldl_heed, hall, NetworkData.bindings,
      ← retold_run (c := start owner authority) rfl ops, retold,
      Notice.map_net_foldl_carry]
    rfl

-- A delta that takes an id back and binds it twice: the last binding counts.
example :
    ((start ⟨1⟩ false).perform (.applyDelta ⟨⟨0⟩, ⟨3⟩, [], [],
      [⟨⟨1⟩, default, true⟩, ⟨⟨1⟩, default, false⟩], [⟨1⟩]⟩)).retold.get? ⟨1⟩ =
      some ⟨default, false⟩ := by
  decide

end Chronicle

end OnMesh
