import OnMesh.Proofs.Mesh.Operations
import OnMesh.Proofs.Node.Identity
import OnMesh.Proofs.Press.Refusals

/-!
# Refused requests leave no trace

A request to a mesh is refused because a station has no node, because a new node
would not be acceptable, or because a node cannot make the edit it is asked for.
`Refused` lists these cases, each with its fault and the mesh afterwards.  All
checks come before the first change but one: an edit lets the pool of its node
take notice of the time first, which frees ids whose delay has passed.
-/

namespace OnMesh

namespace ContextPool

/-- The second pool differs from the first one at most by what time brings: its
clock, and held ids that are free because their delay has passed. -/
structure Waited (p p' : ContextPool) (now : Nat) : Prop where
  range : p'.range = p.range
  reuseDelay : p'.reuseDelay = p.reuseDelay
  live : p'.live = p.live
  clock : p'.now = p.now ∨ p'.now = now
  held : ∀ id, p'.retiring.get? id = p.retiring.get? id ∨
    ∃ released, p.retiring.get? id = some released ∧
    p.reuseDelay ≤ now - released ∧
      p'.retiring.get? id = none

theorem waited_expire (p : ContextPool) (now : Nat) :
    p.Waited (p.expire now).2 now where
  range := rfl
  reuseDelay := rfl
  live := rfl
  clock := Or.inr rfl
  held := by
    intro id
    rw [retiring_expire]
    cases hheld : p.retiring.get? id with
    | none => exact Or.inl rfl
    | some released =>
        by_cases hdue : p.reuseDelay ≤ now - released
        · exact Or.inr ⟨released, rfl, hdue, by simp [isDue, hdue]⟩
        · exact Or.inl (by simp [isDue, hdue])

end ContextPool

namespace Press

variable {p : Press} {fault : Fault}

/-- Publishing is refused to all but the authority, and where no
context id is left. -/
theorem publish_refused (hauth : p.replica.authority = p.role.canPublish)
    {net : Prefix} {flags : Flags}
    (h : (p.publish net flags).1 = .error fault) :
    (p.role ≠ .authority ∧ fault = .notAuthority p.node ∨
      p.role = .authority ∧ (∀ id, p.pool.live.get? id ≠ some net) ∧
        (∀ id, ¬ p.pool.IsFree id) ∧ fault = .exhaustedContexts) ∧
      (p.publish net flags).2 = p := by
  have hrefused := publishRefused_of_error h
  generalize (p.publish net flags).2 = p' at hrefused ⊢
  cases hrefused with
  | unauthorized hrole =>
      exact ⟨Or.inl ⟨Role.canPublish_eq_false_iff.1 hrole, rfl⟩, rfl⟩
  | exhausted hrole hnew hnone =>
      exact ⟨Or.inr ⟨Role.canPublish_eq_true_iff.1 hrole, hnew,
        hnone, rfl⟩, rfl⟩
  -- The replica of a role that may publish may be edited.
  | barred hrole hforbidden _ =>
      rw [hauth, hrole] at hforbidden; cases hforbidden
  | overreached hrole hforbidden _ _ =>
      rw [hauth, hrole] at hforbidden; cases hforbidden

/-- Withdrawing is refused to all but the authority, and for a prefix
that is not published. -/
theorem withdraw_refused (hauth : p.replica.authority = p.role.canPublish)
    {net : Prefix} (h : (p.withdraw net).1 = .error fault) :
    (p.role ≠ .authority ∧ fault = .notAuthority p.node ∨
      p.role = .authority ∧ p.replica.data.prefixes.contains net = false ∧
        fault = .unknownPrefix net.text) ∧
      (p.withdraw net).2 = p := by
  obtain ⟨hrefused, hsame⟩ := withdrawRefused_of_error h
  refine ⟨?_, hsame⟩
  cases hrefused with
  | unauthorized hrole =>
      exact Or.inl ⟨Role.canPublish_eq_false_iff.1 hrole, rfl⟩
  | barred hrole hforbidden => rw [hauth, hrole] at hforbidden; cases hforbidden
  | unknown hrole _ hunknown =>
      exact Or.inr ⟨Role.canPublish_eq_true_iff.1 hrole, hunknown, rfl⟩

end Press

namespace Node

variable {n : Node} {fault : Fault}

/-- A refusal of the press is a refusal of the edit, and leaves
what the press leaves. -/
theorem usePress_refused {act : Press → Except Fault Version × Press}
    (h : (n.usePress act).1 = .error fault) :
    (act (n.expirePool n.now).press).1 = .error fault ∧
      ((act (n.expirePool n.now).press).2 = (n.expirePool n.now).press →
        (n.usePress act).2 = n.expirePool n.now) := by
  rcases hact : act (n.expirePool n.now).press with ⟨fault' | version, p⟩
  · simp only [usePress, hact] at h ⊢
    refine ⟨h, fun hsame => ?_⟩
    rw [hsame]
    rfl
  · simp only [usePress, hact] at h
    cases h

theorem addPrefix_refused (hformed : n.Formed) {net : Prefix} {flags : Flags}
    (h : (n.addPrefix net flags).1 = .error fault) :
    (n.role ≠ .authority ∧ fault = .notAuthority n.id ∨
      n.role = .authority ∧ (∀ id, n.pool.live.get? id ≠ some net) ∧
        (∀ id, ¬ (n.expirePool n.now).pool.IsFree id) ∧
        fault = .exhaustedContexts) ∧
      (n.addPrefix net flags).2 = n.expirePool n.now := by
  obtain ⟨hpress, hafter⟩ := usePress_refused h
  obtain ⟨hcause, hsame⟩ :=
    Press.publish_refused (p := (n.expirePool n.now).press)
    hformed.authority hpress
  exact ⟨hcause, hafter hsame⟩

theorem removePrefix_refused (hformed : n.Formed) {net : Prefix}
    (h : (n.removePrefix net).1 = .error fault) :
    (n.role ≠ .authority ∧ fault = .notAuthority n.id ∨
      n.role = .authority ∧ n.data.prefixes.contains net = false ∧
        fault = .unknownPrefix net.text) ∧
      (n.removePrefix net).2 = n.expirePool n.now := by
  obtain ⟨hpress, hafter⟩ := usePress_refused h
  obtain ⟨hcause, hsame⟩ :=
    Press.withdraw_refused (p := (n.expirePool n.now).press)
    hformed.authority hpress
  exact ⟨hcause, hafter hsame⟩

end Node

namespace Mesh

variable {m : Mesh} {s a b : Station} {fault : Fault}

/-! ## Requests -/

/-- What can be asked of a mesh and refused. -/
inductive Request where
  | addNode (s : Station) (role : Role)
  | start (s : Station)
  | detach (s : Station)
  | link (a b : Station)
  | linkWithLatency (a b : Station) (ticks : Nat)
  | setAdmissible (a b : Station) (admissible : Bool)
  | setLinkAdmissible (a b : Station) (admissible : Bool)
  | addPrefix (s : Station) (net : Prefix) (flags : Flags)
  | removePrefix (s : Station) (net : Prefix)

/-- The stations that have to have a node. -/
def Request.stations : Request → List Station
  | .addNode .. => []
  | .start s | .detach s | .addPrefix s .. | .removePrefix s _ => [s]
  | .link a b | .linkWithLatency a b _
  | .setAdmissible a b _ | .setLinkAdmissible a b _ => [a, b]

/-- The station whose node is asked to edit the data. -/
def Request.edits? : Request → Option Station
  | .addPrefix s .. | .removePrefix s _ => some s
  | _ => none

def outcome {α : Type} (answered : Except Fault α × Mesh) :
    Option Fault × Mesh :=
  match answered with
  | (.error fault, m) => (some fault, m)
  | (.ok _, m) => (none, m)

/-- The fault with which a request is refused, if it is, and the mesh
afterwards. -/
def ask (m : Mesh) : Request → Option Fault × Mesh
  | .addNode s role => outcome (m.addNode s role)
  | .start s => outcome (m.start s)
  | .detach s => outcome (m.detach s)
  | .link a b => outcome (m.link a b)
  | .linkWithLatency a b ticks => outcome (m.linkWithLatency a b ticks)
  | .setAdmissible a b admissible => outcome (m.setAdmissible a b admissible)
  | .setLinkAdmissible a b admissible =>
    outcome (m.setLinkAdmissible a b admissible)
  | .addPrefix s net flags => outcome (m.addPrefix s net flags)
  | .removePrefix s net => outcome (m.removePrefix s net)

/-- What a refused answer comes with holds of the outcome. -/
theorem outcome_of_refused {α : Type} {P : Mesh → Prop}
    {answered : Except Fault α × Mesh} (h : (outcome answered).1 = some fault)
    (hrefused : answered.1 = .error fault → P answered.2) :
    P (outcome answered).2 := by
  obtain ⟨fault' | answer, m⟩ := answered
  · cases h
    exact hrefused rfl
  · cases h

/-! ## Stations without a node -/

/-- One of the stations has no node, and nothing has been done. -/
def Misses (m : Mesh) (stations : List Station) (fault : Fault) (m' : Mesh) :
    Prop :=
  ∃ s ∈ stations, m.nodes.get? s = none ∧ fault = notFound s ∧ m' = m

theorem onNode_refused {α : Type} {f : Node → α × Node}
    (h : (m.onNode s f).1 = .error fault) :
    m.Misses [s] fault (m.onNode s f).2 := by
  rw [onNode, node] at h ⊢
  cases hs : m.nodes.get? s with
  | none =>
      rw [hs] at h
      cases h
      exact ⟨s, List.mem_singleton_self s, hs, rfl, rfl⟩
  | some n =>
      rw [hs] at h
      cases h

theorem setAdmissible_refused {admissible : Bool}
    (h : (m.setAdmissible a b admissible).1 = .error fault) :
    m.Misses [a, b] fault (m.setAdmissible a b admissible).2 := by
  rw [setAdmissible, hardwareId, node] at h ⊢
  cases hb : m.nodes.get? b with
  | none =>
      rw [hb] at h
      cases h
      exact ⟨b, by simp, hb, rfl, rfl⟩
  | some y =>
      rw [hb] at h
      obtain ⟨s, hs, hmiss⟩ := onNode_refused h
      exact ⟨s, List.mem_cons.2 (Or.inl (List.mem_singleton.1 hs)), hmiss⟩

theorem exists_of_setAdmissible {admissible : Bool} {transition : Transition}
    (h : (m.setAdmissible a b admissible).1 = .ok transition) :
    ∃ x y, m.nodes.get? a = some x ∧ m.nodes.get? b = some y := by
  rw [setAdmissible, hardwareId, node] at h
  cases hb : m.nodes.get? b with
  | none => rw [hb] at h; cases h
  | some y =>
      rw [hb] at h
      simp only [Except.map] at h
      rw [onNode, node] at h
      cases ha : m.nodes.get? a with
      | none => rw [ha] at h; cases h
      | some x => exact ⟨x, y, rfl, rfl⟩

/-- If the first direction of a link can be changed, so can the second. -/
theorem setLinkAdmissible_refused {admissible : Bool}
    (h : (m.setLinkAdmissible a b admissible).1 = .error fault) :
    m.Misses [a, b] fault (m.setLinkAdmissible a b admissible).2 := by
  rw [setLinkAdmissible] at h ⊢
  rcases hforth : m.setAdmissible a b admissible with ⟨fault' | transition, m'⟩
  · rw [hforth] at h
    cases h
    have hmiss := setAdmissible_refused (congrArg Prod.fst hforth)
    rw [hforth] at hmiss
    exact hmiss
  · obtain ⟨x, y, hx, hy⟩ := exists_of_setAdmissible (congrArg Prod.fst hforth)
    have hm' : m' = m.call a (.setAdmissible y.id admissible) := by
      rw [← setAdmissible_of_some hy, hforth]
    have hx' : ∃ x', m'.nodes.get? a = some x' := by
      rw [hm', get?_call, hx]
      exact ⟨_, rfl⟩
    have hy' : ∃ y', m'.nodes.get? b = some y' := by
      rw [hm', get?_call, hy]
      exact ⟨_, rfl⟩
    obtain ⟨x', hx'⟩ := hx'
    obtain ⟨y', hy'⟩ := hy'
    obtain ⟨back, hback⟩ := setAdmissible_eq hy' hx' admissible
    rw [hforth] at h
    simp only [hback] at h
    cases h

theorem linkWithLatency_refused {ticks : Nat}
    (h : (m.linkWithLatency a b ticks).1 = .error fault) :
    m.Misses [a, b] fault (m.linkWithLatency a b ticks).2 := by
  rw [linkWithLatency, hardwareId, hardwareId, node, node] at h ⊢
  cases ha : m.nodes.get? a with
  | none =>
      rw [ha] at h
      cases h
      exact ⟨a, by simp, ha, rfl, rfl⟩
  | some x =>
      rw [ha] at h
      cases hb : m.nodes.get? b with
      | none =>
          rw [hb] at h
          cases h
          exact ⟨b, by simp, hb, rfl, rfl⟩
      | some y =>
          rw [hb] at h
          cases h

theorem tryOnNode_refused {α : Type} {f : Node → Except Fault α × Node}
    (h : (m.tryOnNode s f).1 = .error fault) :
    m.Misses [s] fault (m.tryOnNode s f).2 ∨
      ∃ n, m.nodes.get? s = some n ∧ (f n).1 = .error fault ∧
        (m.tryOnNode s f).2 = m.setNode s (f n).2 := by
  cases hs : m.nodes.get? s with
  | none =>
      left
      rw [tryOnNode, onNode, node, hs] at h ⊢
      cases h
      exact ⟨s, List.mem_singleton_self s, hs, rfl, rfl⟩
  | some n =>
      right
      refine ⟨n, rfl, (tryOnNode_fst hs).symm.trans h, ?_⟩
      rw [tryOnNode, onNode, node, hs]

/-! ## The ways to be refused -/

/-- The ways in which a request is refused: the fault, and the mesh
afterwards. -/
inductive Refused (m : Mesh) : Request → Fault → Mesh → Prop
  | noNode {r : Request} {s : Station} : s ∈ r.stations →
      m.nodes.get? s = none →
      Refused m r (notFound s) m
  | unacceptable {s : Station} {role : Role} {fault : Fault} :
      m.nodes.get? s = none →
      m.settings.node.validate = .error fault →
      Refused m (.addNode s role) fault m
  | noHardwareId {s : Station} {role : Role} : m.nodes.get? s = none →
      m.drawFresh? mostDraws m.stream = none →
      Refused m (.addNode s role) .noHardwareId m
  | notAuthority {r : Request} {s : Station} {n : Node} : r.edits? = some s →
      m.nodes.get? s = some n → n.role ≠ .authority →
      Refused m r (.notAuthority n.id) (m.setNode s (n.expirePool n.now))
  | exhausted {s : Station} {net : Prefix} {flags : Flags} {n : Node} :
      m.nodes.get? s = some n → n.role = .authority →
      (∀ id, n.pool.live.get? id ≠ some net) →
      (∀ id, ¬ (n.expirePool n.now).pool.IsFree id) →
      Refused m (.addPrefix s net flags) .exhaustedContexts
        (m.setNode s (n.expirePool n.now))
  | unknownPrefix {s : Station} {net : Prefix} {n : Node} :
      m.nodes.get? s = some n →
      n.role = .authority → n.data.prefixes.contains net = false →
      Refused m (.removePrefix s net) (.unknownPrefix net.text)
        (m.setNode s (n.expirePool n.now))

theorem Misses.refused {m' : Mesh} {r : Request}
    (h : m.Misses r.stations fault m') : Refused m r fault m' := by
  obtain ⟨s, hs, hnone, rfl, rfl⟩ := h
  exact .noNode hs hnone

/-- No node is added if the settings are refused or no address can be drawn. -/
theorem addNode_refused {role : Role}
    (h : (m.addNode s role).1 = .error fault) :
    Refused m (.addNode s role) fault (m.addNode s role).2 := by
  rw [addNode] at h ⊢
  cases hs : m.nodes.get? s with
  | some n => rw [hs] at h; cases h
  | none =>
      rw [hs] at h
      cases hvalid : m.settings.node.validate with
      | error fault' =>
          simp only [hvalid] at h ⊢
          cases h
          exact .unacceptable hs hvalid
      | ok _ =>
          cases hdraw : m.drawFresh? mostDraws m.stream with
          | none =>
              simp only [hvalid, hdraw] at h ⊢
              cases h
              exact .noHardwareId hs hdraw
          | some drawn =>
              simp only [hvalid, hdraw] at h
              cases h

/-- A request that is refused is refused in one of these ways. -/
theorem refused_ask (hformed : m.Holds Node.Formed) {r : Request}
    (h : (m.ask r).1 = some fault) : Refused m r fault (m.ask r).2 := by
  cases r with
  | addNode s role =>
      exact outcome_of_refused (P := Refused m _ fault) h addNode_refused
  | start s =>
      exact outcome_of_refused (P := Refused m _ fault) h fun h =>
        (onNode_refused h).refused
  | detach s =>
      exact outcome_of_refused (P := Refused m _ fault) h fun h =>
        (onNode_refused h).refused
  | link a b =>
      exact outcome_of_refused (P := Refused m _ fault) h fun h =>
        Misses.refused (linkWithLatency_refused h)
  | linkWithLatency a b ticks =>
      exact outcome_of_refused (P := Refused m _ fault) h fun h =>
        Misses.refused (linkWithLatency_refused h)
  | setAdmissible a b admissible =>
      exact outcome_of_refused (P := Refused m _ fault) h fun h =>
        Misses.refused (setAdmissible_refused h)
  | setLinkAdmissible a b admissible =>
      exact outcome_of_refused (P := Refused m _ fault) h fun h =>
        Misses.refused (setLinkAdmissible_refused h)
  | addPrefix s net flags =>
      refine outcome_of_refused (P := Refused m _ fault) h fun h => ?_
      rcases tryOnNode_refused h with hmiss | ⟨n, hn, hrefused, hset⟩
      · exact hmiss.refused
      · obtain ⟨hcause, hsame⟩ :=
          Node.addPrefix_refused (hformed s n hn) hrefused
        rw [addPrefix, hset, hsame]
        rcases hcause with ⟨hrole, rfl⟩ | ⟨hrole, hnew, hnone, rfl⟩
        · exact .notAuthority rfl hn hrole
        · exact .exhausted hn hrole hnew hnone
  | removePrefix s net =>
      refine outcome_of_refused (P := Refused m _ fault) h fun h => ?_
      rcases tryOnNode_refused h with hmiss | ⟨n, hn, hrefused, hset⟩
      · exact hmiss.refused
      · obtain ⟨hcause, hsame⟩ :=
          Node.removePrefix_refused (hformed s n hn) hrefused
        rw [removePrefix, hset, hsame]
        rcases hcause with ⟨hrole, rfl⟩ | ⟨hrole, hunknown, rfl⟩
        · exact .notAuthority rfl hn hrole
        · exact .unknownPrefix hn hrole hunknown

/-! ## What a refusal leaves -/

/-- Two states of a node that differ at most by what time brings to its pool. -/
structure Spared (n n' : Node) : Prop where
  poolOnly : ∃ pool, n' = { n with pool }
  waited : n.pool.Waited n'.pool n.now

/-- Two states of a mesh that differ at most by what time brings to the pool of
the node that is asked for an edit. -/
structure Untraced (m m' : Mesh) (edited : Option Station) : Prop where
  /-- Stream, latencies, frames in flight, clock and counts are the same. -/
  nodesOnly : m.NodesOnly m'
  hardwareIds : m'.nodes.map Node.id = m.nodes.map Node.id
  others : ∀ s, edited ≠ some s → m'.nodes.get? s = m.nodes.get? s
  asked : ∀ s, edited = some s → m'.nodes.get? s = m.nodes.get? s ∨
    ∃ n n', m.nodes.get? s = some n ∧ m'.nodes.get? s = some n' ∧ Spared n n'

theorem Untraced.refl (m : Mesh) (edited : Option Station) :
    m.Untraced m edited :=
  ⟨.refl m, rfl, fun _ _ => rfl, fun _ _ => Or.inl rfl⟩

theorem untraced_setNode {n : Node} (hn : m.nodes.get? s = some n) :
    m.Untraced (m.setNode s (n.expirePool n.now)) (some s) where
  nodesOnly := ⟨_, rfl⟩
  hardwareIds := by
    apply Table.ext_get?
    intro t
    rw [Table.get?_map, Table.get?_map, setNode, Table.get?_insert]
    split
    · next hts =>
        rw [hts, hn]
        rfl
    · rfl
  others t ht := by
    have hts : t ≠ s := fun hts => ht (congrArg some hts.symm)
    rw [setNode, Table.get?_insert, if_neg hts]
  asked t ht := by
    cases ht
    refine Or.inr ⟨n, n.expirePool n.now, hn, ?_, ⟨_, rfl⟩,
      n.pool.waited_expire n.now⟩
    rw [setNode, Table.get?_insert, if_pos rfl]

theorem Refused.untraced {m' : Mesh} {r : Request} (h : Refused m r fault m') :
    m.Untraced m' r.edits? := by
  cases h with
  | noNode _ _ => exact .refl m _
  | unacceptable _ _ => exact .refl m _
  | noHardwareId _ _ => exact .refl m _
  | notAuthority hedits hn _ => exact hedits ▸ untraced_setNode hn
  | exhausted hn _ _ _ => exact untraced_setNode hn
  | unknownPrefix hn _ _ => exact untraced_setNode hn

/-- Whatever has been done to a mesh, a request that is refused leaves it as
it is, except that the pool of the node that is asked for an edit takes
notice of the time. -/
theorem untraced_of_refused (settings : Settings) (ops : List Op) {r : Request}
    (h : ((ops.foldl perform (make settings)).ask r).1 = some fault) :
    (ops.foldl perform (make settings)).Untraced
      ((ops.foldl perform (make settings)).ask r).2 r.edits? := by
  have hformed : (ops.foldl perform (make settings)).Holds Node.Formed :=
    holds_foldl_perform (fun n c hn => hn.of_alike (n.alike_after c))
      Node.formed_make settings ops
  exact (refused_ask hformed h).untraced

/-- An authority that does not hold back context ids publishes a
prefix and withdraws it. -/
def withdrawnOnce : List Op :=
  [.addNode ⟨0⟩ .authority, .call ⟨0⟩ .start, .call ⟨0⟩
    (.addPrefix default Flags.none), .call ⟨0⟩ (.removePrefix default)]

theorem untraced_of_refused_withdrawnTwice :
    let settings : Settings :=
      { Settings.usual with
        node := { NodeSettings.usual with reuseDelay := 0 } }
    let m := withdrawnOnce.foldl perform (make settings)
    let m' := (m.ask (.removePrefix ⟨0⟩ default)).2
    (m.ask (.removePrefix ⟨0⟩ default)).1 =
        some (.unknownPrefix (default : Prefix).text) ∧
      (m.nodes.get? ⟨0⟩).map (·.pool.isRetiring ⟨1⟩) = some true ∧
      (m'.nodes.get? ⟨0⟩).map (·.pool.isRetiring ⟨1⟩) = some false ∧
      m.Untraced m' (some ⟨0⟩) := by
  intro settings m m'
  have hrefused : (m.ask (.removePrefix ⟨0⟩ default)).1 =
      some (.unknownPrefix (default : Prefix).text) := by decide +kernel
  exact ⟨hrefused, by decide +kernel, by decide +kernel,
    untraced_of_refused settings withdrawnOnce hrefused⟩

end Mesh

end OnMesh
