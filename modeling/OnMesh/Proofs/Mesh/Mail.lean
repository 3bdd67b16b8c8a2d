import OnMesh.Proofs.Mesh.Packets
import OnMesh.Proofs.Node.News
import Mathlib.Data.List.Nodup

/-!
# What leaves the nodes and what comes in

`arriving` are the bytes that reach a station in the next step, in order; what
the node there has become by the end of its tick depends on nothing else.
`posted` are the letters of all nodes: no two of them have the same source and
addressee if the letters of each node have different addressees.
-/

namespace OnMesh

open Wire (Frame Message)

namespace Mesh

variable {m : Mesh} {s t : Station}

/-! ## Delivery -/

/-- The packets for a station among others. -/
def bytesFor (t : Station) (ps : List Packet) : List (List UInt8) :=
  (ps.filter fun p => p.target = t).map (·.bytes)

/-- The bytes that reach a station in the next step. -/
def arriving (m : Mesh) (t : Station) : List (List UInt8) :=
  bytesFor t m.later.due

/-- Nothing arrives as long as nothing is on the wire. -/
theorem arriving_of_quiet (h : m.inFlight = []) (t : Station) :
    m.arriving t = [] := by
  have hdue : m.later.due = [] := by
    show m.inFlight.filter _ = []
    rw [h]
    rfl
  rw [arriving, hdue]
  rfl

/-- A packet is handed to the node at its target, and to no other. -/
theorem get?_deliver (m : Mesh) (p : Packet) (t : Station) :
    (m.deliver p).nodes.get? t = (m.nodes.get? t).map fun n =>
      n.receivedAll (bytesFor t [p]) := by
  cases hp : m.nodes.get? p.target with
  | none =>
      rw [deliver_of_none hp]
      by_cases ht : p.target = t
      · rw [← ht, hp]
        rfl
      · have hnone : bytesFor t [p] = [] := by simp [bytesFor, ht]
        rw [hnone]
        exact (Option.map_id').symm
  | some n =>
      obtain ⟨tally, heq⟩ := deliver_of_some hp
      rw [heq]
      show (m.nodes.insert p.target _).get? t = _
      rw [Table.get?_insert]
      by_cases ht : p.target = t
      · have hone : bytesFor t [p] = [p.bytes] := by simp [bytesFor, ht]
        rw [if_pos ht.symm, hone, ← ht, hp]
        rfl
      · have hnone : bytesFor t [p] = [] := by simp [bytesFor, ht]
        rw [if_neg fun h => ht h.symm, hnone]
        exact (Option.map_id').symm

theorem get?_foldl_deliver (m : Mesh) (ps : List Packet) (t : Station) :
    (ps.foldl deliver m).nodes.get? t =
      (m.nodes.get? t).map fun n => n.receivedAll (bytesFor t ps) := by
  induction ps generalizing m with
  | nil => exact (Option.map_id').symm
  | cons p ps ih =>
      have hsplit : bytesFor t (p :: ps) = bytesFor t [p] ++ bytesFor t ps := by
        rw [bytesFor, bytesFor, bytesFor, ← List.map_append,
          ← List.filter_append]
        rfl
      rw [List.foldl_cons, ih, get?_deliver, Option.map_map, hsplit]
      refine congrArg (fun f => (m.nodes.get? t).map f) (funext fun n => ?_)
      exact List.foldl_append.symm

/-- What a step makes of a node before anything is sent. -/
theorem get?_tickAll_deliverDue (m : Mesh) (t : Station) :
    m.later.deliverDue.tickAll.nodes.get? t =
      (m.nodes.get? t).map fun n =>
        (n.receivedAll (m.arriving t)).tick (m.now + 1) := by
  have hnow : m.later.deliverDue.now = m.now + 1 := m.later.deliverDue_fields.2
  have hdelivered : m.later.deliverDue.nodes.get? t =
      (m.nodes.get? t).map fun n => n.receivedAll (m.arriving t) :=
    get?_foldl_deliver _ _ _
  show (m.later.deliverDue.nodes.map _).get? t = _
  rw [Table.get?_map, hdelivered, Option.map_map, hnow]
  rfl

/-- A step hands a node the bytes that arrive, one after the other; then the
node ticks, and what it has to send is popped. -/
theorem get?_step (m : Mesh) (t : Station) :
    m.step.nodes.get? t = (m.nodes.get? t).map fun n =>
      ((n.receivedAll (m.arriving t)).tick (m.now + 1)).popAll.2 := by
  rw [step_eq, nodes_transmitAll, Table.get?_map,
    get?_tickAll_deliverDue, Option.map_map]
  rfl

/-- No operation removes a node. -/
theorem hasNode_perform (m : Mesh) (op : Op) (h : m.nodes.contains s = true) :
    (m.perform op).nodes.contains s = true := by
  have hcalls : op.isSetup = true → (m.perform op).nodes.contains s = true := by
    intro hsetup
    obtain ⟨calls, -, hnode⟩ := m.callsTo_perform hsetup s
    rw [Table.contains, hnode, Option.isSome_map]
    exact h
  cases op with
  | step =>
      rw [perform, Table.contains, get?_step, Option.isSome_map]
      exact h
  | addNode t role =>
      rcases m.addNode_snd t role with heq | ⟨id, stream, -, -, -, heq⟩
      · rw [perform, heq]
        exact h
      · rw [perform, heq, Table.contains, Table.get?_insert]
        split
        · rfl
        · exact h
  | call t c =>
      rw [perform, Table.contains, get?_call, Option.isSome_map]
      exact h
  | _ => exact hcalls rfl

/-- What a step leaves alone before anything is sent; the packets
that are due are gone. -/
theorem fields_tickAll_deliverDue (m : Mesh) :
    m.later.deliverDue.tickAll.settings = m.settings ∧
      m.later.deliverDue.tickAll.stations = m.stations ∧
      m.later.deliverDue.tickAll.latencies = m.latencies ∧
      m.later.deliverDue.tickAll.now = m.now + 1 ∧
      m.later.deliverDue.tickAll.inFlight = m.inFlight.filter fun p =>
        !(p.due ≤ m.now + 1) := by
  obtain ⟨nodes, tally, hdelivered⟩ := foldl_deliver_spec
    { m.later with inFlight := m.inFlight.filter fun p => !(p.due ≤ m.now + 1) }
      m.later.due
  have heq : m.later.deliverDue = _ := hdelivered
  rw [heq]
  exact ⟨rfl, rfl, rfl, rfl, rfl⟩

/-! ## Letters -/

theorem mem_posted_iff {l : Letter} :
    l ∈ m.posted ↔
    ∃ n, m.nodes.get? l.source = some n ∧ l ∈ letters l.source n.popAll.1 := by
  rw [posted, List.mem_flatMap]
  constructor
  · rintro ⟨e, he, hl⟩
    have hsource := source_of_mem_letters hl
    rw [hsource]
    exact ⟨e.2, Table.get?_of_mem he, hl⟩
  · rintro ⟨n, hn, hl⟩
    exact ⟨(l.source, n), Table.get?_eq_some_iff.1 hn, hl⟩

/-- No two letters go the same way if no node writes twice to one addressee. -/
theorem nodup_posted
    (h : ∀ s n, m.nodes.get? s = some n →
      ((letters s n.popAll.1).map (·.to)).Nodup) :
    (m.posted.map fun l => (l.source, l.to)).Nodup := by
  rw [posted, List.map_flatMap, List.nodup_flatMap]
  constructor
  · intro e he
    have hsame : (letters e.1 e.2.popAll.1).map (fun l => (l.source, l.to)) =
        ((letters e.1 e.2.popAll.1).map (·.to)).map fun b => (e.1, b) := by
      rw [List.map_map]
      exact List.map_congr_left fun l hl => by
        rw [source_of_mem_letters hl]; rfl
    rw [hsame]
    exact (h e.1 e.2 (Table.get?_of_mem he)).map fun _ _ heq =>
      congrArg Prod.snd heq
  · have hkeys : m.nodes.entries.Pairwise fun e f => e.1 ≠ f.1 :=
      List.pairwise_map.1 m.nodes.nodup_keys
    refine hkeys.imp fun hne => ?_
    apply List.disjoint_left.2
    intro way hfirst hsecond
    obtain ⟨l, hl, rfl⟩ := List.mem_map.1 hfirst
    obtain ⟨k, hk, heq⟩ := List.mem_map.1 hsecond
    rw [source_of_mem_letters hl, source_of_mem_letters hk] at heq
    exact hne (congrArg Prod.fst heq).symm

end Mesh

end OnMesh
