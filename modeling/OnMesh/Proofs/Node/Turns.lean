import OnMesh.Proofs.Capacity
import OnMesh.Proofs.Node.Intrusion
import OnMesh.Proofs.Node.Publishing

/-!
# What a node does in its turn

When little happens, what becomes of a node can be said exactly.
`Turns` is what is left of an attached node after a tick in which one
frame came in, or only frames that mean nothing to it.  A neighbour that
is restored is greeted, and a prefix that is new is published and
pushed, as long as there is room for it.
-/

namespace OnMesh

open Wire (Frame Message)

namespace Node

variable {n k : Node} {out : List Outbound} {r : Replica}

/-- The node has sent some messages and holds a replica, all of whose
notices it has followed. -/
structure Turns (n : Node) (out : List Outbound) (r : Replica) (k : Node) :
    Prop where
  alike : Alike n k
  links : k.links = n.links
  started : k.started = n.started
  replica : k.replica = r.takeNotices.2
  outgoing : k.outgoing = n.outgoing ++ out.map (Outgoing.ofOutbound n.id)
  incoming : k.incoming = []
  retiring : n.pool.retiring = Table.empty → k.pool.retiring = Table.empty

theorem retiring_expirePool (now : Nat) (h : n.pool.retiring = Table.empty) :
    (n.expirePool now).pool.retiring = Table.empty := by
  apply Table.ext_get?
  intro id
  show (n.pool.expire now).2.retiring.get? id = _
  rw [ContextPool.retiring_expire, h]
  rfl

/-- After the frames have been handled, nothing happens that matters to
others. -/
theorem turns_upkeep (hincoming : n.incoming = [])
    (hnotices : n.role.canPublish = true → n.replica.notices = []) (now : Nat) :
    Turns n [] n.replica (if n.role.canPublish then n.expirePool now
      else n).followNotices := by
  cases hpublish : n.role.canPublish with
  | true =>
      have hnone : n.replica.notices = [] := hnotices hpublish
      have hexpired : (n.expirePool now).followNotices = n.expirePool now :=
        followNotices_of_nil (n := n.expirePool now) hnone
      rw [if_pos rfl, hexpired]
      refine ⟨⟨rfl, rfl, rfl, rfl, rfl, rfl, rfl, rfl⟩, rfl, rfl, ?_, ?_,
        hincoming, retiring_expirePool now⟩
      · show n.replica = { n.replica with notices := [] }
        rw [← hnone]
      · show n.outgoing = n.outgoing ++ []
        rw [List.append_nil]
  | false =>
      obtain ⟨addresses, tally, hfollow, -, -⟩ := followNotices_spec n
      have halike := alike_followNotices n
      rw [hfollow] at halike
      rw [if_neg (by simp), hfollow]
      refine ⟨halike, rfl, rfl, rfl, ?_, hincoming, ?_⟩
      · show n.outgoing = n.outgoing ++ []
        rw [List.append_nil]
      · intro hempty
        show (if n.role.canPublish then _ else n.pool).retiring = _
        rw [hpublish, if_neg (by simp)]
        exact hempty

theorem Turns.of_begun {incoming : List Frame} {now : Nat} {tally : Tally}
    {counts : Flooding.Tally}
    (h : Turns { n with
      incoming, now, tally, flooding := { n.flooding with tally := counts } }
      out r k) : Turns n out r k :=
  ⟨⟨h.alike.id, h.alike.role, h.alike.settings, h.alike.owner,
    h.alike.authority, h.alike.links, h.alike.addresses, h.alike.flooding⟩,
    h.links, h.started, h.replica, h.outgoing, h.incoming, h.retiring⟩

/-- What was sent and learnt before a tick ends belongs to the turn. -/
theorem Turns.of_queued {flooding : Flooding} {tally : Tally}
    (hrole : flooding.role = n.flooding.role)
    (howner : r.owner = n.replica.owner)
    (hauthority : r.authority = n.replica.authority)
    (h : Turns (({ n with replica := r }).queued out flooding tally) [] r k) :
    Turns n out r k := by
  refine ⟨⟨h.alike.id, h.alike.role, h.alike.settings,
    h.alike.owner.trans howner, h.alike.authority.trans hauthority,
    h.alike.links, h.alike.addresses, h.alike.flooding.trans hrole⟩, h.links,
    h.started, h.replica, ?_, h.incoming, h.retiring⟩
  rw [h.outgoing]
  exact List.append_nil _

/-! ## Frames that mean nothing -/

/-- The frame neither tells the node anything nor is there an answer to it. -/
def Overhears (n : Node) (frame : Frame) : Prop :=
  n.isAdmissible frame.sender = true →
    ∃ held, frame.message = .snapshotRequest held ∧ n.version ≤ held

/-- A frame that means nothing to a node changes counts only. -/
theorem handle_of_overhears {frame : Frame} (h : n.Overhears frame) :
    ∃ counts, n.handle frame = n.recounted n.incoming n.tally counts := by
  cases hadm : n.isAdmissible frame.sender with
  | false => exact handle_of_not_admissible hadm
  | true =>
      obtain ⟨held, hmessage, hle⟩ := h hadm
      have hreceive : n.flooding.receive frame n.replica n.links =
          ⟨[], n.replica, n.flooding⟩ := by
        have hserve : n.flooding.receiveRequest frame.sender held n.replica =
            ⟨[], n.replica, n.flooding⟩ := if_pos hle
        have hlinks : n.links.isAdmissible frame.sender = true := hadm
        simp only [Flooding.receive, hlinks, hmessage, hserve, Bool.not_true,
          Bool.false_eq_true, if_false]
        rfl
      refine ⟨n.flooding.tally, ?_⟩
      rw [handle, hreceive]
      simp [enqueue, recounted]

theorem foldl_handle_of_overhears {frames : List Frame}
    (h : ∀ frame ∈ frames, n.Overhears frame) :
    ∃ counts, frames.foldl handle n =
      n.recounted n.incoming n.tally counts := by
  induction frames generalizing n with
  | nil => exact ⟨n.flooding.tally, rfl⟩
  | cons frame frames ih =>
      obtain ⟨hfirst, hrest⟩ := List.forall_mem_cons.1 h
      obtain ⟨counts, hone⟩ := handle_of_overhears hfirst
      rw [List.foldl_cons, hone]
      exact ih (n := n.recounted n.incoming n.tally counts) hrest

/-- Bytes that come in change the queue of frames to be handled and nothing
else. -/
theorem receivedAll_spec (n : Node) (bss : List (List UInt8)) :
    ∃ incoming tally, n.receivedAll bss = { n with incoming, tally } ∧
      ∀ frame ∈ incoming, frame ∈ n.incoming ∨ frame ∈ readable bss := by
  induction bss generalizing n with
  | nil => exact ⟨n.incoming, n.tally, rfl, fun _ h => Or.inl h⟩
  | cons bytes bss ih =>
      have hone : ∃ incoming tally,
          n.after (.queueBytes bytes) = { n with incoming, tally } ∧
          ∀ frame ∈ incoming, frame ∈ n.incoming ∨
          frame ∈ readable [bytes] := by
        cases hparse : Frame.parse bytes with
        | error fault =>
            exact ⟨n.incoming, { n.tally with
              malformedFrames := n.tally.malformedFrames + 1 }, by
              rw [after, queueBytes, hparse], fun _ h => Or.inl h⟩
        | ok frame =>
            have hcall : n.after (.queueBytes bytes) =
                (n.queueFrame frame).2 := by
              rw [after, queueBytes, hparse]
            obtain ⟨tally, hqueue⟩ := queueFrame_spec n frame
            have hread : frame ∈ readable [bytes] :=
              List.mem_filterMap.2
                ⟨bytes, List.mem_singleton.2 rfl, by rw [hparse]; rfl⟩
            refine ⟨_, tally, hcall.trans hqueue, fun f hf => ?_⟩
            split at hf
            · rcases List.mem_append.1 hf with hf | hf
              · exact Or.inl hf
              · rw [List.mem_singleton.1 hf]
                exact Or.inr hread
            · exact Or.inl hf
      obtain ⟨first, tallyFirst, heqFirst, hfirst⟩ := hone
      obtain ⟨rest, tallyRest, heqRest, hrest⟩ :=
        ih { n with incoming := first, tally := tallyFirst }
      refine ⟨rest, tallyRest, ?_, fun frame hframe => ?_⟩
      · show (n.after (.queueBytes bytes)).receivedAll bss = _
        rw [heqFirst, heqRest]
      · have hsplit : readable (bytes :: bss) =
            readable [bytes] ++ readable bss :=
          List.filterMap_append (l := [bytes])
        rw [hsplit, List.mem_append]
        rcases hrest frame hframe with hmem | hmem
        · rcases hfirst frame hmem with hmem | hmem
          · exact Or.inl hmem
          · exact Or.inr (Or.inl hmem)
        · exact Or.inr (Or.inr hmem)

/-- A node to which nothing that comes in means anything stays as it is. -/
theorem turns_of_overhears (hincoming : n.incoming = [])
    (hnotices : n.replica.notices = []) {bss : List (List UInt8)}
    (h : ∀ frame ∈ readable bss, n.Overhears frame) (now : Nat) :
    Turns n [] n.replica ((n.receivedAll bss).tick now) := by
  obtain ⟨incoming, tally, hreceived, hmem⟩ := n.receivedAll_spec bss
  let x : Node := ({ n with incoming, tally } : Node).begun now
  have hframes : ∀ frame ∈ incoming, x.Overhears frame := by
    intro frame hframe
    refine h frame ((hmem frame hframe).resolve_left fun hin => ?_)
    rw [hincoming] at hin
    cases hin
  obtain ⟨counts, hhandled⟩ := foldl_handle_of_overhears hframes
  have hturn := turns_upkeep (n := x.recounted [] x.tally counts) rfl
    (fun _ => hnotices) now
  rw [hreceived, tick_eq, handled_eq]
  show Turns n [] n.replica (if (incoming.foldl handle x).role.canPublish then
    (incoming.foldl handle x).expirePool now
      else incoming.foldl handle x).followNotices
  rw [hhandled]
  exact Turns.of_begun hturn

/-! ## One frame -/

/-- A node that one frame has come in to does what the frame leads to. -/
theorem turns_of_receive {bytes : List UInt8} {frame : Frame}
    (hstarted : n.started = true) (hincoming : n.incoming = [])
    (hparse : Frame.parse bytes = .ok frame) (hin : 0 < n.settings.maxInbound)
    (hout : (n.flooding.receive frame n.replica n.links).out = out)
    (hreplica : (n.flooding.receive frame n.replica n.links).replica = r)
    (hroom : n.outgoing.length + out.length ≤ n.settings.maxOutbound)
    (hnotices : n.role.canPublish = true → r.notices = []) (now : Nat) :
    Turns n out r ((n.receivedAll [bytes]).tick now) := by
  obtain ⟨incoming, tally, hreceived, -⟩ := n.receivedAll_spec [bytes]
  have hqueue : incoming = [frame] := by
    have hroom : n.incoming.length + [bytes].length ≤
        n.settings.maxInbound := by
      rw [hincoming]
      exact hin
    have hwhole := incoming_receivedAll hstarted hroom
    rw [hreceived, hincoming] at hwhole
    simpa [readable, hparse, Except.toOption] using hwhole
  subst hqueue
  let x : Node := ({ n with incoming := [frame], tally } : Node).begun now
  have hresponse : x.flooding.receive frame x.replica x.links =
      ⟨out, r, (n.flooding.receive frame n.replica n.links).flooding⟩ := by
    rw [← hout, ← hreplica]
    rfl
  let f := (n.flooding.receive frame n.replica n.links).flooding
  obtain ⟨kept, tallyKept, henqueued, hkept⟩ :=
    enqueue_spec ({ x with replica := r, flooding := f } : Node) out
  have hall : kept = out := henqueued.of_room hstarted hroom
  subst hall
  have hhandled : x.handle frame =
      ({ x with replica := r }).queued kept f tallyKept := by
    rw [handle, hresponse]
    exact hkept
  have halike := alike_handle x frame
  rw [hhandled] at halike
  have hturn := turns_upkeep
    (n := ({ x with replica := r }).queued kept f tallyKept) rfl hnotices now
  rw [hreceived, tick_eq, handled_eq]
  show Turns n kept r (if (x.handle frame).role.canPublish then
    (x.handle frame).expirePool now else x.handle frame).followNotices
  rw [hhandled]
  have hqueued : Turns x kept r (if (({ x with replica := r }).queued kept f
      tallyKept).role.canPublish then (({ x with replica := r }).queued kept f
      tallyKept).expirePool now else ({ x with replica := r }).queued kept f
      tallyKept).followNotices :=
    Turns.of_queued halike.flooding halike.owner halike.authority hturn
  exact @Turns.of_begun _ _ _ _ _ _ _ n.flooding.tally hqueued

/-! ## Links -/

/-- Unless an attached node admits a neighbour, a change of its links
is all that happens. -/
theorem setAdmissible_of_silent {b : NodeId} {admissible : Bool}
    (h : n.started = false ∨ admissible = false) :
    (n.setAdmissible b admissible).2 =
      { n with links := (n.links.setAdmissible b admissible).2 } := by
  apply if_neg
  rintro ⟨hrestored, hstarted⟩
  rcases h with hdetached | hclosed
  · exact absurd (hdetached.symm.trans hstarted) (by simp)
  · have hadm := ((Links.setAdmissible_restored_iff admissible).1 hrestored).2
    rw [Links.isAdmissible_setAdmissible_self, hclosed, Bool.and_false] at hadm
    cases hadm

/-- A neighbour that is restored is greeted. -/
theorem setAdmissible_of_restored {b : NodeId} (hstarted : n.started = true)
    (hknown : n.links.hasNeighbour b = true)
    (hclosed : n.isAdmissible b = false)
    (hroom : n.outgoing.length < n.settings.maxOutbound) :
    ∃ flooding tally, flooding.role = n.flooding.role ∧
    (n.setAdmissible b true).2 =
      ({ n with links := (n.links.setAdmissible b true).2 }).queued
        [⟨b, Flooding.greeting n.replica⟩] flooding tally := by
  obtain ⟨kept, flooding, tally, henqueued, hrole, heq⟩ :=
    setAdmissible_spec n b true
  have hopen : (n.links.setAdmissible b true).2.isAdmissible b = true := by
    rw [Links.isAdmissible_setAdmissible_self, hknown]
    rfl
  rw [if_pos ⟨hstarted, hclosed, hopen⟩] at henqueued
  have hkept := henqueued.of_room hstarted hroom
  exact ⟨flooding, tally, hrole, hkept ▸ heq⟩

/-! ## Publishing -/

/-- The node has published a new prefix and pushed it to every
admissible neighbour. -/
structure Issues (n : Node) (net : Prefix) (flags : Flags) (k : Node) :
    Prop where
  alike : Alike n k
  links : k.links = n.links
  started : k.started = n.started
  incoming : k.incoming = n.incoming
  prefixes : k.data.prefixes =
    n.data.prefixes.insert net ⟨flags, n.replica.owner⟩
  version : k.version = n.version.next
  lastDelta : k.replica.lastDelta = some (Delta.between n.data k.data)
  outgoing : k.outgoing = n.outgoing ++
    (Flooding.fanOut (Delta.between n.data k.data) n.links none).map
      (Outgoing.ofOutbound n.id)

section Publish

variable {net : Prefix}

/-- An authority that has an id to spare goes on to the next version. -/
theorem publish_of_spare (hstocked : n.Stocked)
    (hrole : n.role.canPublish = true) (hnotices : n.replica.notices = [])
    (hretiring : n.pool.retiring = Table.empty)
    (hnew : n.data.prefixes.contains net = false)
    (hspare : n.data.contexts.size < n.settings.contextRange.size)
    (flags : Flags) :
    (n.addPrefix net flags).1 = .ok n.version.next ∧
      (n.addPrefix net flags).2.data.prefixes =
        n.data.prefixes.insert net ⟨flags, n.replica.owner⟩ ∧
      (n.addPrefix net flags).2.version = n.version.next := by
  have hready : (n.expirePool n.now).press.Ready n.settings.contextRange :=
    hstocked.expirePool n.now hrole
  have hstep := hready.inStep
  obtain ⟨id, hfree⟩ :=
    hstep.exists_lowestFree? hnotices (retiring_expirePool n.now hretiring)
    (hspare.trans_eq (congrArg ContextRange.size hready.range).symm)
  have hlive := hstep.not_lent hnotices hnew
  have hanswer := (hready.publish_of_free hlive hfree flags).1
  have hdone := hready.done_publish net flags
  have hnone : n.data.prefixes.get? net = none :=
    Table.contains_eq_false_iff.1 hnew
  have hmerged : n.data.merged net flags = flags := by
    rw [NetworkData.merged, hnone]
  have hdata : (n.addPrefix net flags).2.data =
      ((n.expirePool n.now).press.publish net flags).2.replica.data :=
    data_usePress n _
  rw [hanswer] at hdone
  refine ⟨(usePress_fst n _).trans hanswer, ?_⟩
  show _ ∧ (n.addPrefix net flags).2.data.version = _
  rw [hdata]
  generalize ((n.expirePool n.now).press.publish net flags).2.replica.data =
    d at hdone
  cases hdone with
  | confirmed hget =>
      have hget : n.data.prefixes.get? net = _ := hget
      rw [hnone] at hget
      cases hget
  | published _ hprefixes hversion =>
      refine ⟨?_, hversion⟩
      rw [hprefixes]
      show n.data.prefixes.insert net ⟨n.data.merged net flags,
        n.replica.owner⟩ = _
      rw [hmerged]

/-- Publishing a prefix holds no id back. -/
theorem retiring_addPrefix (hstocked : n.Stocked)
    (hrole : n.role.canPublish = true) (hnotices : n.replica.notices = [])
    (hretiring : n.pool.retiring = Table.empty) (flags : Flags) :
    (n.addPrefix net flags).2.pool.retiring = Table.empty := by
  have hused := used_addPrefix n net flags
  have hready : (n.expirePool n.now).press.Ready n.settings.contextRange :=
    hstocked.expirePool n.now hrole
  have hafter : (n.addPrefix net flags).2.press.Ready
      n.settings.contextRange := by
    have halike := alike_used hused
    rw [← halike.settings]
    exact hstocked.after (.addPrefix net flags)
      (by rw [after, halike.role]; exact hrole)
  obtain ⟨hpool, hreplica⟩ := used_drained hused hrole hnotices
  apply Table.ext_get?
  intro id
  show (n.addPrefix net flags).2.pool.retiring.get? id = none
  cases hbound : (n.addPrefix net flags).2.data.contexts.get? id with
  | some b =>
      have hlive : (n.addPrefix net flags).2.pool.isLive id = true := by
        have hlent : (n.addPrefix net flags).2.pool.live.get? id = some b.net :=
          hafter.inStep.lent id b hbound
        rw [ContextPool.isLive, Table.contains, hlent]
        rfl
      exact Table.contains_eq_false_iff.1
        (hafter.inStep.orderly.disjoint id hlive)
  | none =>
      have hdrained := hbound
      rw [data, hreplica] at hdrained
      rw [hpool, (Press.moved_publish _ net flags).retiring_drain hready.inStep
        hnotices hdrained]
      split
      · show (n.expirePool n.now).pool.retiring.get? id = none
        rw [retiring_expirePool n.now hretiring]
        rfl
      · next hold =>
          obtain ⟨b, hb⟩ := Option.ne_none_iff_exists'.1 hold
          have hkept := hready.keepsBindings.kept net flags id b.net
            (by rw [NetworkData.bindings, Table.get?_map, hb]; rfl)
          have hnone :
              ((n.expirePool n.now).press.publish net
                flags).2.replica.data.contexts.get? id = none := hdrained
          rw [NetworkData.bindings, Table.get?_map, hnone] at hkept
          cases hkept

/-- An attached authority with room for it publishes a new prefix and pushes
it. -/
theorem issues_addPrefix (hstocked : n.Stocked)
    (hrole : n.role.canPublish = true) (hnotices : n.replica.notices = [])
    (hstarted : n.started = true) (hretiring : n.pool.retiring = Table.empty)
    (hnew : n.data.prefixes.contains net = false)
    (hspare : n.data.contexts.size < n.settings.contextRange.size)
    (hrises : n.version < n.version.next)
    (hroom : n.outgoing.length + n.links.admissible.length ≤
      n.settings.maxOutbound) (flags : Flags) :
    Issues n net flags (n.addPrefix net flags).2 := by
  obtain ⟨-, hprefixes, hversion⟩ :=
    publish_of_spare hstocked hrole hnotices hretiring hnew hspare
    flags
  have hused := used_addPrefix n net flags
  have hstays : n.version ≠ n.version.next := ne_of_lt hrises
  generalize hp : ((n.expirePool n.now).press.publish net flags).2 = p at hused
  generalize (n.addPrefix net flags).2 = k at hprefixes hversion hused ⊢
  have halike := alike_used hused
  have hlinks := links_used hused
  cases hused with
  | refused hreplica => exact absurd hversion hstays
  | unchanged hreplica =>
      have hsame := (calm_followNotices { n with pool := p.pool }).version
      exact absurd (hsame.symm.trans hversion) hstays
  | @advanced edited kept flooding tally _ _ hreplica henqueued hflooding =>
      have hcalm : Calm { n with replica := p.replica, pool := p.pool } _ :=
        calm_followNotices _
      have hfollowed : ({ n with replica := p.replica, pool := p.pool } :
          Node).followNotices.replica =
          p.replica.takeNotices.2 := (followed_fields _).1
      have hdata : (({ n with replica := p.replica, pool := p.pool } :
          Node).followNotices.queued kept
          flooding tally).data = { edited with version := n.version.next } := by
        show ({ n with replica := p.replica, pool := p.pool } :
          Node).followNotices.replica.data = _
        rw [hfollowed, hreplica]
        rfl
      rw [if_pos hrises] at henqueued
      have hkept := henqueued.of_room (hcalm.started.trans hstarted) (by
        rw [hcalm.outgoing, hcalm.alike.settings, Flooding.fanOut,
          List.length_map]
        exact hroom)
      refine ⟨halike, hlinks, hcalm.started, incoming_followNotices _,
        hprefixes, hversion, ?_, ?_⟩
      · show Replica.lastDelta
          (followNotices
            { n with replica := p.replica, pool := p.pool }).replica = _
        rw [hdata, hfollowed, hreplica]
        rfl
      · rw [hdata, queued, hcalm.outgoing, hcalm.alike.id, hkept]

end Publish

end Node

end OnMesh
