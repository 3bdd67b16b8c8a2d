import OnMesh.Proofs.Node.Twins

/-!
# What a detached node forgets

A node that is detached forgets everything but its neighbours, the time and its
counts, and while it is detached no frame comes in or goes out.  Everything that
is asked of it later it answers like a node that has just been built and has
been given the same neighbours and the same time.
-/

namespace OnMesh

open Wire (Frame Message)

namespace ContextPool

/-- The terms on which a pool lends, which are fixed when it is made. -/
def terms (p : ContextPool) : ContextRange × Nat := (p.range, p.reuseDelay)

theorem terms_foldl_observe (p : ContextPool) (notices : List Notice) :
    (notices.foldl observe p).terms = p.terms := by
  induction notices generalizing p with
  | nil => rfl
  | cons notice notices ih =>
      rw [List.foldl_cons, ih, terms, range_observe,
        (clock_observe p notice).2, terms]

end ContextPool

namespace Node

variable {n m : Node}

/-! ## The terms of the pool -/

theorem terms_followNotices (n : Node) :
    n.followNotices.pool.terms = n.pool.terms := by
  obtain ⟨addresses, tally, hfollow, -, -⟩ := followNotices_spec n
  rw [hfollow, followed]
  dsimp only
  split
  · exact n.pool.terms_foldl_observe n.replica.notices
  · rfl

theorem terms_used {n' : Node} {p : Press} (h : Used n p n')
    (hmoved : (n.expirePool n.now).press.Moved p) :
    n'.pool.terms = n.pool.terms := by
  obtain ⟨live, hpool, -⟩ := hmoved.lends
  have hterms : p.pool.terms = n.pool.terms := by
    rw [hpool]
    rfl
  cases h with
  | refused => exact hterms
  | unchanged => exact (terms_followNotices _).trans hterms
  | advanced => exact (terms_followNotices _).trans hterms

/-- A node lends context ids on the same terms all the time. -/
theorem terms_after (n : Node) (c : Call) :
    (n.after c).pool.terms = n.pool.terms := by
  refine after_of_touching
    (P := fun m => m.pool.terms = n.pool.terms) ?_ rfl ?_ ?_ ?_ c
  · intro m hsame _
    rw [hsame.pool]
  · intro now
    have hhandled : (n.handled now).pool = n.pool := pool_foldl_handle _ _
    have hterms : (n.handled now).pool.terms = n.pool.terms := by rw [hhandled]
    rw [tick_eq, terms_followNotices]
    split
    · exact hterms
    · exact hterms
  · exact fun net flags =>
      terms_used (used_addPrefix n net flags) (Press.moved_publish _ net flags)
  · exact fun net =>
      terms_used (used_removePrefix n net) (Press.moved_withdraw _ net)

/-! ## Detached nodes -/

/-- Only attaching and detaching change whether a node is attached. -/
theorem started_after (n : Node) {c : Call} (hstart : c ≠ .start)
    (hdetach : c ≠ .detach) : (n.after c).started = n.started := by
  have hused : ∀ {n' : Node} {p : Press}, Used n p n' →
      n'.started = n.started := by
    intro n' p hused
    cases hused with
    | refused => rfl
    | unchanged => exact (followed_fields _).2.2.2.1
    | advanced => exact (followed_fields _).2.2.2.1
  cases c with
  | start => exact absurd rfl hstart
  | detach => exact absurd rfl hdetach
  | addNeighbour b => rfl
  | removeNeighbour b => rfl
  | setAdmissible b admissible =>
      obtain ⟨kept, flooding, tally, -, -, heq⟩ :=
        setAdmissible_spec n b admissible
      rw [after, heq]
      rfl
  | tick now =>
      have hhandled : (n.handled now).started = n.started := by
        refine foldl_same (f := Node.started)
          (fun n frame => ?_) n.incoming (n.begun now)
        obtain ⟨out, replica, kept, flooding, tally, -, -, -, heq⟩ :=
          handle_spec n frame
        rw [heq]
        rfl
      rw [after, tick_eq, (followed_fields _).2.2.2.1]
      split
      · exact hhandled
      · exact hhandled
  | pop =>
      rcases popFrom_spec n n.outgoing with
        ⟨tally, hpop, -⟩ | ⟨lost, o, rest, tally, hpop, -⟩ <;>
      · rw [after, pop, hpop]
        rfl
  | addPrefix net flags => exact hused (used_addPrefix n net flags)
  | removePrefix net => exact hused (used_removePrefix n net)
  | queueFrame frame =>
      obtain ⟨tally, heq⟩ := queueFrame_spec n frame
      rw [after, heq]
  | queueBytes bytes =>
      rw [after, queueBytes]
      split
      · obtain ⟨tally, heq⟩ := queueFrame_spec n _
        rw [heq]
      · rfl

theorem started_start (n : Node) : n.start.started = true := by
  cases hstarted : n.started with
  | true =>
      rw [start_of_started hstarted]
      exact hstarted
  | false =>
      obtain ⟨kept, flooding, tally, -, -, heq⟩ := start_spec hstarted
      rw [heq]
      rfl

/-- Nothing waits to be sent, and the data are empty unless the
node is the authority. -/
structure Hollow (n : Node) : Prop where
  outgoing : n.outgoing = []
  data : n.role.canPublish = false → n.data = NetworkData.empty

theorem Hollow.of_eq (h : n.Hollow) (houtgoing : m.outgoing = n.outgoing)
    (hrole : m.role = n.role) (hdata : m.data = n.data) : m.Hollow :=
  ⟨houtgoing.trans h.outgoing, fun hnot => hdata.trans (h.data (hrole ▸ hnot))⟩

/-- A detached node queues nothing. -/
theorem Hollow.queued (h : n.Hollow) (hstarted : n.started = false)
    {out kept : List Outbound} (henq : Enqueued n out kept)
    (flooding : Flooding) (tally : Tally) :
    (n.queued kept flooding tally).Hollow := by
  refine h.of_eq ?_ rfl rfl
  rw [henq.detached hstarted]
  exact List.append_nil n.outgoing

theorem Hollow.followNotices (h : n.Hollow) : n.followNotices.Hollow := by
  obtain ⟨addresses, tally, hfollow, -, -⟩ := followNotices_spec n
  rw [hfollow]
  exact h.of_eq rfl rfl rfl

theorem Hollow.used (h : n.Hollow) (hstarted : n.started = false) {n' : Node}
    {p : Press} (hused : Used n p n') : n'.Hollow := by
  cases hused with
  | refused => exact h.of_eq rfl rfl rfl
  | unchanged =>
      exact (h.of_eq (m := { n with pool := p.pool }) rfl rfl rfl).followNotices
  | advanced hrole _ _ henq _ =>
      have hchanged :
          Hollow { n with replica := p.replica, pool := p.pool } := by
        refine ⟨h.outgoing, fun hnot => ?_⟩
        rw [show n.role.canPublish = false from hnot] at hrole
        cases hrole
      exact hchanged.followNotices.queued
        ((followed_fields _).2.2.2.1.trans hstarted) henq _ _

theorem Hollow.queueFrame (h : n.Hollow) (frame : Frame) :
    (n.queueFrame frame).2.Hollow := by
  obtain ⟨tally, heq⟩ := queueFrame_spec n frame
  rw [heq]
  exact h.of_eq rfl rfl rfl

/-- Whatever is asked of a detached node, it sends nothing and learns
nothing. -/
theorem Hollow.after (h : n.Hollow) (hstarted : n.started = false)
    (hincoming : n.incoming = []) {c : Call} (hstart : c ≠ .start) :
    (n.after c).Hollow := by
  cases c with
  | start => exact absurd rfl hstart
  | detach => exact ⟨rfl, fun _ => rfl⟩
  | addNeighbour b => exact h.of_eq rfl rfl rfl
  | removeNeighbour b => exact h.of_eq rfl rfl rfl
  | setAdmissible b admissible =>
      obtain ⟨kept, flooding, tally, henq, -, heq⟩ :=
        setAdmissible_spec n b admissible
      rw [Node.after, heq]
      exact Hollow.queued
        (n := { n with links := (n.links.setAdmissible b admissible).2 })
        (h.of_eq rfl rfl rfl) hstarted henq flooding tally
  | tick now =>
      have hhandled : (n.handled now).Hollow := by
        rw [handled_eq, hincoming]
        exact h.of_eq rfl rfl rfl
      rw [Node.after, tick_eq]
      apply Hollow.followNotices
      split
      · exact hhandled.of_eq rfl rfl rfl
      · exact hhandled
  | pop =>
      have hsame := untouched_after n (c := .pop) rfl (by simp) (by simp)
      have hnone : (n.after .pop).outgoing = [] := by
        have hsub := (pop_sublist n).1
        rw [h.outgoing] at hsub
        exact List.sublist_nil.1 hsub
      exact h.of_eq (hnone.trans h.outgoing.symm) (alike_pop n).role
        (congrArg Replica.data hsame.replica)
  | addPrefix net flags => exact h.used hstarted (used_addPrefix n net flags)
  | removePrefix net => exact h.used hstarted (used_removePrefix n net)
  | queueFrame frame => exact h.queueFrame frame
  | queueBytes bytes =>
      rw [Node.after, queueBytes]
      split
      · exact h.queueFrame _
      · exact h.of_eq rfl rfl rfl

/-- A detached node holds no frames, and unless it is the
authority it knows nothing. -/
structure Dormant (n : Node) : Prop where
  incoming : n.incoming = []
  outgoing : n.outgoing = []
  version : n.role ≠ .authority → n.version = Version.initial
  data : n.role ≠ .authority → n.data = NetworkData.empty
  addresses : n.role ≠ .authority → n.configuredAddresses = []

theorem Hollow.dormant (h : n.Hollow) (hincoming : n.incoming = [])
    (hconfigured : n.Configured) : n.Dormant := by
  have hdata : n.role ≠ .authority → n.data = NetworkData.empty := fun hrole =>
    h.data (Role.canPublish_eq_false_iff.2 hrole)
  refine ⟨hincoming, h.outgoing, fun hrole => ?_, hdata, fun hrole => ?_⟩
  · exact congrArg NetworkData.version (hdata hrole)
  · rw [configuredAddresses, AddressBook.addresses,
      hconfigured.addresses, hdata hrole]
    rfl

/-! ## Nodes that were never attached -/

/-- The call tells a node of its neighbours or of the time. -/
def Call.prepares : Call → Bool
  | .tick _ => true
  | c => c.isLinking

/-- The node is as it was built, its neighbours, the time and its counts
apart. -/
structure Pristine (n : Node) : Prop where
  started : n.started = false
  replica : n.replica = Replica.make n.id n.role.canPublish
  pool : ∃ clock, n.pool = { n.settings.pool with now := clock }
  addresses : n.addresses = AddressBook.make n.id
  flooding : n.flooding.role = n.role
  incoming : n.incoming = []
  outgoing : n.outgoing = []

theorem pristine_make (id : NodeId) (role : Role) (settings : NodeSettings) :
    (make id role settings).Pristine := ⟨rfl, rfl, ⟨0, rfl⟩, rfl, rfl, rfl, rfl⟩

/-- Detaching takes a node back to what it was built as. -/
theorem Formed.pristine_detach (h : n.Formed)
    (hterms : n.pool.terms = n.settings.pool.terms) : n.detach.Pristine where
  started := rfl
  replica := by
    show (⟨n.replica.owner, n.replica.authority, NetworkData.empty, none,
      []⟩ : Replica) = _
    rw [h.owner, h.authority]
    rfl
  pool := by
    refine ⟨n.pool.now, ?_⟩
    show (⟨n.pool.range, n.pool.reuseDelay, Table.empty,
      Table.empty, n.pool.now⟩ :
      ContextPool) = _
    rw [show n.pool.range = n.settings.pool.range from congrArg Prod.fst hterms,
      show n.pool.reuseDelay = n.settings.pool.reuseDelay
        from congrArg Prod.snd hterms]
    rfl
  addresses := by
    show (⟨n.addresses.owner, Table.empty⟩ : AddressBook) = _
    rw [h.addresses]
    rfl
  flooding := h.flooding
  incoming := rfl
  outgoing := rfl

/-- As long as a node is not attached, the time and its neighbours
leave no other trace. -/
theorem Pristine.after (h : n.Pristine) {c : Call} (hc : c.prepares = true) :
    (n.after c).Pristine := by
  cases c with
  | addNeighbour b =>
      exact ⟨h.started, h.replica, h.pool, h.addresses, h.flooding,
        h.incoming, h.outgoing⟩
  | removeNeighbour b =>
      exact ⟨h.started, h.replica, h.pool, h.addresses, h.flooding,
        h.incoming, h.outgoing⟩
  | setAdmissible b admissible =>
      obtain ⟨kept, flooding, tally, henq, hrole, heq⟩ :=
        setAdmissible_spec n b admissible
      have hnone : kept = [] := henq.detached h.started
      rw [Node.after, heq, hnone]
      refine ⟨h.started, h.replica, h.pool, h.addresses,
        hrole.trans h.flooding, h.incoming, ?_⟩
      exact (List.append_nil n.outgoing).trans h.outgoing
  | tick now =>
      have hnotices : n.replica.notices = [] := by rw [h.replica]; rfl
      obtain ⟨clock, hpool⟩ := h.pool
      rw [Node.after, tick_eq, handled_eq, h.incoming, List.foldl_nil]
      split
      · rw [followNotices_of_nil (n := (n.begun now).expirePool now) hnotices]
        refine ⟨h.started, h.replica, ⟨now, ?_⟩, h.addresses, h.flooding,
          rfl, h.outgoing⟩
        show (n.pool.expire now).2 = _
        rw [hpool]
        rfl
      · rw [followNotices_of_nil (n := n.begun now) hnotices]
        exact ⟨h.started, h.replica, ⟨clock, hpool⟩, h.addresses, h.flooding,
          rfl, h.outgoing⟩
  | start => cases hc
  | detach => cases hc
  | pop => cases hc
  | addPrefix net flags => cases hc
  | removePrefix net => cases hc
  | queueFrame frame => cases hc
  | queueBytes bytes => cases hc

theorem Pristine.foldl_after (h : n.Pristine) {calls : List Call}
    (hcalls : ∀ c ∈ calls, c.prepares = true) :
    (calls.foldl Node.after n).Pristine := by
  induction calls generalizing n with
  | nil => exact h
  | cons c calls ih =>
      obtain ⟨hc, hrest⟩ := List.forall_mem_cons.1 hcalls
      exact ih (h.after hc) hrest

/-- Nodes that are as they were built are told apart by nothing else than
what they were given. -/
theorem Pristine.twins (hn : n.Pristine) (hm : m.Pristine) (hid : m.id = n.id)
    (hrole : m.role = n.role) (hsettings : m.settings = n.settings)
    (hnow : m.now = n.now) (hlinks : m.links = n.links) : Twins n m := by
  obtain ⟨clock, hpool⟩ := hn.pool
  obtain ⟨clock', hpool'⟩ := hm.pool
  have hreplica : m.replica = n.replica := by
    rw [hm.replica, hn.replica, hid, hrole]
  have hlent : m.pool = { n.pool with now := clock' } := by
    rw [hpool', hpool, hsettings]
  have haddresses : m.addresses = n.addresses := by
    rw [hm.addresses, hn.addresses, hid]
  have hflooding : m.flooding = ⟨n.flooding.role, m.flooding.tally⟩ := by
    rw [hn.flooding, ← hrole, ← hm.flooding]
  refine ⟨m.tally, m.flooding.tally, clock', ?_⟩
  show Node.mk m.id m.role m.settings m.started m.now m.replica m.pool
    m.links m.addresses
    m.flooding m.incoming m.outgoing m.tally =
      n.rewound m.tally m.flooding.tally clock'
  rw [hid, hrole, hsettings, hm.started, ← hn.started, hnow, hreplica, hlent,
    hlinks, haddresses, hm.incoming, ← hn.incoming, hm.outgoing,
    ← hn.outgoing, hflooding]
  rfl

/-! ## Preparing a node -/

/-- Calls that give a node these neighbours, admissible or not. -/
def befriending (neighbours : List (NodeId × Bool)) : List Call :=
  neighbours.flatMap fun e => [.addNeighbour e.1, .setAdmissible e.1 e.2]

def preparation (l : Links) (now : Nat) : List Call :=
  befriending l.neighbours.entries ++ [.tick now]

theorem prepares_preparation (l : Links) (now : Nat) :
    ∀ c ∈ preparation l now, c.prepares = true := by
  intro c hc
  rcases List.mem_append.1 hc with hc | hc
  · obtain ⟨e, -, hc⟩ := List.mem_flatMap.1 hc
    rcases List.mem_cons.1 hc with rfl | hc
    · rfl
    · rw [List.mem_singleton.1 hc]
      rfl
  · rw [List.mem_singleton.1 hc]
    rfl

theorem links_befriending (n : Node) {neighbours : List (NodeId × Bool)}
    (hne : ∀ e ∈ neighbours, e.1 ≠ n.links.owner) :
    ((befriending neighbours).foldl after n).links =
      { n.links with
        neighbours := n.links.neighbours.insertAll neighbours } := by
  induction neighbours generalizing n with
  | nil => rfl
  | cons e neighbours ih =>
      obtain ⟨he, hrest⟩ := List.forall_mem_cons.1 hne
      have hone :
          ((n.after (.addNeighbour e.1)).after (.setAdmissible e.1 e.2)).links =
          { n.links with neighbours := n.links.neighbours.insert e.1 e.2 } := by
        obtain ⟨kept, flooding, tally, -, -, heq⟩ :=
          setAdmissible_spec (n.addNeighbour e.1) e.1 e.2
        rw [← Links.setAdmissible_addNeighbour he e.2, after, after, heq]
        rfl
      have hmore :=
        ih ((n.after (.addNeighbour e.1)).after (.setAdmissible e.1 e.2))
        (by rw [hone]; exact hrest)
      rw [hone] at hmore
      exact hmore

/-- The other node was built anew with the same settings, and was given nothing
but the neighbours of the node and its time. -/
structure Anew (n fresh : Node) : Prop where
  prepared : ∃ setup : List Call, (∀ c ∈ setup, c.prepares = true) ∧
    fresh = setup.foldl after (make n.id n.role n.settings)
  links : fresh.links = n.links
  now : fresh.now = n.now

theorem Anew.pristine {fresh : Node} (h : n.Anew fresh) : fresh.Pristine := by
  obtain ⟨setup, hsetup, rfl⟩ := h.prepared
  exact (pristine_make n.id n.role n.settings).foldl_after hsetup

theorem Anew.alike {fresh : Node} (h : n.Anew fresh) :
    Alike (make n.id n.role n.settings) fresh := by
  obtain ⟨setup, -, rfl⟩ := h.prepared
  exact foldl_after (Alike.refl _)
    (fun m c hm => hm.trans (alike_after m c)) setup

theorem anew_preparation (howner : n.links.owner = n.id)
    (hself : n.links.hasNeighbour n.id = false) :
    n.Anew ((preparation n.links n.now).foldl after
      (make n.id n.role n.settings)) where
  prepared :=
    ⟨preparation n.links n.now, prepares_preparation n.links n.now, rfl⟩
  links := by
    have hne : ∀ e ∈ n.links.neighbours.entries, e.1 ≠ n.id := by
      rintro ⟨b, a⟩ he rfl
      have hknown := Links.hasNeighbour_iff.2 ⟨a, Table.get?_eq_some_iff.2 he⟩
      exact absurd hknown (Bool.eq_false_iff.1 hself)
    have hmet := links_befriending (make n.id n.role n.settings) hne
    have hall : Table.empty.insertAll n.links.neighbours.entries =
        n.links.neighbours :=
      Table.ofList_entries n.links.neighbours
    rw [preparation, List.foldl_append, List.foldl_cons, List.foldl_nil, after,
      links_tick, hmet, show (make n.id n.role n.settings).links =
      ⟨n.id, Table.empty⟩ from rfl, hall, ← howner]
  now := by
    rw [preparation, List.foldl_append, List.foldl_cons, List.foldl_nil]
    exact now_tick _ n.now

/-! ## What is forgotten -/

/-- What detaching relies on, in every state of a node. -/
structure Orderly (n : Node) : Prop where
  formed : n.Formed
  terms : n.pool.terms = n.settings.pool.terms
  configured : n.Configured
  unselfish : n.links.hasNeighbour n.id = false
  vacant : n.Vacant
  hollow : n.started = false → n.Hollow

theorem orderly_make (id : NodeId) (role : Role) (settings : NodeSettings) :
    (make id role settings).Orderly :=
  ⟨formed_make id role settings, rfl, configured_make id role settings, rfl,
    fun _ => rfl, fun _ => ⟨rfl, fun _ => rfl⟩⟩

/-- Every call keeps what detaching relies on. -/
theorem Orderly.after (h : n.Orderly) (c : Call) : (n.after c).Orderly where
  formed := h.formed.of_alike (alike_after n c)
  terms := by rw [terms_after, (alike_after n c).settings, h.terms]
  configured := h.configured.after c
  unselfish := by
    rw [(alike_after n c).id, Bool.eq_false_iff]
    intro hself
    rcases hasNeighbour_after n c hself with hself | ⟨-, hne⟩
    · exact absurd hself (Bool.eq_false_iff.1 h.unselfish)
    · exact hne h.formed.links.symm
  vacant := h.vacant.after c
  hollow := by
    intro hstarted
    by_cases hstart : c = .start
    · subst hstart
      rw [Node.after, started_start] at hstarted
      cases hstarted
    · by_cases hdetach : c = .detach
      · subst hdetach
        exact ⟨rfl, fun _ => rfl⟩
      · have hbefore := (started_after n hstart hdetach).symm.trans hstarted
        exact (h.hollow hbefore).after hbefore (h.vacant hbefore) hstart

/-- A node that was detached cannot be told apart from one that is built
anew. -/
theorem Orderly.twins_detach (h : n.Orderly) {fresh : Node}
    (hanew : n.Anew fresh) : Twins fresh n.detach := by
  have halike := hanew.alike
  exact hanew.pristine.twins
    (h.formed.pristine_detach h.terms) halike.id.symm halike.role.symm
    halike.settings.symm hanew.now.symm hanew.links.symm

/-- What a node forgets when it is detached.  There are nodes built anew that
have its neighbours and its time, it shows and answers the same as each of them
from then on, and for as long as it is detached it lies dormant. -/
structure Forgetful (n : Node) : Prop where
  anew : ∃ fresh, n.Anew fresh
  sight : ∀ fresh, n.Anew fresh → n.detach.sight = fresh.sight
  conduct : ∀ fresh, n.Anew fresh →
    ∀ calls, n.detach.conduct calls = fresh.conduct calls
  dormant : n.started = false → n.Dormant

/-- Whatever was asked of a node, detaching it leaves nothing of that behind. -/
theorem forgetful_of_calls (id : NodeId) (role : Role) (settings : NodeSettings)
    (calls : List Call) :
    (calls.foldl after (make id role settings)).Forgetful := by
  have horderly : (calls.foldl after (make id role settings)).Orderly :=
    foldl_after (orderly_make id role settings) (fun _ c h => h.after c) calls
  exact
    { anew := ⟨_, anew_preparation horderly.formed.links horderly.unselfish⟩
      sight := fun fresh hanew => (horderly.twins_detach hanew).sight_eq
      conduct := fun fresh hanew => (horderly.twins_detach hanew).conduct_eq
      dormant := fun hstarted =>
        (horderly.hollow hstarted).dormant
          (horderly.vacant hstarted) horderly.configured }

/-- An authority that has published, and holds an id back, lends the
same ids as a new one. -/
example :
    let n := [Call.start, .addNeighbour ⟨2⟩, .setAdmissible ⟨2⟩ true, .tick 5,
      .addPrefix default Flags.none, .removePrefix default].foldl after
        (make ⟨1⟩ .authority NodeSettings.usual)
    let calls : List Call := [.addPrefix default Flags.none, .start, .pop]
    n.pool.retiring.isEmpty = false ∧ n.detach.conduct calls =
      ((preparation n.links n.now).foldl after
        (make ⟨1⟩ .authority NodeSettings.usual)).conduct
        calls := by
  decide +kernel

end Node

end OnMesh
