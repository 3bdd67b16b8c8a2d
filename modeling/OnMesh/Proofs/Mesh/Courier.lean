import OnMesh.Proofs.Mesh.ChainCalls

/-!
# How long a chain takes to settle

A mesh settles in the ticks after which nothing is in flight for the first time.
What one node sends to the next is on the wire for as long as the link takes;
the node that it reaches reacts in the tick of its arrival, and what that leads
to is sent in the same tick.  `Shows.hop` is one such passage, with the reaction
of the node as a parameter: a delta that is news is passed on, one from a node
that is behind is answered, and a frame from a node that is shut out is dropped.
-/

namespace OnMesh

open Wire (Frame Message)

namespace Mesh

variable {m m' : Mesh} {t used allowed : Nat}

/-- The mesh has nothing in flight for the first time after so many ticks. -/
inductive Settles : Nat → Mesh → Mesh → Prop
  | rest {m : Mesh} : m.step.inFlight = [] → Settles 1 m m.step
  | more {m m' : Mesh} {t : Nat} : m.step.inFlight ≠ [] → Settles t m.step m' →
      Settles (t + 1) m m'

theorem Settles.settleFrom (h : Settles t m m') (hallowed : t ≤ allowed) :
    m.settleFrom used allowed = (some (used + t), m') := by
  induction h generalizing used allowed with
  | rest hflight =>
      obtain ⟨allowed, rfl⟩ : ∃ a, allowed = a + 1 := ⟨allowed - 1, by omega⟩
      exact if_pos (List.isEmpty_iff.2 hflight)
  | @more m m' t hflight _ ih =>
      obtain ⟨allowed, rfl⟩ : ∃ a, allowed = a + 1 := ⟨allowed - 1, by omega⟩
      have hstep : m.settleFrom used (allowed + 1) =
          m.step.settleFrom (used + 1) allowed :=
        if_neg fun hempty => hflight (List.isEmpty_iff.1 hempty)
      rw [hstep, ih (by omega)]
      congr 2
      omega

/-- The mesh when all nodes have ticked, and nothing has been sent. -/
def ticked (m : Mesh) : Mesh := m.later.deliverDue.tickAll

theorem step_eq_ticked (m : Mesh) : m.step = m.ticked.transmitAll := rfl

end Mesh

namespace Chain

variable {c : Chain} {sc sc' : Scene} {i j k : Nat} {m m' : Mesh} {n : Node}
  {message : Message}

/-! ## Nothing that matters -/

/-- If nothing that comes in means anything, the scene stays. -/
theorem Shows.overheard (h : c.Shows sc m)
    (hover : ∀ i ≤ c.last, ∀ n, c.Sits sc i n →
      ∀ frame ∈ Node.readable (m.arriving (c.post i)), n.Overhears frame) :
    c.Shows sc m.ticked := by
  have hticked := h.ticked sc.held (fun _ => []) fun i hi n _ hsits =>
    hsits.turns_of_overhears (hover i hi n hsits) _
  simp only [List.append_nil] at hticked
  exact hticked

theorem arriving_of_later (h : ∀ p ∈ m.inFlight, m.now + 1 < p.due)
    (s : Station) : m.arriving s = [] := by
  have hdue : m.later.due = [] := by
    rw [Mesh.due, List.filter_eq_nil_iff]
    intro p hp
    rw [decide_eq_true_iff]
    exact Nat.not_le_of_lt (h p hp)
  rw [Mesh.arriving, hdue]
  rfl

/-- As long as nothing is due, the scene stays. -/
theorem Shows.ticked_of_later (h : c.Shows sc m)
    (hdue : ∀ p ∈ m.inFlight, m.now + 1 < p.due) :
    c.Shows sc m.ticked ∧ m.ticked.inFlight = m.inFlight := by
  constructor
  · refine h.overheard fun i _ n _ frame hframe => ?_
    rw [arriving_of_later hdue] at hframe
    cases hframe
  · rw [Mesh.ticked, m.fields_tickAll_deliverDue.2.2.2.2, List.filter_eq_self]
    intro p hp
    have hlater := hdue p hp
    simpa using hlater

/-- If nothing is in flight, a tick only gives the nodes their turns. -/
theorem Shows.ticked_of_idle (h : c.Shows sc m) (hflight : m.inFlight = []) :
    c.Shows sc m.ticked ∧ m.ticked.inFlight = [] := by
  obtain ⟨hticked, hkept⟩ := h.ticked_of_later fun p hp => by
    rw [hflight] at hp
    cases hp
  exact ⟨hticked, hkept.trans hflight⟩

/-- Nothing happens until the first packet is due. -/
theorem Shows.wait (h : c.Shows sc m) (hquiet : sc.out = fun _ => [])
    (hflight : m.inFlight ≠ [])
    (hdue : ∀ p ∈ m.inFlight, p.due = m.now + k + 1) :
    ∃ m', c.Shows sc m' ∧ m'.inFlight = m.inFlight ∧ m'.now = m.now + k ∧
      ∀ t m'', Mesh.Settles t m' m'' → Mesh.Settles (k + t) m m'' := by
  induction k generalizing m with
  | zero => exact ⟨m, h, rfl, rfl, fun t m'' hsettles => by rwa [Nat.zero_add]⟩
  | succ k ih =>
      obtain ⟨hticked, hkept⟩ := h.ticked_of_later fun p hp => by
        have := hdue p hp
        omega
      have hsent : m.step.inFlight = m.inFlight :=
        (hticked.inFlight_of_quiet fun i _ => by rw [hquiet]).trans hkept
      have hsame : sc.quiet = sc := by
        rw [Scene.quiet, ← hquiet]
      have hshows : c.Shows sc m.step := hsame ▸ hticked.transmitted
      obtain ⟨m', hm', hflight', hnow, hsettles⟩ :=
        ih hshows (by rwa [hsent]) fun p hp => by
        have := hdue p (hsent ▸ hp)
        rw [m.now_step]
        omega
      refine ⟨m', hm', hflight'.trans hsent, ?_, fun t m'' ht => ?_⟩
      · rw [hnow, m.now_step]
        omega
      · have hmore := Mesh.Settles.more (by rwa [hsent]) (hsettles t m'' ht)
        rwa [show k + t + 1 = k + 1 + t by omega] at hmore

theorem mem_inFlight_of_arriving {s : Station} {bytes : List UInt8}
    (h : bytes ∈ m.arriving s) : ∃ p ∈ m.inFlight, p.bytes = bytes := by
  obtain ⟨p, hp, hbytes⟩ := List.mem_map.1 h
  exact ⟨p, List.mem_of_mem_filter (List.mem_of_mem_filter hp), hbytes⟩

/-- A packet that is due reaches its station and no other. -/
theorem arriving_of_due {p : Packet} (hflight : m.inFlight = [p])
    (hdue : p.due = m.now + 1) (s : Station) :
    m.arriving s = if p.target = s then [p.bytes] else [] := by
  have hall : m.later.due = [p] := by
    rw [Mesh.due]
    show m.inFlight.filter _ = _
    rw [hflight]
    exact List.filter_cons_of_pos (decide_eq_true (Nat.le_of_eq hdue))
  rw [Mesh.arriving, hall, Mesh.bytesFor, List.filter_cons]
  split <;> simp_all

/-! ## From one node to the next -/

/-- What the node at a position does when a message of another one reaches
it. -/
def Reacts (c : Chain) (sc : Scene) (i j : Nat) (message : Message)
    (out : List Outbound) (e : Edition) : Prop :=
  ∀ n bytes header now, c.Sits sc j n → n.Proper →
    Frame.parse bytes = .ok ⟨header, message⟩ →
    header.sender = c.id i →
    ∃ r, Node.Turns n out r ((n.receivedAll [bytes]).tick now) ∧
      r.takeNotices.2 = c.replica j e

/-- A message goes from one node to another, which reacts to it. -/
theorem Shows.hop (h : c.Shows sc m.ticked) (hflight : m.ticked.inFlight = [])
    (hi : i ≤ c.last) (hout : sc.out = solely i [⟨c.id j, message⟩])
    (hadm : c.Admits sc i j) (hwritable : Writable message)
    {out : List Outbound} {e : Edition}
    (hreacts : c.Reacts sc.quiet i j message out e) :
    ∃ m', c.Shows ⟨Function.update sc.held j e, sc.up, sc.down,
      solely j out⟩ m'.ticked ∧
      m'.ticked.inFlight = [] ∧
      ∀ t m'', Mesh.Settles t m' m'' → Mesh.Settles (c.ticks + t) m m'' := by
  obtain ⟨bytes, header, hbytes, hparse, hsender⟩ := hwritable (c.id i)
  have hnow : m.ticked.now = m.now + 1 := m.fields_tickAll_deliverDue.2.2.2.1
  have hsent : m.step.inFlight =
      [⟨m.now + 1 + c.ticks, c.post i, c.post j, bytes⟩] := by
    rw [Mesh.step_eq_ticked,
      h.inFlight_of_solely hi hout hadm hbytes, hflight, hnow]
    rfl
  have hpos := c.ticks_pos
  obtain ⟨m', hm', hflight', hnow', hsettles⟩ :=
    Shows.wait (m := m.step) (k := c.ticks - 1) h.transmitted rfl
      (by rw [hsent]; simp) (by
      intro p hp
      rw [hsent, List.mem_singleton] at hp
      rw [hp, m.now_step]
      show m.now + 1 + c.ticks = _
      omega)
  rw [hsent] at hflight'
  have hdue : m.now + 1 + c.ticks = m'.now + 1 := by
    rw [hnow', m.now_step]
    omega
  have harriving := arriving_of_due hflight' hdue
  refine ⟨m', ?_, ?_, fun t m'' ht => ?_⟩
  · have hticked := hm'.ticked (Function.update sc.held j e) (solely j out)
      fun l hl n hn hsits => ?_
    · simp only [Scene.quiet, List.nil_append] at hticked
      exact hticked
    · rw [harriving]
      by_cases hlj : l = j
      · subst hlj
        rw [if_pos rfl, solely_self, Function.update_self]
        exact hreacts n bytes header _ hsits (hm'.proper _ n hn) hparse hsender
      · rw [if_neg fun hpost => hlj (c.post_inj hadm.1.1 hl hpost).symm,
          solely_of_ne _ hlj, Function.update_of_ne hlj]
        exact hsits.turns_of_overhears (fun frame hframe => by cases hframe) _
  · rw [Mesh.ticked, m'.fields_tickAll_deliverDue.2.2.2.2, hflight']
    simp [hdue]
  · have hmore := Mesh.Settles.more (by rw [hsent]; simp) (hsettles t m'' ht)
    rwa [show c.ticks - 1 + t + 1 = c.ticks + t by omega] at hmore

/-- The mesh has settled once nothing waits to be sent. -/
theorem Shows.rest (h : c.Shows sc m.ticked) (hflight : m.ticked.inFlight = [])
    (hquiet : sc.out = fun _ => []) :
    ∃ m', Mesh.Settles 1 m m' ∧ c.Shows sc m' ∧ m'.inFlight = [] := by
  have hrest : m.step.inFlight = [] :=
    (h.inFlight_of_quiet fun i _ => by rw [hquiet]).trans hflight
  have hsame : sc.quiet = sc := by rw [Scene.quiet, ← hquiet]
  exact ⟨m.step, .rest hrest, hsame ▸ h.transmitted, hrest⟩

/-! ## Reactions -/

/-- A message from a node that is shut out is dropped. -/
theorem reacts_of_closed (hi : i ≤ c.last) (hclosed : ¬ c.Admits sc j i) :
    c.Reacts sc i j message [] (sc.held j) := by
  intro n bytes header now hsits _ hparse hsender
  refine hsits.turns_of_overhears (fun frame hframe hadm => ?_) now
  obtain ⟨_, hbytes, hread⟩ := List.mem_filterMap.1 hframe
  rw [List.mem_singleton.1 hbytes, hparse] at hread
  cases hread
  exact absurd ((hsits.isAdmissible_iff hi).1 (hsender ▸ hadm)) hclosed

/-- What a message leads to if there is room for what it leads to. -/
theorem Sits.turns_of_receive (h : c.Sits sc j n) (hquiet : sc.out j = [])
    {bytes : List UInt8} {frame : Frame}
    (hparse : Frame.parse bytes = .ok frame) {out : List Outbound} {r : Replica}
    (hone : out.length ≤ 1)
    (hout : (n.flooding.receive frame n.replica n.links).out = out)
    (hr : (n.flooding.receive frame n.replica n.links).replica = r)
    (hnotices : n.role.canPublish = true → r.notices = []) (now : Nat) :
    Node.Turns n out r ((n.receivedAll [bytes]).tick now) := by
  have hin := c.inbound_pos
  have houtbound := c.outbound_pos
  refine Node.turns_of_receive h.started h.incoming hparse
    (by rwa [h.settings]) hout hr ?_
    hnotices now
  rw [h.outgoing, hquiet, h.settings]
  show 0 + out.length ≤ _
  omega

/-- A delta that starts where a node stands is applied and passed on. -/
theorem reacts_of_next {d : Delta} {e : Edition} (hadm : c.Admits sc (i + 1) i)
    (hheld : sc.held (i + 1) = e) (hbase : d.base = e.data.version)
    (hrises : d.base < d.target) (hquiet : sc.out (i + 1) = []) :
    c.Reacts sc i (i + 1) (.delta d) (c.onward sc.up (i + 1) (.delta d))
      ⟨d.apply e.data, some d⟩ := by
  subst hheld
  intro n bytes header now hsits hproper hparse hsender
  have hpublish : n.role.canPublish = false := by
    rw [hsits.role, Bool.eq_false_iff]
    exact fun h => absurd (canPublish_role_iff.1 h) (Nat.succ_ne_zero i)
  have hauthority : n.replica.authority = false :=
    hproper.upright.formed.authority.trans hpublish
  have hversion : n.replica.version = d.base :=
    (congrArg NetworkData.version hsits.data).trans
    hbase.symm
  have hadmits : n.links.isAdmissible header.sender = true := by
    rw [hsender]
    exact (hsits.isAdmissible_iff hadm.1.1).2 hadm
  have hreceive :=
    @Flooding.receive_of_next n.flooding ⟨header, .delta d⟩ _ _ d hadmits rfl
    hauthority (hversion ▸ hrises) hversion.symm
  refine ⟨n.replica.commit (d.apply n.replica.data) d,
    hsits.turns_of_receive hquiet hparse
    (c.length_onward_le sc.up (i + 1) _) ?_ (by rw [hreceive])
      (fun h => ?_) now, ?_⟩
  · rw [hreceive, ← hsits.passOn_eq hproper.upright.formed d, ← hsender]
    rfl
  · rw [hpublish] at h
    cases h
  · rw [hsits.replica]
    rfl

/-- A delta that ends before the version of a node is answered
with its latest one. -/
theorem reacts_of_behind {d last : Delta} (hadm : c.Admits sc j i)
    (hbehind : d.target < (sc.held j).data.version)
    (hlast : (sc.held j).lastDelta = some last) (hquiet : sc.out j = []) :
    c.Reacts sc i j (.delta d) [⟨c.id i, .delta last⟩] (sc.held j) := by
  intro n bytes header now hsits _ hparse hsender
  have hadmits : n.links.isAdmissible header.sender = true := by
    rw [hsender]
    exact (hsits.isAdmissible_iff hadm.1.1).2 hadm
  have hversion : n.replica.version = (sc.held j).data.version :=
    congrArg NetworkData.version hsits.data
  have hreceive :=
    @Flooding.receive_of_behind n.flooding ⟨header, .delta d⟩ n.replica _ d
    last hadmits rfl (hversion ▸ hbehind) (by rw [hsits.replica]; exact hlast)
  refine ⟨n.replica,
    hsits.turns_of_receive hquiet hparse (Nat.le_refl _) ?_ hreceive.2
    (fun _ => hsits.notices) now, ?_⟩
  · rw [hreceive.1, ← hsender]
    rfl
  · rw [hsits.replica]
    rfl

/-! ## The wave of a delta -/

/-- One edition up to a position, and another one behind it. -/
def upTo (i : Nat) (new old : Edition) : Nat → Edition :=
  fun k => if k ≤ i then new else old

theorem update_upTo (i : Nat) (new old : Edition) :
    Function.update (upTo i new old) (i + 1) new = upTo (i + 1) new old := by
  funext k
  rw [Function.update_apply, upTo, upTo]
  by_cases hk : k = i + 1
  · rw [if_pos hk, if_pos (Nat.le_of_eq hk)]
  · rw [if_neg hk]
    exact if_congr (by omega) rfl rfl

/-- A delta that has got to a position runs over the chain as far as it is open,
one link after the other. -/
theorem Shows.flooded {d : Delta} {new old : NetworkData}
    {before : Option Delta} {up down : Bool} (hd : d = Delta.between old new)
    (hrises : old.version < new.version) (hwritable : Writable (.delta d))
    (hopen : up = true → down = true) {left : Nat}
    (hleft : i + left = c.reach up)
    (h : c.Shows ⟨upTo i ⟨new, some d⟩ ⟨old, before⟩, up, down,
      solely i (c.onward up i (.delta d))⟩ m.ticked)
    (hflight : m.ticked.inFlight = []) :
    ∃ m', Mesh.Settles (1 + left * c.ticks) m m' ∧
      c.Shows ⟨upTo (c.reach up) ⟨new, some d⟩ ⟨old, before⟩, up, down,
        fun _ => []⟩ m' ∧
      m'.inFlight = [] := by
  induction left generalizing i m with
  | zero =>
      obtain rfl : i = c.reach up := hleft
      have hnone : c.onward up (c.reach up) (.delta d) = [] :=
        if_neg (lt_irrefl _)
      rw [hnone, solely_nil] at h
      obtain ⟨m', hsettles, hshows, hrest⟩ := h.rest hflight rfl
      exact ⟨m', by rwa [Nat.zero_mul, Nat.add_zero], hshows, hrest⟩
  | succ left ih =>
      have hle := c.reach_le up
      have hfurther : i < c.reach up := by omega
      have hnext : c.Admits ⟨upTo i ⟨new, some d⟩ ⟨old, before⟩, up, down,
          fun _ => []⟩ i (i + 1) :=
        admits_succ_iff.2 hfurther
      have hback : c.Admits ⟨upTo i ⟨new, some d⟩ ⟨old, before⟩, up, down,
          fun _ => []⟩ (i + 1) i :=
        admits_of_succ hopen hfurther
      have hold : upTo i ⟨new, some d⟩ ⟨old, before⟩ (i + 1) = ⟨old, before⟩ :=
        if_neg (Nat.not_succ_le_self i)
      have hreacts := reacts_of_next (d := d) hback hold (by rw [hd]; rfl)
        (by rw [hd]; exact hrises)
        rfl
      obtain ⟨m₁, hshows, hrest, hmore⟩ := h.hop hflight (by omega)
        (by rw [onward, if_pos hfurther]) hnext hwritable hreacts
      have hnew : d.apply old = new := by rw [hd, Delta.apply_between]
      rw [hnew, update_upTo] at hshows
      obtain ⟨m', hsettles, hend, hempty⟩ := ih (by omega) hshows hrest
      refine ⟨m', ?_, hend, hempty⟩
      have htotal := hmore _ _ hsettles
      have hsum : c.ticks + (1 + left * c.ticks) =
          1 + (left + 1) * c.ticks := by
        rw [Nat.succ_mul]
        omega
      rwa [hsum] at htotal

/-- A chain on which the leader has just published settles as far as it is
open. -/
theorem Shows.published {d : Delta} {new old : NetworkData}
    {before : Option Delta} {up down : Bool} (hd : d = Delta.between old new)
    (hrises : old.version < new.version) (hwritable : Writable (.delta d))
    (hopen : up = true → down = true)
    (h : c.Shows ⟨Function.update (fun _ => ⟨old, before⟩) 0 ⟨new, some d⟩, up,
      down, solely 0 (c.onward up 0 (.delta d))⟩ m)
    (hflight : m.inFlight = []) :
    ∃ m', Mesh.Settles (1 + c.reach up * c.ticks) m m' ∧
      c.Shows ⟨upTo (c.reach up) ⟨new, some d⟩ ⟨old, before⟩, up, down,
        fun _ => []⟩ m' ∧
      m'.inFlight = [] := by
  have hheld :
      Function.update (fun _ => (⟨old, before⟩ : Edition)) 0 ⟨new, some d⟩ =
      upTo 0 ⟨new, some d⟩ ⟨old, before⟩ := by
    funext k
    rw [Function.update_apply, upTo]
    exact if_congr Nat.le_zero.symm rfl rfl
  rw [hheld] at h
  obtain ⟨hticked, hidle⟩ := h.ticked_of_idle hflight
  exact hticked.flooded hd hrises hwritable hopen (Nat.zero_add _) hidle

/-! ## The last link is opened again -/

section Reopened

variable {d : Delta} (hlast : i + 1 = c.last)

include hlast

/-- As long as the leaf shuts out the node before it, the greeting
of that node is lost. -/
theorem Shows.greeted {held : Nat → Edition} (hwritable : Writable (.delta d))
    (h : c.Shows ⟨held, true, false, solely i [⟨c.id (i + 1), .delta d⟩]⟩ m)
    (hflight : m.inFlight = []) :
    ∃ m', Mesh.Settles (1 + c.ticks) m m' ∧
    c.Shows ⟨held, true, false, fun _ => []⟩ m' ∧
      m'.inFlight = [] := by
  obtain ⟨hticked, hidle⟩ := h.ticked_of_idle hflight
  have hadm : c.Admits
      ⟨held, true, false, solely i [⟨c.id (i + 1), .delta d⟩]⟩ i (i + 1) :=
    ⟨⟨by omega, Or.inl rfl⟩, fun _ _ => rfl, by omega⟩
  have hclosed : ¬ c.Admits ⟨held, true, false, fun _ => []⟩ (i + 1) i :=
    fun h => absurd (h.2.2 rfl hlast) (by simp)
  obtain ⟨m₁, hshows, hrest, hmore⟩ := hticked.hop hidle (by omega) rfl hadm
    hwritable (reacts_of_closed (by omega) hclosed)
  rw [solely_nil] at hshows
  obtain ⟨m', hsettles, hend, hempty⟩ := hshows.rest hrest rfl
  refine ⟨m', Nat.add_comm 1 c.ticks ▸ hmore 1 m' hsettles, ?_, hempty⟩
  have hheld : Function.update held (i + 1) (held (i + 1)) = held :=
    Function.update_eq_self _ _
  simp only [Scene.quiet] at hend
  rw [hheld] at hend
  exact hend

/-- A leaf that greets the node before it with an old delta is
brought up to date. -/
theorem Shows.repaired {first : Delta} {new old : NetworkData}
    (hd : d = Delta.between old new) (hfirst : first.target = old.version)
    (hrises : old.version < new.version) (hwritable : Writable (.delta d))
    (hwritableFirst : Writable (.delta first))
    (h : c.Shows ⟨upTo i ⟨new, some d⟩ ⟨old, some first⟩, true, true,
      solely (i + 1) [⟨c.id i, .delta first⟩]⟩ m) (hflight : m.inFlight = []) :
    ∃ m', Mesh.Settles (1 + 2 * c.ticks) m m' ∧
      c.Shows ⟨upTo (i + 1) ⟨new, some d⟩ ⟨old, some first⟩, true, true,
        fun _ => []⟩ m' ∧
      m'.inFlight = [] := by
  obtain ⟨hticked, hidle⟩ := h.ticked_of_idle hflight
  let held := upTo i ⟨new, some d⟩ ⟨old, some first⟩
  have hheld : held i = ⟨new, some d⟩ := if_pos (Nat.le_refl i)
  have hlag : held (i + 1) = ⟨old, some first⟩ :=
    if_neg (Nat.not_succ_le_self i)
  have hback : ∀ out, c.Admits ⟨held, true, true, out⟩ (i + 1) i := fun out =>
    ⟨⟨by omega, Or.inr rfl⟩, fun _ _ => rfl, fun _ _ => rfl⟩
  have hforth : ∀ out, c.Admits ⟨held, true, true, out⟩ i (i + 1) := fun out =>
    ⟨⟨by omega, Or.inl rfl⟩, fun _ _ => rfl, fun _ _ => rfl⟩
  have hnothing : c.onward true (i + 1) (.delta d) = [] := by
    refine if_neg ?_
    show ¬ i + 1 < c.last
    omega
  obtain ⟨m₁, hasked, hrest₁, hmore₁⟩ := hticked.hop hidle (by omega) rfl
    (hback _) hwritableFirst (reacts_of_behind (hforth _)
      (by rw [hfirst]; show _ < (held i).data.version; rw [hheld]; exact hrises)
      (by show (held i).lastDelta = _; rw [hheld]) rfl)
  have hsame : Function.update held i (held i) = held :=
    Function.update_eq_self _ _
  simp only [Scene.quiet] at hasked
  rw [hsame] at hasked
  obtain ⟨m₂, htold, hrest₂, hmore₂⟩ :=
    hasked.hop hrest₁ (by omega) rfl (hforth _) hwritable
    (reacts_of_next (hback _) hlag (by rw [hd]; rfl)
      (by rw [hd]; exact hrises) rfl)
  have hnew : d.apply old = new := by rw [hd, Delta.apply_between]
  simp only [Scene.quiet] at htold
  rw [hnew, hnothing, solely_nil, update_upTo] at htold
  obtain ⟨m', hsettles, hend, hempty⟩ := htold.rest hrest₂ rfl
  refine ⟨m', ?_, hend, hempty⟩
  have htotal := hmore₁ _ _ (hmore₂ _ _ hsettles)
  rwa [show c.ticks + (c.ticks + 1) = 1 + 2 * c.ticks by omega] at htotal

end Reopened

/-! ## Requests -/

theorem writable_snapshotRequest (v : Version) :
    Writable (.snapshotRequest v) := fun sender =>
  @Frame.serialize_of_within ∅ (fun _ h => h.elim) sender _ trivial

section Asked

variable {e : Edition} {out : Nat → List Outbound}
  (hrequests : ∀ i ≤ c.last, ∀ o ∈ out i,
    o.message = .snapshotRequest e.data.version)
  (hfirst : out 0 = [⟨c.id 1, .snapshotRequest e.data.version⟩])

/-- What is put on the wire by a mesh on which nothing is in flight. -/
theorem inFlight_transmitAll (hidle : m.inFlight = []) :
    m.transmitAll.inFlight = m.popped.arrivals m.posted := by
  obtain ⟨tally, heq⟩ := m.transmitAll_spec
  rw [heq, hidle]
  rfl

include hrequests in
/-- Requests are all that is put on the wire. -/
theorem Shows.packets_of_requests (h : c.Shows ⟨fun _ => e, true, true, out⟩ m)
    (hidle : m.inFlight = []) :
    ∀ p ∈ m.transmitAll.inFlight, p.due = m.now + c.ticks ∧ ∃ header,
      Frame.parse p.bytes = .ok ⟨header, .snapshotRequest e.data.version⟩ := by
  intro p hp
  rw [inFlight_transmitAll hidle] at hp
  obtain ⟨l, hl, -, hp⟩ := Mesh.mem_arrivals_iff.1 hp
  obtain ⟨i, hi, o, ho, hbytes⟩ := h.of_mem_posted hl
  rw [hrequests i hi o ho] at hbytes
  obtain ⟨bytes, header, hwrite, hparse, -⟩ :=
    writable_snapshotRequest e.data.version (c.id i)
  cases hbytes.symm.trans hwrite
  rw [hp]
  refine ⟨?_, header, hparse⟩
  show m.now + m.popped.latency _ _ = _
  rw [h.popped.latency]

include hfirst in
/-- The request of the leader is put on the wire. -/
theorem Shows.inFlight_of_request (h : c.Shows ⟨fun _ => e, true, true, out⟩ m)
    (hidle : m.inFlight = []) : m.transmitAll.inFlight ≠ [] := by
  obtain ⟨n, hn, hsits⟩ := h.node 0 (Nat.zero_le _)
  obtain ⟨bytes, -, hwrite, -, -⟩ :=
    writable_snapshotRequest e.data.version (c.id 0)
  have hone := c.last_pos
  have hletters := hsits.letters_of_one hfirst
    ⟨⟨hone, Or.inl rfl⟩, fun _ _ => rfl, by omega⟩ hwrite (c.post 0)
  have hmem : (⟨c.post 0, c.id 1, bytes⟩ : Mesh.Letter) ∈ m.posted :=
    Mesh.mem_posted_iff.2
      ⟨n, hn, by rw [hletters]; exact List.mem_singleton_self _⟩
  have hlocate : m.popped.locate? (c.id 1) = some (c.post 1) :=
    h.popped.locate?_id hone
  rw [inFlight_transmitAll hidle]
  exact List.ne_nil_of_mem
    (List.mem_filterMap.2 ⟨_, hmem, by rw [hlocate]; rfl⟩)

include hrequests hfirst in
/-- Requests of nodes that lack nothing are put on the wire and lead to
nothing. -/
theorem Shows.asked (h : c.Shows ⟨fun _ => e, true, true, out⟩ m)
    (hflight : m.inFlight = []) :
    ∃ m', Mesh.Settles (1 + c.ticks) m m' ∧
    c.Shows ⟨fun _ => e, true, true, fun _ => []⟩ m' ∧
      m'.inFlight = [] := by
  obtain ⟨hticked, hidle⟩ := h.ticked_of_idle hflight
  have hnow : m.ticked.now = m.now + 1 := m.fields_tickAll_deliverDue.2.2.2.1
  have hshows : c.Shows ⟨fun _ => e, true, true, fun _ => []⟩ m.step :=
    hticked.transmitted
  have hsome : m.step.inFlight ≠ [] :=
    Shows.inFlight_of_request hfirst hticked hidle
  have hpackets := Shows.packets_of_requests hrequests hticked hidle
  rw [← m.step_eq_ticked, hnow] at hpackets
  have hpos := c.ticks_pos
  obtain ⟨m₁, hm₁, hflight₁, hnow₁, hmore⟩ :=
    hshows.wait (k := c.ticks - 1) rfl hsome
    fun p hp => by
      rw [(hpackets p hp).1, m.now_step]
      omega
  have hdue : m₁.now + 1 = m.now + 1 + c.ticks := by
    rw [hnow₁, m.now_step]
    omega
  -- a node that is asked for what it holds has nothing to answer
  have hover := hm₁.overheard fun i _ n hsits frame hframe _ => by
    obtain ⟨bytes, hbytes, hread⟩ := List.mem_filterMap.1 hframe
    obtain ⟨p, hp, rfl⟩ := mem_inFlight_of_arriving hbytes
    obtain ⟨-, header, hparse⟩ := hpackets p (hflight₁ ▸ hp)
    rw [hparse] at hread
    cases hread
    exact ⟨_, rfl, le_of_eq (congrArg NetworkData.version hsits.data)⟩
  have hempty : m₁.ticked.inFlight = [] := by
    rw [Mesh.ticked, m₁.fields_tickAll_deliverDue.2.2.2.2, hflight₁,
      List.filter_eq_nil_iff]
    intro p hp
    rw [(hpackets p hp).1, hdue]
    simp
  obtain ⟨m', hsettles, hend, hrest⟩ := hover.rest hempty rfl
  refine ⟨m', ?_, hend, hrest⟩
  have htotal := Mesh.Settles.more hsome (hmore _ _ hsettles)
  rwa [show c.ticks - 1 + 1 + 1 = 1 + c.ticks by omega] at htotal

end Asked

end Chain

end OnMesh
