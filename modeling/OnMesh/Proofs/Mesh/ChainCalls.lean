import OnMesh.Proofs.Mesh.Chain

/-!
# Calls on a chain

A call on the node at one position changes the scene there and nowhere else.  A
neighbour that is shut out is not told of it; one that is let in again is
greeted with the latest delta.  A leader that publishes a new prefix pushes it
to the next node, if it admits it.
-/

namespace OnMesh

open Wire (Frame Message)

namespace Chain

variable {c : Chain} {sc sc' : Scene} {i j k : Nat} {m : Mesh} {n : Node}

/-- The node at a position sits in every scene that differs elsewhere. -/
theorem Sits.of_same (h : c.Sits sc k n) (hheld : sc'.held k = sc.held k)
    (hout : sc'.out k = sc.out k)
    (hadmits : ∀ j, c.Admits sc' k j ↔ c.Admits sc k j) : c.Sits sc' k n where
  id := h.id
  role := h.role
  settings := h.settings
  started := h.started
  knows := h.knows
  admits := by simpa only [hadmits] using h.admits
  replica := by rw [hheld, h.replica]
  retiring := h.retiring
  incoming := h.incoming
  outgoing := by rw [hout, h.outgoing]

/-- After a call the node at its position sits in the new scene,
and so do all others. -/
theorem Shows.call (h : c.Shows sc m) (hi : i ≤ c.last) {call : Node.Call}
    (hself : ∀ n, m.nodes.get? (c.post i) = some n → c.Sits sc i n →
      c.Sits sc' i (n.after call))
    (hothers : ∀ k ≤ c.last, k ≠ i → sc'.held k = sc.held k ∧
      sc'.out k = sc.out k ∧ ∀ j, c.Admits sc' k j ↔ c.Admits sc k j) :
    c.Shows sc' (m.call (c.post i) call) := by
  have heq := m.call_eq (c.post i) call
  refine h.map (m.get?_call (c.post i) call) (by rw [heq])
    (by rw [heq]) (by rw [heq])
    (Mesh.Each.call (fun _ _ c hn => hn.after c) h.proper _ _)
      fun k hk x hx hsits => ?_
  by_cases hki : k = i
  · subst hki
    rw [if_pos rfl]
    exact hself x hx hsits
  · rw [if_neg fun hpost => hki (c.post_inj hk hi hpost)]
    obtain ⟨hheld, hout, hadmits⟩ := hothers k hk hki
    exact hsits.of_same hheld hout hadmits

/-! ## Links -/

/-- Changing how one node of the chain treats another is a call on the first
one. -/
theorem Shows.setAdmissible_eq (h : c.Shows sc m) (hi : i ≤ c.last)
    (hj : j ≤ c.last) (admissible : Bool) :
    ∃ transition, m.setAdmissible (c.post i) (c.post j) admissible =
      (.ok transition,
        m.call (c.post i) (.setAdmissible (c.id j) admissible)) := by
  obtain ⟨x, hx, -⟩ := h.node i hi
  obtain ⟨y, hy, hsits⟩ := h.node j hj
  rw [← hsits.id]
  exact Mesh.setAdmissible_eq hx hy admissible

/-- What the node at a position admits once it treats a neighbour otherwise. -/
theorem Sits.admits_setAdmissible (h : c.Sits sc i n) (hadj : c.Adjacent i j)
    (admissible : Bool)
    (hrow : ∀ k, c.Admits sc' i k ↔
      if k = j then admissible = true else c.Admits sc i k) (b : NodeId) :
    (n.links.setAdmissible (c.id j) admissible).2.isAdmissible b = true ↔
    ∃ k, c.Admits sc' i k ∧ b = c.id k := by
  by_cases hb : b = c.id j
  · subst hb
    rw [Links.isAdmissible_setAdmissible_self, h.knows j hadj, Bool.true_and]
    constructor
    · intro hyes
      exact ⟨j, (hrow j).2 (by rwa [if_pos rfl]), rfl⟩
    · rintro ⟨k, hk, hid⟩
      obtain rfl := c.id_inj hadj.1 hk.1.1 hid
      have hrow := (hrow j).1 hk
      rwa [if_pos rfl] at hrow
  · rw [Links.isAdmissible_setAdmissible_of_ne admissible hb]
    refine (h.admits b).trans
      (exists_congr fun k => and_congr_left fun hid => ?_)
    rw [hrow, if_neg]
    rintro rfl
    exact hb hid

/-- A neighbour that is shut out is sent nothing. -/
theorem Shows.shut (h : c.Shows sc m) (hi : i ≤ c.last) (hadj : c.Adjacent i j)
    (hrow : ∀ k, c.Admits sc' i k ↔ if k = j then False else c.Admits sc i k)
    (hrows : ∀ l, l ≠ i → ∀ k, c.Admits sc' l k ↔ c.Admits sc l k)
    (hheld : sc'.held = sc.held) (hout : sc'.out = sc.out) :
    c.Shows sc' (m.call (c.post i) (.setAdmissible (c.id j) false)) := by
  refine h.call hi (fun n _ hsits => ?_) fun k _ hki =>
    ⟨by rw [hheld], by rw [hout], hrows k hki⟩
  have hadmits := hsits.admits_setAdmissible hadj false (by simpa using hrow)
  have hcall : n.after (.setAdmissible (c.id j) false) = _ :=
    Node.setAdmissible_of_silent (Or.inr rfl)
  rw [hcall]
  exact ⟨hsits.id, hsits.role, hsits.settings, hsits.started,
    fun k hk => by
    rw [Links.hasNeighbour_setAdmissible]; exact hsits.knows k hk, hadmits, by
      rw [hheld]; exact hsits.replica, hsits.retiring, hsits.incoming, by
      rw [hout]; exact hsits.outgoing⟩

/-- A neighbour that is let in again is greeted. -/
theorem Shows.admit (h : c.Shows sc m) (hi : i ≤ c.last) (hadj : c.Adjacent i j)
    (hclosed : ¬ c.Admits sc i j)
    (hrow : ∀ k, c.Admits sc' i k ↔ if k = j then True else c.Admits sc i k)
    (hrows : ∀ l, l ≠ i → ∀ k, c.Admits sc' l k ↔ c.Admits sc l k)
    (hheld : sc'.held = sc.held) (hquiet : sc.out = fun _ => [])
    (hout : sc'.out =
      solely i [⟨c.id j, Flooding.greeting (c.replica i (sc.held i))⟩]) :
    c.Shows sc' (m.call (c.post i) (.setAdmissible (c.id j) true)) := by
  refine h.call hi (fun n _ hsits => ?_) fun k _ hki =>
    ⟨by rw [hheld], ?_, hrows k hki⟩
  · have hadmits := hsits.admits_setAdmissible hadj true (by simpa using hrow)
    have hnot : n.isAdmissible (c.id j) = false :=
      Bool.eq_false_iff.2 fun hadm =>
        hclosed ((hsits.isAdmissible_iff hadj.1).1 hadm)
    have hempty : n.outgoing = [] := by rw [hsits.outgoing, hquiet]; rfl
    obtain ⟨flooding, tally, -, hcall⟩ :=
      Node.setAdmissible_of_restored hsits.started
      (hsits.knows j hadj) hnot (by
        rw [hempty, hsits.settings]
        exact c.outbound_pos)
    have hafter : n.after (.setAdmissible (c.id j) true) = _ := hcall
    rw [hafter]
    refine ⟨hsits.id, hsits.role, hsits.settings, hsits.started,
      fun k hk => by
      rw [Node.queued, Links.hasNeighbour_setAdmissible];
        exact hsits.knows k hk, hadmits, by
        rw [hheld]; exact hsits.replica, hsits.retiring, hsits.incoming, ?_⟩
    show n.outgoing ++ _ = _
    rw [hempty, hout, solely_self, hsits.replica]
    rfl
  · rw [hout, hquiet, solely_of_ne _ hki]

/-! ## The last link -/

section LastLink

variable (hlast : i + 1 = c.last)

include hlast

/-- The node before the leaf decides whether it admits the leaf, and nothing
else. -/
theorem admits_with_up (sc : Scene) (up : Bool) (out : Nat → List Outbound) :
    c.Admits { sc with up, out } k j ↔ if k = i ∧ j = i + 1 then up = true
      else c.Admits sc k j := by
  simp only [Admits, Adjacent]
  grind

/-- The leaf decides whether it admits the node before it, and nothing else. -/
theorem admits_with_down (sc : Scene) (down : Bool)
    (out : Nat → List Outbound) :
    c.Admits { sc with down, out } k j ↔
      if k = i + 1 ∧ j = i then down = true else c.Admits sc k j := by
  simp only [Admits, Adjacent]
  grind

/-- The leaf is shut out. -/
theorem Shows.leafShutOut (h : c.Shows sc m) :
    c.Shows { sc with up := false }
      (m.call (c.post i) (.setAdmissible (c.id (i + 1)) false)) := by
  refine h.shut (by omega) ⟨by omega, Or.inl rfl⟩ (fun k => ?_)
    (fun l hl k => ?_) rfl rfl
  · rw [admits_with_up hlast sc false sc.out]
    simp
  · rw [admits_with_up hlast sc false sc.out, if_neg fun hk => hl hk.1]

/-- The leaf shuts out the node before it. -/
theorem Shows.leafShuts (h : c.Shows sc m) :
    c.Shows { sc with down := false }
      (m.call (c.post (i + 1)) (.setAdmissible (c.id i) false)) := by
  refine h.shut (by omega) ⟨by omega, Or.inr rfl⟩ (fun k => ?_)
    (fun l hl k => ?_) rfl rfl
  · rw [admits_with_down hlast sc false sc.out]
    simp
  · rw [admits_with_down hlast sc false sc.out, if_neg fun hk => hl hk.1]

/-- The leaf is admitted again, and greeted. -/
theorem Shows.leafAdmitted (h : c.Shows sc m) (hclosed : sc.up = false)
    (hquiet : sc.out = fun _ => []) :
    c.Shows { sc with
        up := true
        out := solely i
          [⟨c.id (i + 1), Flooding.greeting (c.replica i (sc.held i))⟩] }
      (m.call (c.post i) (.setAdmissible (c.id (i + 1)) true)) := by
  refine h.admit (by omega) ⟨by omega, Or.inl rfl⟩
    (fun hadm => ?_) (fun k => ?_)
    (fun l hl k => ?_) rfl hquiet rfl
  · rw [hadm.2.1 rfl hlast] at hclosed
    cases hclosed
  · rw [admits_with_up hlast sc true _]
    simp
  · rw [admits_with_up hlast sc true _, if_neg fun hk => hl hk.1]

/-- The leaf admits the node before it again, and greets it. -/
theorem Shows.leafAdmits (h : c.Shows sc m) (hclosed : sc.down = false)
    (hquiet : sc.out = fun _ => []) :
    c.Shows { sc with
        down := true
        out := solely (i + 1)
          [⟨c.id i, Flooding.greeting (c.replica (i + 1) (sc.held (i + 1)))⟩] }
      (m.call (c.post (i + 1)) (.setAdmissible (c.id i) true)) := by
  refine h.admit (by omega) ⟨by omega, Or.inr rfl⟩
    (fun hadm => ?_) (fun k => ?_)
    (fun l hl k => ?_) rfl hquiet rfl
  · rw [hadm.2.2 rfl hlast] at hclosed
    cases hclosed
  · rw [admits_with_down hlast sc true _]
    simp
  · rw [admits_with_down hlast sc true _, if_neg fun hk => hl hk.1]

end LastLink

/-! ## Neighbours that are told -/

/-- The one neighbour that is admitted and not skipped is told. -/
theorem Sits.admissibleExcept_eq (h : c.Sits sc i n) {skipped : Option NodeId}
    (hadm : c.Admits sc i j) (hne : skipped ≠ some (c.id j))
    (hother : ∀ k, c.Admits sc i k → k ≠ j → skipped = some (c.id k)) :
    n.links.admissibleExcept skipped = [c.id j] := by
  refine List.perm_singleton.1 ((List.perm_ext_iff_of_nodup
    (n.links.nodup_admissibleExcept skipped) (List.nodup_singleton _)).2
      fun b => ?_)
  rw [Links.mem_admissibleExcept_iff, List.mem_singleton]
  constructor
  · rintro ⟨hyes, hnot⟩
    obtain ⟨k, hk, rfl⟩ := (h.admits b).1 hyes
    by_cases hkj : k = j
    · rw [hkj]
    · exact absurd (hother k hk hkj) hnot
  · rintro rfl
    exact ⟨(h.admits _).2 ⟨j, hadm, rfl⟩, hne⟩

/-- If all neighbours that are admitted are skipped, nobody is told. -/
theorem Sits.admissibleExcept_eq_nil (h : c.Sits sc i n)
    {skipped : Option NodeId}
    (hskipped : ∀ k, c.Admits sc i k → skipped = some (c.id k)) :
    n.links.admissibleExcept skipped = [] := by
  rw [List.eq_nil_iff_forall_not_mem]
  intro b hb
  obtain ⟨hyes, hnot⟩ := Links.mem_admissibleExcept_iff.1 hb
  obtain ⟨k, hk, rfl⟩ := (h.admits b).1 hyes
  exact hnot (hskipped k hk)

/-- How far a message of the leader gets. -/
def reach (c : Chain) (up : Bool) : Nat := if up then c.last else c.last - 1

theorem reach_le (c : Chain) (up : Bool) : c.reach up ≤ c.last := by
  rw [reach]
  split
  · exact Nat.le_refl _
  · exact Nat.sub_le _ _

theorem admits_succ_iff : c.Admits sc i (i + 1) ↔ i < c.reach sc.up := by
  have hpos := c.last_pos
  rw [Admits, Adjacent, reach]
  cases sc.up with
  | true => simp; omega
  | false => simp; omega

/-- Within reach the links are open on both sides, if the last one is
where it is in reach. -/
theorem admits_of_succ (hopen : sc.up = true → sc.down = true)
    (hi : i < c.reach sc.up) : c.Admits sc (i + 1) i := by
  have hle := c.reach_le sc.up
  refine ⟨⟨by omega, Or.inr rfl⟩, by omega, fun _ hlast => hopen ?_⟩
  cases hup : sc.up with
  | true => rfl
  | false =>
      rw [hup] at hi
      have : c.reach false = c.last - 1 := rfl
      omega

theorem admits_zero_iff : c.Admits sc 0 j ↔ j = 1 ∧ 0 < c.reach sc.up := by
  rw [← admits_succ_iff]
  constructor
  · intro h
    obtain rfl : j = 1 := by
      obtain ⟨⟨-, hj⟩, -, -⟩ := h
      omega
    exact ⟨rfl, h⟩
  · rintro ⟨rfl, h⟩
    exact h

/-- What the node at a position tells the next one. -/
def onward (c : Chain) (up : Bool) (i : Nat) (message : Message) :
    List Outbound :=
  if i < c.reach up then [⟨c.id (i + 1), message⟩] else []

theorem length_onward_le (c : Chain) (up : Bool) (i : Nat) (message : Message) :
    (c.onward up i message).length ≤ 1 := by
  rw [onward]
  split
  · exact Nat.le_refl _
  · exact Nat.zero_le _

/-- The leader pushes a delta to the next node. -/
theorem Sits.fanOut_eq (h : c.Sits sc 0 n) (d : Delta) :
    Flooding.fanOut d n.links none = c.onward sc.up 0 (.delta d) := by
  rw [Flooding.fanOut, onward]
  split
  · next hreach =>
      rw [h.admissibleExcept_eq (admits_succ_iff.2 hreach)
        (by simp) fun k hk hne =>
        absurd (admits_zero_iff.1 hk).1 hne]
      rfl
  · next hreach =>
      rw [h.admissibleExcept_eq_nil fun k hk =>
        absurd (admits_zero_iff.1 hk).2 hreach]
      rfl

/-- Any other node passes a delta on to the next one, if there is one. -/
theorem Sits.passOn_eq (h : c.Sits sc (i + 1) n) (hformed : n.Formed)
    (d : Delta) :
    n.flooding.passOn d n.links (c.id i) =
      c.onward sc.up (i + 1) (.delta d) := by
  have hforwards : n.flooding.role.forwards = true ↔ i + 1 ≠ c.last := by
    rw [hformed.flooding, h.role]
    exact forwards_role_iff (Nat.succ_ne_zero i)
  have hback : ∀ k, c.Admits sc (i + 1) k → k ≠ i + 1 + 1 → k = i := by
    rintro k ⟨⟨-, hk⟩, -, -⟩ hne
    omega
  have hle := c.reach_le sc.up
  by_cases hreach : i + 1 < c.reach sc.up
  · have hnext : c.Admits sc (i + 1) (i + 1 + 1) := admits_succ_iff.2 hreach
    have hne : (some (c.id i)) ≠ some (c.id (i + 1 + 1)) := by
      intro hsame
      have hid := c.id_inj (show i ≤ c.last by omega) hnext.1.1
        (Option.some.inj hsame)
      omega
    rw [Flooding.passOn, if_pos (hforwards.2 (by omega)), Flooding.fanOut,
      onward, if_pos hreach,
      h.admissibleExcept_eq hnext hne fun k hk hk' => by rw [hback k hk hk']]
    rfl
  · have hskipped : ∀ k, c.Admits sc (i + 1) k →
        some (c.id i) = some (c.id k) := by
      intro k hk
      rw [hback k hk]
      rintro rfl
      exact hreach (admits_succ_iff.1 hk)
    rw [Flooding.passOn, Flooding.fanOut, h.admissibleExcept_eq_nil hskipped,
      onward, if_neg hreach]
    exact ite_self _

/-! ## Publishing -/

/-- Any node can write the message. -/
def Writable (message : Message) : Prop :=
  ∀ sender, ∃ bytes header, (Frame.make sender message).serialize = .ok bytes ∧
    Frame.parse bytes = .ok ⟨header, message⟩ ∧ header.sender = sender

/-- What the leader makes of its data by publishing a prefix, and
how it tells others. -/
structure Issued (c : Chain) (old : NetworkData) (net : Prefix) (flags : Flags)
    (new : NetworkData) (d : Delta) : Prop where
  delta : d = Delta.between old new
  prefixes : new.prefixes = old.prefixes.insert net ⟨flags, c.id 0⟩
  version : new.version = old.version.next
  writable : Writable (.delta d)

section Publish

variable {net : Prefix} (hquiet : sc.out = fun _ => [])
  (hnew : (sc.held 0).data.prefixes.contains net = false)
  (hspare : (sc.held 0).data.prefixes.size < c.settings.contextRange.size)
  (hrises : (sc.held 0).data.version < (sc.held 0).data.version.next)

theorem Sits.stocked (h : c.Sits sc 0 n) (hproper : n.Proper) :
    n.Stocked ∧ n.role.canPublish = true :=
  ⟨hproper.upright.stocked, by rw [h.role, role_zero]; rfl⟩

include hquiet hnew hspare hrises

/-- A leader that has an id to spare and nothing to send
publishes a new prefix. -/
theorem Sits.issues (h : c.Sits sc 0 n) (hproper : n.Proper) (flags : Flags) :
    Node.Issues n net flags (n.addPrefix net flags).2 ∧
      (n.addPrefix net flags).1 = .ok (n.addPrefix net flags).2.version := by
  obtain ⟨hstocked, hpublish⟩ := h.stocked hproper
  have hdata : n.data = (sc.held 0).data := h.data
  have hempty : n.outgoing = [] := by
    rw [h.outgoing, hquiet]
    rfl
  rw [← hdata] at hnew hspare hrises
  have hcontexts : n.data.contexts.size < n.settings.contextRange.size := by
    rw [h.settings]
    exact Nat.lt_of_le_of_lt
      (hstocked hpublish).inStep.contexts_le_prefixes hspare
  have hroom : n.outgoing.length + n.links.admissible.length ≤
      n.settings.maxOutbound := by
    have hfan :=
      congrArg List.length (h.fanOut_eq (Delta.between n.data n.data))
    rw [Flooding.fanOut, List.length_map] at hfan
    have hone :=
      c.length_onward_le sc.up 0 (.delta (Delta.between n.data n.data))
    have hpos := c.outbound_pos
    rw [hempty, h.settings, Links.admissible, List.length_nil]
    omega
  have hissues :=
    Node.issues_addPrefix hstocked hpublish h.notices h.started h.retiring hnew
    hcontexts hrises hroom flags
  have hanswer :=
    (Node.publish_of_spare hstocked hpublish h.notices h.retiring hnew hcontexts
    flags).1
  exact ⟨hissues, hanswer.trans (congrArg Except.ok hissues.version.symm)⟩

omit hnew hspare hrises in
/-- After publishing, the leader sits where it sat, and has a
delta for the next node. -/
theorem Sits.of_issues (h : c.Sits sc 0 n) (hproper : n.Proper) {flags : Flags}
    (hissues : Node.Issues n net flags (n.addPrefix net flags).2)
    (hheld : sc'.held 0 = ⟨(n.addPrefix net flags).2.data,
      some (Delta.between n.data (n.addPrefix net flags).2.data)⟩)
    (hout : sc'.out 0 = c.onward sc.up 0 (.delta
      (Delta.between n.data (n.addPrefix net flags).2.data)))
    (hup : sc'.up = sc.up) (hdown : sc'.down = sc.down) :
    c.Sits sc' 0 (n.addPrefix net flags).2 where
  id := hissues.alike.id.trans h.id
  role := hissues.alike.role.trans h.role
  settings := hissues.alike.settings.trans h.settings
  started := hissues.started.trans h.started
  knows := by
    rw [hissues.links]
    exact h.knows
  admits := by
    intro b
    rw [Node.isAdmissible, hissues.links]
    simp only [Admits, hup, hdown]
    exact h.admits b
  replica := by
    rw [hheld, ← hissues.lastDelta]
    refine c.eq_replica (hissues.alike.owner.trans ?_)
      (hissues.alike.authority.trans ?_)
      (hproper.configured.after (.addPrefix net flags)).notices
    · rw [h.replica]
      rfl
    · rw [h.replica]
      rfl
  retiring :=
    Node.retiring_addPrefix (h.stocked hproper).1
      (h.stocked hproper).2 h.notices h.retiring flags
  incoming := hissues.incoming.trans h.incoming
  outgoing := by
    rw [hissues.outgoing, h.outgoing, hquiet, hissues.alike.id,
      hout, ← h.fanOut_eq]
    rfl

/-- A leader that has an id to spare publishes a new prefix and pushes the
delta. -/
theorem Shows.publish (h : c.Shows sc m) (flags : Flags) :
    ∃ new d, c.Issued (sc.held 0).data net flags new d ∧
      m.addPrefix (c.post 0) net flags =
        (.ok new.version, m.call (c.post 0) (.addPrefix net flags)) ∧
      c.Shows ⟨Function.update sc.held 0 ⟨new, some d⟩, sc.up, sc.down,
        solely 0 (c.onward sc.up 0 (.delta d))⟩
          (m.call (c.post 0) (.addPrefix net flags)) := by
  obtain ⟨n, hn, hsits⟩ := h.node 0 (Nat.zero_le _)
  have hproper := h.proper _ n hn
  have hdata : n.data = (sc.held 0).data := hsits.data
  obtain ⟨hissues, hanswer⟩ :=
    hsits.issues hquiet hnew hspare hrises hproper flags
  rw [← hdata] at hrises ⊢
  refine ⟨(n.addPrefix net flags).2.data, _,
    ⟨rfl, ?_, hissues.version, ?_⟩, ?_, ?_⟩
  · rw [hissues.prefixes, hsits.replica]
    rfl
  · exact Mesh.writable_between (c := .addPrefix net flags) hproper.upright
      (by rw [hsits.settings]; exact c.valid) (hsits.role.trans role_zero)
      (hrises.trans_eq hissues.version.symm)
  · exact Prod.ext ((Mesh.tryOnNode_fst hn).trans hanswer)
      (m.addPrefix_snd _ net flags)
  · refine h.call (Nat.zero_le _) (fun x hx _ => ?_) fun k _ hk =>
      ⟨?_, ?_, fun j => Iff.rfl⟩
    · obtain rfl := Option.some.inj (hn.symm.trans hx)
      exact hsits.of_issues hquiet hproper hissues
        (Function.update_self 0 _ sc.held)
        (solely_self 0 _) rfl rfl
    · exact Function.update_of_ne hk _ _
    · rw [hquiet]
      exact solely_of_ne _ hk

end Publish

end Chain

end OnMesh
