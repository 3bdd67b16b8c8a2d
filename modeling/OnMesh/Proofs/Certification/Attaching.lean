import OnMesh.Proofs.Certification.Steps
import OnMesh.Proofs.Mesh.Building
import OnMesh.Proofs.Mesh.Draws

/-!
# How a certification begins

The leader and the end device are added first, then the relays, each linked to
the station before it.  If the stream of the mesh yields enough hardware
addresses, this gives a chain of any length, whose nodes are all attached and
have nothing more to ask for as soon as the mesh has settled.
-/

namespace OnMesh

namespace Certification

open Mesh (Strung Supplied)

variable {s : Settings} {m : Mesh} {i k : Nat}

/-- What lets a certification go through. -/
structure Settings.Sound (s : Settings) : Prop where
  /-- There are hardware addresses for all nodes. -/
  supplied : Mesh.Yields (KeyStream.ofSeed s.mesh.seed) (s.relays.toNat + 2)
  /-- There is a station for every relay. -/
  stations : device.number.toNat + s.relays.toNat < 2 ^ 32
  valid : s.mesh.node.validate = .ok ()
  /-- There is a context id for each of the two prefixes. -/
  contexts : 2 ≤ s.mesh.node.contextRange.size
  inbound : 1 ≤ s.mesh.node.maxInbound
  outbound : 1 ≤ s.mesh.node.maxOutbound
  /-- A wait may take as long as the way from end to end, or twice
  over the last link. -/
  patience : 1 + max (s.relays.toNat + 1) 2 * max s.mesh.latency 1 ≤
    s.settleTicks

/-! ## Stations -/

/-- The station at a position on the way from the leader to the end device. -/
def Settings.post (s : Settings) (i : Nat) : Station :=
  if i = 0 then leader
  else if i = s.relays.toNat + 1 then device
  else relay (UInt32.ofNat i)

theorem Settings.post_last (s : Settings) :
    s.post (s.relays.toNat + 1) = device := by
  rw [post, if_neg (Nat.succ_ne_zero _), if_pos rfl]

theorem Settings.post_of_relay (hpos : 0 < i) (hi : i < s.relays.toNat + 1) :
    s.post i = relay (UInt32.ofNat i) := by
  rw [post, if_neg (Nat.ne_of_gt hpos), if_neg (Nat.ne_of_lt hi)]

/-- The end device is linked to the last station before it. -/
theorem Settings.post_relays (s : Settings) :
    s.post s.relays.toNat = s.uplink := by
  rw [uplink]
  split
  · next h =>
      rw [h]
      rfl
  · next h =>
      have hpos : 0 < s.relays.toNat := by
        rw [Nat.pos_iff_ne_zero]
        exact fun hzero => h (UInt32.toNat_inj.1 hzero)
      rw [post_of_relay hpos (Nat.lt_succ_self _), UInt32.ofNat_toNat]

/-- The numbers of the stations, if there are enough. -/
theorem Settings.number_post
    (hroom : device.number.toNat + s.relays.toNat < 2 ^ 32)
    (hi : i ≤ s.relays.toNat + 1) :
    (s.post i).number.toNat = if i = 0 then 1
      else if i = s.relays.toNat + 1 then 2 else 2 + i := by
  have hdevice : device.number.toNat = 2 := rfl
  rw [post]
  split
  · rfl
  · split
    · rfl
    · have hmod : (UInt32.ofNat i).toNat = i := by
        rw [UInt32.toNat_ofNat']
        exact Nat.mod_eq_of_lt (by omega)
      show (device.number + UInt32.ofNat i).toNat = _
      rw [UInt32.toNat_add, hmod, hdevice]
      exact Nat.mod_eq_of_lt (by omega)

theorem Settings.injOn_post
    (hroom : device.number.toNat + s.relays.toNat < 2 ^ 32) :
    Set.InjOn s.post (Set.Iic (s.relays.toNat + 1)) := by
  intro i hi j hj hpost
  have hnumber := congrArg (fun t : Station => t.number.toNat) hpost
  simp only [number_post hroom hi, number_post hroom hj] at hnumber
  split at hnumber <;> split at hnumber <;> try split at hnumber
  all_goals first | omega | (split at hnumber <;> omega)

/-- The chain is the one that a certification builds. -/
structure Settings.Builds (s : Settings) (c : Chain) : Prop where
  last : c.last = s.relays.toNat + 1
  post : c.post = s.post
  settings : c.settings = s.mesh.node
  ticks : c.ticks = max s.mesh.latency 1

namespace Settings.Builds

variable {c : Chain} (h : s.Builds c)

include h

theorem leader : c.post 0 = leader := by
  rw [h.post]
  rfl

theorem device : c.post c.last = device := by rw [h.post, h.last, s.post_last]

theorem uplink : c.post s.relays.toNat = s.uplink := by
  rw [h.post, s.post_relays]

/-- No wait for a message that crosses so many links is given up. -/
theorem wait (hsound : s.Sound) {links : Nat}
    (hlinks : links ≤ max (s.relays.toNat + 1) 2) :
    1 + links * c.ticks ≤ s.settleTicks := by
  rw [h.ticks]
  exact (Nat.add_le_add_left (Nat.mul_le_mul_right _ hlinks) 1).trans
    hsound.patience

end Settings.Builds

/-! ## Relays -/

section Strings

variable {post : Nat → Station} {last linked needed : Nat} {present : Set Nat}
  (hinj : Set.InjOn post (Set.Iic last))
    (hvalid : m.settings.node.validate = .ok ())

include hinj

include hvalid in
/-- A node is added at a position that has none. -/
theorem leads_addNode (h : m.Strung post last present linked)
    (hsupplied : m.Supplied (needed + 1)) (hi : i ≤ last) (hnew : i ∉ present)
    (ticks : Nat) :
    ∃ id m', Leads (call fun m => m.addNode (post i) (Chain.roleAt last i))
      (passing m ticks) id
        (passing m' ticks) ∧
      m'.Strung post last (insert i present) linked ∧ m'.Supplied needed ∧
      m'.settings = m.settings := by
  obtain ⟨id, stream, hfresh, hadd, hleft⟩ :=
    hsupplied.addNode (h.get?_eq_none hinj hi hnew) hvalid (Chain.roleAt last i)
  exact ⟨id, _, leads_call hadd,
    h.withNode hinj hi hnew hfresh stream, hleft, rfl⟩

/-- The next two stations are linked. -/
theorem leads_link (h : m.Strung post last present linked)
    (hsupplied : m.Supplied needed) (hthis : linked ∈ present)
    (hnext : linked + 1 ∈ present) (ticks : Nat) :
    ∃ m', Leads (call fun m => m.link (post linked) (post (linked + 1)))
      (passing m ticks) ()
        (passing m' ticks) ∧
      m'.Strung post last present (linked + 1) ∧ m'.Supplied needed ∧
      m'.settings = m.settings := by
  obtain ⟨m', hlink, hlinked, hstream, hstations, hsettings⟩ :=
    h.link hinj hthis hnext
  exact ⟨m', leads_call hlink, hlinked,
    hsupplied.of_stations hstream hstations, hsettings⟩

include hvalid in
/-- Relays are added and linked up to the one before the end device. -/
theorem leads_addRelays
    (hrelay : ∀ i, 0 < i → i < last → post i = relay (UInt32.ofNat i))
    {count : Nat} (hcount : k + count + 1 = last)
    (h : m.Strung post last {i | i ≤ k ∨ i = last} k)
    (hsupplied : m.Supplied count) (ticks : Nat) :
    ∃ m', Leads (addRelays count (UInt32.ofNat (k + 1)) (post k))
      (passing m ticks)
        (post (last - 1)) (passing m' ticks) ∧
      m'.Strung post last {i | i ≤ last - 1 ∨ i = last} (last - 1) ∧
      m'.Supplied 0 ∧
      m'.settings = m.settings := by
  induction count generalizing k m with
  | zero =>
      obtain rfl : k = last - 1 := by omega
      exact ⟨m, leads_pure _ _, h, hsupplied, rfl⟩
  | succ count ih =>
      have hnew : k + 1 ∉ {i | i ≤ k ∨ i = last} := by
        rw [Set.mem_ofPred_eq]
        omega
      have hrole : Chain.roleAt last (k + 1) = .relay := by
        rw [Chain.roleAt, if_neg (Nat.succ_ne_zero k), if_neg (by omega)]
      have hpresent : insert (k + 1) {i | i ≤ k ∨ i = last} =
          {i | i ≤ k + 1 ∨ i = last} := by
        ext i
        simp only [Set.mem_insert_iff, Set.mem_ofPred_eq]
        omega
      obtain ⟨id, m₁, hadd, hadded, hleft, hsame⟩ :=
        leads_addNode hinj hvalid h hsupplied
        (by omega) hnew ticks
      rw [hpresent] at hadded
      obtain ⟨m₂, hlink, hlinked, hleft, hsame'⟩ := leads_link hinj hadded hleft
        (Or.inl (Nat.le_succ k)) (Or.inl (Nat.le_refl _)) ticks
      obtain ⟨m', hrest, hend, hleft, hsame''⟩ :=
        ih (by rw [hsame', hsame]; exact hvalid)
        (by omega) hlinked hleft
      refine ⟨m', ?_, hend, hleft, hsame''.trans (hsame'.trans hsame)⟩
      rw [hrole, hrelay (k + 1) (Nat.succ_pos k) (by omega)] at hadd
      rw [hrelay (k + 1) (Nat.succ_pos k) (by omega)] at hlink hrest
      rw [UInt32.ofNat_add] at hrest
      exact hadd.bind (hlink.bind hrest)

end Strings

/-! ## The chain -/

/-- The mesh is strung up from the leader to the end device before the rest
of a certification. -/
theorem Settings.Sound.leads_build (h : s.Sound) : ∃ m,
    m.Strung s.post (s.relays.toNat + 1) (Set.Iic (s.relays.toNat + 1))
      (s.relays.toNat + 1) ∧
    m.settings = s.mesh ∧ ∀ (rest : Run Unit) p,
      Leads rest (passing m 0) () p → Leads (do
        let _ ← call fun m => m.addNode leader .authority
        let _ ← call fun m => m.addNode device .leaf
        let last ← addRelays s.relays.toNat 1 leader
        call fun m => m.link last device
        rest) (passing (Mesh.make s.mesh) 0) () p := by
  have hinj := injOn_post h.stations
  have hvalid : (Mesh.make s.mesh).settings.node.validate = .ok () := h.valid
  have hpresent : insert (s.relays.toNat + 1) (insert 0 ∅) =
      {i | i ≤ 0 ∨ i = s.relays.toNat + 1} := by
    ext i
    simp only [Set.mem_insert_iff, Set.mem_empty_iff_false, or_false,
      Set.mem_ofPred_eq]
    omega
  have hall : {i | i ≤ s.relays.toNat ∨ i = s.relays.toNat + 1} =
      Set.Iic (s.relays.toNat + 1) := by
    ext i
    simp only [Set.mem_ofPred_eq, Set.mem_Iic]
    omega
  -- the two ends
  obtain ⟨idLeader, m₁, hleader, hfirst, hleft, hsame₁⟩ :=
    leads_addNode hinj hvalid
    (Mesh.strung_make s.post (s.relays.toNat + 1) s.mesh)
      (Mesh.supplied_make h.supplied)
    (Nat.zero_le _) (Set.notMem_empty 0) 0
  obtain ⟨idDevice, m₂, hdevice, hends, hleft, hsame₂⟩ := leads_addNode hinj
    (by rw [hsame₁]; exact hvalid) hfirst hleft (Nat.le_refl _) (by simp) 0
  rw [hpresent] at hends
  -- the relays between them
  obtain ⟨m₃, hrelays, hbuilt, hleft, hsame₃⟩ := leads_addRelays hinj
    (by rw [hsame₂, hsame₁]; exact hvalid)
      (fun i hpos hi => post_of_relay hpos hi) (by omega)
    hends hleft 0
  rw [Nat.add_sub_cancel, hall] at hbuilt
  obtain ⟨m₄, hlink, hlinked, -, hsame₄⟩ :=
    leads_link hinj hbuilt hleft (Nat.le_succ _)
    (Nat.le_refl _) 0
  refine ⟨m₄, hlinked, ?_, fun rest p hrest => ?_⟩
  · rw [hsame₄, hsame₃, hsame₂, hsame₁]
    rfl
  · have hleaf :
        Chain.roleAt (s.relays.toNat + 1) (s.relays.toNat + 1) = .leaf :=
      (if_neg (Nat.succ_ne_zero _)).trans (if_pos rfl)
    rw [hleaf, post_last] at hdevice
    rw [Nat.add_sub_cancel, post_relays] at hrelays
    rw [post_last, post_relays] at hlink
    exact hleader.bind (hdevice.bind (hrelays.bind (hlink.bind hrest)))

/-- Once all nodes are attached, the mesh is a chain on which
nothing is held yet. -/
theorem Settings.Sound.leads_attach (h : s.Sound) :
    ∃ c m, s.Builds c ∧ Leads (attach s) (passing (Mesh.make s.mesh)
      0) () (passing m (1 + c.ticks)) ∧ c.Shows ⟨fun _ => Edition.initial, true,
        true, fun _ => []⟩ m ∧ m.inFlight = [] := by
  obtain ⟨m₀, hstrung, hsettings, hbuild⟩ := h.leads_build
  have hinj := injOn_post h.stations
  let c := hstrung.chain hinj (Nat.succ_pos _)
    (by rw [hsettings]; exact h.valid)
    (by rw [hsettings]; exact h.inbound) (by rw [hsettings]; exact h.outbound)
  have hbuilds : s.Builds c := ⟨rfl, rfl, congrArg Mesh.Settings.node hsettings,
    congrArg (fun x : Mesh.Settings => max x.latency 1) hsettings⟩
  -- all nodes ask for data, and learn that there are none
  have hshows : c.Shows
      ⟨fun _ => Edition.initial, true, true, m₀.asked s.post⟩ m₀.startAll :=
    hstrung.shows hinj (Nat.succ_pos _) _ _ _
  obtain ⟨m, hsettles, hquiet, hflight⟩ := Chain.Shows.asked
    (fun i _ o ho => hstrung.message_of_asked ho)
    (hstrung.asked_zero hinj (Nat.succ_pos _) _ _ _) hshows hstrung.quiet
  refine ⟨c, m, hbuilds, ?_, hquiet, hflight⟩
  have hwait : 1 + c.ticks ≤ s.settleTicks := by
    rw [← Nat.one_mul c.ticks]
    exact hbuilds.wait h (by omega)
  have hsettle := leads_settle hsettles hwait 0 "attach"
  rw [Nat.zero_add] at hsettle
  have hleaderState : m.attachment leader = .ok .leader :=
    hquiet.attachment (Nat.zero_le _)
  have hdeviceState : m.attachment device = .ok .child := by
    have hstate := hquiet.attachment (Nat.le_refl c.last)
    rw [Chain.role_last] at hstate
    rw [← s.post_last]
    exact hstate
  refine hbuild _ _ ((leads_call rfl).bind (hsettle.bind ?_))
  refine (leads_ask hleaderState).bind ((leads_check rfl _).bind ?_)
  refine (leads_ask hdeviceState).bind ?_
  exact leads_check rfl _

end Certification

end OnMesh
