import OnMesh.Proofs.Certification.Attaching
import OnMesh.Proofs.Mesh.ChainEcho

/-!
# Every certification passes

The stages of a certification take a chain from one scene to the next.  A
prefix that is published runs over the chain as far as it is open; during the
outage it stops before the end device.  When the device lets its uplink in
again, it greets it with the delta that it knows, and is sent the one that it
has missed.  The ticks of all waits add up to a function of the length of the
chain and the latency of its links.
-/

namespace OnMesh

namespace Certification

open Chain (solely upTo)

variable {s : Settings} {c : Chain} {sc : Scene} {m : Mesh}
  {old new : NetworkData} {before : Option Delta} {d : Delta} {net : Prefix}
  {flags : Flags}

/-! ## Calls on a chain -/

/-- The last node before the end device treats it as it is told to. -/
theorem leads_atUplink (h : c.Shows sc m) (hbuilds : s.Builds c)
    (admissible : Bool) :
    ∃ transition, ∀ ticks,
      Leads (call fun m => m.setAdmissible s.uplink device admissible)
        (passing m ticks) transition
        (passing (m.call (c.post s.relays.toNat)
          (.setAdmissible (c.id (s.relays.toNat + 1)) admissible)) ticks) := by
  have hlast := hbuilds.last
  obtain ⟨transition, hcall⟩ :=
    h.setAdmissible_eq (show s.relays.toNat ≤ c.last by omega)
    (Nat.le_of_eq hlast.symm) admissible
  rw [← hlast, hbuilds.device, hbuilds.uplink] at hcall
  rw [← hlast, hbuilds.uplink]
  exact ⟨transition, fun _ => leads_call hcall⟩

/-- The end device treats the last node before it as it is told to. -/
theorem leads_atDevice (h : c.Shows sc m) (hbuilds : s.Builds c)
    (admissible : Bool) :
    ∃ transition, ∀ ticks,
      Leads (call fun m => m.setAdmissible device s.uplink admissible)
        (passing m ticks) transition
        (passing (m.call (c.post (s.relays.toNat + 1))
          (.setAdmissible (c.id s.relays.toNat) admissible)) ticks) := by
  have hlast := hbuilds.last
  obtain ⟨transition, hcall⟩ := h.setAdmissible_eq (Nat.le_of_eq hlast.symm)
    (show s.relays.toNat ≤ c.last by omega) admissible
  rw [← hlast, hbuilds.device, hbuilds.uplink] at hcall
  rw [← hlast, hbuilds.device]
  exact ⟨transition, fun _ => leads_call hcall⟩

/-- The end device holds what the scene says. -/
theorem leads_version (h : c.Shows sc m) (hbuilds : s.Builds c) {e : Edition}
    (hheld : sc.held c.last = e) (ticks : Nat) (stage : String) :
    Leads (checkVersion e.data.version stage) (passing m ticks) e.data.version
      (passing m ticks) := by
  obtain ⟨n, hn, hsits⟩ := h.node c.last (Nat.le_refl _)
  rw [hbuilds.device] at hn
  have hversion : n.version = e.data.version := by
    rw [← hheld]
    exact congrArg NetworkData.version hsits.data
  rw [← hversion]
  exact leads_checkVersion hn stage

section Settled

variable (hbuilds : s.Builds c)
  (h : c.Shows ⟨fun _ => ⟨new, before⟩, true, true, fun _ => []⟩ m)
    (hderivable : new.Derivable)

include hbuilds h hderivable

/-- The leader is answered on the address of every prefix that all nodes
hold. -/
theorem leads_pingable (hnet : new.prefixes.contains net = true) (ticks : Nat)
    (stage : String) :
    Leads (checkPingable net stage) (passing m ticks) () (passing m ticks) := by
  obtain ⟨n, hn, hperm⟩ := h.perm_addresses rfl rfl hderivable
  have hmem : net ∈ n.configuredAddresses.map MeshAddress.net := by
    rw [hperm.mem_iff]
    exact Table.contains_eq_true_iff.1 hnet
  refine leads_checkPingable (by rw [← hbuilds.device]; exact hn)
    (List.mem_map.1 hmem)
    (fun a ha => ?_) stage
  rw [← hbuilds.leader]
  exact h.echo rfl rfl hn ha

/-- The end device has one address for each prefix. -/
theorem exists_addresses :
    ∃ addresses, m.configuredAddresses device = .ok addresses ∧
    addresses.length = new.prefixes.size := by
  obtain ⟨n, hn, hperm⟩ := h.perm_addresses rfl rfl hderivable
  refine ⟨n.configuredAddresses, ?_, ?_⟩
  · rw [hbuilds.device] at hn
    rw [Mesh.configuredAddresses, Mesh.node, hn]
    rfl
  · rw [← Table.length_keys, ← hperm.length_eq, List.length_map]

end Settled

/-! ## Stages -/

section Stages

variable (hsound : s.Sound) (hbuilds : s.Builds c) (hflight : m.inFlight = [])

include hsound hbuilds hflight

/-- A prefix that the leader publishes runs over the chain as far as it is
open. -/
theorem leads_publish (net : Prefix) (flags : Flags) {up down : Bool}
    (h : c.Shows ⟨fun _ => ⟨old, before⟩, up, down, fun _ => []⟩ m)
    (hopen : up = true → down = true) (hnew : old.prefixes.contains net = false)
    (hspare : old.prefixes.size < 2) (hrises : old.version < old.version.next)
    (stage : String) :
    ∃ new d m₁ m₂, c.Issued old net flags new d ∧
      (∀ ticks, Leads (call fun m => m.addPrefix leader net flags)
        (passing m ticks) new.version
        (passing m₁ ticks)) ∧
      (∀ ticks, Leads (settle s.settleTicks stage) (passing m₁ ticks) ()
        (passing m₂ (ticks + (1 + c.reach up * c.ticks)))) ∧
      c.Shows ⟨upTo (c.reach up) ⟨new, some d⟩ ⟨old, before⟩, up, down,
        fun _ => []⟩ m₂ ∧
      m₂.inFlight = [] := by
  have hroom : old.prefixes.size < c.settings.contextRange.size := by
    rw [hbuilds.settings]
    exact Nat.lt_of_lt_of_le hspare hsound.contexts
  obtain ⟨new, d, hissued, hcall, hpublished⟩ :=
    Chain.Shows.publish rfl hnew hroom hrises h flags
  obtain ⟨m₂, hsettles, hshows, hempty⟩ := Chain.Shows.published hissued.delta
    (by rw [hissued.version]; exact hrises) hissued.writable hopen hpublished
    (by rw [Mesh.inFlight_call]; exact hflight)
  have hreach : c.reach up ≤ max (s.relays.toNat + 1) 2 := by
    have hle := c.reach_le up
    have hlast := hbuilds.last
    omega
  rw [hbuilds.leader] at hcall hsettles
  exact ⟨new, d, _, m₂, hissued, fun _ => leads_call hcall,
    fun ticks => leads_settle hsettles (hbuilds.wait hsound hreach) ticks stage,
    hshows, hempty⟩

omit hsound in
/-- The end device and its uplink shut each other out. -/
theorem leads_outage {held : Nat → Edition}
    (h : c.Shows ⟨held, true, true, fun _ => []⟩ m) :
    ∃ atUplink atDevice m₁ m₂,
      (∀ ticks, Leads (call fun m => m.setAdmissible s.uplink device false)
        (passing m ticks)
        atUplink (passing m₁ ticks)) ∧
      (∀ ticks, Leads (call fun m => m.setAdmissible device s.uplink false)
        (passing m₁ ticks)
        atDevice (passing m₂ ticks)) ∧
      c.Shows ⟨held, false, false, fun _ => []⟩ m₂ ∧ m₂.inFlight = [] := by
  obtain ⟨atUplink, hfirst⟩ := leads_atUplink h hbuilds false
  have hshut := h.leafShutOut hbuilds.last.symm
  obtain ⟨atDevice, hsecond⟩ := leads_atDevice hshut hbuilds false
  refine ⟨atUplink, atDevice, _, _, hfirst, hsecond,
    hshut.leafShuts hbuilds.last.symm, ?_⟩
  rw [Mesh.inFlight_call, Mesh.inFlight_call, hflight]

/-- The uplink lets the end device in first, and greets it in vain. -/
theorem leads_restoreUplink {held : Nat → Edition}
    (hheld : held s.relays.toNat = ⟨new, some d⟩)
    (hwritable : Chain.Writable (.delta d))
    (h : c.Shows ⟨held, false, false, fun _ => []⟩ m) (stage : String) :
    ∃ atUplink m₁ m₂,
      (∀ ticks, Leads (call fun m => m.setAdmissible s.uplink device true)
        (passing m ticks)
        atUplink (passing m₁ ticks)) ∧
      (∀ ticks, Leads (settle s.settleTicks stage) (passing m₁ ticks) ()
        (passing m₂ (ticks + (1 + c.ticks)))) ∧
      c.Shows ⟨held, true, false, fun _ => []⟩ m₂ ∧ m₂.inFlight = [] := by
  obtain ⟨atUplink, hcall⟩ := leads_atUplink h hbuilds true
  have hadmitted := h.leafAdmitted hbuilds.last.symm rfl rfl
  simp only [hheld] at hadmitted
  obtain ⟨m₂, hsettles, hshows, hempty⟩ :=
    hadmitted.greeted hbuilds.last.symm hwritable
    (by rw [Mesh.inFlight_call]; exact hflight)
  have hwait :=
    hbuilds.wait hsound (show 1 ≤ max (s.relays.toNat + 1) 2 by omega)
  rw [Nat.one_mul] at hwait
  exact ⟨atUplink, _, m₂, hcall,
    fun ticks => leads_settle hsettles hwait ticks stage, hshows, hempty⟩

/-- The end device greets its uplink with the delta that it knows, and
is sent the next one. -/
theorem leads_restoreDevice {first : Delta} (hd : d = Delta.between old new)
    (hfirst : first.target = old.version) (hrises : old.version < new.version)
    (hwritable : Chain.Writable (.delta d))
    (hwritableFirst : Chain.Writable (.delta first))
    (h : c.Shows ⟨upTo s.relays.toNat ⟨new, some d⟩ ⟨old, some first⟩, true,
      false, fun _ => []⟩ m) (stage : String) :
    ∃ atDevice m₁ m₂,
      (∀ ticks, Leads (call fun m => m.setAdmissible device s.uplink true)
        (passing m ticks)
        atDevice (passing m₁ ticks)) ∧
      (∀ ticks, Leads (settle s.settleTicks stage) (passing m₁ ticks) ()
        (passing m₂ (ticks + (1 + 2 * c.ticks)))) ∧
      c.Shows ⟨fun _ => ⟨new, some d⟩, true, true, fun _ => []⟩ m₂ ∧
      m₂.inFlight = [] := by
  obtain ⟨atDevice, hcall⟩ := leads_atDevice h hbuilds true
  have hadmits := h.leafAdmits hbuilds.last.symm rfl rfl
  have hheld : upTo s.relays.toNat ⟨new, some d⟩ ⟨old,
      some first⟩ (s.relays.toNat + 1) =
      ⟨old, some first⟩ := if_neg (Nat.not_succ_le_self _)
  simp only [hheld] at hadmits
  obtain ⟨m₂, hsettles, hshows, hempty⟩ :=
    hadmits.repaired hbuilds.last.symm hd hfirst hrises
    hwritable hwritableFirst (by rw [Mesh.inFlight_call]; exact hflight)
  refine ⟨atDevice, _, m₂, hcall, fun ticks => leads_settle hsettles
    (hbuilds.wait hsound (Nat.le_max_right _ _)) ticks stage,
    hshows.of_same (fun i hi => ?_) rfl rfl rfl, hempty⟩
  exact (if_pos (hbuilds.last ▸ hi)).symm

end Stages

/-! ## The whole certification -/

def firstPrefix : Prefix :=
  .ofAddress ⟨0x20010002000000010000000000000000⟩ Prefix.slaacLength
    Prefix.slaacLength_le

def secondPrefix : Prefix :=
  .ofAddress ⟨0x20010002000000020000000000000000⟩ Prefix.slaacLength
    Prefix.slaacLength_le

theorem parse_firstText : Prefix.parse firstText = .ok firstPrefix := by
  decide +kernel

theorem parse_secondText : Prefix.parse secondText = .ok secondPrefix := by
  decide +kernel

theorem parse_flagsText : Flags.parse flagsText = .ok ⟨0x1f⟩ := by
  decide +kernel

/-- The ticks of all waits: attaching, two waves of which the second one ends
before the end device, and two greetings of which the second one is answered. -/
theorem sum_ticks (hbuilds : s.Builds c) :
    1 + c.ticks + (1 + c.reach true * c.ticks) +
      (1 + c.reach false * c.ticks) + (1 + c.ticks) +
      (1 + 2 * c.ticks) =
        5 + (2 * s.relays.toNat + 5) * max s.mesh.latency 1 := by
  have hopen : c.reach true = s.relays.toNat + 1 := hbuilds.last
  have hshut : c.reach false = s.relays.toNat := congrArg Nat.pred hbuilds.last
  rw [hopen, hshut, ← hbuilds.ticks, Nat.add_mul, Nat.add_mul, Nat.mul_assoc]
  omega

/-- All stages go through for any two prefixes that addresses may be derived
from. -/
theorem leads_stages (hsound : s.Sound) (first second : Prefix) (flags : Flags)
    (hne : second ≠ first) (hfirst : first.length = 64)
    (hsecond : second.length = 64) (hflags : flags.isSlaac = true) :
    ∃ m, Leads (stages s first second flags)
      (passing (Mesh.make s.mesh) 0) () ⟨m,
        ⟨⟨2⟩, 2, 5 + (2 * s.relays.toNat + 5) * max s.mesh.latency 1, []⟩⟩ := by
  obtain ⟨c, m₀, hbuilds, hattach, hempty, hflight⟩ := hsound.leads_attach
  have hlast := hbuilds.last
  -- the first prefix gets to all nodes
  obtain ⟨one, d₁, m₁, m₂, hissued₁, hpublish₁, hsettle₁, hwave₁, hflight⟩ :=
    leads_publish hsound hbuilds hflight first flags hempty
      (fun _ => rfl) rfl (by decide)
      (by decide) "publish P1"
  have hone : c.Shows ⟨fun _ => ⟨one, some d₁⟩, true, true, fun _ => []⟩ m₂ :=
    hwave₁.of_same (fun i hi => (if_pos hi).symm) rfl rfl rfl
  have hversion₁ : one.version = ⟨1⟩ := hissued₁.version
  have hsize₁ : one.prefixes.size = 1 := hissued₁.size rfl
  have hderivable₁ : one.Derivable :=
    hissued₁.derivable (fun _ _ hp => nomatch hp) hfirst hflags
  -- the second one stops before the end device
  obtain ⟨_, _, m₃, m₄, hshutUplink, hshutDevice, hshut, hflight⟩ :=
    leads_outage hbuilds hflight hone
  have hnew : one.prefixes.contains second = false :=
    Bool.eq_false_iff.2 fun h =>
      (hissued₁.contains_iff.1 h).elim hne Bool.false_ne_true
  obtain ⟨two, d₂, m₅, m₆, hissued₂, hpublish₂, hsettle₂, hwave₂, hflight⟩ :=
    leads_publish hsound hbuilds hflight second flags hshut
      (fun h => nomatch h) hnew
      (hsize₁ ▸ by decide) (hversion₁ ▸ by decide) "publish P2"
  have hversion₂ : two.version = ⟨2⟩ :=
    hissued₂.version.trans (congrArg Version.next hversion₁)
  have hsize₂ : two.prefixes.size = 2 := by rw [hissued₂.size hnew, hsize₁]
  have hderivable₂ : two.Derivable :=
    hissued₂.derivable hderivable₁ hsecond hflags
  have hreach : c.reach false = s.relays.toNat := congrArg Nat.pred hlast
  rw [hreach] at hwave₂
  -- the end device catches up as soon as it has let its uplink in
  obtain ⟨_, m₇, m₈, hadmitDevice, hsettle₃, hgreeted, hflight⟩ :=
    leads_restoreUplink hsound hbuilds hflight
      (if_pos (Nat.le_refl _)) hissued₂.writable hwave₂
      "restore uplink side"
  obtain ⟨_, m₉, m, hadmitUplink, hsettle₄, htwo, hflight⟩ :=
    leads_restoreDevice hsound hbuilds hflight hissued₂.delta
      (by rw [hissued₁.delta]; rfl)
        (by rw [hversion₁, hversion₂]; decide) hissued₂.writable
      hissued₁.writable hgreeted "restore end device side"
  have hmissed : upTo s.relays.toNat ⟨two, some d₂⟩ ⟨one, some d₁⟩ c.last =
      ⟨one, some d₁⟩ :=
    if_neg (by omega)
  have hfirst₁ : one.prefixes.contains first = true :=
    hissued₁.contains_iff.2 (Or.inl rfl)
  have hfirst₂ : two.prefixes.contains first = true :=
    hissued₂.contains_iff.2 (Or.inr hfirst₁)
  have hsecond₂ : two.prefixes.contains second = true :=
    hissued₂.contains_iff.2 (Or.inl rfl)
  obtain ⟨addresses, haddresses, hlength⟩ :=
    exists_addresses hbuilds htwo hderivable₂
  have hverdict : ∀ t, t = 5 + (2 * s.relays.toNat + 5) * max s.mesh.latency 1 →
      (⟨two.version, addresses.length, t, []⟩ : Verdict) =
        ⟨⟨2⟩, 2, 5 + (2 * s.relays.toNat + 5) * max s.mesh.latency 1, []⟩ := by
    rintro t rfl
    rw [hversion₂, hlength, hsize₂]
  -- all checks hold
  refine ⟨m, hattach.bind ((hpublish₁ _).bind ((hsettle₁ _).bind ?_))⟩
  refine (leads_version hone hbuilds rfl _ _).bind ?_
  refine (leads_pingable hbuilds hone hderivable₁ hfirst₁ _ _).bind ?_
  refine (hshutUplink _).bind
    ((hshutDevice _).bind ((hpublish₂ _).bind ((hsettle₂ _).bind ?_)))
  refine (leads_version hwave₂ hbuilds hmissed _ _).bind ?_
  refine (hadmitDevice _).bind ((hsettle₃ _).bind ?_)
  refine (hadmitUplink _).bind
    ((hsettle₄ _).bind ((leads_version htwo hbuilds rfl _ _).bind ?_))
  refine (leads_pingable hbuilds htwo hderivable₂ hfirst₂ _ _).bind ?_
  refine (leads_pingable hbuilds htwo hderivable₂ hsecond₂ _ _).bind ?_
  refine (leads_ask haddresses).bind ?_
  rw [← hverdict _ (sum_ticks hbuilds)]
  exact rfl

/-- **Every certification passes**, whatever the length of the chain and the
latency of its links, after a number of ticks that only these two decide. -/
theorem run_of_sound (hsound : s.Sound) : run s =
    .ok ⟨⟨2⟩, 2, 5 + (2 * s.relays.toNat + 5) * max s.mesh.latency 1, []⟩ := by
  obtain ⟨m, hstages⟩ :=
    leads_stages hsound firstPrefix secondPrefix ⟨0x1f⟩ (by decide) rfl rfl rfl
  rw [run, parse_firstText, parse_secondText, parse_flagsText]
  exact congrArg (fun x => x >>= fun y => pure y.2.verdict) hstages

theorem run_of_sound_threeRelays :
    ∃ s : Settings, s = { Settings.usual with relays := 3 } ∧ s.Sound ∧
    run s = .ok ⟨⟨2⟩, 2, 16, []⟩ := by
  have hsound : ({ Settings.usual with relays := 3 } : Settings).Sound := {
    supplied := Mesh.yields_of_nodup (by decide +kernel) (by decide +kernel)
      (by decide +kernel)
    stations := by decide +kernel
    valid := by decide +kernel
    contexts := by decide +kernel
    inbound := by decide +kernel
    outbound := by decide +kernel
    patience := by decide +kernel }
  exact ⟨_, rfl, hsound, run_of_sound hsound⟩

end Certification

end OnMesh
