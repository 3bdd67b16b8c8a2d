import OnMesh.Proofs.Node.Lending
import Mathlib.Data.Set.Function
import Mathlib.Data.List.Perm.Basic

/-!
# What the authority has published

The data of the authority are a record of what it was asked to do and did:
no frame and no tick has a part in them.  Every call does a deed at most,
and the deeds since the authority was built or last detached say which
prefixes are published, with which flags, at which version, and which
addresses are configured.
-/

namespace OnMesh

/-! ## Unions of flags -/

namespace Flags

def unionAll (fs : List Flags) : Flags := fs.foldr union none

theorem union_comm (f g : Flags) : f.union g = g.union f :=
  congrArg Flags.mk (UInt8.or_comm f.bits g.bits)

theorem union_assoc (f g h : Flags) :
    (f.union g).union h = f.union (g.union h) :=
  congrArg Flags.mk (UInt8.or_assoc f.bits g.bits h.bits)

theorem union_none (f : Flags) : f.union none = f :=
  congrArg Flags.mk UInt8.or_zero

instance : LeftCommutative union where
  left_comm f g h := by rw [← union_assoc, union_comm f g, union_assoc]

/-- The order in which flags come does not matter. -/
theorem unionAll_perm {fs gs : List Flags} (h : fs.Perm gs) :
    unionAll fs = unionAll gs :=
  h.foldr_eq none

end Flags

/-! ## Deeds -/

/-- Something that an authority was asked to do and did. -/
inductive Deed where
  | published (net : Prefix) (flags : Flags)
  | withdrawn (net : Prefix)
deriving DecidableEq

namespace Deed

/-- The flags under which a prefix was published since it was last withdrawn, if
it was.  The latest deed comes first. -/
def flagsSince (net : Prefix) : List Deed → List Flags
  | [] => []
  | .published q flags :: ds =>
    if q = net then flags :: flagsSince net ds else flagsSince net ds
  | .withdrawn q :: ds => if q = net then [] else flagsSince net ds

/-- What was asked for was done unless the answer is a fault. -/
def ifDone (deed : Deed) : Except Fault Version → List Deed
  | .ok _ => [deed]
  | .error _ => []

/-- What is published about a prefix after some deeds. -/
def standing? (owner : NodeId) (ds : List Deed) (net : Prefix) :
    Option Publication :=
  if flagsSince net ds = [] then none else
    some ⟨Flags.unionAll (flagsSince net ds), owner⟩

end Deed

def NetworkData.publications (d : NetworkData) : Table Prefix Flags :=
  d.prefixes.map Publication.flags

/-- The flags of a prefix once it is published with some more. -/
def NetworkData.merged (d : NetworkData) (net : Prefix) (flags : Flags) :
    Flags :=
  match d.prefixes.get? net with
  | some a => a.flags.union flags
  | none => flags

/-- What one call can make of the data of an authority, and the deeds
that it amounts to. -/
inductive Done (owner : NodeId) (d : NetworkData) : List Deed →
    NetworkData → Prop
  | nothing : Done owner d [] d
  /-- The prefix was published with these flags already. -/
  | confirmed {net : Prefix} {flags : Flags} :
      d.prefixes.get? net = some ⟨d.merged net flags, owner⟩ →
      Done owner d [.published net flags] d
  | published {net : Prefix} {flags : Flags} {d' : NetworkData} :
      d.prefixes.get? net ≠ some ⟨d.merged net flags, owner⟩ →
      d'.prefixes = d.prefixes.insert net ⟨d.merged net flags, owner⟩ →
      d'.version = d.version.next → Done owner d [.published net flags] d'
  | withdrawn {net : Prefix} {d' : NetworkData} :
      d.prefixes.contains net = true →
      d'.prefixes = d.prefixes.erase net → d'.version = d.version.next →
      Done owner d [.withdrawn net] d'

/-! ## The press does what it answers -/

namespace Press

theorem merged_eq (r : Replica) (net : Prefix) (flags : Flags) :
    (r.publishedEntry net flags).flags = r.data.merged net flags := by
  rw [Replica.publishedEntry, NetworkData.merged, NetworkData.prefixEntry?]
  cases r.data.prefixes.get? net with
  | none => rfl
  | some a => rfl

variable {range : ContextRange} {p : Press}

/-- A prefix that stands in the data as it would be published needs no edit: it
has an id, and the pool lends that one again. -/
theorem Ready.isCurrent (h : p.Ready range) {net : Prefix} {flags : Flags}
    {context : ContextId} {pool : ContextPool}
    (hlent : Replica.Lent p.pool net context pool)
    (hsame : p.replica.data.prefixes.get? net =
      some ⟨p.replica.data.merged net flags, p.replica.owner⟩) :
    p.replica.IsCurrent net flags context := by
  have hcontains : p.replica.data.prefixes.contains net = true := by
    rw [Table.contains, hsame]
    rfl
  obtain ⟨id, hid⟩ := h.inStep.bound net hcontains
  -- Both ids are on loan to the prefix, and none has two of them.
  have hcontext : id = context :=
    hlent.orderly.once id context net (h.inStep.get?_lent hlent hid) hlent.holds
  constructor
  · rw [NetworkData.prefixEntry?_eq_some_iff, merged_eq]
    exact ⟨rfl, hsame⟩
  · rw [NetworkData.contextEntry?_eq_some_iff, ← hcontext]
    exact ⟨rfl, hid⟩

/-- A publication leaves the data as its deed says, whether it is refused or
not. -/
theorem Ready.done_publish (h : p.Ready range) (net : Prefix) (flags : Flags) :
    Done p.replica.owner p.replica.data
      (Deed.ifDone (.published net flags) (p.publish net flags).1)
      (p.publish net flags).2.replica.data := by
  have hallocated := ContextPool.allocated_allocate p.pool net
  rcases halloc : p.pool.allocate net with ⟨fault | context, pool⟩
  · rw [Press.publish_of_exhausted h.role flags halloc]
    exact Done.nothing
  · rw [halloc] at hallocated
    rw [publish_of_allocated h.role flags halloc]
    have hlent := lent_of_allocated h.inStep.orderly hallocated
    have hedited := Replica.edited_edit p.replica (.publish net flags context)
    generalize p.replica.edit (.publish net flags context) = result at hedited ⊢
    obtain ⟨answer, replica⟩ := result
    cases hedited with
    | forbidden _ _ => exact Done.nothing
    | current _ hcurrent =>
        have hget := (NetworkData.prefixEntry?_eq_some_iff.1 hcurrent.1).2
        rw [merged_eq] at hget
        exact Done.confirmed hget
    | published _ hnot =>
        refine Done.published
          (fun hsame => hnot (h.isCurrent hlent hsame)) ?_ rfl
        rw [← merged_eq]
        rfl

theorem Ready.done_withdraw (h : p.Ready range) (net : Prefix) :
    Done p.replica.owner p.replica.data
      (Deed.ifDone (.withdrawn net) (p.withdraw net).1)
      (p.withdraw net).2.replica.data := by
  rw [withdraw_of_canPublish h.role]
  have hedited := Replica.edited_edit p.replica (.withdraw net)
  generalize p.replica.edit (.withdraw net) = result at hedited ⊢
  obtain ⟨answer, replica⟩ := result
  cases hedited with
  | forbidden _ _ => exact Done.nothing
  | withdrawn _ hknown => exact Done.withdrawn hknown rfl rfl
  | unknown _ _ => exact Done.nothing

end Press

/-! ## What deeds leave behind -/

namespace Done

variable {owner : NodeId} {d d' : NetworkData} {ds past : List Deed}

open Deed (flagsSince standing?)

/-- Publishing a prefix adds its flags to those that stand. -/
theorem standing?_published (net : Prefix) (flags : Flags)
    (hpast : d.prefixes.get? net = standing? owner past net) :
    standing? owner (.published net flags :: past) net =
      some ⟨d.merged net flags, owner⟩ := by
  rw [standing?] at hpast
  have hflags : flagsSince net (.published net flags :: past) =
      flags :: flagsSince net past :=
    if_pos rfl
  rw [standing?, hflags, if_neg (List.cons_ne_nil _ _),
    NetworkData.merged, hpast]
  by_cases hnone : flagsSince net past = []
  · rw [if_pos hnone, hnone]
    exact congrArg (fun f => some (⟨f, owner⟩ : Publication))
      (Flags.union_none flags)
  · rw [if_neg hnone]
    exact congrArg (fun f => some (⟨f, owner⟩ : Publication))
      (Flags.union_comm _ _)

theorem standing?_published_of_ne {net q : Prefix} (hne : q ≠ net)
    (flags : Flags) :
    standing? owner (.published net flags :: past) q =
      standing? owner past q := by
  have hflags : flagsSince q (.published net flags :: past) =
      flagsSince q past :=
    if_neg (Ne.symm hne)
  rw [standing?, standing?, hflags]

/-- What stands after more deeds is what the data hold then. -/
theorem standing (h : Done owner d ds d')
    (hpast : ∀ net, d.prefixes.get? net = standing? owner past net)
    (q : Prefix) : d'.prefixes.get? q = standing? owner (ds ++ past) q := by
  cases h with
  | nothing => exact hpast q
  | @confirmed net flags hsame =>
      show _ = standing? owner (.published net flags :: past) q
      by_cases hq : q = net
      · subst hq
        rw [standing?_published q flags (hpast q), hsame]
      · rw [standing?_published_of_ne hq, hpast]
  | @published net flags _ _ hinsert _ =>
      show _ = standing? owner (.published net flags :: past) q
      rw [hinsert, Table.get?_insert]
      by_cases hq : q = net
      · subst hq
        rw [if_pos rfl, standing?_published q flags (hpast q)]
      · rw [if_neg hq, standing?_published_of_ne hq, hpast]
  | @withdrawn net _ _ herase _ =>
      have hflags : flagsSince q (.withdrawn net :: past) =
          if net = q then [] else flagsSince q past := rfl
      show _ = standing? owner (.withdrawn net :: past) q
      rw [herase, Table.get?_erase, standing?, hflags]
      by_cases hq : q = net
      · subst hq
        simp
      · rw [if_neg hq, if_neg (Ne.symm hq), hpast, standing?]

/-- The version goes up by one exactly if the prefixes or their flags change. -/
theorem version (h : Done owner d ds d')
    (howner : ∀ net a, d.prefixes.get? net = some a → a.owner = owner) :
    d'.version = if d'.publications = d.publications then d.version
      else d.version.next := by
  cases h with
  | nothing => exact (if_pos rfl).symm
  | confirmed _ => exact (if_pos rfl).symm
  | @published net flags _ hnew hinsert hversion =>
      rw [if_neg, hversion]
      intro hsame
      have hget : (d.prefixes.get? net).map Publication.flags =
          some (d.merged net flags) := by
        rw [← Table.get?_map, ← NetworkData.publications, ← hsame,
          NetworkData.publications, Table.get?_map, hinsert,
          Table.get?_insert, if_pos rfl]
        rfl
      -- All entries have one owner, so an entry that differs has other flags.
      obtain ⟨⟨f, o⟩, ha, hf⟩ := Option.map_eq_some_iff.1 hget
      obtain rfl : o = owner := howner net _ ha
      rw [show f = d.merged net flags from hf] at ha
      exact hnew ha
  | @withdrawn net _ hknown herase hversion =>
      rw [if_neg, hversion]
      intro hsame
      have hget : (d.prefixes.get? net).map Publication.flags = none := by
        rw [← Table.get?_map, ← NetworkData.publications, ← hsame,
          NetworkData.publications, Table.get?_map, herase,
          Table.get?_erase, if_pos rfl]
        rfl
      rw [Table.contains, Option.map_eq_none_iff.1 hget] at hknown
      cases hknown

end Done

namespace Node

/-! ## The tenure of an authority -/

def deeds (n : Node) : Call → List Deed
  | .addPrefix net flags =>
    Deed.ifDone (.published net flags) (n.addPrefix net flags).1
  | .removePrefix net => Deed.ifDone (.withdrawn net) (n.removePrefix net).1
  | _ => []

/-- Whether a call changes the published prefixes or their flags. -/
def Republishes (n : Node) (c : Call) : Prop :=
  (n.after c).data.publications ≠ n.data.publications

instance (n : Node) (c : Call) : Decidable (n.Republishes c) :=
  inferInstanceAs (Decidable (_ ≠ _))

/-- An authority since it was built or last detached: its deeds, latest
first, the number of calls that changed the published prefixes or their
flags, and its present state. -/
inductive Tenure : List Deed → Nat → Node → Prop
  | built (id : NodeId) (settings : NodeSettings) :
      Tenure [] 0 (make id .authority settings)
  | detached {ds : List Deed} {changes : Nat} {n : Node} : Tenure ds changes n →
      Tenure [] 0 n.detach
  | call {ds : List Deed} {changes : Nat} {n : Node} (c : Call) :
      Tenure ds changes n →
      c ≠ .detach →
      Tenure (n.deeds c ++ ds)
        (if n.Republishes c then changes + 1 else changes) (n.after c)

/-- A call on an authority that does not detach it does its deeds and nothing
else. -/
theorem done_after {n : Node} (h : n.Timed) (howner : n.replica.owner = n.id)
    {c : Call} (hdetach : c ≠ .detach) :
    Done n.id n.data (n.deeds c) (n.after c).data := by
  have hready := h.stocked.expirePool n.now h.role
  cases c with
  | detach => exact absurd rfl hdetach
  | tick now =>
      -- The frames that wait are handled here, and an authority
      -- takes no data from them.
      have hsame :=
        (tick_of_stocked h.stocked h.role h.configured.notices now).2
      have hdata : (n.after (.tick now)).data = n.data :=
        congrArg Replica.data hsame
      rw [hdata]
      exact Done.nothing
  | addPrefix net flags =>
      have hdone := hready.done_publish net flags
      rw [show (n.expirePool n.now).press.replica.owner = n.id
        from howner] at hdone
      rw [deeds, after, addPrefix, usePress_fst, data_usePress]
      exact hdone
  | removePrefix net =>
      have hdone := hready.done_withdraw net
      rw [show (n.expirePool n.now).press.replica.owner = n.id
        from howner] at hdone
      rw [deeds, after, removePrefix, usePress_fst, data_usePress]
      exact hdone
  | _ =>
      have hsame := (untouched_after n (c := _) rfl hdetach (by simp)).replica
      have hdata : (n.after _).data = n.data := congrArg Replica.data hsame
      rw [hdata]
      exact Done.nothing

/-- The data are what the deeds say. -/
structure Recorded (ds : List Deed) (changes : Nat) (n : Node) : Prop where
  timed : n.Timed
  owner : n.replica.owner = n.id
  standing : ∀ net, n.data.prefixes.get? net = Deed.standing? n.id ds net
  version : n.version.number = UInt64.ofNat changes

theorem Recorded.owner_eq {ds : List Deed} {changes : Nat} {n : Node}
    (h : Recorded ds changes n) {net : Prefix} {a : Publication}
    (ha : n.data.prefixes.get? net = some a) : a.owner = n.id := by
  rw [h.standing, Deed.standing?] at ha
  split at ha
  · cases ha
  · cases ha
    rfl

theorem Recorded.version_after {ds : List Deed} {changes : Nat} {n : Node}
    (h : Recorded ds changes n) {c : Call} (hdetach : c ≠ .detach) :
    (n.after c).version = if n.Republishes c then n.version.next
      else n.version := by
  have hversion :=
    (done_after h.timed h.owner hdetach).version fun _ _ ha => h.owner_eq ha
  show (n.after c).data.version = _
  by_cases hchanges : n.Republishes c
  · rw [hversion, if_neg hchanges, if_pos hchanges]
    rfl
  · rw [hversion, if_pos (not_not.1 hchanges), if_neg hchanges]
    rfl

theorem Recorded.call {ds : List Deed} {changes : Nat} {n : Node}
    (h : Recorded ds changes n) {c : Call} (hdetach : c ≠ .detach) :
    Recorded (n.deeds c ++ ds)
      (if n.Republishes c then changes + 1 else changes)
      (n.after c) where
  timed := h.timed.after c
  owner := by rw [(alike_after n c).owner, (alike_after n c).id, h.owner]
  standing := by
    rw [(alike_after n c).id]
    exact (done_after h.timed h.owner hdetach).standing h.standing
  version := by
    rw [h.version_after hdetach]
    split
    · rw [Version.next, h.version, UInt64.ofNat_add]
      rfl
    · exact h.version

theorem Tenure.recorded {ds : List Deed} {changes : Nat} {n : Node}
    (h : Tenure ds changes n) : Recorded ds changes n := by
  induction h with
  | built id settings =>
      refine ⟨timed_make id settings, rfl, ?_, rfl⟩
      intro net
      rfl
  | @detached ds changes n _ ih =>
      refine ⟨ih.timed.after .detach, ih.owner, ?_, rfl⟩
      intro net
      rfl
  | call c _ hdetach ih => exact ih.call hdetach

/-! ## Addresses of published prefixes -/

/-- The configured addresses are those of the contexts whose prefixes are
eligible. -/
theorem mem_configuredAddresses_iff {n : Node} (h : n.Configured)
    {a : MeshAddress} :
    a ∈ n.configuredAddresses ↔ ∃ id b e, n.data.contexts.get? id = some b ∧
      n.data.prefixEntry? b.net = some e ∧ e.isSlaacEligible = true ∧
      a = MeshAddress.derive b.net id n.addresses.interfaceId
        e.flags.isPreferred := by
  have hmem : a ∈ n.configuredAddresses ↔
      ∃ id, n.addresses.configured.get? id = some a := by
    show a ∈ n.addresses.configured.entries.map (·.2) ↔ _
    rw [List.mem_map]
    constructor
    · rintro ⟨⟨id, x⟩, he, rfl⟩
      exact ⟨id, Table.get?_of_mem he⟩
    · rintro ⟨id, hid⟩
      exact ⟨(id, a), Table.get?_eq_some_iff.1 hid, rfl⟩
  rw [hmem, h.addresses]
  simp only [AddressBook.get?_derive_eq_some_iff,
    AddressBook.deriveOne?_eq_some_iff, NetworkData.contextEntry?_eq_some_iff]
  constructor
  · rintro ⟨id, ⟨_, net, compress⟩, ⟨rfl, hget⟩, -, e, he, heligible, rfl⟩
    exact ⟨_, ⟨net, compress⟩, e, hget, he, heligible, rfl⟩
  · rintro ⟨id, b, e, hget, he, heligible, rfl⟩
    exact ⟨id, ⟨id, b.net, b.compress⟩, ⟨rfl, hget⟩, rfl, e, he, heligible, rfl⟩

/-- The configured addresses and the published prefixes of 64 bits
that addresses are derived from belong to each other, if each
prefix has one context. -/
theorem Configured.bijOn_addresses {n : Node} (h : n.Configured)
    (honce : n.data.BindsOnce)
    (hbound : ∀ net, n.data.prefixes.contains net = true →
      ∃ id b, n.data.contexts.get? id = some b ∧ b.net = net) :
    Set.BijOn MeshAddress.net {a | a ∈ n.configuredAddresses}
      {net | ∃ e, n.data.prefixEntry? net = some e ∧ net.length = 64 ∧
        e.flags.isSlaac = true} := by
  have hmem := fun {a : MeshAddress} => mem_configuredAddresses_iff (a := a) h
  have heligible : ∀ {net : Prefix} {e : PrefixEntry},
      n.data.prefixEntry? net = some e →
      (e.isSlaacEligible = true ↔
        net.length = 64 ∧ e.flags.isSlaac = true) := by
    intro net e he
    have hnet := (NetworkData.prefixEntry?_eq_some_iff.1 he).1
    rw [PrefixEntry.isSlaacEligible, hnet, Bool.and_eq_true,
      Prefix.isSlaacCapable, beq_iff_eq, and_comm]
    rfl
  refine ⟨?_, ?_, ?_⟩
  · intro a ha
    obtain ⟨id, b, e, -, he, hyes, rfl⟩ := hmem.1 ha
    exact ⟨e, he, (heligible he).1 hyes⟩
  · intro a ha a' ha' hnet
    obtain ⟨i, b, e, hi, he, -, rfl⟩ := hmem.1 ha
    obtain ⟨j, c, e', hj, he', -, rfl⟩ := hmem.1 ha'
    have hsame : b.net = c.net := hnet
    have hij : i = j := honce i j b c hi hj hsame
    rw [hsame, he'] at he
    rw [hsame, hij, Option.some.inj he]
  · rintro net ⟨e, he, hyes⟩
    have hcontains : n.data.prefixes.contains net = true := by
      rw [Table.contains, (NetworkData.prefixEntry?_eq_some_iff.1 he).2]
      rfl
    obtain ⟨id, b, hid, rfl⟩ := hbound net hcontains
    exact ⟨_, hmem.2 ⟨id, b, e, hid, he, (heligible he).2 hyes, rfl⟩, rfl⟩

theorem Timed.bijOn_addresses {n : Node} (h : n.Timed) :
    Set.BijOn MeshAddress.net {a | a ∈ n.configuredAddresses}
      {net | ∃ e, n.data.prefixEntry? net = some e ∧ net.length = 64 ∧
        e.flags.isSlaac = true} := by
  have hstep := (h.stocked h.role).inStep
  refine h.configured.bijOn_addresses hstep.bindsOnce fun net hnet => ?_
  obtain ⟨id, hid⟩ := hstep.bound net hnet
  exact ⟨id, _, hid, rfl⟩

theorem nodup_configuredAddresses {n : Node} (h : n.Configured) :
    n.configuredAddresses.Nodup := by
  have hcontext : n.configuredAddresses.map MeshAddress.context =
      n.addresses.configured.keys := by
    show (n.addresses.configured.entries.map (·.2)).map MeshAddress.context = _
    rw [List.map_map, Table.keys]
    apply List.map_congr_left
    rintro ⟨id, a⟩ he
    have hget := Table.get?_of_mem he
    rw [h.addresses, AddressBook.get?_derive_eq_some_iff] at hget
    obtain ⟨c, -, hone⟩ := hget
    obtain ⟨rfl, e, -, -, rfl⟩ := AddressBook.deriveOne?_eq_some_iff.1 hone
    rfl
  apply List.Nodup.of_map MeshAddress.context
  rw [hcontext]
  exact Table.nodup_keys _

/-! ## Deeds decide -/

/-- What it means that the data of an authority are what it has published. -/
structure Publishes (ds : List Deed) (changes : Nat) (n : Node) : Prop where
  /-- A prefix is published if that was done since it was last withdrawn. -/
  published_iff : ∀ net, n.data.prefixes.contains net = true ↔
    Deed.flagsSince net ds ≠ []
  /-- Its flags are all those that were given since, in whatever order. -/
  flags : ∀ net e fs, n.data.prefixEntry? net = some e →
    fs.Perm (Deed.flagsSince net ds) →
    e.flags = Flags.unionAll fs
  owner : ∀ net e, n.data.prefixEntry? net = some e → e.owner = n.id
  /-- The version counts the calls that changed something. -/
  version : n.version.number = UInt64.ofNat changes
  /-- Each of them raises it by one. -/
  raised : ∀ c, c ≠ .detach → n.Republishes c →
    (n.after c).version = n.version.next
  /-- No other call changes it. -/
  kept : ∀ c, c ≠ .detach → ¬ n.Republishes c → (n.after c).version = n.version
  /-- One address is configured for each published prefix of 64
  bits that may have one. -/
  addresses : Set.BijOn MeshAddress.net {a | a ∈ n.configuredAddresses}
    {net | ∃ e, n.data.prefixEntry? net = some e ∧ net.length = 64 ∧
      e.flags.isSlaac = true}
  once : n.configuredAddresses.Nodup

/-- Whatever an authority was asked and sent since it was built or last
detached, its data are what it has published. -/
theorem Tenure.publishes {ds : List Deed} {changes : Nat} {n : Node}
    (h : Tenure ds changes n) : Publishes ds changes n := by
  have hrecorded := h.recorded
  refine ⟨?_, ?_, ?_, hrecorded.version, ?_, ?_,
    hrecorded.timed.bijOn_addresses,
    nodup_configuredAddresses hrecorded.timed.configured⟩
  · intro net
    rw [Table.contains, hrecorded.standing, Deed.standing?]
    by_cases hnone : Deed.flagsSince net ds = []
    · simp [hnone]
    · simp [hnone]
  · intro net e fs he hperm
    have hget := (NetworkData.prefixEntry?_eq_some_iff.1 he).2
    rw [hrecorded.standing, Deed.standing?] at hget
    split at hget
    · cases hget
    · rw [Flags.unionAll_perm hperm]
      exact (congrArg Publication.flags (Option.some.inj hget)).symm
  · intro net e he
    exact hrecorded.owner_eq (NetworkData.prefixEntry?_eq_some_iff.1 he).2
  · intro c hdetach hchanges
    rw [hrecorded.version_after hdetach, if_pos hchanges]
  · intro c hdetach hsame
    rw [hrecorded.version_after hdetach, if_neg hsame]

/-- A prefix that addresses may be derived from. -/
def lan : Prefix :=
  Prefix.ofAddress ⟨0x20010db8000000000000000000000000⟩ Prefix.slaacLength
    (by decide)

def preferring : Node :=
  (make ⟨1⟩ .authority NodeSettings.usual).after
    (.addPrefix lan ⟨Flags.preferredBit⟩)

def addressing : Node := preferring.after (.addPrefix lan ⟨Flags.slaacBit⟩)

theorem publishes_addressing :
    Publishes [.published lan ⟨Flags.slaacBit⟩,
      .published lan ⟨Flags.preferredBit⟩] 2
        addressing ∧
      (addressing.data.prefixEntry? lan).map PrefixEntry.flags = some ⟨3⟩ ∧
      addressing.configuredAddresses.map MeshAddress.net = [lan] := by
  have hbuilt : Tenure [] 0 (make ⟨1⟩ .authority NodeSettings.usual) :=
    Tenure.built ⟨1⟩ NodeSettings.usual
  have hfirst : Tenure [.published lan ⟨Flags.preferredBit⟩] 1 preferring := by
    have hcall := hbuilt.call (.addPrefix lan ⟨Flags.preferredBit⟩) (by simp)
    rw [if_pos (by decide +kernel)] at hcall
    exact hcall
  have hsecond : Tenure [.published lan ⟨Flags.slaacBit⟩,
      .published lan ⟨Flags.preferredBit⟩] 2
      addressing := by
    have hcall := hfirst.call (.addPrefix lan ⟨Flags.slaacBit⟩) (by simp)
    have hdeeds : preferring.deeds (.addPrefix lan ⟨Flags.slaacBit⟩) =
        [.published lan ⟨Flags.slaacBit⟩] := by decide +kernel
    rw [if_pos (by decide +kernel), hdeeds] at hcall
    exact hcall
  exact ⟨hsecond.publishes, by decide +kernel, by decide +kernel⟩

end Node

end OnMesh
