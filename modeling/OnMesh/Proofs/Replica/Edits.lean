import OnMesh.Proofs.Bindings
import OnMesh.Proofs.Renewal
import OnMesh.Proofs.Replica.Operations

/-!
# What edits do

An edit either leaves the replica as it is or goes on to the next version, and
it goes on exactly if it changes an entry.  What it changes is the entry of its
prefix and the context ids that stand for it; everything else stays.  As long as
a replica takes over nothing from others, no two ids stand for one prefix, and
only published prefixes have ids.
-/

namespace OnMesh

namespace NetworkData

/-- No two contexts stand for one prefix, and each stands for a published
one. -/
structure WellBound (d : NetworkData) : Prop where
  once : ∀ i j b c, d.contextEntry? i = some b → d.contextEntry? j = some c →
    b.net = c.net → i = j
  published : ∀ id c, d.contextEntry? id = some c →
    ∃ e, d.prefixEntry? c.net = some e

theorem wellBound_empty : empty.WellBound := ⟨nofun, nofun⟩

end NetworkData

namespace Replica

variable {r : Replica} {data : NetworkData} {net : Prefix} {flags : Flags}
  {context : ContextId}
  {entry : PrefixEntry}

/-! ## The edited data -/

theorem prefixEntry?_rebind (data : NetworkData) (entry : PrefixEntry)
    (context : ContextId) (p : Prefix) :
    NetworkData.prefixEntry? (rebind data entry context) p = if p =
      entry.net then some entry else data.prefixEntry? p := by
  unfold NetworkData.prefixEntry?
  rw [rebind, Table.get?_insert]
  split
  · next hp => rw [hp]; rfl
  · rfl

theorem contextEntry?_rebind {id : ContextId} {c : ContextEntry} :
    NetworkData.contextEntry? (rebind data entry context) id = some c ↔
      id = context ∧ c = ⟨context, entry.net, true⟩ ∨
        id ≠ context ∧ data.contextEntry? id = some c ∧ c.net ≠ entry.net := by
  rw [NetworkData.contextEntry?_eq_some_iff,
    NetworkData.contextEntry?_eq_some_iff, rebind, Table.get?_insert]
  by_cases hid : id = context
  · subst hid
    obtain ⟨j, net, compress⟩ := c
    simp [eq_comm, and_assoc]
  · simp [hid, and_assoc]

theorem prefixEntry?_unbind (data : NetworkData) (net p : Prefix) :
    NetworkData.prefixEntry? (unbind data net) p =
      if p = net then none else data.prefixEntry? p := by
  unfold NetworkData.prefixEntry?
  rw [get?_prefixes_unbind]
  split
  · rfl
  · rfl

theorem contextEntry?_unbind {id : ContextId} {c : ContextEntry} :
    NetworkData.contextEntry? (unbind data net) id = some c ↔
      data.contextEntry? id = some c ∧ c.net ≠ net := by
  rw [NetworkData.contextEntry?_eq_some_iff,
    NetworkData.contextEntry?_eq_some_iff, get?_contexts_unbind, and_assoc]

/-- What publishing a prefix under a context makes of the data. -/
structure Publishes (r : Replica) (net : Prefix) (flags : Flags)
    (context : ContextId) (data : NetworkData) : Prop where
  /-- A prefix that was published before has the flags that it
  had and the new ones. -/
  widened : ∀ e, r.data.prefixEntry? net = some e →
    data.prefixEntry? net = some ⟨net, e.flags.union flags, r.owner⟩
  added : r.data.prefixEntry? net = none →
    data.prefixEntry? net = some ⟨net, flags, r.owner⟩
  bound : data.contextEntry? context = some ⟨context, net, true⟩
  /-- No other id stands for the prefix, and those that did stand for
  nothing. -/
  only : ∀ id c, data.contextEntry? id = some c → c.net = net → id = context
  dropped : ∀ id c, id ≠ context →
    r.data.contextEntry? id = some c → c.net = net →
    data.contextEntry? id = none
  prefixes : ∀ p, p ≠ net → data.prefixEntry? p = r.data.prefixEntry? p
  contexts : ∀ id, id ≠ context →
    (∀ c, r.data.contextEntry? id = some c → c.net ≠ net) →
    data.contextEntry? id = r.data.contextEntry? id

/-- What withdrawing a prefix makes of the data. -/
structure Withdraws (r : Replica) (net : Prefix) (data : NetworkData) :
    Prop where
  gone : data.prefixEntry? net = none
  /-- No id stands for the prefix, and those that did stand for nothing. -/
  unbound : ∀ id c, data.contextEntry? id = some c → c.net ≠ net
  dropped : ∀ id c, r.data.contextEntry? id = some c → c.net = net →
    data.contextEntry? id = none
  prefixes : ∀ p, p ≠ net → data.prefixEntry? p = r.data.prefixEntry? p
  contexts : ∀ id, (∀ c, r.data.contextEntry? id = some c → c.net ≠ net) →
    data.contextEntry? id = r.data.contextEntry? id

/-- What an edit that is carried out makes of the data. -/
def Alters (r : Replica) : Edit → NetworkData → Prop
  | .publish net flags context, data => r.Publishes net flags context data
  | .withdraw net, data => r.Withdraws net data

theorem prefixEntry?_publishedEntry (r : Replica) (net : Prefix) (flags : Flags)
    (context : ContextId) :
    NetworkData.prefixEntry? (rebind r.data
      (r.publishedEntry net flags) context) net =
      some (r.publishedEntry net flags) :=
  (prefixEntry?_rebind _ _ _ _).trans (if_pos rfl)

/-- What is published replaces the entry of its prefix and moves its context. -/
theorem publishes_rebind (r : Replica) (net : Prefix) (flags : Flags)
    (context : ContextId) :
    r.Publishes net flags context
      (rebind r.data (r.publishedEntry net flags) context) where
  widened := by
    intro e he
    rw [prefixEntry?_publishedEntry, publishedEntry, he]
  added := by
    intro hnone
    rw [prefixEntry?_publishedEntry, publishedEntry, hnone]
  bound := contextEntry?_rebind.2 (Or.inl ⟨rfl, rfl⟩)
  only := by
    intro id c hc hnet
    rcases contextEntry?_rebind.1 hc with ⟨hid, -⟩ | ⟨-, -, hne⟩
    · exact hid
    · exact absurd hnet hne
  dropped := by
    intro id c hid hc hnet
    refine Option.eq_none_iff_forall_ne_some.2 fun c' hc' => ?_
    rcases contextEntry?_rebind.1 hc' with ⟨heq, -⟩ | ⟨-, hsame, hne⟩
    · exact hid heq
    · cases hc.symm.trans hsame
      exact hne hnet
  prefixes := by
    intro p hp
    exact (prefixEntry?_rebind _ _ _ _).trans (if_neg hp)
  contexts := by
    intro id hid hother
    apply Option.ext
    intro c
    rw [contextEntry?_rebind]
    constructor
    · rintro (⟨heq, -⟩ | ⟨-, hc, -⟩)
      · exact absurd heq hid
      · exact hc
    · intro hc
      exact Or.inr ⟨hid, hc, hother c hc⟩

/-- What is withdrawn is gone with all of its contexts, and the rest stays. -/
theorem withdraws_unbind (r : Replica) (net : Prefix) :
    r.Withdraws net (unbind r.data net) where
  gone := by rw [prefixEntry?_unbind, if_pos rfl]
  unbound := fun id c hc => (contextEntry?_unbind.1 hc).2
  dropped := by
    intro id c hc hnet
    refine Option.eq_none_iff_forall_ne_some.2 fun c' hc' => ?_
    obtain ⟨hsame, hne⟩ := contextEntry?_unbind.1 hc'
    cases hc.symm.trans hsame
    exact hne hnet
  prefixes := by
    intro p hp
    rw [prefixEntry?_unbind, if_neg hp]
  contexts := by
    intro id hother
    apply Option.ext
    intro c
    rw [contextEntry?_unbind]
    exact and_iff_left_of_imp (hother c)

/-- What an edit makes of the data does not depend on their version. -/
theorem Alters.at_version {e : Edit} (h : r.Alters e data) (version : Version) :
    r.Alters e { data with version } := by
  cases e with
  | publish net flags context =>
      obtain ⟨hwidened, hadded, hbound, honly, hdropped,
        hprefixes, hcontexts⟩ := h
      exact ⟨hwidened, hadded, hbound, honly, hdropped, hprefixes, hcontexts⟩
  | withdraw net =>
      obtain ⟨hgone, hunbound, hdropped, hprefixes, hcontexts⟩ := h
      exact ⟨hgone, hunbound, hdropped, hprefixes, hcontexts⟩

/-! ## Going on to the next version -/

/-- The replica after an edit that was carried out. -/
structure Advances (r : Replica) (e : Edit) (r' : Replica) : Prop where
  owner : r'.owner = r.owner
  authority : r'.authority = r.authority
  version : r'.version = r.version.next
  /-- Unless there are no more numbers, the version is one higher. -/
  number : r.version.number.toNat + 1 < 2 ^ 64 →
    r'.version.number.toNat = r.version.number.toNat + 1
  differs : r'.data.prefixes ≠ r.data.prefixes ∨
    r'.data.contexts ≠ r.data.contexts
  /-- The latest delta leads to the new data, and its notice is the only new
  one. -/
  delta : ∃ d, r'.lastDelta = some d ∧ d.isEmpty = false ∧
    d.apply r.data = r'.data ∧
    r'.notices = r.notices ++ [Notice.ofDelta d]
  alters : r.Alters e r'.data

theorem advances_advance {e : Edit} {edited : NetworkData}
    (hdiffers : edited.prefixes ≠ r.data.prefixes ∨
      edited.contexts ≠ r.data.contexts) (halters : r.Alters e edited) :
    r.Advances e (r.advance edited) where
  owner := rfl
  authority := rfl
  version := rfl
  number := Version.number_next_of_lt
  differs := hdiffers
  delta := by
    refine ⟨_, rfl, ?_, Delta.apply_between _ _, rfl⟩
    rw [← Bool.not_eq_true, (Delta.lists_between _ _).isEmpty_iff, not_and_or]
    exact hdiffers.imp Ne.symm Ne.symm
  alters := halters.at_version r.version.next

/-- Publishing changes an entry unless the prefix and its context are there
already. -/
theorem rebind_differs (hcurrent : ¬ r.IsCurrent net flags context) :
    (rebind r.data
      (r.publishedEntry net flags) context).prefixes ≠ r.data.prefixes ∨
      (rebind r.data (r.publishedEntry net flags) context).contexts ≠
        r.data.contexts := by
  by_contra hsame
  obtain ⟨hprefixes, hcontexts⟩ := not_or.1 hsame
  apply hcurrent
  constructor
  · unfold NetworkData.prefixEntry?
    rw [← not_not.1 hprefixes]
    exact r.prefixEntry?_publishedEntry net flags context
  · unfold NetworkData.contextEntry?
    rw [← not_not.1 hcontexts]
    exact (r.publishes_rebind net flags context).bound

theorem unbind_differs (hpublished : r.data.prefixes.contains net = true) :
    (unbind r.data net).prefixes ≠ r.data.prefixes := by
  intro hsame
  rw [← hsame, Table.contains, get?_prefixes_unbind, if_pos rfl] at hpublished
  cases hpublished

/-! ## The outcomes of an edit -/

/-- An edit that asks for nothing new: its prefix is published with these flags
among others, by this owner, and the context stands for it.  If other contexts
do as well, they stay. -/
def Changeless (r : Replica) : Edit → Prop
  | .publish net flags context => r.IsCurrent net flags context
  | .withdraw _ => False

/-- Why an edit is refused. -/
inductive Forbids (r : Replica) : Edit → Fault → Prop
  | unauthorized {e : Edit} : r.authority = false →
      Forbids r e (.notAuthority r.owner)
  | unknown {net : Prefix} : r.authority = true →
      r.data.prefixEntry? net = none →
      Forbids r (.withdraw net) (.unknownPrefix net.text)

/-- What a replica answers to an edit, and what becomes of it: it stays as it is
unless the edit is both allowed and changes something. -/
structure Decides (r : Replica) (e : Edit) (answer : Except Fault Version)
    (r' : Replica) : Prop where
  error_iff : ∀ fault, answer = .error fault ↔ r.Forbids e fault
  refused : ∀ fault, answer = .error fault → r' = r
  granted : ∀ v, answer = .ok v → v = r'.version ∧
    (r.Changeless e ∧ r' = r ∨ ¬ r.Changeless e ∧ r.Advances e r')

variable {e : Edit} {answer : Except Fault Version} {r' : Replica}

/-- An edit that is forbidden is refused with the fault that says why. -/
theorem decides_of_forbids {fault : Fault} (h : r.Forbids e fault) :
    r.Decides e (.error fault) r where
  error_iff := by
    intro fault'
    constructor
    · intro heq
      cases heq
      exact h
    · intro h'
      cases h with
      | unauthorized hauth =>
          cases h' with
          | unauthorized _ => rfl
          | unknown hauth' _ => cases hauth.symm.trans hauth'
      | unknown hauth _ =>
          cases h' with
          | unauthorized hauth' => cases hauth'.symm.trans hauth
          | unknown _ _ => rfl
  refused := fun _ _ => rfl
  granted := nofun

theorem decides_of_ok (hforbids : ∀ fault, ¬ r.Forbids e fault)
    (h : r.Changeless e ∧ r' = r ∨ ¬ r.Changeless e ∧ r.Advances e r') :
    r.Decides e (.ok r'.version) r' where
  error_iff := fun fault => iff_of_false nofun (hforbids fault)
  refused := nofun
  granted := by
    rintro v ⟨⟩
    exact ⟨rfl, h⟩

theorem Advances.decides (h : r.Advances e r')
    (hforbids : ∀ fault, ¬ r.Forbids e fault) (hchanges : ¬ r.Changeless e) :
    r.Decides e (.ok r'.version) r' :=
  decides_of_ok hforbids (Or.inr ⟨hchanges, h⟩)

theorem not_forbids_publish (hauth : r.authority = true) (fault : Fault) :
    ¬ r.Forbids (.publish net flags context) fault := by
  rintro ⟨hnot⟩
  cases hauth.symm.trans hnot

theorem not_forbids_withdraw (hauth : r.authority = true)
    (hpublished : r.data.prefixes.contains net = true) (fault : Fault) :
    ¬ r.Forbids (.withdraw net) fault := by
  intro hforbids
  cases hforbids with
  | unauthorized hnot => cases hauth.symm.trans hnot
  | unknown _ hnone =>
      rw [NetworkData.prefixEntry?_eq_none_iff,
        ← Table.contains_eq_false_iff] at hnone
      cases hpublished.symm.trans hnone

theorem Edited.decides (h : r.Edited e answer r') : r.Decides e answer r' := by
  cases h with
  | forbidden _ hauth => exact decides_of_forbids (Forbids.unauthorized hauth)
  | current hauth hcurrent =>
      exact decides_of_ok (not_forbids_publish hauth) (Or.inl ⟨hcurrent, rfl⟩)
  | @published net flags context hauth hcurrent =>
      have hadvances := advances_advance (e := .publish net flags context)
        (rebind_differs hcurrent) (r.publishes_rebind net flags context)
      exact hadvances.decides (not_forbids_publish hauth) hcurrent
  | @withdrawn net hauth hpublished =>
      have hadvances := advances_advance (e := .withdraw net)
        (Or.inl (unbind_differs hpublished)) (r.withdraws_unbind net)
      exact hadvances.decides (not_forbids_withdraw hauth hpublished) id
  | unknown hauth hunknown =>
      apply decides_of_forbids (Forbids.unknown hauth _)
      rwa [NetworkData.prefixEntry?_eq_none_iff, ← Table.contains_eq_false_iff]

/-! ## Replicas that take over nothing from others -/

/-- The operation brings no data from elsewhere. -/
def Op.isLocal : Op → Bool
  | .edit _ => true
  | .adopt _ => false
  | .applyDelta _ => false
  | .reset => true
  | .setAuthority _ => true
  | .takeNotices => true

/-- A context that is there after a prefix was published is that of the prefix,
or was there before and stands for another one. -/
theorem Publishes.eq_or_old (h : r.Publishes net flags context data)
    {id : ContextId} {c : ContextEntry} (hc : data.contextEntry? id = some c) :
    id = context ∧ c.net = net ∨ r.data.contextEntry? id = some c ∧
    c.net ≠ net := by
  by_cases hid : id = context
  · subst hid
    cases h.bound.symm.trans hc
    exact Or.inl ⟨rfl, rfl⟩
  · have hnet : c.net ≠ net := fun hnet => hid (h.only id c hc hnet)
    refine Or.inr ⟨?_, hnet⟩
    rw [← h.contexts id hid, hc]
    intro c' hc' hnet'
    cases (h.dropped id c' hid hc' hnet').symm.trans hc

theorem Withdraws.old (h : r.Withdraws net data) {id : ContextId}
    {c : ContextEntry} (hc : data.contextEntry? id = some c) :
    r.data.contextEntry? id = some c ∧ c.net ≠ net := by
  refine ⟨?_, h.unbound id c hc⟩
  rw [← h.contexts id, hc]
  intro c' hc' hnet'
  cases (h.dropped id c' hc' hnet').symm.trans hc

theorem Publishes.wellBound (h : r.Publishes net flags context data)
    (hbound : r.data.WellBound) : data.WellBound where
  once := by
    intro i j b c hb hc hnet
    rcases h.eq_or_old hb with ⟨hi, hbnet⟩ | ⟨hbold, hbnet⟩
    · rcases h.eq_or_old hc with ⟨hj, -⟩ | ⟨-, hcnet⟩
      · exact hi.trans hj.symm
      · exact absurd (hnet.symm.trans hbnet) hcnet
    · rcases h.eq_or_old hc with ⟨-, hcnet⟩ | ⟨hcold, -⟩
      · exact absurd (hnet.trans hcnet) hbnet
      · exact hbound.once i j b c hbold hcold hnet
  published := by
    intro id c hc
    rcases h.eq_or_old hc with ⟨-, hnet⟩ | ⟨hold, hnet⟩
    · rw [hnet]
      cases hentry : r.data.prefixEntry? net with
      | none => exact ⟨_, h.added hentry⟩
      | some e => exact ⟨_, h.widened e hentry⟩
    · rw [h.prefixes c.net hnet]
      exact hbound.published id c hold

theorem Withdraws.wellBound (h : r.Withdraws net data)
    (hbound : r.data.WellBound) : data.WellBound where
  once := fun i j b c hb hc => hbound.once i j b c (h.old hb).1 (h.old hc).1
  published := by
    intro id c hc
    obtain ⟨hold, hnet⟩ := h.old hc
    rw [h.prefixes c.net hnet]
    exact hbound.published id c hold

theorem Alters.wellBound (h : r.Alters e data) (hbound : r.data.WellBound) :
    data.WellBound := by
  cases e with
  | publish net flags context => exact Publishes.wellBound h hbound
  | withdraw net => exact Withdraws.wellBound h hbound

theorem Decides.wellBound (h : r.Decides e answer r')
    (hbound : r.data.WellBound) : r'.data.WellBound := by
  cases hanswer : answer with
  | error fault => rwa [h.refused fault hanswer]
  | ok v =>
      rcases (h.granted v hanswer).2 with ⟨-, hsame⟩ | ⟨-, hadvances⟩
      · rwa [hsame]
      · exact hadvances.alters.wellBound hbound

theorem wellBound_perform (hbound : r.data.WellBound) {op : Op}
    (hlocal : op.isLocal = true) : (r.perform op).data.WellBound := by
  cases op with
  | edit e => exact (r.edited_edit e).decides.wellBound hbound
  | adopt incoming => cases hlocal
  | applyDelta d => cases hlocal
  | reset => exact NetworkData.wellBound_empty
  | setAuthority authority => exact hbound
  | takeNotices => exact hbound

theorem wellBound_foldl_perform (hbound : r.data.WellBound) {ops : List Op}
    (hlocal : ∀ op ∈ ops, op.isLocal = true) :
    (ops.foldl perform r).data.WellBound := by
  induction ops generalizing r with
  | nil => exact hbound
  | cons op ops ih =>
      obtain ⟨hop, hops⟩ := List.forall_mem_cons.1 hlocal
      exact ih (wellBound_perform hbound hop) hops

/-- What holds of the edits of a replica after some operations. -/
structure EditsLawfully (r : Replica) (ops : List Op) : Prop where
  decides : ∀ e, (ops.foldl perform r).Decides e
    ((ops.foldl perform r).edit e).1 ((ops.foldl perform r).edit e).2
  wellBound : (∀ op ∈ ops, op.isLocal = true) →
    (ops.foldl perform r).data.WellBound

/-- Whatever was done to a new replica, an edit that is refused or asks for
nothing new leaves it as it is, and any other takes it to the next version and
changes just what it names.  Without data from elsewhere, every prefix has at
most one context and every context a published prefix. -/
theorem editsLawfully_of_ops (owner : NodeId) (authority : Bool)
    (ops : List Op) : (make owner authority).EditsLawfully ops where
  decides := fun e => (edited_edit _ e).decides
  wellBound := wellBound_foldl_perform NetworkData.wellBound_empty

-- An id can be taken over: the prefix that it stood for stays
-- published, without a context.
example :
    let p : Prefix := default
    let q : Prefix := Prefix.ofAddress ⟨1⟩ 128 (Nat.le_refl _)
    let r := [Op.edit (.publish p Flags.none ⟨1⟩),
      .edit (.publish q Flags.none ⟨1⟩)].foldl perform
      (make ⟨1⟩ true)
    r.version = ⟨2⟩ ∧ r.data.contextEntries = [⟨⟨1⟩, q, true⟩] ∧
      r.data.prefixEntries = [⟨p, Flags.none, ⟨1⟩⟩, ⟨q, Flags.none, ⟨1⟩⟩] := by
  decide +kernel

end Replica

end OnMesh
