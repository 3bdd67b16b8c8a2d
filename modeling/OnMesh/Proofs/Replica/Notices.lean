import OnMesh.Proofs.Renewal
import OnMesh.Proofs.Replica.Operations

/-!
# What the notices of a replica tell

An edit, a snapshot or a delta that changes the data leaves one notice, with the
versions around the change.  A reset leaves one only if there are entries to
forget: if all of them were withdrawn before, the replica goes back to the
initial version and nobody is told.  So the notices of a run lead from the
initial version to the one that is held exactly if no reset was silent.
-/

namespace OnMesh

namespace Notice

/-- Notices that follow each other lead from one version to another. -/
def Linked : Version → List Notice → Version → Prop
  | v, [], w => v = w
  | v, n :: ns, w => n.before = v ∧ Linked n.after ns w

instance decidableLinked : (v : Version) → (ns : List Notice) → (w : Version) →
    Decidable (Linked v ns w)
  | v, [], w => inferInstanceAs (Decidable (v = w))
  | v, n :: ns, w =>
    have := decidableLinked n.after ns w
    inferInstanceAs (Decidable (n.before = v ∧ Linked n.after ns w))

theorem linked_concat {v w : Version} (ns : List Notice) (n : Notice) :
    Linked v (ns ++ [n]) w ↔ Linked v ns n.before ∧ n.after = w := by
  induction ns generalizing v with
  | nil => exact and_congr_left fun _ => eq_comm
  | cons m ns ih => exact (and_congr_right fun _ => ih).trans and_assoc.symm

theorem Linked.eq {u v w : Version} {ns : List Notice} (hv : Linked u ns v)
    (hw : Linked u ns w) : v = w := by
  induction ns generalizing u with
  | nil => exact hv.symm.trans hw
  | cons n ns ih => exact ih hv.2 hw.2

end Notice

namespace NetworkData

theorem isEmpty_iff {d : NetworkData} :
    d.isEmpty = true ↔ d.prefixes = Table.empty ∧ d.contexts = Table.empty := by
  rw [isEmpty, Bool.and_eq_true, Table.isEmpty_iff, Table.isEmpty_iff]

/-- Forgetting data changes no entry only if there are none. -/
theorem isEmpty_between_empty (d : NetworkData) :
    (Delta.between d empty).isEmpty = d.isEmpty :=
  Bool.eq_iff_iff.2
    ((Delta.lists_between d empty).isEmpty_iff.trans isEmpty_iff.symm)

end NetworkData

namespace Replica

def handedOut (r : Replica) : Op → List Notice
  | .takeNotices => r.takeNotices.1
  | _ => []

theorem handedOut_of_isUpdate {op : Op} (h : op.isUpdate = true) (r : Replica) :
    r.handedOut op = [] := by
  cases op with
  | takeNotices => cases h
  | _ => rfl

theorem ne_reset_of_isUpdate {op : Op} (h : op.isUpdate = true) :
    op ≠ .reset := by
  rintro rfl
  cases h

/-- The operation is a reset that goes back to the initial version
and leaves no notice. -/
def Silences (r : Replica) (op : Op) : Prop :=
  op = .reset ∧ r.data.isEmpty = true ∧ r.version ≠ Version.initial

instance (r : Replica) (op : Op) : Decidable (r.Silences op) :=
  inferInstanceAs (Decidable (_ ∧ _))

/-- The operation is a reset that leaves a notice and stays at
the initial version. -/
def Repeats (r : Replica) (op : Op) : Prop :=
  op = .reset ∧ r.data.isEmpty = false ∧ r.version = Version.initial

/-- No operation is a silent reset. -/
def Outspoken : Replica → List Op → Prop
  | _, [] => True
  | r, op :: ops => ¬ r.Silences op ∧ (r.perform op).Outspoken ops

end Replica

/-- A replica, and the notices that were taken from it so far, oldest first. -/
structure Chronicle where
  replica : Replica
  taken : List Notice
deriving DecidableEq

namespace Chronicle

/-- A new replica, from which nothing was taken. -/
def start (owner : NodeId) (authority : Bool) : Chronicle :=
  ⟨Replica.make owner authority, []⟩

/-- All notices that the replica has left, taken or not. -/
def notices (c : Chronicle) : List Notice := c.taken ++ c.replica.notices

def version (c : Chronicle) : Version := c.replica.version

def perform (c : Chronicle) (op : Replica.Op) : Chronicle :=
  ⟨c.replica.perform op, c.taken ++ c.replica.handedOut op⟩

def run (c : Chronicle) (ops : List Replica.Op) : Chronicle :=
  ops.foldl perform c

variable {c c' : Chronicle} {op : Replica.Op}

theorem version_of_data {data : NetworkData} (h : c.replica.data = data) :
    c.version = data.version := congrArg NetworkData.version h

/-! ## One operation -/

/-- What an operation does to the data and adds to the notices. -/
inductive Told (c : Chronicle) (op : Replica.Op) (c' : Chronicle) : Prop
  | unchanged : op ≠ .reset → c'.replica.data = c.replica.data →
      c'.notices = c.notices →
      Told c op c'
  | changed {d : Delta} : c.replica.Commits op d →
      c'.replica.data = d.apply c.replica.data →
      c'.notices = c.notices ++ [Notice.ofDelta d] → Told c op c'
  | forgotten : op = .reset → c.replica.data.isEmpty = false →
      c'.replica.data = NetworkData.empty →
      c'.notices = c.notices ++
        [Notice.ofDelta (Delta.between c.replica.data NetworkData.empty)] →
      Told c op c'
  | renumbered : op = .reset → c.replica.data.isEmpty = true →
      c'.replica.data = NetworkData.empty →
      c'.notices = c.notices → Told c op c'

/-- If no notice is handed out, those that were taken stay the same. -/
theorem notices_perform (h : c.replica.handedOut op = []) :
    (c.perform op).notices = c.taken ++ (c.replica.perform op).notices := by
  rw [notices, perform, h, List.append_nil]

theorem notices_reset (r : Replica) :
    r.reset.notices = if r.data.isEmpty = true then r.notices
      else r.notices ++
        [Notice.ofDelta (Delta.between r.data NetworkData.empty)] := by
  rw [Replica.reset, NetworkData.isEmpty_between_empty]

/-- What an operation came to says what was noticed of it. -/
theorem told_of_performed {r' : Replica} (h : c.replica.Performed op r')
    (hperform : c.replica.perform op = r') : c.Told op (c.perform op) := by
  cases h with
  | kept hupdate =>
      refine Told.unchanged (Replica.ne_reset_of_isUpdate hupdate)
        (congrArg Replica.data hperform) ?_
      rw [notices_perform (Replica.handedOut_of_isUpdate hupdate _), hperform]
      rfl
  | committed hcommits =>
      refine Told.changed hcommits (congrArg Replica.data hperform) ?_
      rw [notices_perform
        (Replica.handedOut_of_isUpdate hcommits.isUpdate _), hperform]
      exact (List.append_assoc _ _ _).symm
  | forgotten =>
      have hnotices : (c.perform .reset).notices =
          c.taken ++ c.replica.reset.notices :=
        notices_perform rfl
      rw [notices_reset] at hnotices
      cases hempty : c.replica.data.isEmpty with
      | true =>
          rw [hempty, if_pos rfl] at hnotices
          exact Told.renumbered rfl hempty rfl hnotices
      | false =>
          rw [hempty, if_neg Bool.false_ne_true, ← List.append_assoc]
            at hnotices
          exact Told.forgotten rfl hempty rfl hnotices
  | appointed authority => exact Told.unchanged nofun rfl (notices_perform rfl)
  | emptied => exact Told.unchanged nofun rfl (List.append_nil _)

theorem told_perform (c : Chronicle) (op : Replica.Op) :
    c.Told op (c.perform op) :=
  told_of_performed (c.replica.performed_perform op) rfl

/-- One notice came in if the version changed, with the versions before and
after, and none otherwise. -/
structure Noticed (c c' : Chronicle) : Prop where
  changed : c'.version ≠ c.version →
    ∃ n, c'.notices = c.notices ++ [n] ∧ n.before = c.version ∧
    n.after = c'.version
  unchanged : c'.version = c.version → c'.notices = c.notices

theorem noticed_iff_of_one {n : Notice}
    (hnotices : c'.notices = c.notices ++ [n]) (hbefore : n.before = c.version)
    (hafter : n.after = c'.version) :
    c.Noticed c' ↔ c'.version ≠ c.version := by
  refine ⟨fun h heq => ?_,
    fun hne => ⟨fun _ => ⟨n, hnotices, hbefore, hafter⟩, fun h => ?_⟩⟩
  · have hsame := hnotices.symm.trans (h.unchanged heq)
    exact absurd (List.append_right_eq_self.1 hsame) (List.cons_ne_nil _ _)
  · exact absurd h hne

theorem noticed_iff_of_none (hnotices : c'.notices = c.notices) :
    c.Noticed c' ↔ c'.version = c.version := by
  refine ⟨fun h => ?_,
    fun heq => ⟨fun hne => absurd heq hne, fun _ => hnotices⟩⟩
  by_contra hne
  obtain ⟨n, hadded, -⟩ := h.changed hne
  have hsame := hadded.symm.trans hnotices
  exact absurd (List.append_right_eq_self.1 hsame) (List.cons_ne_nil _ _)

theorem Told.noticed_iff (h : c.Told op c') :
    c.Noticed c' ↔ ¬ c.replica.Silences op ∧ ¬ c.replica.Repeats op := by
  cases h with
  | unchanged hop hdata hnotices =>
      rw [noticed_iff_of_none hnotices]
      exact iff_of_true (version_of_data hdata)
        ⟨fun hsilent => hop hsilent.1, fun hrepeats => hop hrepeats.1⟩
  | @changed d hcommits hdata hnotices =>
      have hop := Replica.ne_reset_of_isUpdate hcommits.isUpdate
      have hversion : c'.version = d.target := version_of_data hdata
      rw [noticed_iff_of_one hnotices hcommits.base hversion.symm, hversion]
      exact iff_of_true hcommits.target_ne
        ⟨fun hsilent => hop hsilent.1, fun hrepeats => hop hrepeats.1⟩
  | forgotten hop hentries hdata hnotices =>
      have hversion : c'.version = Version.initial := version_of_data hdata
      rw [noticed_iff_of_one hnotices rfl hversion.symm, hversion]
      simp [Replica.Silences, Replica.Repeats, hop, hentries, version, eq_comm]
  | renumbered hop hempty hdata hnotices =>
      have hversion : c'.version = Version.initial := version_of_data hdata
      rw [noticed_iff_of_none hnotices, hversion]
      simp [Replica.Silences, Replica.Repeats, hop, hempty, version, eq_comm]

/-! ## The chain of notices -/

/-- The notices lead from the initial version to the one that is held. -/
def Unbroken (c : Chronicle) : Prop :=
  Notice.Linked Version.initial c.notices c.version

instance (c : Chronicle) : Decidable c.Unbroken :=
  inferInstanceAs (Decidable (Notice.Linked ..))

/-- If the notices lead anywhere, then to a version that was lost in a silent
reset. -/
def Severed (c : Chronicle) : Prop :=
  ∀ w, Notice.Linked Version.initial c.notices w →
  w ≠ Version.initial ∧ c.version = Version.initial

theorem Severed.not_unbroken (h : c.Severed) : ¬ c.Unbroken :=
  fun hunbroken => (h _ hunbroken).1 (h _ hunbroken).2

/-- Only a silent reset breaks the chain of notices. -/
theorem Told.unbroken (h : c.Told op c') (hunbroken : c.Unbroken)
    (hloud : ¬ c.replica.Silences op) : c'.Unbroken := by
  rw [Unbroken] at hunbroken ⊢
  cases h with
  | unchanged _ hdata hnotices =>
      have hversion : c'.version = c.version := version_of_data hdata
      rwa [hnotices, hversion]
  | changed hcommits hdata hnotices =>
      have hbase : (Notice.ofDelta _).before = c.version := hcommits.base
      rw [hnotices, Notice.linked_concat, hbase]
      exact ⟨hunbroken, (version_of_data hdata).symm⟩
  | forgotten _ _ hdata hnotices =>
      rw [hnotices]
      exact (Notice.linked_concat _ _).2
        ⟨hunbroken, (version_of_data hdata).symm⟩
  | renumbered hop hempty hdata hnotices =>
      have hversion : c'.version = Version.initial := version_of_data hdata
      by_cases hinitial : c.version = Version.initial
      · rwa [hnotices, hversion.trans hinitial.symm]
      · exact absurd ⟨hop, hempty, hinitial⟩ hloud

theorem Told.severed_of_silences (h : c.Told op c') (hunbroken : c.Unbroken)
    (hsilent : c.replica.Silences op) : c'.Severed := by
  obtain ⟨hop, hempty, hversion⟩ := hsilent
  cases h with
  | unchanged hnot _ _ => exact absurd hop hnot
  | changed hcommits _ _ =>
      exact absurd hop (Replica.ne_reset_of_isUpdate hcommits.isUpdate)
  | forgotten _ hentries _ _ =>
      rw [hempty] at hentries
      cases hentries
  | renumbered _ _ hdata hnotices =>
      intro w hw
      rw [hnotices] at hw
      refine ⟨?_, version_of_data hdata⟩
      rwa [← Notice.Linked.eq hunbroken hw]

/-- Nothing mends the chain: a notice that is added starts at a version
that no other leads to. -/
theorem Told.severed (h : c.Told op c') (hsevered : c.Severed) :
    c'.Severed := by
  intro w hw
  cases h with
  | unchanged _ hdata hnotices =>
      rw [hnotices] at hw
      exact ⟨(hsevered w hw).1, (version_of_data hdata).trans (hsevered w hw).2⟩
  | changed hcommits _ hnotices =>
      rw [hnotices] at hw
      have hbase := ((Notice.linked_concat _ _).1 hw).1
      obtain ⟨hne, hversion⟩ := hsevered _ hbase
      exact absurd (hcommits.base.trans hversion) hne
  | forgotten _ _ _ hnotices =>
      rw [hnotices] at hw
      obtain ⟨hne, hversion⟩ := hsevered _ ((Notice.linked_concat _ _).1 hw).1
      exact absurd hversion hne
  | renumbered _ _ hdata hnotices =>
      rw [hnotices] at hw
      exact ⟨(hsevered w hw).1, version_of_data hdata⟩

theorem Severed.run (h : c.Severed) (ops : List Replica.Op) :
    (c.run ops).Severed := by
  induction ops generalizing c with
  | nil => exact h
  | cons op ops ih => exact ih ((c.told_perform op).severed h)

/-- A chain stays unbroken exactly as long as no reset is silent. -/
theorem Unbroken.run_iff (h : c.Unbroken) (ops : List Replica.Op) :
    (c.run ops).Unbroken ↔ c.replica.Outspoken ops := by
  induction ops generalizing c with
  | nil => exact iff_of_true h trivial
  | cons op ops ih =>
      have htold := c.told_perform op
      by_cases hsilent : c.replica.Silences op
      · have hsevered := htold.severed_of_silences h hsilent
        exact iff_of_false (hsevered.run ops).not_unbroken fun houtspoken =>
          houtspoken.1 hsilent
      · refine (ih (htold.unbroken h hsilent)).trans ?_
        exact (and_iff_right hsilent).symm

/-! ## Data at the initial version -/

/-- There are data at the initial version only once an edit has gone on from the
last version that there is. -/
def Wrapped (c : Chronicle) : Prop :=
  c.version = Version.initial → c.replica.data.isEmpty = false →
    ∃ n ∈ c.notices, n.before.next = Version.initial

/-- Only a step from the last version leads back to the initial one with
data. -/
theorem Told.wrapped (h : c.Told op c') (hwrapped : c.Wrapped) :
    c'.Wrapped := by
  intro hinitial hentries
  cases h with
  | unchanged _ hdata hnotices =>
      rw [hdata] at hentries
      rw [hnotices]
      exact hwrapped ((version_of_data hdata).symm.trans hinitial) hentries
  | @changed d hcommits hdata hnotices =>
      have htarget : d.target = Version.initial :=
        (version_of_data hdata).symm.trans hinitial
      rcases hcommits.target with hlt | ⟨-, hnext⟩
      · rw [htarget] at hlt
        exact absurd hlt (Version.not_lt_initial _)
      · refine ⟨Notice.ofDelta d, ?_, ?_⟩
        · rw [hnotices]
          exact List.mem_append_right _ (List.mem_singleton_self _)
        · exact (congrArg Version.next hcommits.base).trans
            (hnext.symm.trans htarget)
  | forgotten _ _ hdata _ =>
      rw [hdata] at hentries
      cases hentries
  | renumbered _ _ hdata _ =>
      rw [hdata] at hentries
      cases hentries

theorem Wrapped.run (h : c.Wrapped) (ops : List Replica.Op) :
    (c.run ops).Wrapped := by
  induction ops generalizing c with
  | nil => exact h
  | cons op ops ih => exact ih ((c.told_perform op).wrapped h)

/-! ## Runs -/

/-- What the notices of a run tell, and what they do not. -/
structure Reports (c : Chronicle) (ops : List Replica.Op) : Prop where
  /-- Whatever is done next is noticed, unless it is a silent reset or repeats
  the initial version. -/
  noticed : ∀ op, (c.run ops).Noticed ((c.run ops).perform op) ↔
    ¬ (c.run ops).replica.Silences op ∧ ¬ (c.run ops).replica.Repeats op
  /-- The initial version is repeated only once an edit has gone on from the
  last version that there is. -/
  repeats : ∀ op, (c.run ops).replica.Repeats op →
    ∃ n ∈ (c.run ops).notices, n.before.next = Version.initial
  unbroken_iff : (c.run ops).Unbroken ↔ c.replica.Outspoken ops

/-- Whatever is done to a new replica, its notices tell every change of the
version but those of silent resets, and nothing mends the chain after one. -/
theorem reports_start (owner : NodeId) (authority : Bool)
    (ops : List Replica.Op) : (start owner authority).Reports ops where
  noticed op := (told_perform _ op).noticed_iff
  repeats := by
    intro op hrepeats
    have hwrapped : (start owner authority).Wrapped :=
      fun _ hentries => nomatch hentries
    exact hwrapped.run ops hrepeats.2.2 hrepeats.2.1
  unbroken_iff := Unbroken.run_iff (c := start owner authority) rfl ops

/-- A prefix is published and withdrawn, and then the replica is reset: the
version goes from 2 back to 0 without a notice. -/
theorem not_unbroken_of_reset_of_withdrawn :
    let c := (start ⟨1⟩ true).run
      [.edit (.publish default Flags.none ⟨1⟩), .edit (.withdraw default)]
    c.version = ⟨2⟩ ∧ c.Unbroken ∧ c.replica.Silences .reset ∧
      (c.perform .reset).version = ⟨0⟩ ∧
      (c.perform .reset).notices = c.notices ∧
      ¬ (c.perform .reset).Unbroken := by
  decide

end Chronicle

end OnMesh
