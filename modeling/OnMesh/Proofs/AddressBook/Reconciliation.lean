import OnMesh.Proofs.AddressBook

/-!
# What a reconciliation reports

Every book of addresses that is only reconciled and cleared holds what follows
from some data, so it is enough to compare two sets of data.  An address whose
context and value follow from both stays and is not reported, even if it gets
another preference; an id that comes to stand for another prefix counts as one
address gone and one that is new.  Reconciling with the same data again does
nothing.
-/

namespace OnMesh.AddressBook

variable {b : AddressBook} {data : NetworkData}

/-! ## Lists of addresses -/

/-- An address stands under a context, whatever its preference. -/
def Holds (t : Table ContextId MeshAddress) (context : ContextId)
    (addr : Address) : Prop :=
  ∃ a, t.get? context = some a ∧ a.addr = addr

/-- The list holds exactly the addresses with a property, in
order of their contexts. -/
structure Enumerates (as : List MeshAddress) (p : MeshAddress → Prop) :
    Prop where
  ordered : as.Pairwise fun x y => rank x.context < rank y.context
  mem_iff : ∀ a, a ∈ as ↔ p a

theorem Enumerates.congr {as : List MeshAddress} {p q : MeshAddress → Prop}
    (h : Enumerates as p) (hiff : ∀ a, p a ↔ q a) : Enumerates as q :=
  ⟨h.ordered, fun a => (h.mem_iff a).trans (hiff a)⟩

theorem Enumerates.eq_nil {as : List MeshAddress} {p : MeshAddress → Prop}
    (h : Enumerates as p) (hnone : ∀ a, ¬ p a) : as = [] :=
  List.eq_nil_iff_forall_not_mem.2 fun a ha => hnone a ((h.mem_iff a).1 ha)

/-- Every address stands under the context that it was derived under. -/
def Labelled (t : Table ContextId MeshAddress) : Prop :=
  ∀ id a, t.get? id = some a → a.context = id

namespace Labelled

variable {t : Table ContextId MeshAddress}

theorem mem_values_iff (h : Labelled t) {a : MeshAddress} :
    a ∈ t.values ↔ t.get? a.context = some a := by
  rw [Table.values, List.mem_map]
  constructor
  · rintro ⟨⟨id, _⟩, he, rfl⟩
    have hget := Table.get?_of_mem he
    rwa [h id _ hget]
  · intro hget
    exact ⟨(a.context, a), Table.get?_eq_some_iff.1 hget, rfl⟩

theorem filter (h : Labelled t) (p : ContextId → MeshAddress → Bool) :
    Labelled (t.filter p) := by
  intro id a ha
  rw [Table.get?_filter, Option.filter_eq_some_iff] at ha
  exact h id a ha.1

/-- The addresses of a table that pass a test come in order of their
contexts. -/
theorem enumerates_filter (h : Labelled t)
    (p : ContextId → MeshAddress → Bool) :
    Enumerates (t.filter p).values fun a => a ∈ t.values ∧
    p a.context a = true where
  ordered := by
    rw [Table.values, List.pairwise_map]
    refine (t.filter p).ascending.imp_of_mem fun {x y} hx hy hlt => ?_
    rwa [h.filter p x.1 x.2 (Table.get?_of_mem hx),
      h.filter p y.1 y.2 (Table.get?_of_mem hy)]
  mem_iff := by
    intro a
    rw [(h.filter p).mem_values_iff, h.mem_values_iff, Table.get?_filter,
      Option.filter_eq_some_iff]

end Labelled

/-! ## The two lists of a report -/

theorem labelled_derive (b : AddressBook) (data : NetworkData) :
    Labelled (b.derive data) := by
  intro id a h
  obtain ⟨c, -, hone⟩ := get?_derive_eq_some_iff.1 h
  obtain ⟨hid, e, -, -, rfl⟩ := deriveOne?_eq_some_iff.1 hone
  exact hid

theorem isWanted_iff {wanted : Table ContextId MeshAddress} {id : ContextId}
    {a : MeshAddress} :
    isWanted wanted id a = true ↔ Holds wanted id a.addr := by
  rw [isWanted, beq_iff_eq, Option.map_eq_some_iff]
  rfl

theorem removed_reconcile (b : AddressBook) (data : NetworkData) :
    (b.reconcile data).1.removed =
      (b.configured.filter fun id a => !isWanted (b.derive data) id a).values :=
  rfl

/-- Of the addresses that are configured one after the other, each under a
context of its own, those are new whose context had none. -/
theorem foldl_configureOne_snd {es : List (ContextId × MeshAddress)}
    (hnodup : (es.map (·.1)).Nodup)
    (state : Table ContextId MeshAddress × List MeshAddress) :
    (es.foldl configureOne state).2 =
      state.2 ++ (es.filter fun e => !state.1.contains e.1).map (·.2) := by
  induction es generalizing state with
  | nil => exact (List.append_nil _).symm
  | cons e es ih =>
      rw [List.map_cons, List.nodup_cons] at hnodup
      -- Configuring the first address changes nothing under the
      -- contexts of the others.
      have hothers :
          (es.filter fun d => !(configureOne state e).1.contains d.1) =
          es.filter fun d => !state.1.contains d.1 := by
        apply List.filter_congr
        intro d hd
        have hne : d.1 ≠ e.1 :=
          fun heq => hnodup.1 (heq ▸ List.mem_map_of_mem hd)
        rw [configureOne_fst, Table.contains, Table.get?_insert,
          if_neg hne, Table.contains]
      rw [List.foldl_cons, ih hnodup.2, hothers, configureOne]
      cases hget : state.1.get? e.1 with
      | some existing => simp [Table.contains, hget]
      | none => simp [Table.contains, hget]

theorem added_reconcile (b : AddressBook) (data : NetworkData) :
    (b.reconcile data).1.added = ((b.derive data).filter fun id _ =>
      !(b.configured.filter (isWanted (b.derive data))).contains id).values :=
  foldl_configureOne_snd (b.derive data).nodup_keys _

/-- What is gone are the configured addresses that do not follow from the
data. -/
theorem enumerates_removed (hlabels : Labelled b.configured)
    (data : NetworkData) :
    Enumerates (b.reconcile data).1.removed fun a =>
      a ∈ b.addresses ∧ ¬ Holds (b.derive data) a.context a.addr := by
  rw [removed_reconcile]
  refine (hlabels.enumerates_filter _).congr fun a =>
    and_congr_right fun _ => ?_
  rw [Bool.not_eq_true', ← Bool.not_eq_true, isWanted_iff]

/-- What is new are the addresses that follow from the data and
were not configured. -/
theorem enumerates_added (b : AddressBook) (data : NetworkData) :
    Enumerates (b.reconcile data).1.added fun a =>
      a ∈ (b.derive data).values ∧ ¬ Holds b.configured a.context a.addr := by
  have hlabels := b.labelled_derive data
  rw [added_reconcile]
  refine (hlabels.enumerates_filter _).congr fun a =>
    and_congr_right fun hmem => ?_
  have hwanted := hlabels.mem_values_iff.1 hmem
  rw [Bool.not_eq_true', ← Bool.not_eq_true, not_iff_not, Table.contains,
    Table.get?_filter, Option.isSome_iff_exists]
  simp only [Option.filter_eq_some_iff, isWanted_iff]
  constructor
  · rintro ⟨old, hold, new, hnew, haddr⟩
    cases hwanted.symm.trans hnew
    exact ⟨old, hold, haddr.symm⟩
  · rintro ⟨old, hold, haddr⟩
    exact ⟨old, hold, a, hwanted, haddr.symm⟩

/-! ## One reconciliation after another -/

/-- An address that keeps its value under a context is not reported. -/
theorem not_reported (hlabels : Labelled b.configured) {id : ContextId}
    {old new : MeshAddress} (hold : b.configured.get? id = some old)
    (hnew : (b.derive data).get? id = some new) (haddr : old.addr = new.addr) :
    ∀ a ∈ (b.reconcile data).1.removed ++ (b.reconcile data).1.added,
      a.context ≠ id := by
  rintro a ha rfl
  rcases List.mem_append.1 ha with hremoved | hadded
  · obtain ⟨hmem, hnot⟩ :=
      ((enumerates_removed hlabels data).mem_iff a).1 hremoved
    cases hold.symm.trans (hlabels.mem_values_iff.1 hmem)
    exact hnot ⟨new, hnew, haddr.symm⟩
  · obtain ⟨hmem, hnot⟩ := ((b.enumerates_added data).mem_iff a).1 hadded
    cases hnew.symm.trans ((b.labelled_derive data).mem_values_iff.1 hmem)
    exact hnot ⟨old, hold, haddr⟩

/-- Addresses that follow from the data already are left alone. -/
theorem reconcile_of_configured_eq (h : b.configured = b.derive data) :
    b.reconcile data = (⟨[], []⟩, b) := by
  have hlabels : Labelled b.configured := h ▸ b.labelled_derive data
  have hremoved : (b.reconcile data).1.removed = [] := by
    refine (enumerates_removed hlabels data).eq_nil fun a ha =>
      ha.2 ⟨a, ?_, rfl⟩
    rw [← h]
    exact hlabels.mem_values_iff.1 ha.1
  have hadded : (b.reconcile data).1.added = [] := by
    refine (b.enumerates_added data).eq_nil fun a ha => ha.2 ⟨a, ?_, rfl⟩
    rw [h]
    exact (b.labelled_derive data).mem_values_iff.1 ha.1
  have hbook : (b.reconcile data).2 = b := by
    show { b with configured := (b.reconcile data).2.configured } = b
    rw [configured_reconcile, ← h]
  refine Prod.ext ?_ hbook
  show (⟨(b.reconcile data).1.added, (b.reconcile data).1.removed⟩ : Report) = _
  rw [hadded, hremoved]

/-- Two addresses that a node derives under one context, from whatever data, are
the same up to their preference if they have the same value. -/
theorem addr_eq_iff {held : NetworkData} {id : ContextId} {x y : MeshAddress}
    (hx : (b.derive held).get? id = some x)
    (hy : (b.derive data).get? id = some y) :
    x.addr = y.addr ↔ y = { x with preferred := y.preferred } := by
  constructor
  · intro haddr
    obtain ⟨-, hxlength, hxnet⟩ := binding_of_get?_derive hx
    obtain ⟨-, hylength, hynet⟩ := binding_of_get?_derive hy
    rw [← haddr] at hynet
    have hnet : x.net = y.net :=
      Prefix.eq_of_contains (hxlength.trans hylength.symm) hxnet hynet
    have hcontext : x.context = y.context :=
      (b.labelled_derive held id x hx).trans
        (b.labelled_derive data id y hy).symm
    rw [haddr, hnet, hcontext]
  · intro hsame
    rw [hsame]

/-- What a reconciliation does to a book of addresses and what it reports. -/
structure Reconciles (b : AddressBook) (data : NetworkData) : Prop where
  /-- Afterwards just those addresses are configured that follow from the
  data. -/
  configured : (b.reconcile data).2.configured = b.derive data
  removed : Enumerates (b.reconcile data).1.removed fun a =>
    a ∈ b.addresses ∧ ¬ Holds (b.derive data) a.context a.addr
  added : Enumerates (b.reconcile data).1.added fun a =>
    a ∈ (b.derive data).values ∧ ¬ Holds b.configured a.context a.addr
  /-- An address that keeps its value under a context keeps everything
  but its preference. -/
  refreshed : ∀ id old new, b.configured.get? id = some old →
    (b.derive data).get? id = some new →
      (old.addr = new.addr ↔ new = { old with preferred := new.preferred })
  /-- Then nothing is reported under the context. -/
  unreported : ∀ id old new, b.configured.get? id = some old →
    (b.derive data).get? id = some new → old.addr = new.addr →
      ∀ a ∈ (b.reconcile data).1.removed ++ (b.reconcile data).1.added,
        a.context ≠ id
  /-- Doing it again reports nothing and changes nothing. -/
  again : (b.reconcile data).2.reconcile data = (⟨[], []⟩, (b.reconcile data).2)

theorem configured_reconcile_eq_derive (b : AddressBook) (data : NetworkData) :
    (b.reconcile data).2.configured = (b.reconcile data).2.derive data :=
  (b.configured_reconcile data).trans
    (derive_congr (b.owner_reconcile data).symm data)

/-- It is enough that the book holds what follows from some data. -/
theorem reconciles_of_configured {held : NetworkData}
    (hheld : b.configured = b.derive held) (data : NetworkData) :
    b.Reconciles data := by
  have hlabels : Labelled b.configured := hheld ▸ b.labelled_derive held
  exact {
    configured := b.configured_reconcile data
    removed := enumerates_removed hlabels data
    added := b.enumerates_added data
    refreshed := fun _ _ _ hold hnew => addr_eq_iff (hheld ▸ hold) hnew
    unreported := fun _ _ _ => not_reported hlabels
    again :=
      reconcile_of_configured_eq (b.configured_reconcile_eq_derive data) }

/-! ## Books of addresses in use -/

inductive Act where
  | reconcile (data : NetworkData)
  | clear

def act (b : AddressBook) : Act → AddressBook
  | .reconcile data => (b.reconcile data).2
  | .clear => b.clear.2

/-- A book of addresses always holds what follows from some data: those of the
last reconciliation, or empty ones if it was cleared since. -/
theorem exists_configured_eq_derive (h : ∃ held, b.configured = b.derive held)
    (acts : List Act) :
    ∃ held, (acts.foldl act b).configured = (acts.foldl act b).derive held := by
  induction acts generalizing b with
  | nil => exact h
  | cons a acts ih =>
      apply ih
      cases a with
      | reconcile data => exact ⟨data, b.configured_reconcile_eq_derive data⟩
      | clear => exact ⟨NetworkData.empty, rfl⟩

/-- However a node came by its addresses, reconciling them with data leaves
exactly what follows from the data and reports exactly what came and went. -/
theorem reconciles_of_acts (owner : NodeId) (acts : List Act)
    (data : NetworkData) : (acts.foldl act (make owner)).Reconciles data := by
  obtain ⟨held, hheld⟩ :=
    exists_configured_eq_derive (b := make owner) ⟨NetworkData.empty, rfl⟩ acts
  exact reconciles_of_configured hheld data

end OnMesh.AddressBook
