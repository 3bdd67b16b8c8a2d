import OnMesh.AddressBook
import OnMesh.Proofs.Delta

/-!
# Reconciliation reaches what is wanted

Whatever was configured before, a reconciliation leaves exactly the addresses
that follow from the data: what is dropped is not wanted, and what is kept or
added afterwards stands under its context.  What it reports as added and as
removed is the change in the number of addresses.  The low half of every such
address is the interface identifier of its node, so no two nodes share one.
-/

namespace OnMesh

namespace AddressBook

theorem owner_reconcile (b : AddressBook) (data : NetworkData) :
    (b.reconcile data).2.owner = b.owner := rfl

/-- Configuring an address sets the address of its context. -/
theorem configureOne_fst
    (state : Table ContextId MeshAddress × List MeshAddress)
    (e : ContextId × MeshAddress) :
    (configureOne state e).1 = state.1.insert e.1 e.2 := by
  rw [configureOne]
  split
  · next existing hexisting =>
      split
      · next hsame =>
          subst hsame
          apply Table.ext_get?
          intro k
          by_cases hk : k = e.1
          · subst hk
            simp [hexisting]
          · simp [hk]
      · rfl
  · rfl

theorem foldl_configureOne_fst (es : List (ContextId × MeshAddress))
    (state : Table ContextId MeshAddress × List MeshAddress) :
    (es.foldl configureOne state).1 = state.1.insertAll es := by
  induction es generalizing state with
  | nil => rfl
  | cons e es ih =>
      rw [List.foldl_cons, ih, configureOne_fst]
      rfl

/-- A reconciliation configures exactly the addresses that follow from the
data. -/
theorem configured_reconcile (b : AddressBook) (data : NetworkData) :
    (b.reconcile data).2.configured = b.derive data := by
  have hfold : (b.reconcile data).2.configured =
      (b.configured.filter (isWanted (b.derive data))).insertAll
        (b.derive data).entries :=
    foldl_configureOne_fst _ _
  rw [hfold]
  apply Table.ext_get?
  intro k
  cases hwanted : (b.derive data).get? k with
  | some a =>
      refine Table.get?_insertAll_of_mem (Table.get?_eq_some_iff.1 hwanted) ?_
      rintro ⟨j, c⟩ he rfl
      rw [Table.get?_of_mem he] at hwanted
      exact Option.some.inj hwanted
  | none =>
      rw [Table.get?_insertAll_of_not_mem]
      · rw [Table.get?_filter, Option.filter_eq_none_iff]
        intro a _
        simp [isWanted, hwanted]
      · rintro ⟨j, c⟩ he rfl
        rw [Table.get?_of_mem he] at hwanted
        cases hwanted

/-- An address is reported as added exactly if its context had none. -/
theorem size_configureOne
    (state : Table ContextId MeshAddress × List MeshAddress)
    (e : ContextId × MeshAddress) :
    (configureOne state e).1.size + state.2.length =
      state.1.size + (configureOne state e).2.length := by
  have hsize := state.1.size_insert e.1 e.2
  rw [← configureOne_fst, Table.contains] at hsize
  rw [hsize, configureOne]
  cases hget : state.1.get? e.1 with
  | some existing => simp
  | none =>
      simp only [Option.isSome_none, Bool.false_eq_true, if_false,
        List.length_append, List.length_singleton]
      omega

theorem size_foldl_configureOne (es : List (ContextId × MeshAddress))
    (state : Table ContextId MeshAddress × List MeshAddress) :
    (es.foldl configureOne state).1.size + state.2.length =
      state.1.size + (es.foldl configureOne state).2.length := by
  induction es generalizing state with
  | nil => rfl
  | cons e es ih =>
      have hone := size_configureOne state e
      have hrest := ih (configureOne state e)
      rw [List.foldl_cons]
      omega

/-- The report of a reconciliation accounts for every address that came or
went. -/
theorem size_reconcile (b : AddressBook) (data : NetworkData) :
    (b.reconcile data).2.configured.size + (b.reconcile data).1.removed.length =
      b.configured.size + (b.reconcile data).1.added.length := by
  have hfold := size_foldl_configureOne (b.derive data).entries
    (b.configured.filter (isWanted (b.derive data)), [])
  have hsplit := b.configured.size_filter_add (isWanted (b.derive data))
  have hremoved := Table.length_values
    (b.configured.filter fun id a => !isWanted (b.derive data) id a)
  simp only [reconcile, hremoved]
  simp only [List.length_nil] at hfold
  omega

end AddressBook

/-! ## Low halves -/

theorem Prefix.setWidth_network {p : Prefix} (h : p.isSlaacCapable = true) :
    p.network.bits.setWidth 64 = 0 := by
  have hlength : p.length = 64 := eq_of_beq h
  have hmasked := p.masked
  rw [hlength] at hmasked
  rw [← hmasked]
  apply BitVec.eq_of_getLsbD_eq
  intro i hi
  simp [hi]

theorem MeshAddress.setWidth_derive {net : Prefix}
    (h : net.isSlaacCapable = true) (context : ContextId) (iid : InterfaceId)
    (preferred : Bool) :
    (derive net context iid preferred).addr.bits.setWidth 64 =
      iid.bits.toBitVec := by
  have hnet := Prefix.setWidth_network h
  show (net.network.bits ||| iid.bits.toBitVec.setWidth 128).setWidth 64 = _
  rw [BitVec.setWidth_or, hnet, BitVec.setWidth_setWidth_of_le _ (by decide)]
  simp

theorem MeshAddress.contains_derive {net : Prefix}
    (h : net.isSlaacCapable = true) (context : ContextId) (iid : InterfaceId)
    (preferred : Bool) :
    net.contains (derive net context iid preferred).addr = true := by
  have hlength : net.length = 64 := eq_of_beq h
  have hnet : net.network.bits &&& Prefix.mask net.length = net.network.bits :=
    net.masked
  have hiid :
      iid.bits.toBitVec.setWidth 128 &&& Prefix.mask net.length = 0 := by
    rw [hlength, Prefix.mask]
    apply BitVec.eq_of_getLsbD_eq
    intro i hi
    by_cases hlow : i < 64
    · rw [BitVec.getLsbD_and, BitVec.getLsbD_shiftLeft]
      simp [hlow]
    · rw [BitVec.getLsbD_and, BitVec.getLsbD_setWidth,
        BitVec.getLsbD_of_ge _ i (by omega)]
      simp
  rw [Prefix.contains, beq_iff_eq]
  show (net.network.bits ||| iid.bits.toBitVec.setWidth 128) &&&
    Prefix.mask net.length = _
  rw [BitVec.and_comm, BitVec.and_or_distrib_left, BitVec.and_comm, hnet,
    BitVec.and_comm, hiid]
  exact BitVec.or_zero

/-- An address begins with one prefix of each length. -/
theorem Prefix.eq_of_contains {p q : Prefix} {a : Address}
    (hlength : p.length = q.length) (hp : p.contains a = true)
    (hq : q.contains a = true) : p = q := by
  refine Prefix.ext (congrArg Address.mk ?_) hlength
  rw [← eq_of_beq hp, ← eq_of_beq hq, hlength]

namespace AddressBook

variable {b c : AddressBook} {data : NetworkData}

/-- What follows from the data depends on nothing but the node. -/
theorem derive_congr (h : b.owner = c.owner) (data : NetworkData) :
    b.derive data = c.derive data := by
  have hone : b.deriveOne? data = c.deriveOne? data := by
    funext entry
    rw [deriveOne?, deriveOne?, interfaceId, interfaceId, h]
  rw [derive, derive, hone]

theorem hasAddress_of_mem {address : MeshAddress} (h : address ∈ b.addresses) :
    b.hasAddress address.addr = true :=
  List.any_eq_true.2 ⟨address, h, beq_self_eq_true _⟩

/-- What follows from one context: nothing, or the address of its prefix. -/
theorem deriveOne?_eq_some_iff {c : ContextEntry} {id : ContextId}
    {a : MeshAddress} :
    b.deriveOne? data c = some (id, a) ↔ c.id = id ∧
      ∃ e, data.prefixEntry? c.net = some e ∧ e.isSlaacEligible = true ∧
        a =
          MeshAddress.derive c.net c.id b.interfaceId e.flags.isPreferred := by
  rw [deriveOne?]
  cases data.prefixEntry? c.net with
  | none => simp
  | some e =>
      by_cases heligible : e.isSlaacEligible = true
      · simp only [heligible, if_true, Option.some.injEq, Prod.mk.injEq]
        constructor
        · rintro ⟨hid, rfl⟩
          exact ⟨hid, e, rfl, heligible, rfl⟩
        · rintro ⟨hid, _, rfl, -, rfl⟩
          exact ⟨hid, rfl⟩
      · simp only [heligible, Bool.false_eq_true, if_false,
          reduceCtorEq, false_iff]
        rintro ⟨-, _, hsome, hyes, -⟩
        rw [Option.some.inj hsome] at heligible
        exact heligible hyes

/-- The address of a context id follows from the context that has the id. -/
theorem get?_derive_eq_some_iff {id : ContextId} {a : MeshAddress} :
    (b.derive data).get? id = some a ↔
      ∃ c, data.contextEntry? id = some c ∧
      b.deriveOne? data c = some (id, a) := by
  have hentry : ∀ {c : ContextEntry} {x : ContextId × MeshAddress},
      c ∈ data.contextEntries →
      b.deriveOne? data c = some x → data.contextEntry? x.1 = some c := by
    rintro c ⟨j, x⟩ hc hx
    have hid : c.id = j := (deriveOne?_eq_some_iff.1 hx).1
    exact NetworkData.contextEntry?_eq_some_iff.2
      ⟨hid, hid ▸ NetworkData.mem_contextEntries_iff.1 hc⟩
  constructor
  · intro h
    rcases Table.mem_or_of_get?_insertAll h with hmem | hnone
    · obtain ⟨c, hc, hx⟩ := List.mem_filterMap.1 hmem
      exact ⟨c, hentry hc hx, hx⟩
    · cases hnone
  · rintro ⟨c, hc, hx⟩
    obtain ⟨hid, hget⟩ := NetworkData.contextEntry?_eq_some_iff.1 hc
    have hmem : c ∈ data.contextEntries :=
      NetworkData.mem_contextEntries_iff.2 (hid.symm ▸ hget)
    refine Table.get?_insertAll_of_mem (List.mem_filterMap.2 ⟨c, hmem, hx⟩) ?_
    rintro ⟨j, y⟩ he rfl
    obtain ⟨c', hc', hy⟩ := List.mem_filterMap.1 he
    have hsame : c' = c := Option.some.inj ((hentry hc' hy).symm.trans hc)
    rw [hsame, hx] at hy
    cases hy
    rfl

/-- An address comes from the prefix that its context stands for,
and begins with it. -/
theorem binding_of_get?_derive {id : ContextId} {a : MeshAddress}
    (h : (b.derive data).get? id = some a) :
    (∃ binding, data.contexts.get? id = some binding ∧ binding.net = a.net) ∧
      a.net.length = Prefix.slaacLength ∧ a.net.contains a.addr = true := by
  obtain ⟨c, hc, hone⟩ := get?_derive_eq_some_iff.1 h
  obtain ⟨-, e, he, heligible, rfl⟩ := deriveOne?_eq_some_iff.1 hone
  have hnet := (NetworkData.prefixEntry?_eq_some_iff.1 he).1
  rw [PrefixEntry.isSlaacEligible, hnet, Bool.and_eq_true] at heligible
  exact ⟨⟨⟨c.net, c.compress⟩, (NetworkData.contextEntry?_eq_some_iff.1 hc).2,
    rfl⟩, eq_of_beq heligible.2, MeshAddress.contains_derive heligible.2 _ _ _⟩

theorem setWidth_of_get?_derive {id : ContextId} {a : MeshAddress}
    (h : (b.derive data).get? id = some a) :
    a.addr.bits.setWidth 64 = b.interfaceId.bits.toBitVec := by
  obtain ⟨c, -, hone⟩ := get?_derive_eq_some_iff.1 h
  obtain ⟨-, e, he, heligible, rfl⟩ := deriveOne?_eq_some_iff.1 hone
  have hnet := (NetworkData.prefixEntry?_eq_some_iff.1 he).1
  rw [PrefixEntry.isSlaacEligible, hnet, Bool.and_eq_true] at heligible
  exact MeshAddress.setWidth_derive heligible.2 _ _ _

theorem exists_of_hasAddress {a : Address} (h : b.hasAddress a = true) :
    ∃ id address, b.configured.get? id = some address ∧ address.addr = a := by
  rw [hasAddress, List.any_eq_true] at h
  obtain ⟨address, hmem, haddr⟩ := h
  obtain ⟨⟨id, value⟩, he, rfl⟩ := List.mem_map.1 hmem
  exact ⟨id, value, Table.get?_of_mem he, eq_of_beq haddr⟩

/-- Nodes whose addresses follow from data share none, whatever the data. -/
theorem owner_eq_of_hasAddress {a : Address} {other : NetworkData}
    (hb : b.configured = b.derive data) (hc : c.configured = c.derive other)
    (hasB : b.hasAddress a = true) (hasC : c.hasAddress a = true) :
    b.owner = c.owner := by
  obtain ⟨i, x, hx, rfl⟩ := exists_of_hasAddress hasB
  obtain ⟨j, y, hy, hsame⟩ := exists_of_hasAddress hasC
  rw [hb] at hx
  rw [hc] at hy
  have hbits : c.interfaceId.bits = b.interfaceId.bits := by
    apply UInt64.toBitVec_inj.1
    rw [← setWidth_of_get?_derive hx, ← setWidth_of_get?_derive hy, hsame]
  apply InterfaceId.ofNode_injective
  exact congrArg InterfaceId.mk hbits.symm

end AddressBook

end OnMesh
