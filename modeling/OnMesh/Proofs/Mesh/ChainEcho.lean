import OnMesh.Proofs.Mesh.ChainCalls

/-!
# The addresses at the end of a chain

A chain that is open from end to end carries echo requests of the leader to the
leaf.  If both hold the same data, the leaf has one address for each published
prefix that addresses may be derived from, and the leader is answered on all of
them.
-/

namespace OnMesh

/-- Addresses may be derived from all prefixes. -/
def NetworkData.Derivable (d : NetworkData) : Prop :=
  ∀ net p, d.prefixes.get? net = some p → net.length = 64 ∧
    p.flags.isSlaac = true

namespace Chain

variable {c : Chain} {sc sc' : Scene} {i j k : Nat} {m : Mesh} {n : Node}
  {old new : NetworkData} {net : Prefix} {flags : Flags} {d : Delta}

/-- Scenes are the same if they are at the positions of the chain. -/
theorem Shows.of_same (h : c.Shows sc m)
    (hheld : ∀ i ≤ c.last, sc'.held i = sc.held i) (hup : sc'.up = sc.up)
    (hdown : sc'.down = sc.down) (hout : sc'.out = sc.out) : c.Shows sc' m where
  node := by
    intro i hi
    obtain ⟨n, hn, hsits⟩ := h.node i hi
    refine ⟨n, hn, hsits.of_same (hheld i hi) (by rw [hout]) fun j => ?_⟩
    rw [Admits, Admits, hup, hdown]
  only := h.only
  linked := h.linked
  latency := h.latency
  located := h.located
  proper := h.proper

/-! ## Echo requests -/

/-- While both ends of the last link are up, every link can be used. -/
theorem Shows.usable (h : c.Shows sc m) (hup : sc.up = true)
    (hdown : sc.down = true) (hi : i < c.last) :
    m.Usable (c.post i) (c.post (i + 1)) := by
  obtain ⟨x, hx, hthis⟩ := h.node i (Nat.le_of_lt hi)
  obtain ⟨y, hy, hnext⟩ := h.node (i + 1) hi
  have hforth : x.isAdmissible y.id = true := by
    rw [hnext.id]
    exact (hthis.isAdmissible_iff hi).2
      ⟨⟨hi, Or.inl rfl⟩, fun _ _ => hup, fun _ _ => hdown⟩
  have hback : y.isAdmissible x.id = true := by
    rw [hthis.id]
    exact (hnext.isAdmissible_iff (Nat.le_of_lt hi)).2
      ⟨⟨Nat.le_of_lt hi, Or.inr rfl⟩, fun _ _ => hup, fun _ _ => hdown⟩
  have husable : m.isUsable ⟨c.post i, c.post (i + 1)⟩ = true :=
    Mesh.isUsable_iff.2
      ⟨x, y, hx, hy, hthis.started, hnext.started, hforth, hback⟩
  refine ⟨h.linked i hi, ?_⟩
  rcases Arc.link_cases (c.post i) (c.post (i + 1)) with harc | harc
  · rwa [harc]
  · rwa [harc, ← Mesh.isUsable_comm]

theorem Shows.reachable (h : c.Shows sc m) (hup : sc.up = true)
    (hdown : sc.down = true) (hi : i ≤ c.last) :
    Relation.ReflTransGen m.Usable (c.post 0) (c.post i) := by
  induction i with
  | zero => exact .refl
  | succ i ih => exact (ih (Nat.le_of_succ_le hi)).tail (h.usable hup hdown hi)

/-- Over an open chain the leader is answered on every address of the leaf. -/
theorem Shows.echo (h : c.Shows sc m) (hup : sc.up = true)
    (hdown : sc.down = true) (hn : m.nodes.get? (c.post c.last) = some n)
    {a : MeshAddress} (ha : a ∈ n.configuredAddresses) :
    m.echo (c.post 0) a.addr = true := by
  obtain ⟨x, hx, hleader⟩ := h.node 0 (Nat.zero_le _)
  have howner : m.ownerOf? a.addr = some (c.post c.last) := by
    refine Mesh.ownerOf?_eq (fun t k hk => ?_) h.located.unique hn
      (h.sits (Nat.le_refl _) hn).started
        (List.any_eq_true.2 ⟨a, ha, beq_self_eq_true _⟩)
    exact ⟨(h.proper t k hk).upright.formed, (h.proper t k hk).configured⟩
  exact Mesh.echo_of_reachable hx hleader.started howner
    (h.reachable hup hdown (Nat.le_refl _))

/-! ## Addresses -/

theorem Issued.size (h : c.Issued old net flags new d)
    (hnew : old.prefixes.contains net = false) :
    new.prefixes.size = old.prefixes.size + 1 := by
  rw [h.prefixes, Table.size_insert, hnew]
  rfl

theorem Issued.contains_iff (h : c.Issued old net flags new d)
    {other : Prefix} :
    new.prefixes.contains other = true ↔
    other = net ∨ old.prefixes.contains other = true := by
  rw [Table.contains, Table.contains, h.prefixes, Table.get?_insert]
  split <;> simp [*]

theorem Issued.derivable (h : c.Issued old net flags new d)
    (hold : old.Derivable) (hlength : net.length = 64)
    (hflags : flags.isSlaac = true) : new.Derivable := by
  intro other p hp
  rw [h.prefixes, Table.get?_insert] at hp
  split at hp
  · next heq =>
      rw [heq, ← Option.some.inj hp]
      exact ⟨hlength, hflags⟩
  · exact hold other p hp

/-- A leaf that holds what the leader holds has one address for each prefix, if
addresses may be derived from all of them. -/
theorem Shows.perm_addresses (h : c.Shows sc m) {d : NetworkData}
    (hfirst : (sc.held 0).data = d) (hlast : (sc.held c.last).data = d)
    (hderivable : d.Derivable) :
    ∃ n, m.nodes.get? (c.post c.last) = some n ∧
      (n.configuredAddresses.map MeshAddress.net).Perm d.prefixes.keys := by
  obtain ⟨x, hx, hleader⟩ := h.node 0 (Nat.zero_le _)
  obtain ⟨n, hn, hleaf⟩ := h.node c.last (Nat.le_refl _)
  have hdata : n.data = d := hleaf.data.trans hlast
  have hxdata : x.press.replica.data = d := hleader.data.trans hfirst
  have hstep := ((h.proper _ x hx).upright.stocked
    (by rw [hleader.role, role_zero]; rfl)).inStep
  have hconfigured := (h.proper _ n hn).configured
  have hbij := hconfigured.bijOn_addresses (by
      rw [hdata, ← hxdata]
      exact hstep.bindsOnce) (by
      rw [hdata, ← hxdata]
      intro net hnet
      obtain ⟨id, hid⟩ := hstep.bound net hnet
      exact ⟨id, _, hid, rfl⟩)
  refine ⟨n, hn,
    (List.perm_ext_iff_of_nodup ?_ d.prefixes.nodup_keys).2 fun net => ?_⟩
  · exact (Node.nodup_configuredAddresses hconfigured).map_on
      fun a ha b hb hnet =>
      hbij.injOn ha hb hnet
  · rw [List.mem_map, Table.mem_keys_iff]
    constructor
    · rintro ⟨a, ha, rfl⟩
      obtain ⟨e, he, -⟩ := hbij.mapsTo ha
      rw [hdata] at he
      exact ⟨_, (NetworkData.prefixEntry?_eq_some_iff.1 he).2⟩
    · rintro ⟨p, hp⟩
      obtain ⟨hlength, hflags⟩ := hderivable net p hp
      obtain ⟨a, ha, hnet⟩ :=
        hbij.surjOn (show net ∈ {net | ∃ e, n.data.prefixEntry? net = some e ∧
          net.length = 64 ∧ e.flags.isSlaac = true} from
        ⟨⟨net, p.flags, p.owner⟩, by
          rw [hdata, NetworkData.prefixEntry?_eq_some_iff]; exact ⟨rfl, hp⟩,
          hlength, hflags⟩)
      exact ⟨a, ha, hnet⟩

end Chain

end OnMesh
