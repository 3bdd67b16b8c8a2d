import OnMesh.Proofs.Mesh.Runs
import OnMesh.Proofs.Mesh.Settling

/-!
# A quiet mesh has converged

Once nothing is in flight and no frame waits at a node, no node of a run lags
behind a neighbour that forwards.  What the authority holds is therefore held
wherever relays can carry it, the addresses there are those that follow from it,
and the authority reaches all of them.
-/

namespace OnMesh

namespace Mesh

variable {m : Mesh} {settings : Settings} {leader s t : Station}
  {held : Set NetworkData}

/-- A station passes on what it holds: the leader does, and so do relays. -/
def PassesOn (m : Mesh) (leader s : Station) : Prop :=
  s = leader ∨ ∃ n, m.nodes.get? s = some n ∧ n.role = .relay

instance (s t : Station) : Decidable (m.Usable s t) := instDecidableAnd

/-- A path leads from the leader to a station: all of its links can be used both
ways, and all stations between its ends pass on what they hold. -/
inductive Joined (m : Mesh) (leader : Station) : Station → Prop
  | leader : Joined m leader leader
  | link {s t : Station} : Joined m leader s →
      m.PassesOn leader s → m.Usable s t →
      Joined m leader t

theorem Joined.reachable (h : m.Joined leader s) :
    Relation.ReflTransGen m.Usable leader s := by
  induction h with
  | leader => exact Relation.ReflTransGen.refl
  | link _ _ husable ih => exact ih.tail husable

theorem Joined.started (h : m.Joined leader s) {a n : Node}
    (ha : m.nodes.get? leader = some a) (hstarted : a.started = true)
    (hn : m.nodes.get? s = some n) : n.started = true := by
  cases h with
  | leader =>
      rw [ha] at hn
      cases hn
      exact hstarted
  | link _ _ husable =>
      obtain ⟨x, y, -, hy, -, hstartY, -⟩ := husable.ends
      rw [hn] at hy
      cases hy
      exact hstartY

/-- A node holds what the leader holds, has the addresses that follow from it,
and answers the leader for all of them. -/
structure Converged (m : Mesh) (leader : Station) (a n : Node) : Prop where
  version : n.version = a.version
  data : n.data = a.data
  addresses : n.addresses.configured = (AddressBook.make n.id).derive a.data
  answered : ∀ address ∈ n.configuredAddresses,
    m.echo leader address.addr = true

/-- Between neighbours of a quiet mesh the one that is told is not behind. -/
theorem Steady.version_le (h : m.Steady leader held []) (hidle : m.Idle)
    {x y : Node} (hx : m.nodes.get? s = some x) (hy : m.nodes.get? t = some y)
    (husable : m.Usable s t) (hforwards : x.role.forwards = true) :
    x.version ≤ y.version := by
  obtain ⟨x', y', hx', hy', hstartX, hstartY, hadmX, hadmY⟩ := husable.ends
  rw [hx] at hx'
  rw [hy] at hy'
  cases hx'
  cases hy'
  by_cases hst : s = t
  · subst hst
    rw [hx] at hy
    cases hy
    exact le_refl _
  · have hpaired : Node.Paired x y [] [] := h.touching s t x y hst hx hy
    rw [Node.Paired, Node.inbox, Node.inbox, Node.outbox, Node.outbox,
      (hidle s x hx).1, (hidle s x hx).2, (hidle t y hy).1, (hidle t y hy).2]
      at hpaired
    exact Channel.Tied.le_of_nil hpaired
      (Node.isOpen_side_iff.2 ⟨hstartX, hadmX⟩)
      (Node.isOpen_side_iff.2 ⟨hstartY, hadmY⟩) hforwards

/-- Once nothing is under way, no station that is joined to the leader is behind
it. -/
theorem Steady.version_le_of_joined (h : m.Steady leader held [])
    (hidle : m.Idle) {a n : Node} (ha : m.nodes.get? leader = some a)
    (hn : m.nodes.get? s = some n) (hjoined : m.Joined leader s) :
    a.version ≤ n.version := by
  induction hjoined generalizing n with
  | leader =>
      rw [ha] at hn
      cases hn
      exact le_refl _
  | @link s t _ hpasses husable ih =>
      obtain ⟨x, y, hx, -⟩ := husable.ends
      have hforwards : x.role.forwards = true := by
        rcases hpasses with rfl | ⟨k, hk, hrelay⟩
        · rw [(h.agrees.members s x hx).role.2 rfl]
          rfl
        · rw [hx] at hk
          cases hk
          rw [hrelay]
          rfl
      exact le_trans (ih hx) (h.version_le hidle hx hn husable hforwards)

/-- In every quiet state of a run, each node to which a path leads from the
attached leader has converged. -/
theorem Run.converged_of_quiet (h : Run settings leader m)
    (hflight : m.inFlight = []) (hidle : m.Idle) {a n : Node}
    (ha : m.nodes.get? leader = some a) (hstarted : a.started = true)
    (hn : m.nodes.get? s = some n) (hjoined : m.Joined leader s) :
    m.Converged leader a n := by
  obtain ⟨held, hsteady⟩ := h.steady
  rw [hflight] at hsteady
  have hmember := hsteady.agrees.members s n hn
  have hl := hsteady.agrees.lineage
  rw [authored_of_some ha] at hl
  have hheld := hmember.sound.within.replica.data_mem
  have hversion : n.version = a.version :=
    le_antisymm (hl.le_latest _ hheld)
      (hsteady.version_le_of_joined hidle ha hn hjoined)
  have hdata : n.data = a.data := hl.unique _ hheld _ hl.latest_mem hversion
  have hconfigured := h.configured s n hn
  refine ⟨hversion, hdata, ?_, ?_⟩
  · rw [hconfigured.addresses, hdata]
    exact AddressBook.derive_congr hmember.sound.formed.addresses a.data
  · intro address haddress
    refine echo_of_reachable ha hstarted ?_ hjoined.reachable
    refine ownerOf?_eq (fun t k hk => ?_) hsteady.agrees.located.unique hn ?_
      (AddressBook.hasAddress_of_mem haddress)
    · exact ⟨(hsteady.agrees.members t k hk).sound.formed, h.configured t k hk⟩
    · exact hjoined.started ha hstarted hn

/-! ## A run of two nodes -/

/-- Operations that link a leader to a relay and publish a
prefix, up to rest. -/
def twoStations : List Op :=
  [.addNode ⟨0⟩ .authority, .addNode ⟨1⟩ .relay, .link ⟨0⟩ ⟨1⟩,
    .call ⟨0⟩ .start, .call ⟨1⟩ .start,
    .call ⟨0⟩
      (.addPrefix (Prefix.ofAddress ⟨0xfd00 <<< 112⟩ 64 (by decide))
        ⟨Flags.slaacBit⟩),
    .step, .step, .step]

theorem converged_of_quiet_twoStations :
    ∃ m a n, m = twoStations.foldl perform (make .usual) ∧
    m.nodes.get? ⟨0⟩ = some a ∧
      m.nodes.get? ⟨1⟩ = some n ∧ m.Converged ⟨0⟩ a n := by
  have hrun : Run .usual ⟨0⟩ (twoStations.foldl perform (make .usual)) :=
    Run.make.foldl (by decide +kernel)
  obtain ⟨a, ha⟩ : ∃ a,
    (twoStations.foldl perform (make .usual)).nodes.get? ⟨0⟩ = some a :=
    Option.isSome_iff_exists.1 (by decide +kernel)
  obtain ⟨n, hn⟩ : ∃ n,
    (twoStations.foldl perform (make .usual)).nodes.get? ⟨1⟩ = some n :=
    Option.isSome_iff_exists.1 (by decide +kernel)
  have hjoined : (twoStations.foldl perform (make .usual)).Joined ⟨0⟩ ⟨1⟩ :=
    Joined.link Joined.leader (Or.inl rfl) (by decide +kernel)
  have hstarted :
      ∀ a ∈ (twoStations.foldl perform (make .usual)).nodes.get? ⟨0⟩,
      a.started = true := by decide +kernel
  exact ⟨_, a, n, rfl, ha, hn,
    hrun.converged_of_quiet (by decide +kernel) (by decide +kernel) ha
    (hstarted a ha) hn hjoined⟩

end Mesh

end OnMesh
