import OnMesh.Proofs.Mesh.Convergence
import Mathlib.Data.Nat.Find
import Mathlib.Order.Bounds.Basic

/-!
# Routes and how long they take

A route leads from the leader to a station over links that can be used
both ways, through stations that pass on what they hold.  The distance of
a station is the least latency of its routes; every link takes time, so
that only the leader is at distance zero and every other station is told
by one that is nearer.
-/

namespace OnMesh

namespace Mesh

variable {m : Mesh} {leader s t : Station} {ticks i j : Nat}

/-- A route leads from the leader to a station in so many ticks.  A detour
through the leader is a route too, but never the shortest one. -/
inductive Route (m : Mesh) (leader : Station) : Station → Nat → Prop
  | leader : Route m leader leader 0
  | link {s t : Station} {ticks : Nat} : Route m leader s ticks →
      m.PassesOn leader s →
      m.isUsable ⟨s, t⟩ = true → Route m leader t (ticks + m.latency s t)

/-- The least latency of the routes to a station. -/
def Distance (m : Mesh) (leader s : Station) (ticks : Nat) : Prop :=
  IsLeast {ticks | m.Route leader s ticks} ticks

/-- A station can be reached from the leader within so many ticks. -/
def Reached (m : Mesh) (leader : Station) (i : Nat) (s : Station) : Prop :=
  ∃ ticks ≤ i, m.Route leader s ticks

theorem Route.eq_leader (h : m.Route leader s 0) : s = leader := by
  generalize hzero : 0 = ticks at h
  cases h with
  | leader => rfl
  | @link u _ before _ _ _ =>
      have := m.latency_pos u s
      omega

/-- Wherever a route leads, the node is attached. -/
theorem Route.started (h : m.Route leader s ticks) {a n : Node}
    (ha : m.nodes.get? leader = some a) (hstarted : a.started = true)
    (hn : m.nodes.get? s = some n) : n.started = true := by
  cases h with
  | leader =>
      rw [ha] at hn
      cases hn
      exact hstarted
  | link _ _ husable =>
      obtain ⟨x, y, -, hy, -, hstartY, -⟩ := isUsable_iff.1 husable
      rw [hn] at hy
      cases hy
      exact hstartY

theorem Route.distance (h : m.Route leader s ticks) :
    ∃ least ≤ ticks, m.Distance leader s least := by
  classical
  have hex : ∃ ticks, m.Route leader s ticks := ⟨ticks, h⟩
  exact ⟨Nat.find hex, Nat.find_min' hex h, Nat.find_spec hex, fun _ hother =>
    Nat.find_min' hex hother⟩

theorem reached_leader (m : Mesh) (leader : Station) (i : Nat) :
    m.Reached leader i leader :=
  ⟨0, Nat.zero_le i, Route.leader⟩

theorem Reached.mono (h : m.Reached leader i s) (hij : i ≤ j) :
    m.Reached leader j s := by
  obtain ⟨ticks, hle, hroute⟩ := h
  exact ⟨ticks, hle.trans hij, hroute⟩

theorem reached_zero_iff : m.Reached leader 0 s ↔ s = leader := by
  constructor
  · rintro ⟨ticks, hle, hroute⟩
    rw [Nat.le_zero.1 hle] at hroute
    exact hroute.eq_leader
  · rintro rfl
    exact m.reached_leader s 0

theorem Distance.eq (hi : m.Distance leader s i) (hj : m.Distance leader s j) :
    i = j :=
  IsLeast.unique hi hj

theorem Distance.reached (h : m.Distance leader s ticks) :
    m.Reached leader ticks s :=
  ⟨ticks, Nat.le_refl ticks, h.1⟩

theorem distance_leader (m : Mesh) (leader : Station) :
    m.Distance leader leader 0 :=
  ⟨Route.leader, fun _ _ => Nat.zero_le _⟩

theorem Distance.le_of_reached (h : m.Distance leader s ticks)
    (hreached : m.Reached leader i s) : ticks ≤ i := by
  obtain ⟨other, hle, hroute⟩ := hreached
  exact (h.2 hroute).trans hle

/-- A station that can be reached now and could not be before is at
just this distance. -/
theorem Reached.distance_succ (h : m.Reached leader (i + 1) s)
    (hnot : ¬ m.Reached leader i s) : m.Distance leader s (i + 1) := by
  obtain ⟨ticks, hle, hroute⟩ := h
  obtain ⟨least, hleast, hdistance⟩ := hroute.distance
  have hlt : i < least :=
    Nat.lt_of_not_le fun hle => hnot ⟨least, hle, hdistance.1⟩
  have heq : least = i + 1 := by omega
  exact heq ▸ hdistance

/-- The last link of a shortest route comes from a station at the
remaining distance. -/
theorem Distance.last_link (h : m.Distance leader t ticks) (hpos : 0 < ticks) :
    ∃ s before, m.Distance leader s before ∧ m.PassesOn leader s ∧
      m.isUsable ⟨s, t⟩ = true ∧ ticks = before + m.latency s t := by
  obtain ⟨hroute, hleast⟩ := h
  cases hroute with
  | leader => omega
  | @link s _ before hbefore hpasses husable =>
      refine ⟨s, before, ⟨hbefore, fun other hother => ?_⟩,
        hpasses, husable, rfl⟩
      have := hleast (Route.link hother hpasses husable)
      omega

end Mesh

end OnMesh
