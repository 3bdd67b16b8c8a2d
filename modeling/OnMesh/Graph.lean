import OnMesh.Table

/-!
# Reachability

Stations of a simulated mesh and the arcs between them.  `Graph.path` finds a
shortest way by a breadth-first search.  The search remembers from which station
each other was entered, and goes back over these once it has entered its goal.
-/

namespace OnMesh

/-- The number of a node in a simulated mesh. -/
structure Station where
  number : UInt32
deriving DecidableEq, Inhabited

instance : Ranked Station where
  rank s := s.number.toNat
  rank_injective := fun {s t} h => by
    cases s; cases t
    exact congrArg _ (UInt32.toNat_inj.1 h)

structure Arc where
  source : Station
  target : Station
deriving DecidableEq, Inhabited

/-- Arcs are in order of their source, and of their target where that is the
same. -/
instance : Ranked Arc where
  rank a := a.source.number.toNat * 4294967296 + a.target.number.toNat
  rank_injective := fun {a b} h => by
    obtain ⟨⟨s⟩, ⟨t⟩⟩ := a
    obtain ⟨⟨u⟩, ⟨v⟩⟩ := b
    have ht : t.toNat < 2 ^ 32 := t.toNat_lt
    have hv : v.toNat < 2 ^ 32 := v.toNat_lt
    simp only at h
    have hsu : s = u := UInt32.toNat_inj.1 (by omega)
    have htv : t = v := UInt32.toNat_inj.1 (by omega)
    rw [hsu, htv]

/-- The arc that stands for the link between two stations, whichever
way it is looked at. -/
def Arc.link (a b : Station) : Arc :=
  if a.number ≤ b.number then ⟨a, b⟩ else ⟨b, a⟩

/-- An undirected graph, in which every arc has its reverse. -/
structure Graph where
  arcs : Table Arc Unit
deriving DecidableEq, Inhabited

namespace Graph

def empty : Graph := ⟨Table.empty⟩

def connect (g : Graph) (a b : Station) : Graph :=
  ⟨(g.arcs.insert ⟨a, b⟩ ()).insert ⟨b, a⟩ ()⟩

def neighbours (g : Graph) (s : Station) : List Station :=
  (g.arcs.keys.filter fun a => a.source = s).map (·.target)

def targets (g : Graph) : List Station := g.arcs.keys.map (·.target)

theorem mem_targets_of_mem_neighbours {g : Graph} {s t : Station}
    (h : t ∈ g.neighbours s) : t ∈ g.targets := by
  obtain ⟨a, ha, rfl⟩ := List.mem_map.1 h
  exact List.mem_map_of_mem (List.mem_filter.1 ha).1

/-! ## Searching -/

/-- What a breadth-first search knows. -/
structure Search where
  /-- The stations that wait to be searched from, first come first served. -/
  queue : List Station
  /-- The stations that were entered. -/
  seen : Table Station Unit
  /-- The stations from which others were entered. -/
  parents : Table Station Station

def Search.begin (start : Station) : Search :=
  ⟨[start], Table.empty.insert start (), Table.empty⟩

def Search.enter (x : Search) (here next : Station) : Search :=
  { x with
    seen := x.seen.insert next ()
    parents := x.parents.insert next here }

/-- Enter from a station those of the given ones that were not entered yet, one
after the other until the goal is entered, and tell whether it was. -/
def Search.enterAll (goal here : Station) : List Station →
    Search → Bool × Search
  | [], x => (false, x)
  | next :: rest, x =>
    if x.seen.contains next then enterAll goal here rest x
    else if next = goal then (true, x.enter here next)
    else enterAll goal here rest
        { x.enter here next with queue := x.queue ++ [next] }

/-- The targets of arcs that were not entered yet. -/
def unseen (g : Graph) (seen : Table Station Unit) : List Station :=
  g.targets.filter fun s => !seen.contains s

theorem length_unseen_insert_lt {g : Graph} {seen : Table Station Unit}
    {s : Station} (hs : s ∈ g.targets) (hseen : seen.contains s = false) :
    (g.unseen (seen.insert s ())).length < (g.unseen seen).length := by
  have hless : g.unseen (seen.insert s ()) =
      (g.unseen seen).filter fun t => t != s := by
    rw [unseen, unseen, List.filter_filter]
    refine List.filter_congr fun t _ => ?_
    rw [Table.contains, Table.get?_insert, Table.contains]
    by_cases hts : t = s <;> simp [hts]
  rw [hless, List.length_filter_lt_length_iff_exists]
  exact ⟨s, List.mem_filter.2 ⟨hs, by simp [hseen]⟩, by simp⟩

/-- Every station that is entered and has to wait was not entered before. -/
theorem Search.length_enterAll_le (g : Graph) (goal here : Station)
    {next : List Station} (hnext : ∀ s ∈ next, s ∈ g.targets) (x : Search) :
    (g.unseen (enterAll goal here next x).2.seen).length +
        (enterAll goal here next x).2.queue.length ≤
      (g.unseen x.seen).length + x.queue.length := by
  induction next generalizing x with
  | nil => exact Nat.le_refl _
  | cons s rest ih =>
      obtain ⟨hs, hrest⟩ := List.forall_mem_cons.1 hnext
      rw [enterAll]
      split
      · exact ih hrest x
      · next hseen =>
          have hless := length_unseen_insert_lt hs (Bool.eq_false_iff.2 hseen)
          split
          · exact Nat.add_le_add_right (Nat.le_of_lt hless) _
          · refine Nat.le_trans (ih hrest _) ?_
            simp only [enter, List.length_append, List.length_singleton]
            omega

/-- Search for the goal, and answer the parents once it is entered. -/
def explore (g : Graph) (goal : Station) : Search →
    Option (Table Station Station)
  | ⟨[], _, _⟩ => none
  | ⟨here :: waiting, seen, parents⟩ =>
    let entered :=
      Search.enterAll goal here (g.neighbours here) ⟨waiting, seen, parents⟩
    if entered.1 then some entered.2.parents else g.explore goal entered.2
termination_by x => (g.unseen x.seen).length + x.queue.length
decreasing_by
  have hle := Search.length_enterAll_le g goal here
    (fun s (hs : s ∈ g.neighbours here) => mem_targets_of_mem_neighbours hs)
    ⟨waiting, seen, parents⟩
  exact Nat.lt_of_le_of_lt hle (Nat.lt_succ_self _)

/-- The way back from a station to one that was entered from none, in so many
steps at most. -/
def retrace (parents : Table Station Station) : Nat → Station → List Station
  | 0, s => [s]
  | steps + 1, s =>
    match parents.get? s with
    | none => [s]
    | some parent => s :: retrace parents steps parent

/-- A shortest way from one station to another, both included. -/
def path (g : Graph) (start goal : Station) : Option (List Station) :=
  if start = goal then some [start]
  else (g.explore goal (Search.begin start)).map fun parents =>
    (retrace parents parents.size goal).reverse

end Graph

/-- What becomes of an echo request. -/
inductive Echo where
  /-- The reply came back over the given stations. -/
  | reply (target : Station) (path : List Station)
  /-- No attached node has the address. -/
  | noSuchAddress
  /-- The node with the address is out of reach. -/
  | unreachable (target : Station)
deriving DecidableEq

namespace Echo

def isReply : Echo → Bool
  | reply .. => true
  | _ => false

def hops : Echo → Option Nat
  | reply _ path => some (path.length - 1)
  | _ => none

end Echo

/-- Send an echo request from a station to the one with the
address, if there is one. -/
def Graph.echo (g : Graph) (start : Station) (target : Option Station) : Echo :=
  match target with
  | none => .noSuchAddress
  | some target =>
    match g.path start target with
    | some path => .reply target path
    | none => .unreachable target

end OnMesh
