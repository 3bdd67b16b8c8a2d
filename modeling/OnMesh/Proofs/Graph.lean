import OnMesh.Graph
import OnMesh.Proofs.Table
import Mathlib.Data.List.Chain
import Mathlib.Data.List.Perm.Subperm
import Mathlib.Logic.Relation

/-!
# Trails through a graph

A breadth-first search that carries along the way by which each station was
entered.  Whenever there is a way to the goal over stations that were not
entered yet, from a station of the queue, the search goes on to find one: the
last station of that way that is entered next takes the place of its start.
The trails of the queue are in order of their lengths, so that what the
search finds is no longer.
-/

namespace OnMesh.Graph

variable {g : Graph} {a b goal start : Station} {among : List Station}

def Joins (g : Graph) (a b : Station) : Prop := g.arcs.contains ⟨a, b⟩ = true

theorem mem_neighbours_iff : b ∈ g.neighbours a ↔ g.Joins a b := by
  rw [neighbours, Joins, Table.contains_eq_true_iff, List.mem_map]
  constructor
  · rintro ⟨arc, harc, rfl⟩
    obtain ⟨hmem, hsource⟩ := List.mem_filter.1 harc
    rw [← of_decide_eq_true hsource]
    exact hmem
  · intro hmem
    exact ⟨⟨a, b⟩, List.mem_filter.2 ⟨hmem, decide_eq_true rfl⟩, rfl⟩

theorem nodup_neighbours (g : Graph) (s : Station) :
    (g.neighbours s).Nodup := by
  refine (g.arcs.nodup_keys.filter _).map_on fun a ha b hb htarget => ?_
  have hsourceA := of_decide_eq_true (List.mem_filter.1 ha).2
  have hsourceB := of_decide_eq_true (List.mem_filter.1 hb).2
  obtain ⟨sourceA, targetA⟩ := a
  obtain ⟨sourceB, targetB⟩ := b
  cases hsourceA
  cases hsourceB
  cases htarget
  rfl

/-- The stations that are joined to another, in order. -/
def stations (g : Graph) : List Station :=
  (Table.ofList (g.arcs.keys.map fun a => (a.source, ()))).keys

theorem mem_stations (h : g.Joins a b) : a ∈ g.stations := by
  rw [stations, Table.mem_keys_iff]
  refine ⟨(), Table.get?_insertAll_of_mem ?_ fun _ _ _ => rfl⟩
  exact List.mem_map.2 ⟨⟨a, b⟩, Table.contains_eq_true_iff.1 h, rfl⟩

/-! ## Walks -/

/-- A list of stations that leads from one to another, each
related to the next. -/
structure Walk (R : Station → Station → Prop) (start goal : Station)
    (way : List Station) : Prop where
  first : way.head? = some start
  last : way.getLast? = some goal
  chain : way.IsChain R

namespace Walk

variable {R S : Station → Station → Prop} {way : List Station}

theorem single (s : Station) : Walk R s s [s] :=
  ⟨rfl, rfl, List.isChain_singleton s⟩

theorem length_pos (h : Walk R start goal way) : 0 < way.length := by
  cases way with
  | nil => cases h.first
  | cons s rest => exact Nat.succ_pos _

/-- A walk can go on from its end. -/
theorem snoc (h : Walk R start a way) (hstep : R a b) :
    Walk R start b (way ++ [b]) where
  first := by
    rw [List.head?_append, h.first]
    rfl
  last := List.getLast?_concat
  chain := by
    refine List.isChain_append.2 ⟨h.chain, List.isChain_singleton b, ?_⟩
    intro x hx y hy
    rw [h.last] at hx
    cases hx
    cases hy
    exact hstep

theorem mono (hsub : ∀ a b, R a b → S a b) (h : Walk R start goal way) :
    Walk S start goal way :=
  ⟨h.first, h.last, h.chain.imp fun _ _ => hsub _ _⟩

theorem reverse (hsymm : ∀ a b, R a b → R b a) (h : Walk R start goal way) :
    Walk R goal start way.reverse where
  first := by rw [List.head?_reverse, h.last]
  last := by rw [List.getLast?_reverse, h.first]
  chain := List.isChain_reverse.2 (h.chain.imp fun _ _ => hsymm _ _)

/-- What is related over several steps is joined by a walk. -/
theorem of_reflTransGen (h : Relation.ReflTransGen R start goal) :
    ∃ way, Walk R start goal way := by
  induction h with
  | refl => exact ⟨_, single start⟩
  | tail _ hstep ih =>
      obtain ⟨way, hway⟩ := ih
      exact ⟨_, hway.snoc hstep⟩

end Walk

/-! ## Trails -/

/-- A way through the graph, seen from its end. -/
structure Trail where
  here : Station
  /-- The stations before, the last one first. -/
  before : List Station

def Trail.extend (t : Trail) (s : Station) : Trail := ⟨s, t.here :: t.before⟩

def Trail.stations (t : Trail) : List Station := (t.here :: t.before).reverse

/-- Those of the given stations that are joined to a station. -/
def nextTo (g : Graph) (s : Station) (among : List Station) : List Station :=
  (g.neighbours s).filter fun t => among.contains t

def apartFrom (g : Graph) (s : Station) (among : List Station) : List Station :=
  among.filter fun t => !(g.neighbours s).contains t

theorem mem_nextTo_iff : b ∈ g.nextTo a among ↔ b ∈ among ∧ g.Joins a b := by
  rw [nextTo, List.mem_filter, List.contains_iff_mem,
    mem_neighbours_iff, and_comm]

theorem mem_apartFrom_iff :
    b ∈ g.apartFrom a among ↔ b ∈ among ∧ ¬ g.Joins a b := by
  rw [apartFrom, List.mem_filter, ← mem_neighbours_iff, Bool.not_eq_true',
    ← Bool.not_eq_true, List.contains_iff_mem]

theorem length_nextTo_add_length_apartFrom_le (g : Graph) (s : Station)
    (among : List Station) :
    (g.nextTo s among).length + (g.apartFrom s among).length ≤
      among.length := by
  have hsub : g.nextTo s among ⊆ among.filter (g.neighbours s).contains := by
    intro t ht
    rw [List.mem_filter, List.contains_iff_mem, mem_neighbours_iff]
    exact mem_nextTo_iff.1 ht
  have hle := (((g.nodup_neighbours s).filter _).subperm hsub).length_le
  rw [among.length_eq_length_filter_add (g.neighbours s).contains]
  exact Nat.add_le_add_right hle _

/-- A search that carries its trails along.  It follows them, first come first
served, until one reaches the goal, and enters every station once. -/
def search (g : Graph) (goal : Station) (queue : List Trail)
    (unvisited : List Station) : Option (List Station) :=
  match queue with
  | [] => none
  | t :: waiting =>
    let fresh := g.nextTo t.here unvisited
    if fresh.contains goal then some (t.extend goal).stations
    else g.search goal (waiting ++ fresh.map t.extend)
        (g.apartFrom t.here unvisited)
termination_by queue.length + unvisited.length
decreasing_by
  have h := g.length_nextTo_add_length_apartFrom_le t.here unvisited
  simp only [List.length_cons, List.length_append, List.length_map]
  omega

/-! ## What the search finds -/

/-- A way of so many arcs over the given stations; its start need not be among
them. -/
inductive Leads (g : Graph) (among : List Station) : Nat →
    Station → Station → Prop
  | arc {a b : Station} : b ∈ among → g.Joins a b → Leads g among 1 a b
  | more {k : Nat} {a b c : Station} : b ∈ among → g.Joins a b →
      Leads g among k b c →
      Leads g among (k + 1) a c

theorem Leads.pos {k : Nat} (h : g.Leads among k a goal) : 0 < k := by
  cases h with
  | arc => exact Nat.one_pos
  | more => exact Nat.succ_pos _

/-- Once the stations next to one were entered, a way goes on from the
last of them on it. -/
theorem Leads.apartFrom {k : Nat} (h : g.Leads among k a goal) (s : Station)
    (hgoal : goal ∉ g.nextTo s among) :
    g.Leads (g.apartFrom s among) k a goal ∨
      ∃ c ∈ g.nextTo s among, ∃ j < k,
        g.Leads (g.apartFrom s among) j c goal := by
  induction h with
  | arc hmem hjoins =>
      refine Or.inl (Leads.arc (mem_apartFrom_iff.2 ⟨hmem, ?_⟩) hjoins)
      exact fun hjoins => hgoal (mem_nextTo_iff.2 ⟨hmem, hjoins⟩)
  | @more k a b c hmem hjoins _ ih =>
      rcases ih hgoal with hleads | ⟨d, hd, j, hj, hleads⟩
      · by_cases hnext : g.Joins s b
        · exact Or.inr ⟨b, mem_nextTo_iff.2 ⟨hmem, hnext⟩, k,
            Nat.lt_succ_self k, hleads⟩
        · exact Or.inl
            (Leads.more (mem_apartFrom_iff.2 ⟨hmem, hnext⟩) hjoins hleads)
      · exact Or.inr ⟨d, hd, j, Nat.lt_succ_of_lt hj, hleads⟩

/-- Shorter trails wait before longer ones, and none is longer than
another by more than one. -/
def Ordered (queue : List Trail) : Prop :=
  queue.Pairwise fun t u => t.before.length ≤ u.before.length ∧
    u.before.length ≤ t.before.length + 1

/-- A search step keeps the queue in order. -/
theorem Ordered.step {head : Trail} {waiting : List Trail}
    (h : Ordered (head :: waiting)) (fresh : List Station) :
    Ordered (waiting ++ fresh.map head.extend) := by
  obtain ⟨hhead, hwaiting⟩ := List.pairwise_cons.1 h
  refine List.pairwise_append.2 ⟨hwaiting, ?_, ?_⟩
  · exact List.pairwise_map.2
      (List.pairwise_of_forall fun _ _ => ⟨Nat.le_refl _, Nat.le_succ _⟩)
  · intro t ht u hu
    obtain ⟨c, -, rfl⟩ := List.mem_map.1 hu
    obtain ⟨hge, hle⟩ := hhead t ht
    exact ⟨hle, Nat.succ_le_succ hge⟩

/-- The first trail of a queue in order is one of the shortest. -/
theorem Ordered.head_le {head t : Trail} {waiting : List Trail}
    (h : Ordered (head :: waiting)) (ht : t ∈ head :: waiting) :
    head.before.length ≤ t.before.length := by
  rcases List.mem_cons.1 ht with rfl | ht
  · exact Nat.le_refl _
  · exact ((List.pairwise_cons.1 h).1 t ht).1

theorem walk_extend {t : Trail} {s : Station}
    (h : Walk g.Joins start t.here t.stations) (hjoins : g.Joins t.here s) :
    Walk g.Joins start s (t.extend s).stations := by
  have hstations : (t.extend s).stations = t.stations ++ [s] := by
    rw [Trail.stations, Trail.extend, List.reverse_cons, Trail.stations]
  rw [hstations]
  exact h.snoc hjoins

theorem length_stations (t : Trail) :
    t.stations.length = t.before.length + 1 := by
  rw [Trail.stations, List.length_reverse, List.length_cons]

/-- The search finds a way that is no longer than a trail of its queue and what
leads on from its end to the goal. -/
theorem search_of_leads {queue : List Trail} {unvisited : List Station}
    {t : Trail} {k : Nat} (hqueue : Ordered queue) (ht : t ∈ queue)
    (hleads : g.Leads unvisited k t.here goal) :
    ∃ way, g.search goal queue unvisited = some way ∧
    way.length ≤ t.before.length + k + 1 := by
  induction queue, unvisited using search.induct g goal generalizing t k with
  | case1 unvisited => cases ht
  | case2 unvisited head waiting fresh =>
      rename_i hfound
      refine ⟨_, by rw [search, if_pos hfound], ?_⟩
      have hhead := hqueue.head_le ht
      have hk := hleads.pos
      rw [length_stations, Trail.extend, List.length_cons]
      omega
  | case3 unvisited head waiting fresh =>
      rename_i hmissed ih
      rw [search, if_neg hmissed]
      have hgoal : goal ∉ g.nextTo head.here unvisited := fun hmem =>
        hmissed (List.contains_iff_mem.2 hmem)
      -- a fresh station from which fewer arcs are left than from `t`
      -- takes the place of `t`
      have hfresh : ∀ c ∈ g.nextTo head.here unvisited, ∀ j < k,
          g.Leads (g.apartFrom head.here unvisited) j c goal →
          ∃ way, g.search goal
            (waiting ++ (g.nextTo head.here unvisited).map head.extend)
            (g.apartFrom head.here unvisited) = some way ∧
            way.length ≤ t.before.length + k + 1 := by
        intro c hc j hj hleads
        obtain ⟨way, hway, hlength⟩ := ih (hqueue.step _)
          (List.mem_append_right _ (List.mem_map_of_mem hc)) hleads
        refine ⟨way, hway, Nat.le_trans hlength ?_⟩
        have hhead := hqueue.head_le ht
        rw [Trail.extend, List.length_cons]
        omega
      rcases hleads.apartFrom head.here hgoal with hrest | ⟨c, hc, j, hj, hrest⟩
      · rcases List.mem_cons.1 ht with rfl | hwaiting
        · cases hleads with
          | arc hmem hjoins =>
              exact absurd (mem_nextTo_iff.2 ⟨hmem, hjoins⟩) hgoal
          | @more k _ b _ hmem hjoins hmore =>
              have hnext := mem_nextTo_iff.2 ⟨hmem, hjoins⟩
              rcases hmore.apartFrom t.here hgoal
                with hrest | ⟨c, hc, j, hj, hrest⟩
              · exact hfresh b hnext k (Nat.lt_succ_self k) hrest
              · exact hfresh c hc j (Nat.lt_succ_of_lt hj) hrest
        · exact ih (hqueue.step _) (List.mem_append_left _ hwaiting) hrest
      · exact hfresh c hc j hj hrest

/-- What the search finds is a walk, if the trails of its queue are. -/
theorem walk_of_search {queue : List Trail} {unvisited way : List Station}
    (hqueue : ∀ t ∈ queue, Walk g.Joins start t.here t.stations)
    (h : g.search goal queue unvisited = some way) :
    Walk g.Joins start goal way := by
  induction queue, unvisited using search.induct g goal with
  | case1 unvisited =>
      rw [search] at h
      cases h
  | case2 unvisited head waiting fresh =>
      rename_i hfound
      rw [search, if_pos hfound] at h
      cases h
      have hjoins := (mem_nextTo_iff.1 (List.contains_iff_mem.1 hfound)).2
      exact walk_extend (hqueue head List.mem_cons_self) hjoins
  | case3 unvisited head waiting fresh =>
      rename_i hmissed ih
      rw [search, if_neg hmissed] at h
      refine ih (fun t ht => ?_) h
      rcases List.mem_append.1 ht with ht | ht
      · exact hqueue t (List.mem_cons_of_mem _ ht)
      · obtain ⟨c, hc, rfl⟩ := List.mem_map.1 ht
        exact walk_extend (hqueue head List.mem_cons_self)
          (mem_nextTo_iff.1 hc).2

/-- In a graph in which every arc has its reverse, a walk that starts anew
whenever it comes back to its start. -/
theorem leads_of_walk (hsymm : ∀ a b, g.Joins a b → g.Joins b a)
    {way : List Station} (h : Walk g.Joins start goal way)
    (hne : start ≠ goal) :
    ∃ k < way.length,
      g.Leads (g.stations.filter (· != start)) k start goal := by
  have hmem : ∀ a b, g.Joins a b → b ≠ start →
      b ∈ g.stations.filter (· != start) := by
    intro a b hjoins hb
    exact List.mem_filter.2 ⟨mem_stations (hsymm a b hjoins), bne_iff_ne.2 hb⟩
  have hway : ∀ (way : List Station) a, Walk g.Joins a goal way → a = goal ∨
      ∃ b, (b = a ∨ b = start) ∧ ∃ k < way.length,
        g.Leads (g.stations.filter (· != start)) k b goal := by
    intro way
    induction way with
    | nil => exact fun a h => nomatch h.first
    | cons s rest ih =>
        intro a h
        cases rest with
        | nil =>
            cases h.first
            exact Or.inl (Option.some.inj h.last)
        | cons c rest =>
            cases h.first
            obtain ⟨hjoins, hchain⟩ := List.isChain_cons_cons.1 h.chain
            right
            rcases ih c ⟨rfl, h.last, hchain⟩
              with rfl | ⟨b, rfl | rfl, k, hk, hleads⟩
            · exact ⟨s, Or.inl rfl, 1, by simp,
                Leads.arc (hmem s c hjoins (Ne.symm hne)) hjoins⟩
            · by_cases hb : b = start
              · exact ⟨b, Or.inr hb, k, Nat.lt_succ_of_lt hk, hleads⟩
              · exact ⟨s, Or.inl rfl, k + 1, Nat.succ_lt_succ hk,
                  Leads.more (hmem s b hjoins hb) hjoins hleads⟩
            · exact ⟨b, Or.inr rfl, k, Nat.lt_succ_of_lt hk, hleads⟩
  rcases hway way start h with heq | ⟨b, rfl | rfl, k, hk, hleads⟩
  · exact absurd heq hne
  · exact ⟨k, hk, hleads⟩
  · exact ⟨k, hk, hleads⟩

/-! ## Connecting stations -/

theorem joins_connect {x y : Station} :
    (g.connect x y).Joins a b ↔
    a = x ∧ b = y ∨ a = y ∧ b = x ∨ g.Joins a b := by
  simp only [Joins, connect, Table.contains, Table.get?_insert, Arc.mk.injEq]
  by_cases hforth : a = x ∧ b = y <;> by_cases hback : a = y ∧ b = x <;>
    simp [hforth, hback]

/-- Connecting the ends of some links joins exactly these, both ways. -/
theorem joins_foldl_connect (links : List Arc) :
    (links.foldl (fun g link => g.connect link.source link.target)
      g).Joins a b ↔
      (⟨a, b⟩ ∈ links ∨ ⟨b, a⟩ ∈ links) ∨ g.Joins a b := by
  induction links generalizing g with
  | nil => simp
  | cons link links ih =>
      obtain ⟨x, y⟩ := link
      rw [List.foldl_cons, ih, joins_connect]
      simp only [List.mem_cons, Arc.mk.injEq]
      constructor
      · rintro ((h | h) | h | h | h)
        · exact Or.inl (Or.inl (Or.inr h))
        · exact Or.inl (Or.inr (Or.inr h))
        · exact Or.inl (Or.inl (Or.inl h))
        · exact Or.inl (Or.inr (Or.inl ⟨h.2, h.1⟩))
        · exact Or.inr h
      · rintro (((h | h) | h | h) | h)
        · exact Or.inr (Or.inl h)
        · exact Or.inl (Or.inl h)
        · exact Or.inr (Or.inr (Or.inl ⟨h.2, h.1⟩))
        · exact Or.inl (Or.inr h)
        · exact Or.inr (Or.inr (Or.inr h))

end OnMesh.Graph
