import OnMesh.Proofs.Graph.Parents

/-!
# Shortest walks between connected stations

A walk that comes back to a station goes on from there as well without the loop,
so a walk that is as short as any visits no station twice.  In a graph that was
built by connecting stations, whatever links were made and however often, every
search has an answer: a shortest walk over these links, or nothing if no walk
over them leads to the goal.
-/

namespace OnMesh.Graph

variable {R : Station → Station → Prop} {start goal : Station}
  {way : List Station}

/-! ## Loops -/

/-- What lies between two visits to a station can be left out. -/
theorem Walk.without_loop {s : Station} {before out back after : List Station}
    (h : Walk R start goal ((before ++ s :: out) ++ (back ++ s :: after))) :
    Walk R start goal (before ++ s :: after) where
  first := by
    have hfirst := h.first
    rw [List.append_assoc, List.head?_append] at hfirst
    rw [List.head?_append]
    exact hfirst
  last := by
    have hlast := h.last
    rw [List.getLast?_append, List.getLast?_append] at hlast
    rw [List.getLast?_append]
    cases hgoal : (s :: after).getLast? with
    | none => cases List.getLast?_eq_none_iff.1 hgoal
    | some t =>
        rw [hgoal] at hlast
        exact hlast
  chain := by
    obtain ⟨hout, hback, -⟩ := List.isChain_append.1 h.chain
    exact List.isChain_split.2
      ⟨(List.isChain_split.1 hout).1, (List.isChain_split.1 hback).2⟩

/-- A walk that is as short as any visits no station twice. -/
theorem Walk.nodup_of_shortest (h : Walk R start goal way)
    (hshortest : ∀ other, Walk R start goal other → way.length ≤ other.length) :
    way.Nodup := by
  refine List.nodup_iff_sublist.2 fun s htwice => ?_
  obtain ⟨first, second, rfl, hfirst, hsecond⟩ := List.cons_sublist_iff.1 htwice
  obtain ⟨before, out, rfl⟩ := List.append_of_mem hfirst
  obtain ⟨back, after, rfl⟩ :=
    List.append_of_mem (List.singleton_sublist.1 hsecond)
  have hle := hshortest _ h.without_loop
  simp only [List.length_append, List.length_cons] at hle
  omega

/-! ## Graphs of links -/

/-- The graph in which the ends of some links are connected, one
link after the other. -/
def ofLinks (links : List Arc) : Graph :=
  links.foldl (fun g link => g.connect link.source link.target) empty

/-- One of the links joins two stations, in whichever order it names them. -/
def Linked (links : List Arc) (a b : Station) : Prop :=
  ⟨a, b⟩ ∈ links ∨ ⟨b, a⟩ ∈ links

theorem joins_ofLinks (links : List Arc) :
    (ofLinks links).Joins = Linked links := by
  funext a b
  rw [ofLinks, joins_foldl_connect]
  exact propext (or_iff_left Bool.false_ne_true)

theorem Linked.symm {links : List Arc} {a b : Station} (h : Linked links a b) :
    Linked links b a := Or.symm h

/-- What a search from one station for another answers: nothing if no walk joins
them, and otherwise a shortest walk without repetitions, over which its parents
lead back from the goal to a station that has none. -/
structure Finds (g : Graph) (R : Station → Station → Prop)
    (start goal : Station) : Prop where
  none_iff : g.path start goal = none ↔
    start ≠ goal ∧ ∀ way, ¬ Walk R start goal way
  shortest : ∀ way, g.path start goal = some way →
    Walk R start goal way ∧ way.Nodup ∧
      ∀ other, Walk R start goal other → way.length ≤ other.length
  retraced : ∀ way, g.path start goal = some way → start ≠ goal →
    ∃ parents, g.explore goal (Search.begin start) = some parents ∧
      Back parents goal way.reverse

/-- The search goes wrong on no graph in which every arc has its reverse. -/
theorem finds_of_symm {g : Graph} (hsymm : ∀ a b, g.Joins a b → g.Joins b a)
    (start goal : Station) : g.Finds g.Joins start goal where
  none_iff := by
    constructor
    · intro hnone
      have hwalk : ∀ way, ¬ Walk g.Joins start goal way := by
        intro way hway
        obtain ⟨found, hfound, -⟩ := path_of_walk hsymm hway
        rw [hnone] at hfound
        cases hfound
      refine ⟨?_, hwalk⟩
      rintro rfl
      exact hwalk [start] (Walk.single start)
    · rintro ⟨-, hwalk⟩
      cases hpath : g.path start goal with
      | none => rfl
      | some way => exact absurd (walk_of_path hsymm hpath) (hwalk way)
  shortest := by
    intro way hpath
    have hshortest : ∀ other, Walk g.Joins start goal other →
        way.length ≤ other.length := by
      intro other hother
      obtain ⟨found, hfound, hlength⟩ := path_of_walk hsymm hother
      cases hpath.symm.trans hfound
      exact hlength
    have hway := walk_of_path hsymm hpath
    exact ⟨hway, hway.nodup_of_shortest hshortest, hshortest⟩
  retraced _ hpath hne := exists_back_of_path hsymm hpath hne

/-- Whatever stations were connected, loops and repetitions included, the search
for a way from one station to another answers with a shortest walk over the
links, or with nothing if there is none. -/
theorem finds_ofLinks (links : List Arc) (start goal : Station) :
    (ofLinks links).Finds (Linked links) start goal := by
  have hsymm : ∀ a b, (ofLinks links).Joins a b →
      (ofLinks links).Joins b a := by
    rw [joins_ofLinks]
    exact fun _ _ => Linked.symm
  have hfinds := finds_of_symm hsymm start goal
  rwa [joins_ofLinks] at hfinds

-- The second way around the ring is as short; a loop and a
-- repeated link change nothing.
example :
    let links : List Arc :=
      [⟨⟨1⟩, ⟨2⟩⟩, ⟨⟨2⟩, ⟨3⟩⟩, ⟨⟨3⟩, ⟨4⟩⟩, ⟨⟨1⟩, ⟨4⟩⟩, ⟨⟨1⟩, ⟨1⟩⟩, ⟨⟨2⟩, ⟨1⟩⟩]
    (ofLinks links).path ⟨1⟩ ⟨3⟩ = some [⟨1⟩, ⟨2⟩, ⟨3⟩] := by
  decide +kernel

end OnMesh.Graph
