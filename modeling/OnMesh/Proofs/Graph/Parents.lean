import OnMesh.Proofs.Graph

/-!
# The way back over the parents

A search that enters the stations one by one, and remembers from which
station it entered each, finds what a search that carries its trails along
finds.  Its parents lead from every station that was entered back over its
trail to the start, which has no parent; no station comes twice on that way,
so following it comes to an end.
-/

namespace OnMesh.Graph

variable {g : Graph} {goal start s : Station} {parents : Table Station Station}
  {way next queue unvisited : List Station}

/-! ## Going back -/

/-- The way back from a station over its parents, to one that has none. -/
inductive Back (parents : Table Station Station) : Station → List Station → Prop
  | start {s : Station} : parents.get? s = none → Back parents s [s]
  | parent {s p : Station} {way : List Station} : parents.get? s = some p →
      Back parents p way → Back parents s (s :: way)

/-- A parent of a station that is not on the way does not matter. -/
theorem Back.insert (h : Back parents s way) {c : Station} (hc : c ∉ way)
    (p : Station) : Back (parents.insert c p) s way := by
  induction h with
  | start hnone =>
      refine Back.start ?_
      rw [Table.get?_insert,
        if_neg (ne_of_mem_of_not_mem List.mem_cons_self hc)]
      exact hnone
  | parent hparent _ ih =>
      refine Back.parent ?_ (ih fun hmem => hc (List.mem_cons_of_mem _ hmem))
      rw [Table.get?_insert,
        if_neg (ne_of_mem_of_not_mem List.mem_cons_self hc)]
      exact hparent

/-- All stations on the way but the last have a parent. -/
theorem Back.dropLast_subset (h : Back parents s way) :
    way.dropLast ⊆ parents.keys := by
  induction h with
  | start => exact List.nil_subset _
  | @parent s p way hparent hback ih =>
      have hne : way ≠ [] := by
        rintro rfl
        cases hback
      rw [List.dropLast_cons_of_ne_nil hne]
      exact List.cons_subset.2 ⟨Table.mem_keys_iff.2 ⟨p, hparent⟩, ih⟩

theorem Back.length_le (h : Back parents s way) (hnodup : way.Nodup) :
    way.length ≤ parents.size + 1 := by
  have hle :=
    ((hnodup.sublist way.dropLast_sublist).subperm h.dropLast_subset).length_le
  rw [List.length_dropLast, Table.length_keys] at hle
  omega

/-- Whoever may take as many steps as the way is long follows it to its end. -/
theorem Back.retrace_eq (h : Back parents s way) {steps : Nat}
    (hsteps : way.length ≤ steps + 1) : retrace parents steps s = way := by
  induction h generalizing steps with
  | start hnone =>
      cases steps with
      | zero => rfl
      | succ steps => rw [retrace, hnone]
  | parent hparent hback ih =>
      cases steps with
      | zero =>
          rw [List.length_cons] at hsteps
          cases hback <;> simp at hsteps
      | succ steps =>
          rw [retrace, hparent]
          exact congrArg _ (ih (Nat.le_of_succ_le_succ hsteps))

/-! ## Entering stations -/

/-- The parents lead back over a trail, on which no station comes twice, and its
stations were entered. -/
structure Traced (x : Search) (t : Trail) : Prop where
  back : Back x.parents t.here (t.here :: t.before)
  nodup : (t.here :: t.before).Nodup
  seen : ∀ s ∈ t.here :: t.before, x.seen.contains s = true

section Entering

variable {x : Search} {t : Trail} {c here : Station}

theorem contains_enter : (x.enter here c).seen.contains s = true ↔
    s = c ∨ x.seen.contains s = true := by
  rw [Search.enter, Table.contains, Table.get?_insert, Table.contains]
  by_cases hs : s = c <;> simp [hs]

/-- What waits does not matter to a trail. -/
theorem Traced.of_tables {y : Search} (h : Traced x t)
    (hparents : y.parents = x.parents) (hseen : y.seen = x.seen) :
    Traced y t where
  back := hparents ▸ h.back
  nodup := h.nodup
  seen := hseen ▸ h.seen

/-- A station that is entered is on no trail yet. -/
theorem Traced.enter (h : Traced x t) (hc : x.seen.contains c = false) :
    Traced (x.enter here c) t where
  back := by
    refine h.back.insert (fun hmem => ?_) here
    rw [h.seen c hmem] at hc
    cases hc
  nodup := h.nodup
  seen s hs := contains_enter.2 (Or.inr (h.seen s hs))

theorem Traced.extend (h : Traced x t) (hc : x.seen.contains c = false) :
    Traced (x.enter t.here c) (t.extend c) where
  back := by
    refine Back.parent ?_ (h.enter hc).back
    show (x.parents.insert c t.here).get? c = some t.here
    rw [Table.get?_insert, if_pos rfl]
  nodup := by
    refine List.nodup_cons.2 ⟨fun hmem => ?_, h.nodup⟩
    rw [h.seen c hmem] at hc
    cases hc
  seen := by
    intro s hs
    rcases List.mem_cons.1 hs with rfl | hs
    · exact contains_enter.2 (Or.inl rfl)
    · exact contains_enter.2 (Or.inr (h.seen s hs))

/-- Those of the given stations that were not entered yet. -/
def Search.fresh (x : Search) (next : List Station) : List Station :=
  next.filter fun s => !x.seen.contains s

theorem mem_fresh_iff :
    s ∈ x.fresh next ↔ s ∈ next ∧ x.seen.contains s = false := by
  rw [Search.fresh, List.mem_filter, Bool.not_eq_true']

/-- What entering stations from the end of a trail comes to. -/
structure Enters (goal : Station) (t : Trail) (next : List Station) (x : Search)
    (y : Bool × Search) : Prop where
  found_iff : y.1 = true ↔ goal ∈ x.fresh next
  kept : ∀ u, Traced x u → Traced y.2 u
  /-- The goal is entered last. -/
  reached : y.1 = true → Traced y.2 (t.extend goal)
  waiting : y.1 = false → y.2.queue = x.queue ++ x.fresh next
  seen : y.1 = false → ∀ s, y.2.seen.contains s = true ↔
    s ∈ next ∨ x.seen.contains s = true
  extended : y.1 = false → ∀ c ∈ x.fresh next, Traced y.2 (t.extend c)

/-- A station that was entered may be left out. -/
theorem Enters.of_seen {y : Bool × Search} (h : Enters goal t next x y)
    (hseen : x.seen.contains c = true) : Enters goal t (c :: next) x y := by
  have hfresh : x.fresh (c :: next) = x.fresh next :=
    List.filter_cons_of_neg (by simp [hseen])
  refine ⟨hfresh ▸ h.found_iff, h.kept, h.reached, hfresh ▸ h.waiting,
    fun hmissed s => ?_, hfresh ▸ h.extended⟩
  rw [h.seen hmissed, List.mem_cons]
  constructor
  · exact fun hs => hs.imp_left Or.inr
  · rintro ((rfl | hs) | hs)
    · exact Or.inr hseen
    · exact Or.inl hs
    · exact Or.inr hs

/-- A station that is entered and is not the goal has to wait. -/
theorem Enters.of_fresh {y : Bool × Search} (ht : Traced x t) (hc : c ∉ next)
    (hgoal : c ≠ goal) (hseen : x.seen.contains c = false)
    (h : Enters goal t
      next { x.enter t.here c with queue := x.queue ++ [c] } y) :
    Enters goal t (c :: next) x y := by
  have hrest :
      Search.fresh { x.enter t.here c with queue := x.queue ++ [c] } next =
      x.fresh next := by
    refine List.filter_congr fun s hs => congrArg _ (Bool.eq_iff_iff.2 ?_)
    show (x.enter t.here c).seen.contains s = true ↔ _
    exact contains_enter.trans (or_iff_right (ne_of_mem_of_not_mem hs hc))
  have hfresh : x.fresh (c :: next) = c :: x.fresh next :=
    List.filter_cons_of_pos (by simp [hseen])
  have hkept : ∀ u, Traced (x.enter t.here c) u → Traced y.2 u :=
    fun u hu => h.kept u (hu.of_tables rfl rfl)
  refine ⟨?_, fun u hu => hkept u (hu.enter hseen), h.reached,
    fun hmissed => ?_, fun hmissed s => ?_, fun hmissed d hd => ?_⟩
  · rw [h.found_iff, hrest, hfresh, List.mem_cons, or_iff_right (Ne.symm hgoal)]
  · rw [h.waiting hmissed, hrest, hfresh, List.append_assoc]
    rfl
  · have hthen : (x.enter t.here c).seen.contains s = true ↔ _ := contains_enter
    rw [List.mem_cons, or_assoc, or_left_comm, ← hthen]
    exact h.seen hmissed s
  · rw [hfresh] at hd
    rcases List.mem_cons.1 hd with rfl | hd
    · exact hkept _ (ht.extend hseen)
    · exact h.extended hmissed d (hrest ▸ hd)

/-- Entering stations leads back over the trails of all that were entered. -/
theorem enters_enterAll (h : Traced x t) (hnext : next.Nodup) :
    Enters goal t next x (Search.enterAll goal t.here next x) := by
  induction next generalizing x with
  | nil =>
      refine ⟨?_, fun _ hu => hu, ?_, fun _ => (List.append_nil _).symm, ?_, ?_⟩
      · simp [Search.enterAll, Search.fresh]
      · exact fun hfound => absurd hfound Bool.false_ne_true
      · exact fun _ s => (or_iff_right List.not_mem_nil).symm
      · exact fun _ c hc => absurd hc List.not_mem_nil
  | cons c rest ih =>
      obtain ⟨hc, hrest⟩ := List.nodup_cons.1 hnext
      rw [Search.enterAll]
      cases hseen : x.seen.contains c with
      | true =>
          rw [if_pos rfl]
          exact (ih h hrest).of_seen hseen
      | false =>
          rw [if_neg Bool.false_ne_true]
          split
          · next hgoal =>
              subst hgoal
              have hfresh : c ∈ x.fresh (c :: rest) :=
                mem_fresh_iff.2 ⟨List.mem_cons_self, hseen⟩
              refine ⟨iff_of_true rfl hfresh, fun _ hu => hu.enter hseen,
                fun _ => h.extend hseen, ?_, ?_, ?_⟩ <;>
              exact fun hmissed => absurd hmissed.symm Bool.false_ne_true
          · next hgoal =>
              have hthen : Traced (x.enter t.here c) t := h.enter hseen
              exact .of_fresh h hc hgoal hseen
                (ih (hthen.of_tables rfl rfl) hrest)

end Entering

/-! ## Searching -/

/-- The search has got as far as one that carries its trails along. -/
structure Tracks (g : Graph) (x : Search) (queue : List Trail)
    (unvisited : List Station) : Prop where
  queue_eq : x.queue = queue.map (·.here)
  traced : ∀ t ∈ queue, Traced x t
  unvisited_iff : ∀ a b, g.Joins a b →
    (b ∈ unvisited ↔ x.seen.contains b = false)

section Tracks

variable {x : Search} {queue : List Trail} {t : Trail} {waiting : List Trail}

theorem tracks_begin (hsymm : ∀ a b, g.Joins a b → g.Joins b a)
    (start : Station) :
    Tracks g (Search.begin start) [⟨start, []⟩]
      (g.stations.filter (· != start)) where
  queue_eq := rfl
  traced := by
    intro t ht
    rw [List.mem_singleton.1 ht]
    refine ⟨Back.start rfl, List.nodup_singleton start, fun s hs => ?_⟩
    rw [List.mem_singleton.1 hs, Search.begin, Table.contains,
      Table.get?_insert, if_pos rfl]
    rfl
  unvisited_iff := by
    intro a b hjoins
    rw [List.mem_filter, and_iff_right (mem_stations (hsymm a b hjoins)),
      Search.begin, Table.contains, Table.get?_insert]
    by_cases hb : b = start <;> simp [hb]

/-- What is entered next from the end of a trail. -/
theorem Tracks.fresh_eq (h : Tracks g x queue unvisited) (s : Station) :
    x.fresh (g.neighbours s) = g.nextTo s unvisited := by
  refine List.filter_congr fun b hb => Bool.eq_iff_iff.2 ?_
  rw [List.contains_iff_mem, h.unvisited_iff s b (mem_neighbours_iff.1 hb),
    Bool.not_eq_true']

section Step

variable {seen : Table Station Unit}

theorem Tracks.enters
    (h : Tracks g ⟨t.here :: waiting.map (·.here), seen, parents⟩
      (t :: waiting) unvisited) :
    Enters goal t (g.neighbours t.here) ⟨waiting.map (·.here), seen, parents⟩
      (Search.enterAll goal t.here (g.neighbours t.here)
        ⟨waiting.map (·.here), seen, parents⟩) := by
  have hhead := h.traced t List.mem_cons_self
  exact enters_enterAll (hhead.of_tables rfl rfl) (g.nodup_neighbours t.here)

variable {y : Bool × Search}
  (h : Tracks g ⟨t.here :: waiting.map (·.here), seen, parents⟩
    (t :: waiting) unvisited)
  (hy : Enters goal t (g.neighbours t.here)
    ⟨waiting.map (·.here), seen, parents⟩ y)

include h hy

theorem Tracks.found_iff :
    y.1 = true ↔ (g.nextTo t.here unvisited).contains goal = true := by
  rw [List.contains_iff_mem, ← h.fresh_eq]
  exact hy.found_iff

/-- Both searches go on alike. -/
theorem Tracks.step (hmissed : y.1 = false) :
    Tracks g y.2 (waiting ++ (g.nextTo t.here unvisited).map t.extend)
      (g.apartFrom t.here unvisited) where
  queue_eq := by
    have hfresh : (g.nextTo t.here unvisited).map (fun c => (t.extend c).here) =
        g.nextTo t.here unvisited := List.map_id' _
    rw [hy.waiting hmissed, List.map_append, List.map_map]
    exact congrArg _ ((h.fresh_eq t.here).trans hfresh.symm)
  traced := by
    intro u hu
    rcases List.mem_append.1 hu with hu | hu
    · have htraced := h.traced u (List.mem_cons_of_mem _ hu)
      exact hy.kept u (htraced.of_tables rfl rfl)
    · obtain ⟨c, hc, rfl⟩ := List.mem_map.1 hu
      rw [← h.fresh_eq] at hc
      exact hy.extended hmissed c hc
  unvisited_iff := by
    intro a b hjoins
    rw [mem_apartFrom_iff, h.unvisited_iff a b hjoins, ← mem_neighbours_iff,
      ← Bool.not_eq_true, ← Bool.not_eq_true, hy.seen hmissed, not_or, and_comm]

end Step

variable (goal) in
/-- The goal is entered where a trail reaches it, and the parents lead back over
that trail. -/
theorem explore_of_search {queue : List Trail}
    (h : Tracks g x queue unvisited) :
    (g.search goal queue unvisited = none → g.explore goal x = none) ∧
    ∀ way, g.search goal queue unvisited = some way → way.Nodup ∧
      ∃ parents, g.explore goal x = some parents ∧
      Back parents goal way.reverse := by
  induction queue, unvisited using search.induct g goal generalizing x with
  | case1 unvisited =>
      obtain ⟨queue, seen, parents⟩ := x
      obtain rfl : queue = [] := h.queue_eq
      rw [search, explore]
      refine ⟨fun _ => rfl, fun way hway => ?_⟩
      cases hway
  | case2 unvisited head waiting fresh =>
      rename_i hfound
      obtain ⟨queue, seen, parents⟩ := x
      obtain rfl : queue = head.here :: waiting.map (·.here) := h.queue_eq
      have hreached := (h.found_iff h.enters).2 hfound
      have htraced := h.enters.reached hreached
      rw [search, if_pos hfound, explore]
      constructor
      · intro hnone
        cases hnone
      · intro way hway
        cases hway
        refine ⟨List.nodup_reverse.2 htraced.nodup, _, if_pos hreached, ?_⟩
        rw [Trail.stations, List.reverse_reverse]
        exact htraced.back
  | case3 unvisited head waiting fresh =>
      rename_i hmissed ih
      obtain ⟨queue, seen, parents⟩ := x
      obtain rfl : queue = head.here :: waiting.map (·.here) := h.queue_eq
      have hpassed : (Search.enterAll goal head.here (g.neighbours head.here)
          ⟨waiting.map (·.here), seen, parents⟩).1 = false :=
        Bool.eq_false_iff.2 fun hreached =>
          hmissed ((h.found_iff h.enters).1 hreached)
      rw [search, if_neg hmissed, explore]
      simp only [hpassed, Bool.false_eq_true, if_false]
      exact ih (h.step h.enters hpassed)

end Tracks

/-! ## What is a path -/

section Paths

variable (hsymm : ∀ a b, g.Joins a b → g.Joins b a)

include hsymm

/-- Either neither search finds the goal, or the parents lead back over what the
trails come to, and that is the path. -/
theorem path_cases (hne : start ≠ goal) :
    (g.search goal [⟨start, []⟩] (g.stations.filter (· != start)) = none ∧
      g.path start goal = none) ∨
    ∃ way parents,
      g.search goal [⟨start, []⟩] (g.stations.filter (· != start)) = some way ∧
      g.path start goal = some way ∧
      g.explore goal (Search.begin start) = some parents ∧
      Back parents goal way.reverse := by
  obtain ⟨hnone, hsome⟩ := explore_of_search goal (tracks_begin hsymm start)
  rw [path, if_neg hne]
  cases hsearch :
    g.search goal [⟨start, []⟩] (g.stations.filter (· != start)) with
  | none =>
      refine Or.inl ⟨rfl, ?_⟩
      rw [hnone hsearch, Option.map_none]
  | some way =>
      obtain ⟨hnodup, parents, hexplore, hback⟩ := hsome way hsearch
      refine Or.inr ⟨way, parents, rfl, ?_, hexplore, hback⟩
      have hway :=
        hback.retrace_eq (hback.length_le (List.nodup_reverse.2 hnodup))
      rw [hexplore, Option.map_some, hway, List.reverse_reverse]

/-- The path is what a search finds that carries its trails along. -/
theorem path_eq_search (hne : start ≠ goal) : g.path start goal =
    g.search goal [⟨start, []⟩] (g.stations.filter (· != start)) := by
  rcases path_cases hsymm hne
    with ⟨hsearch, hpath⟩ | ⟨way, parents, hsearch, hpath, -⟩
  · rw [hsearch, hpath]
  · rw [hsearch, hpath]

/-- The parents lead back over the path, from the goal to the start. -/
theorem exists_back_of_path (h : g.path start goal = some way)
    (hne : start ≠ goal) :
    ∃ parents, g.explore goal (Search.begin start) = some parents ∧
      Back parents goal way.reverse := by
  rcases path_cases hsymm hne
    with ⟨-, hpath⟩ | ⟨_, parents, -, hpath, hexplore, hback⟩
  · cases h.symm.trans hpath
  · cases h.symm.trans hpath
    exact ⟨parents, hexplore, hback⟩

/-- A path is a walk. -/
theorem walk_of_path (h : g.path start goal = some way) :
    Walk g.Joins start goal way := by
  by_cases heq : start = goal
  · rw [path, if_pos heq] at h
    cases h
    exact heq ▸ Walk.single start
  · rw [path_eq_search hsymm heq] at h
    refine walk_of_search (fun t ht => ?_) h
    rw [List.mem_singleton.1 ht]
    exact Walk.single start

/-- Where there is a walk, a path is found that is no longer. -/
theorem path_of_walk {other : List Station}
    (h : Walk g.Joins start goal other) :
    ∃ way, g.path start goal = some way ∧ way.length ≤ other.length := by
  by_cases heq : start = goal
  · exact ⟨[start], by rw [path, if_pos heq], h.length_pos⟩
  · obtain ⟨k, hk, hleads⟩ := leads_of_walk hsymm h heq
    obtain ⟨way, hway, hlength⟩ := search_of_leads
      (t := ⟨start, []⟩) (List.pairwise_singleton _ _) List.mem_cons_self hleads
    refine ⟨way, (path_eq_search hsymm heq).trans hway, Nat.le_trans hlength ?_⟩
    rw [List.length_nil, Nat.zero_add]
    exact hk

/-- The reply to an echo request comes back over a shortest walk. -/
theorem echo_of_isReply {target : Option Station}
    (h : (g.echo start target).isReply = true) :
    ∃ goal way, target = some goal ∧ g.echo start target = .reply goal way ∧
    Walk g.Joins start goal way ∧ ∀ other, Walk g.Joins start goal other →
    way.length ≤ other.length := by
  cases target with
  | none => cases h
  | some goal =>
      cases hpath : g.path start goal with
      | none =>
          simp only [echo, hpath] at h
          cases h
      | some way =>
          refine ⟨goal, way, rfl, by simp only [echo, hpath],
            walk_of_path hsymm hpath, ?_⟩
          intro other hother
          obtain ⟨shortest, hshortest, hlength⟩ := path_of_walk hsymm hother
          rw [hpath] at hshortest
          cases hshortest
          exact hlength

/-- Exactly the stations at the end of some walk answer an echo request. -/
theorem isReply_echo_iff {target : Option Station} :
    (g.echo start target).isReply = true ↔
      ∃ goal, target = some goal ∧ ∃ way, Walk g.Joins start goal way := by
  constructor
  · intro h
    obtain ⟨goal, way, htarget, -, hway, -⟩ := echo_of_isReply hsymm h
    exact ⟨goal, htarget, way, hway⟩
  · rintro ⟨goal, rfl, other, hother⟩
    obtain ⟨way, hway, -⟩ := path_of_walk hsymm hother
    simp only [echo, hway]
    rfl

end Paths

end OnMesh.Graph
