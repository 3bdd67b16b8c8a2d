import OnMesh.Table
import Mathlib.Algebra.GroupWithZero.Nat
import Mathlib.Data.List.Nodup

/-!
# Look-ups after many changes

Inserting or erasing the keys of a list changes a table at those keys only.
The keys of a table are all different, so walking over its entries meets each
key once.  Changing every value is the same as changing them key by key.
-/

namespace OnMesh.Table

variable {κ α β : Type} [Ranked κ]

theorem nodup_keys (t : Table κ α) : t.keys.Nodup := by
  rw [keys, List.Nodup, List.pairwise_map]
  apply t.ascending.imp
  intro x y hlt heq
  rw [heq] at hlt
  exact Nat.lt_irrefl _ hlt

theorem mem_keys_iff {t : Table κ α} {k : κ} :
    k ∈ t.keys ↔ ∃ a, t.get? k = some a := by
  rw [← contains_eq_true_iff, contains, Option.isSome_iff_exists]

theorem contains_eq_false_iff {t : Table κ α} {k : κ} :
    t.contains k = false ↔ t.get? k = none := by
  simp [contains]

theorem isEmpty_iff {t : Table κ α} : t.isEmpty = true ↔ t = empty := by
  cases t
  rw [isEmpty, List.isEmpty_iff, empty, mk.injEq]

/-- The key and the value of an entry are a look-up with its answer. -/
theorem get?_of_mem {t : Table κ α} {e : κ × α} (h : e ∈ t.entries) :
    t.get? e.1 = some e.2 :=
  get?_eq_some_iff.2 h

/-- A value that is overwritten at once leaves no trace. -/
theorem insert_insert [DecidableEq κ] (t : Table κ α) (k : κ) (a b : α) :
    (t.insert k a).insert k b = t.insert k b := by
  apply ext_get?
  intro j
  rw [get?_insert, get?_insert, get?_insert]
  split <;> rfl

/-! ## Lists of changes -/

theorem get?_eraseAll [DecidableEq κ] (t : Table κ α) (ks : List κ) (k : κ) :
    (t.eraseAll ks).get? k = if k ∈ ks then none else t.get? k := by
  induction ks generalizing t with
  | nil => simp [eraseAll]
  | cons j ks ih =>
      have hstep : t.eraseAll (j :: ks) = (t.erase j).eraseAll ks := rfl
      rw [hstep, ih, get?_erase]
      by_cases hk : k ∈ ks
      · simp [hk]
      · by_cases hj : k = j
        · simp [hj]
        · simp [hk, hj]

theorem get?_insertAll_of_not_mem [DecidableEq κ] {t : Table κ α}
    {es : List (κ × α)} {k : κ} (h : ∀ e ∈ es, e.1 ≠ k) :
    (t.insertAll es).get? k = t.get? k := by
  induction es generalizing t with
  | nil => rfl
  | cons e es ih =>
      have hstep : t.insertAll (e :: es) =
          (t.insert e.1 e.2).insertAll es := rfl
      have hne : k ≠ e.1 := (h e List.mem_cons_self).symm
      rw [hstep, ih fun d hd => h d (List.mem_cons_of_mem _ hd),
        get?_insert, if_neg hne]

/-- A key that is always inserted with the same value has that value in the
end. -/
theorem get?_insertAll_of_mem [DecidableEq κ] {t : Table κ α}
    {es : List (κ × α)} {k : κ} {a : α} (hmem : (k, a) ∈ es)
    (hsame : ∀ e ∈ es, e.1 = k → e.2 = a) :
    (t.insertAll es).get? k = some a := by
  induction es generalizing t with
  | nil => simp at hmem
  | cons e es ih =>
      have hstep : t.insertAll (e :: es) =
          (t.insert e.1 e.2).insertAll es := rfl
      rw [hstep]
      by_cases hlater : (k, a) ∈ es
      · exact ih hlater fun d hd => hsame d (List.mem_cons_of_mem _ hd)
      · have he : e = (k, a) :=
          ((List.mem_cons.1 hmem).resolve_right hlater).symm
        subst he
        rw [get?_insertAll_of_not_mem, get?_insert, if_pos rfl]
        intro d hd hk
        have ha : d.2 = a := hsame d (List.mem_cons_of_mem _ hd) hk
        exact hlater (by rw [← hk, ← ha]; exact hd)

/-- Of all that is inserted for a key the last one counts. -/
theorem get?_insertAll [DecidableEq κ] (t : Table κ α) (es : List (κ × α))
    (k : κ) :
    (t.insertAll es).get? k =
      ((es.reverse.find? fun e => e.1 = k).map (·.2)).or (t.get? k) := by
  induction es generalizing t with
  | nil => rfl
  | cons e es ih =>
      have hstep : t.insertAll (e :: es) =
          (t.insert e.1 e.2).insertAll es := rfl
      rw [hstep, ih, List.reverse_cons, List.find?_append, get?_insert]
      cases es.reverse.find? fun d => d.1 = k with
      | some d => rfl
      | none =>
          by_cases hk : k = e.1
          · simp [hk]
          · simp [hk, Ne.symm hk]

theorem mem_or_of_get?_insertAll [DecidableEq κ] {t : Table κ α}
    {es : List (κ × α)} {k : κ} {a : α} (h : (t.insertAll es).get? k = some a) :
    (k, a) ∈ es ∨ t.get? k = some a := by
  induction es generalizing t with
  | nil => exact Or.inr h
  | cons e es ih =>
      have hstep : t.insertAll (e :: es) =
          (t.insert e.1 e.2).insertAll es := rfl
      rw [hstep] at h
      rcases ih h with hmem | hget
      · exact Or.inl (List.mem_cons_of_mem _ hmem)
      · rw [get?_insert] at hget
        split at hget
        · next hk =>
            cases hget
            exact Or.inl (hk ▸ List.mem_cons_self)
        · exact Or.inr hget

/-- Erasing what is gone and inserting what is new turns one
table into another. -/
theorem get?_insertAll_eraseAll [DecidableEq κ] {old new : Table κ α}
    {added : List (κ × α)} {removed : List κ}
    (hadded : ∀ k a, (k, a) ∈ added → new.get? k = some a)
    (hremoved : ∀ k ∈ removed, new.get? k = none)
    (hnew : ∀ k a, new.get? k = some a → old.get? k ≠ some a → (k, a) ∈ added)
    (hgone : ∀ k a, old.get? k = some a → new.get? k = none → k ∈ removed)
    (k : κ) : ((old.eraseAll removed).insertAll added).get? k = new.get? k := by
  by_cases hmem : ∃ a, (k, a) ∈ added
  · obtain ⟨a, ha⟩ := hmem
    rw [hadded k a ha]
    refine get?_insertAll_of_mem ha ?_
    rintro ⟨j, b⟩ hb rfl
    exact Option.some.inj ((hadded j b hb).symm.trans (hadded j a ha))
  · rw [get?_insertAll_of_not_mem, get?_eraseAll]
    · split
      · next hk => exact (hremoved k hk).symm
      · next hk =>
          cases hold : old.get? k with
          | none =>
              cases h : new.get? k with
              | none => rfl
              | some a => exact absurd ⟨a, hnew k a h (by simp [hold])⟩ hmem
          | some a =>
              cases h : new.get? k with
              | none => exact absurd (hgone k a hold h) hk
              | some b =>
                  by_cases hab : a = b
                  · rw [hab]
                  · exact absurd ⟨b,
                      hnew k b h (by simpa [hold] using hab)⟩ hmem
    · rintro ⟨j, b⟩ hb rfl
      exact hmem ⟨b, hb⟩

/-- The entries of a table build the table again. -/
theorem ofList_entries [DecidableEq κ] (t : Table κ α) :
    ofList t.entries = t := by
  apply ext_get?
  intro k
  cases hk : t.get? k with
  | some a =>
      refine get?_insertAll_of_mem (get?_eq_some_iff.1 hk) ?_
      rintro ⟨j, b⟩ he rfl
      rw [get?_of_mem he] at hk
      exact Option.some.inj hk
  | none =>
      rw [ofList, get?_insertAll_of_not_mem, get?_empty]
      rintro ⟨j, b⟩ he rfl
      rw [get?_of_mem he] at hk
      cases hk

/-- A list is kept as it is exactly if it is ascending. -/
theorem entries_ofList_eq_iff [DecidableEq κ] {es : List (κ × α)} :
    (ofList es).entries = es ↔ es.Pairwise fun x y => rank x.1 < rank y.1 := by
  constructor
  · intro h
    rw [← h]
    exact (ofList es).ascending
  · intro h
    exact congrArg entries (ofList_entries ⟨es, h⟩)

section Rows

variable {ε : Type} (row : ε → κ × α) (entry : κ → α → ε)

/-- Of several things with the same key the last one is found in the
table of their rows. -/
theorem map_get?_ofList [DecidableEq κ]
    (hrow : ∀ x, entry (row x).1 (row x).2 = x) (xs : List ε) (k : κ) :
    ((ofList (xs.map row)).get? k).map (entry k) = xs.reverse.find? fun x =>
      (row x).1 = k := by
  rw [ofList, get?_insertAll, get?_empty, Option.or_none,
    ← List.map_reverse, List.find?_map]
  have htest : (fun e : κ × α => decide (e.1 = k)) ∘ row = fun x =>
      decide ((row x).1 = k) := rfl
  rw [htest]
  cases hfind : xs.reverse.find? fun x => (row x).1 = k with
  | none => rfl
  | some x =>
      have hk : (row x).1 = k := by simpa using List.find?_some hfind
      subst hk
      exact congrArg some (hrow x)

/-- Things come out of the table of their rows as they went in exactly
if their keys ascend. -/
theorem map_entries_ofList_eq_iff [DecidableEq κ]
    (hrow : ∀ x, entry (row x).1 (row x).2 = x)
    (hentry : ∀ k a, row (entry k a) = (k, a)) (xs : List ε) :
    ((ofList (xs.map row)).entries.map fun e => entry e.1 e.2) = xs ↔
      xs.Pairwise fun x y => rank (row x).1 < rank (row y).1 := by
  have hback : ∀ es : List (κ × α),
      (es.map fun e => entry e.1 e.2).map row = es := by
    intro es
    rw [List.map_map, show row ∘ (fun e : κ × α => entry e.1 e.2) = id from
      funext fun e => hentry e.1 e.2, List.map_id]
  have hforth : (xs.map row).map (fun e => entry e.1 e.2) = xs := by
    rw [List.map_map, show (fun e : κ × α => entry e.1 e.2) ∘ row = id
      from funext hrow, List.map_id]
  have hkeys : (xs.map row).Pairwise (fun x y => rank x.1 < rank y.1) ↔
      xs.Pairwise fun x y => rank (row x).1 < rank (row y).1 :=
    List.pairwise_map
  rw [← hkeys, ← entries_ofList_eq_iff]
  constructor
  · intro h
    rw [← hback (ofList (xs.map row)).entries, h]
  · intro h
    rw [h, hforth]

end Rows

/-! ## Searching -/

theorem find?_eq_some {t : Table κ α} {p : κ → α → Bool} {k : κ} {a : α}
    (h : t.find? p = some (k, a)) : t.get? k = some a ∧ p k a = true := by
  have hmem := List.mem_of_find?_eq_some h
  have hp := List.find?_some h
  exact ⟨get?_of_mem hmem, hp⟩

theorem find?_eq_none_iff {t : Table κ α} {p : κ → α → Bool} :
    t.find? p = none ↔ ∀ k a, t.get? k = some a → p k a = false := by
  rw [find?, List.find?_eq_none]
  constructor
  · intro h k a hk
    simpa using h (k, a) (get?_eq_some_iff.1 hk)
  · rintro h ⟨k, a⟩ he
    simpa using h k a (get?_of_mem he)

/-- A search finds the only entry that passes its test. -/
theorem find?_eq_some_of_unique {t : Table κ α} {p : κ → α → Bool} {k : κ}
    {a : α} (hk : t.get? k = some a) (hp : p k a = true)
    (hunique : ∀ j b, t.get? j = some b → p j b = true → j = k) :
    t.find? p = some (k, a) := by
  cases hfind : t.find? p with
  | none =>
      have := find?_eq_none_iff.1 hfind k a hk
      rw [hp] at this
      cases this
  | some e =>
      obtain ⟨j, b⟩ := e
      obtain ⟨hj, hpj⟩ := find?_eq_some hfind
      have hjk : j = k := hunique j b hj hpj
      subst hjk
      rw [hj] at hk
      rw [Option.some.inj hk]

/-- Of lists that are empty for every other key only one is left. -/
theorem flatMap_entries_eq {t : Table κ α} {k : κ} {a : α} {f : κ × α → List β}
    (hk : t.get? k = some a) (hother : ∀ e ∈ t.entries, e.1 ≠ k → f e = []) :
    t.entries.flatMap f = f (k, a) := by
  obtain ⟨before, after, hsplit⟩ := List.append_of_mem (get?_eq_some_iff.1 hk)
  have hnodup : (t.entries.map (·.1)).Nodup := nodup_keys t
  rw [hsplit, List.map_append, List.map_cons, List.nodup_append,
    List.nodup_cons] at hnodup
  obtain ⟨-, ⟨hafter, -⟩, hbefore⟩ := hnodup
  have hfirst : before.flatMap f = [] := by
    rw [List.flatMap_eq_nil_iff]
    intro e he
    apply hother e (hsplit ▸ List.mem_append_left _ he)
    exact hbefore _ (List.mem_map.2 ⟨e, he, rfl⟩) _ List.mem_cons_self
  have hlast : after.flatMap f = [] := by
    rw [List.flatMap_eq_nil_iff]
    intro e he
    apply hother e
      (hsplit ▸ List.mem_append_right _ (List.mem_cons_of_mem _ he))
    rintro rfl
    exact hafter (List.mem_map.2 ⟨e, he, rfl⟩)
  rw [hsplit, List.flatMap_append, List.flatMap_cons, hfirst, hlast,
    List.nil_append, List.append_nil]

/-! ## Changing every value -/

theorem get?_map_eq_some_iff {t : Table κ α} {f : α → β} {k : κ} {b : β} :
    (t.map f).get? k = some b ↔ ∃ a, t.get? k = some a ∧ f a = b := by
  rw [get?_map, Option.map_eq_some_iff]

theorem map_insert [DecidableEq κ] (t : Table κ α) (f : α → β) (k : κ) (a : α) :
    (t.insert k a).map f = (t.map f).insert k (f a) := by
  apply ext_get?
  intro j
  rw [get?_map, get?_insert, get?_insert, get?_map]
  split <;> rfl

theorem map_insertAll [DecidableEq κ] (t : Table κ α) (f : α → β)
    (es : List (κ × α)) :
    (t.insertAll es).map f =
      (t.map f).insertAll (es.map fun e => (e.1, f e.2)) := by
  induction es generalizing t with
  | nil => rfl
  | cons e es ih =>
      exact (ih _).trans (congrArg (insertAll · _) (t.map_insert f e.1 e.2))

theorem map_eraseAll [DecidableEq κ] (t : Table κ α) (f : α → β) (ks : List κ) :
    (t.eraseAll ks).map f = (t.map f).eraseAll ks := by
  apply ext_get?
  intro j
  rw [get?_map, get?_eraseAll, get?_eraseAll, get?_map]
  split <;> rfl

/-! ## Sizes -/

theorem length_place {k : κ} (a : α) {es : List (κ × α)}
    (hasc : es.Pairwise fun x y => rank x.1 < rank y.1) :
    (place k a es).length = es.length + if (lookup k es).isSome then 0
      else 1 := by
  induction es with
  | nil => rfl
  | cons e es ih =>
      obtain ⟨j, b⟩ := e
      obtain ⟨hhead, htail⟩ := List.pairwise_cons.1 hasc
      have hrest := ih htail
      rw [place, lookup]
      by_cases hlt : rank k < rank j
      · have hnone : lookup k es = none :=
          lookup_eq_none_of_lt fun e he => Nat.lt_trans hlt (hhead e he)
        simp [hlt, Nat.ne_of_gt hlt, hnone]
      · by_cases heq : rank k = rank j
        · simp [heq]
        · simp only [hlt, heq, Ne.symm heq, if_false, List.length_cons, hrest]
          omega

/-- A table grows by the keys that it did not have. -/
theorem size_insert (t : Table κ α) (k : κ) (a : α) :
    (t.insert k a).size = t.size + if t.contains k then 0 else 1 :=
  length_place a t.ascending

theorem size_insertAll_le (t : Table κ α) (es : List (κ × α)) :
    (t.insertAll es).size ≤ t.size + es.length := by
  induction es generalizing t with
  | nil => exact Nat.le_refl _
  | cons e es ih =>
      have hstep : t.insertAll (e :: es) =
          (t.insert e.1 e.2).insertAll es := rfl
      have hrest := ih (t.insert e.1 e.2)
      have hone : (t.insert e.1 e.2).size ≤ t.size + 1 := by
        rw [size_insert]
        split
        · omega
        · omega
      rw [hstep, List.length_cons]
      omega

theorem size_ofList_le (es : List (κ × α)) : (ofList es).size ≤ es.length := by
  have hsize := size_insertAll_le empty es
  have hempty : (empty : Table κ α).size = 0 := rfl
  rw [hempty, Nat.zero_add] at hsize
  exact hsize

/-- Every entry passes a test or fails it. -/
theorem size_filter_add (t : Table κ α) (p : κ → α → Bool) :
    (t.filter p).size + (t.filter fun k a => !p k a).size = t.size :=
  (t.entries.length_eq_length_filter_add fun e => p e.1 e.2).symm

theorem length_values (t : Table κ α) : t.values.length = t.size :=
  List.length_map _

theorem length_keys (t : Table κ α) : t.keys.length = t.size :=
  List.length_map _

/-! ## Totals -/

def total (f : α → Nat) (t : Table κ α) : Nat := (t.values.map f).sum

theorem total_map (f : β → Nat) (g : α → β) (t : Table κ α) :
    (t.map g).total f = t.total fun a => f (g a) := by
  simp [total, values, map, Function.comp_def]

theorem sum_place (f : α → Nat) {k : κ} (b : α) {es : List (κ × α)}
    (hasc : es.Pairwise fun x y => rank x.1 < rank y.1) :
    ((place k b es).map fun e => f e.2).sum + ((lookup k es).map f).getD 0 =
      (es.map fun e => f e.2).sum + f b := by
  induction es with
  | nil => simp [place, lookup]
  | cons e es ih =>
      obtain ⟨j, c⟩ := e
      obtain ⟨hhead, htail⟩ := List.pairwise_cons.1 hasc
      have hrest := ih htail
      rw [place, lookup]
      by_cases hlt : rank k < rank j
      · have hnone : lookup k es = none :=
          lookup_eq_none_of_lt fun e he => Nat.lt_trans hlt (hhead e he)
        simp [hlt, Nat.ne_of_gt hlt, hnone]
        omega
      · by_cases heq : rank k = rank j
        · simp [heq]
          omega
        · simp only [hlt, heq, Ne.symm heq, if_false,
            List.map_cons, List.sum_cons]
          omega

/-- Changing one value changes the total by as much. -/
theorem total_insert (f : α → Nat) {t : Table κ α} {k : κ} {a : α}
    (h : t.get? k = some a) (b : α) :
    (t.insert k b).total f + f a = t.total f + f b := by
  have hsum := sum_place f b (k := k) t.ascending
  rw [show lookup k t.entries = some a from h] at hsum
  simp only [total, values, List.map_map]
  exact hsum

/-- A new value adds to the total. -/
theorem total_insert_of_none (f : α → Nat) {t : Table κ α} {k : κ}
    (h : t.get? k = none) (b : α) :
    (t.insert k b).total f = t.total f + f b := by
  have hsum := sum_place f b (k := k) t.ascending
  rw [show lookup k t.entries = none from h] at hsum
  simp only [total, values, List.map_map]
  exact hsum

/-- The total depends on nothing but the measure of each value. -/
theorem total_congr {f : α → Nat} {t t' : Table κ α}
    (h : ∀ k, (t'.get? k).map f = (t.get? k).map f) :
    t'.total f = t.total f := by
  have hmap : t'.map f = t.map f :=
    ext_get? fun k => by rw [get?_map, get?_map, h k]
  calc
    t'.total f = (t'.map f).total id := (total_map id f t').symm
    _ = (t.map f).total id := by rw [hmap]
    _ = t.total f := total_map id f t

/-- If one measure falls wherever it changes, and another one does not grow
where the first one stays, then so it is with the totals. -/
theorem total_lt_or_le {f f' g g' : α → Nat} {t : Table κ α}
    (h : ∀ k a, t.get? k = some a → f' a < f a ∨ f' a = f a ∧ g' a ≤ g a) :
    t.total f' < t.total f ∨ t.total f' = t.total f ∧
    t.total g' ≤ t.total g := by
  have hmem : ∀ e ∈ t.entries, f' e.2 < f e.2 ∨ f' e.2 = f e.2 ∧
      g' e.2 ≤ g e.2 :=
    fun e he => h e.1 e.2 (get?_of_mem he)
  simp only [total, values, List.map_map]
  generalize t.entries = es at hmem
  induction es with
  | nil => exact Or.inr ⟨rfl, Nat.le_refl _⟩
  | cons e es ih =>
      obtain ⟨hhead, htail⟩ := List.forall_mem_cons.1 hmem
      have hrest := ih htail
      simp only [List.map_cons, List.sum_cons, Function.comp_apply]
      omega

theorem total_le {f g : α → Nat} {t : Table κ α}
    (h : ∀ k a, t.get? k = some a → f a ≤ g a) : t.total f ≤ t.total g := by
  have hboth : ∀ k a, t.get? k = some a → f a < f a ∨ f a = f a ∧ f a ≤ g a :=
    fun k a hk => Or.inr ⟨rfl, h k a hk⟩
  rcases total_lt_or_le hboth with hlt | ⟨-, hle⟩
  · exact absurd hlt (Nat.lt_irrefl _)
  · exact hle

theorem total_add (f g : α → Nat) (t : Table κ α) :
    (t.total fun a => f a + g a) = t.total f + t.total g := by
  rw [total, total, total]
  generalize t.values = as
  induction as with
  | nil => rfl
  | cons a as ih =>
      simp only [List.map_cons, List.sum_cons]
      omega

end OnMesh.Table
