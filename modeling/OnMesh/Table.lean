/-!
# Tables in key order

A finite map is kept as the list of its entries, strictly ascending by the rank
of the key.  The order is part of the type, so walking a table always visits the
keys in the same way, and two tables that answer every look-up alike are the
same table (`Table.ext_get?`).  Each operation has one look-up law:
`get?_insert`, `get?_filter`, `get?_erase`, `get?_map`.
-/

namespace OnMesh

/-- Keys that natural numbers put in order, without ties. -/
class Ranked (κ : Type) where
  /-- The place of a key among all keys. -/
  rank : κ → Nat
  /-- Different keys have different places. -/
  rank_injective : ∀ {j k : κ}, rank j = rank k → j = k

export Ranked (rank)

@[simp]
theorem rank_inj {κ : Type} [Ranked κ] {j k : κ} : rank j = rank k ↔ j = k :=
  ⟨Ranked.rank_injective, fun h => h ▸ rfl⟩

/-- A finite map with its entries in ascending key order. -/
structure Table (κ α : Type) [Ranked κ] where
  /-- The entries, smallest key first. -/
  entries : List (κ × α)
  /-- Each key is smaller than all keys after it. -/
  ascending : entries.Pairwise fun x y => rank x.1 < rank y.1

namespace Table

variable {κ α β : Type} [Ranked κ]

/-- The value beside the first entry with the given key. -/
def lookup (k : κ) : List (κ × α) → Option α
  | [] => none
  | (j, a) :: rest => if rank j = rank k then some a else lookup k rest

/-- Put an entry at its place, over one with the same key. -/
def place (k : κ) (a : α) : List (κ × α) → List (κ × α)
  | [] => [(k, a)]
  | (j, b) :: rest =>
    if rank k < rank j then (k, a) :: (j, b) :: rest
    else if rank k = rank j then (k, a) :: rest
    else (j, b) :: place k a rest

theorem mem_place {k : κ} {a : α} {e : κ × α} {es : List (κ × α)}
    (h : e ∈ place k a es) : e = (k, a) ∨ e ∈ es := by
  induction es with
  | nil => exact Or.inl (List.mem_singleton.1 h)
  | cons d rest ih =>
    rw [place] at h
    split at h
    · exact (List.mem_cons.1 h)
    · split at h
      · exact (List.mem_cons.1 h).imp id (List.mem_cons_of_mem _)
      · rcases List.mem_cons.1 h with h | h
        · exact Or.inr (h ▸ List.mem_cons_self)
        · exact (ih h).imp id (List.mem_cons_of_mem _)

theorem ascending_place (k : κ) (a : α) {es : List (κ × α)}
    (h : es.Pairwise fun x y => rank x.1 < rank y.1) :
    (place k a es).Pairwise fun x y => rank x.1 < rank y.1 := by
  induction es with
  | nil => exact List.pairwise_singleton _ _
  | cons d rest ih =>
    obtain ⟨hd, hrest⟩ := List.pairwise_cons.1 h
    rw [place]
    split
    · next hlt =>
      refine List.pairwise_cons.2 ⟨fun e he => ?_, h⟩
      rcases List.mem_cons.1 he with rfl | he
      · exact hlt
      · exact Nat.lt_trans hlt (hd e he)
    · next hge =>
      split
      · next heq =>
        exact List.pairwise_cons.2 ⟨fun e he => heq ▸ hd e he, hrest⟩
      · next hne =>
        refine List.pairwise_cons.2 ⟨fun e he => ?_, ih hrest⟩
        rcases mem_place he with rfl | he
        · exact Nat.lt_of_le_of_ne (Nat.le_of_not_lt hge) fun h => hne h.symm
        · exact hd e he

def empty : Table κ α := ⟨[], List.Pairwise.nil⟩

instance : Inhabited (Table κ α) := ⟨empty⟩

def get? (t : Table κ α) (k : κ) : Option α := lookup k t.entries

def contains (t : Table κ α) (k : κ) : Bool := (t.get? k).isSome

def insert (t : Table κ α) (k : κ) (a : α) : Table κ α :=
  ⟨place k a t.entries, ascending_place k a t.ascending⟩

def filter (t : Table κ α) (p : κ → α → Bool) : Table κ α :=
  ⟨t.entries.filter fun e => p e.1 e.2, t.ascending.filter _⟩

def erase (t : Table κ α) (k : κ) : Table κ α :=
  t.filter fun j _ => rank j != rank k

def map (t : Table κ α) (f : α → β) : Table κ β :=
  ⟨t.entries.map fun e => (e.1, f e.2), by
    rw [List.pairwise_map]
    exact t.ascending⟩

/-- Set the given keys one after the other, so that a later value wins. -/
def insertAll (t : Table κ α) (es : List (κ × α)) : Table κ α :=
  es.foldl (fun t e => t.insert e.1 e.2) t

/-- The table of a list of entries, in which a later entry wins
over an earlier one. -/
def ofList (es : List (κ × α)) : Table κ α := empty.insertAll es

def eraseAll (t : Table κ α) (ks : List κ) : Table κ α := ks.foldl erase t

def keys (t : Table κ α) : List κ := t.entries.map (·.1)

def values (t : Table κ α) : List α := t.entries.map (·.2)

def size (t : Table κ α) : Nat := t.entries.length

def isEmpty (t : Table κ α) : Bool := t.entries.isEmpty

/-- The first entry, in key order, that passes a test. -/
def find? (t : Table κ α) (p : κ → α → Bool) : Option (κ × α) :=
  t.entries.find? fun e => p e.1 e.2

instance [DecidableEq κ] [DecidableEq α] : DecidableEq (Table κ α) := fun s t =>
  decidable_of_iff (s.entries = t.entries) (by
    cases s; cases t; simp)

/-! ## Look-ups -/

theorem lookup_eq_none_of_lt {k : κ} {es : List (κ × α)}
    (h : ∀ e ∈ es, rank k < rank e.1) : lookup k es = none := by
  induction es with
  | nil => rfl
  | cons d rest ih =>
    rw [lookup, if_neg (Nat.ne_of_gt (h d List.mem_cons_self))]
    exact ih fun e he => h e (List.mem_cons_of_mem _ he)

/-- An entry that is put at its place is found, and hides no other. -/
theorem lookup_place [DecidableEq κ] (j k : κ) (a : α) (es : List (κ × α)) :
    lookup j (place k a es) = if j = k then some a else lookup j es := by
  induction es with
  | nil =>
    by_cases h : j = k
    · simp [place, lookup, h]
    · simp [place, lookup, h, Ne.symm h]
  | cons d rest ih =>
    obtain ⟨i, b⟩ := d
    by_cases h : j = k
    · subst h
      rw [place]
      split
      · simp [lookup]
      · split
        · simp [lookup]
        · next hne =>
          have hij : i ≠ j := fun h => hne (h ▸ rfl)
          simp [lookup, hij, ih]
    · rw [place]
      split
      · simp [lookup, Ne.symm h]
      · split
        · next heq =>
          have hk : k = i := rank_inj.1 heq
          subst hk
          simp [lookup, Ne.symm h]
        · by_cases hi : i = j
          · simp [lookup, hi]
          · simp [lookup, hi, ih, h]

theorem lookup_filter {k : κ} (p : κ → α → Bool) {es : List (κ × α)}
    (h : es.Pairwise fun x y => rank x.1 < rank y.1) :
    lookup k (es.filter fun e => p e.1 e.2) = (lookup k es).filter (p k) := by
  induction es with
  | nil => rfl
  | cons d rest ih =>
    obtain ⟨j, b⟩ := d
    obtain ⟨hd, hrest⟩ := List.pairwise_cons.1 h
    by_cases hk : j = k
    · subst hk
      have hnone : lookup j rest = none := lookup_eq_none_of_lt hd
      by_cases hp : p j b
      · simp [hp, lookup, Option.filter]
      · simp [hp, lookup, ih hrest, hnone, Option.filter]
    · by_cases hp : p j b <;> simp [hp, lookup, hk, ih hrest]

@[simp]
theorem get?_empty (k : κ) : (empty : Table κ α).get? k = none := rfl

@[simp]
theorem get?_insert [DecidableEq κ] (t : Table κ α) (j k : κ) (a : α) :
    (t.insert k a).get? j = if j = k then some a else t.get? j :=
  lookup_place j k a t.entries

@[simp]
theorem get?_filter (t : Table κ α) (p : κ → α → Bool) (k : κ) :
    (t.filter p).get? k = (t.get? k).filter (p k) :=
  lookup_filter p t.ascending

@[simp]
theorem get?_erase [DecidableEq κ] (t : Table κ α) (j k : κ) :
    (t.erase k).get? j = if j = k then none else t.get? j := by
  rw [erase, get?_filter]
  by_cases h : j = k <;> cases hg : t.get? j <;> simp [h]

@[simp]
theorem get?_map (t : Table κ α) (f : α → β) (k : κ) :
    (t.map f).get? k = (t.get? k).map f := by
  obtain ⟨es, hs⟩ := t
  show lookup k (es.map fun e => (e.1, f e.2)) = (lookup k es).map f
  clear hs
  induction es with
  | nil => rfl
  | cons d rest ih => by_cases h : d.1 = k <;> simp [lookup, h, ih]

/-- An entry of the table is a key with its value. -/
theorem get?_eq_some_iff {t : Table κ α} {k : κ} {a : α} :
    t.get? k = some a ↔ (k, a) ∈ t.entries := by
  obtain ⟨es, hs⟩ := t
  show lookup k es = some a ↔ (k, a) ∈ es
  induction es with
  | nil => simp [lookup]
  | cons d rest ih =>
    obtain ⟨j, b⟩ := d
    obtain ⟨hd, hrest⟩ := List.pairwise_cons.1 hs
    by_cases hk : j = k
    · subst hk
      have hnot : (j, a) ∉ rest :=
        fun hmem => Nat.lt_irrefl (rank j) (hd _ hmem)
      simp [lookup, hnot, eq_comm]
    · simp [lookup, hk, Ne.symm hk, ih hrest]

theorem contains_eq_true_iff {t : Table κ α} {k : κ} :
    t.contains k = true ↔ k ∈ t.keys := by
  simp only [contains, Option.isSome_iff_exists, get?_eq_some_iff,
    keys, List.mem_map]
  exact ⟨fun ⟨a, h⟩ => ⟨(k, a), h, rfl⟩, fun ⟨⟨j, a⟩, h, hk⟩ => ⟨a, hk ▸ h⟩⟩

/-- Tables that answer every look-up alike are equal. -/
theorem ext_get? {s t : Table κ α} (h : ∀ k, s.get? k = t.get? k) : s = t := by
  obtain ⟨es, hs⟩ := s
  obtain ⟨ds, ht⟩ := t
  suffices heq : es = ds by subst heq; rfl
  change ∀ k, lookup k es = lookup k ds at h
  induction es generalizing ds with
  | nil =>
    cases ds with
    | nil => rfl
    | cons d rest => simpa [lookup] using h d.1
  | cons e es ih =>
    cases ds with
    | nil => simpa [lookup] using h e.1
    | cons d ds =>
      obtain ⟨j, a⟩ := e
      obtain ⟨k, b⟩ := d
      obtain ⟨he, hes⟩ := List.pairwise_cons.1 hs
      obtain ⟨hd, hds⟩ := List.pairwise_cons.1 ht
      have hjk : j = k := by
        refine rank_inj.1 (Nat.le_antisymm ?_ ?_)
        · refine Nat.le_of_not_lt fun hlt => ?_
          have hk := h k
          rw [lookup_eq_none_of_lt (k := k) fun x hx => ?_] at hk
          · simp [lookup] at hk
          · rcases List.mem_cons.1 hx with rfl | hx
            · exact hlt
            · exact Nat.lt_trans hlt (he x hx)
        · refine Nat.le_of_not_lt fun hlt => ?_
          have hj := h j
          rw [eq_comm, lookup_eq_none_of_lt (k := j) fun x hx => ?_] at hj
          · simp [lookup] at hj
          · rcases List.mem_cons.1 hx with rfl | hx
            · exact hlt
            · exact Nat.lt_trans hlt (hd x hx)
      subst hjk
      have hab : a = b := by simpa [lookup] using h j
      subst hab
      congr 1
      apply ih hes ds hds
      intro k
      by_cases hk : j = k
      · subst hk
        rw [lookup_eq_none_of_lt he, lookup_eq_none_of_lt hd]
      · simpa [lookup, hk] using h k

end Table

end OnMesh
