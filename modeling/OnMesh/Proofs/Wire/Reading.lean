import OnMesh.Wire.Message
import Mathlib.Logic.Basic

/-!
# Which byte strings a reader takes

`Reads` says that a reader takes a value off the front of a byte string and
leaves the rest.  Every basic reader has a law that says of all byte strings
whether it does, and the laws compose along the layout.  A reader that
`Recognizes` a way of writing takes off exactly what is written that way; lists
behind a count are recognized if their items are.  A way of writing that
`Delimits` shows where each thing ends, so nothing that is written can be taken
for another thing or for the beginning of one.
-/

namespace OnMesh.Wire

variable {α β σ : Type} {bs rest : List UInt8}

/-- The reader takes a value off the front of a byte string and leaves the
rest. -/
def Reads (r : Reader α) (bs : List UInt8) (a : α) (rest : List UInt8) : Prop :=
  r bs = .ok (a, rest)

/-- A reader that is refused stays refused, whatever would have come next. -/
theorem bind_refused {r : Reader α} {k : α → Reader β} {s : Stop}
    (hr : r bs = .error s) : (r >>= k) bs = .error s := by
  show (r bs >>= fun s => k s.1 s.2) = _
  rw [hr]
  rfl

theorem bind_of_reads {r : Reader α} {k : α → Reader β} {mid : List UInt8}
    {a : α} (hr : Reads r bs a mid) : (r >>= k) bs = k a mid := by
  show (r bs >>= fun s => k s.1 s.2) = _
  rw [show r bs = .ok (a, mid) from hr]
  rfl

/-- What two readers take one after the other. -/
theorem reads_bind_iff {r : Reader α} {k : α → Reader β} {b : β} :
    Reads (r >>= k) bs b rest ↔
    ∃ a mid, Reads r bs a mid ∧ Reads (k a) mid b rest := by
  constructor
  · intro h
    cases hr : r bs with
    | error stop =>
        rw [Reads, bind_refused hr] at h
        cases h
    | ok taken =>
        rw [Reads, bind_of_reads hr] at h
        exact ⟨taken.1, taken.2, hr, h⟩
  · rintro ⟨a, mid, hr, hk⟩
    rw [Reads, bind_of_reads hr]
    exact hk

theorem reads_pure_iff {a b : α} :
    Reads (pure a) bs b rest ↔ a = b ∧ bs = rest := by
  show Except.ok (a, bs) = Except.ok (b, rest) ↔ _
  rw [Except.ok.injEq, Prod.mk.injEq]

theorem not_reads_refuse {fault : Fault} {a : α} :
    ¬ Reads (Reader.refuse fault) bs a rest := by
  intro h
  cases h

/-- A reader behind a check takes nothing where the check fails. -/
theorem reads_guard_iff {c : Prop} [Decidable c] {fault : Fault}
    {k : β → Reader α} {r : Reader α} {a : α} :
    Reads (if c then Reader.refuse fault >>= k else r) bs a rest ↔
    ¬ c ∧ Reads r bs a rest := by
  by_cases hc : c
  · rw [if_pos hc, reads_bind_iff]
    refine iff_of_false ?_ fun h => h.1 hc
    rintro ⟨b, mid, h, -⟩
    exact not_reads_refuse h
  · rw [if_neg hc]
    exact (and_iff_right hc).symm

/-! ## Numbers -/

theorem reads_bytes_iff {count : Nat} {front : List UInt8} :
    Reads (Reader.bytes count) bs front rest ↔
    bs = front ++ rest ∧ front.length = count := by
  rw [← Reader.split?_eq_some_iff, Reads, Reader.bytes]
  cases hsplit : Reader.split? count bs with
  | none => simp
  | some s => simp

theorem reads_number_iff (width : Nat) {n : Nat} :
    Reads (Reader.number width) bs n rest ↔
      n < Bytes.capacity width ∧ bs = Bytes.toBytes width n ++ rest := by
  simp only [Reader.number, reads_bind_iff, reads_bytes_iff, reads_pure_iff]
  constructor
  · rintro ⟨front, mid, ⟨rfl, rfl⟩, rfl, rfl⟩
    exact ⟨Bytes.ofBytes_lt front, by rw [Bytes.toBytes_ofBytes]⟩
  · rintro ⟨hlt, rfl⟩
    exact ⟨_, _, ⟨rfl, Bytes.length_toBytes _ _⟩,
      Bytes.ofBytes_toBytes_of_lt hlt, rfl⟩

theorem toBytes_one (b : UInt8) : Bytes.toBytes 1 b.toNat = [b] := by
  rw [Bytes.toBytes, Bytes.toBytes, UInt8.ofNat_toNat]

theorem reads_byte_iff {n : Nat} :
    Reads (Reader.number 1) bs n rest ↔
    ∃ b : UInt8, b.toNat = n ∧ bs = b :: rest := by
  rw [reads_number_iff]
  constructor
  · rintro ⟨hlt, rfl⟩
    have hn : (UInt8.ofNat n).toNat = n := UInt8.toNat_ofNat_of_lt' hlt
    refine ⟨UInt8.ofNat n, hn, ?_⟩
    rw [← hn, toBytes_one, UInt8.ofNat_toNat]
    rfl
  · rintro ⟨b, rfl, rfl⟩
    exact ⟨b.toNat_lt, by rw [toBytes_one]; rfl⟩

theorem reads_need_iff {count : Nat} {u : Unit} :
    Reads (Reader.need count) bs u rest ↔ count ≤ bs.length ∧ bs = rest := by
  rw [Reads, Reader.need]
  split
  · next h => simp [Nat.not_le.2 h]
  · next h => simp [Nat.not_lt.1 h]

theorem reads_remaining_iff {n : Nat} :
    Reads Reader.remaining bs n rest ↔ bs.length = n ∧ bs = rest := by
  rw [Reads, Reader.remaining, Except.ok.injEq, Prod.mk.injEq]

/-! ## Lists -/

/-- The reader takes off exactly what is written in a certain
way, as what it means. -/
def Recognizes (r : Reader α) (write : σ → List UInt8) (value : σ → α) : Prop :=
  ∀ bs a rest, Reads r bs a rest ↔ ∃ s, bs = write s ++ rest ∧ value s = a

/-- At most as many items as a count in two bytes can say. -/
@[ext]
structure Counted (σ : Type) where
  items : List σ
  length_le : items.length ≤ 65535

/-- The bytes of a list: its count in two bytes, then its items. -/
def countedBytes (write : σ → List UInt8) (xs : List σ) : List UInt8 :=
  Bytes.toBytes 2 xs.length ++ xs.flatMap write

theorem length_flatMap_of_forall {write : σ → List UInt8} {size : Nat}
    (h : ∀ s, (write s).length = size) (xs : List σ) :
    (xs.flatMap write).length = xs.length * size := by
  induction xs with
  | nil => simp
  | cons x xs ih =>
      rw [List.flatMap_cons, List.length_append, h, ih, List.length_cons,
        Nat.succ_mul, Nat.add_comm]

theorem length_countedBytes {write : σ → List UInt8} {size : Nat}
    (h : ∀ s, (write s).length = size) (xs : List σ) :
    (countedBytes write xs).length = 2 + xs.length * size := by
  rw [countedBytes, List.length_append, Bytes.length_toBytes,
    length_flatMap_of_forall h]

variable {item : Reader α} {write : σ → List UInt8} {value : σ → α}

theorem Recognizes.reads_iff (h : Recognizes item write value) {a : α} :
    Reads item bs a rest ↔ ∃ s, bs = write s ++ rest ∧ value s = a :=
  h bs a rest

theorem items_succ (item : Reader α) (count : Nat) :
    Reader.items item (count + 1) = do
      let a ← item
      let as ← Reader.items item count
      return a :: as := by
  rw [Reader.items, List.replicate_succ, List.mapM_cons]
  rfl

/-- Items that are recognized one by one are recognized in a row. -/
theorem Recognizes.reads_items_iff (h : Recognizes item write value)
    {count : Nat} {as : List α} :
    Reads (Reader.items item count) bs as rest ↔
      ∃ ss : List σ, ss.length = count ∧ bs = ss.flatMap write ++ rest ∧
      ss.map value = as := by
  induction count generalizing bs as rest with
  | zero =>
      have hnone : Reads (Reader.items item 0) bs as rest ↔
          [] = as ∧ bs = rest := reads_pure_iff
      rw [hnone]
      constructor
      · rintro ⟨rfl, rfl⟩
        exact ⟨[], rfl, rfl, rfl⟩
      · rintro ⟨ss, hlength, rfl, rfl⟩
        rw [List.length_eq_zero_iff.1 hlength]
        exact ⟨rfl, rfl⟩
  | succ count ih =>
      simp only [items_succ, reads_bind_iff, h.reads_iff, ih, reads_pure_iff]
      constructor
      · rintro ⟨a, mid, ⟨s, rfl, rfl⟩, as, mid', ⟨ss, rfl, rfl, rfl⟩, rfl, rfl⟩
        refine ⟨s :: ss, rfl, ?_, rfl⟩
        rw [List.flatMap_cons, List.append_assoc]
      · rintro ⟨ss, hlength, rfl, rfl⟩
        obtain ⟨s, ss, rfl⟩ := List.exists_cons_of_length_eq_add_one hlength
        refine ⟨value s, ss.flatMap write ++ rest, ⟨s, ?_, rfl⟩, ss.map value,
          rest, ⟨ss, Nat.succ.inj hlength, rfl, rfl⟩, rfl, rfl⟩
        rw [List.flatMap_cons, List.append_assoc]

/-- The size that is asked for before the items are taken is the one that they
have, so nothing that is written this way is refused. -/
theorem Recognizes.counted (h : Recognizes item write value) {size : Nat}
    (hsize : ∀ s, (write s).length = size) :
    Recognizes (Reader.counted size item)
      (fun c : Counted σ => countedBytes write c.items)
      (fun c => c.items.map value) := by
  intro bs as rest
  simp only [Reader.counted, reads_bind_iff, reads_need_iff, reads_number_iff,
    h.reads_items_iff]
  constructor
  · rintro ⟨-, mid, ⟨-, rfl⟩, count, mid', ⟨hlt, rfl⟩, -, mid'', ⟨-, rfl⟩,
      ss, rfl, rfl, rfl⟩
    refine ⟨⟨ss, Nat.le_of_lt_succ hlt⟩, ?_, rfl⟩
    rw [countedBytes, List.append_assoc]
  · rintro ⟨⟨ss, hle⟩, rfl, rfl⟩
    have hbytes : (countedBytes write ss).length = 2 + ss.length * size :=
      length_countedBytes hsize ss
    have hitems : (ss.flatMap write).length = ss.length * size :=
      length_flatMap_of_forall hsize ss
    refine ⟨(), _, ⟨?_, rfl⟩, ss.length, ss.flatMap write ++ rest,
      ⟨Nat.lt_succ_of_le hle, ?_⟩, (), _, ⟨?_, rfl⟩, ss, rfl, rfl, rfl⟩
    · show 2 ≤ (countedBytes write ss ++ rest).length
      rw [List.length_append]
      omega
    · rw [countedBytes, List.append_assoc]
    · rw [List.length_append]
      omega

/-! ## No doubt about what is written -/

/-- Where one thing ends and what it is can be told from the
bytes, whatever follows. -/
def Delimits (write : σ → List UInt8) : Prop :=
  ∀ s s' rest rest', write s ++ rest = write s' ++ rest' → s = s' ∧ rest = rest'

/-- Things that all take the same number of bytes need no mark at their end. -/
theorem delimits_of_length {size : Nat} (hsize : ∀ s, (write s).length = size)
    (hinjective : ∀ s s', write s = write s' → s = s') : Delimits write := by
  intro s s' rest rest' h
  have hlength : (write s).length = (write s').length :=
    (hsize s).trans (hsize s').symm
  obtain ⟨hwrite, hrest⟩ := List.append_inj h hlength
  exact ⟨hinjective s s' hwrite, hrest⟩

theorem Delimits.injective (h : Delimits write) {s s' : σ}
    (heq : write s = write s') : s = s' :=
  (h s s' [] [] (congrArg (· ++ []) heq)).1

theorem Delimits.items (h : Delimits write) {ss ss' : List σ}
    (hcount : ss.length = ss'.length)
    (heq : ss.flatMap write ++ rest = ss'.flatMap write ++ bs) :
    ss = ss' ∧ rest = bs := by
  induction ss generalizing ss' with
  | nil =>
      rw [List.eq_nil_of_length_eq_zero hcount.symm] at heq ⊢
      exact ⟨rfl, heq⟩
  | cons s ss ih =>
      obtain ⟨s', ss', rfl⟩ := List.exists_cons_of_length_eq_add_one hcount.symm
      rw [List.flatMap_cons, List.flatMap_cons, List.append_assoc,
        List.append_assoc] at heq
      obtain ⟨hs, hrest⟩ := h _ _ _ _ heq
      obtain ⟨hss, hrest⟩ := ih (Nat.succ.inj hcount) hrest
      exact ⟨by rw [hs, hss], hrest⟩

theorem toBytes_inj (width : Nat) {m n : Nat} (hm : m < Bytes.capacity width)
    (hn : n < Bytes.capacity width)
    (h : Bytes.toBytes width m = Bytes.toBytes width n) : m = n := by
  rw [← Bytes.ofBytes_toBytes_of_lt hm, h, Bytes.ofBytes_toBytes_of_lt hn]

/-- The count says how many items there are, and the items
delimit themselves. -/
theorem Delimits.counted (h : Delimits write) :
    Delimits fun c : Counted σ => countedBytes write c.items := by
  rintro ⟨ss, hss⟩ ⟨ss', hss'⟩ rest rest' heq
  simp only [countedBytes, List.append_assoc] at heq
  obtain ⟨hcount, hitems⟩ := List.append_inj heq (by simp)
  have hlength : ss.length = ss'.length :=
    toBytes_inj 2 (Nat.lt_succ_of_le hss) (Nat.lt_succ_of_le hss') hcount
  obtain ⟨rfl, hrest⟩ := h.items hlength hitems
  exact ⟨rfl, hrest⟩

end OnMesh.Wire
