import OnMesh.Address.Text
import OnMesh.Proofs.Digits

/-!
# Addresses that are read back

A row of groups is read as it was written: each group up to the colon behind it,
and the row up to the end of the text or to a double colon.  The double colon
stands for as many zeros as are missing, and those are the ones that were left
out, since what was left out is a run of zeros.
-/

namespace OnMesh.Address

open Digits (isHex isDecimal hex decimal)

variable {g high low places : Nat} {gs front back : List Nat}
  {cs rest : List Char} {first : Bool}

/-! ## Items and separators -/

def led (separator : Char) (items : List (List Char)) : List Char :=
  items.flatMap fun item => separator :: item

theorem led_cons (separator : Char) (item : List Char)
    (items : List (List Char)) :
    led separator (item :: items) =
      separator :: (item ++ led separator items) :=
  rfl

theorem intercalate_cons (separator : Char) (item : List Char)
    (items : List (List Char)) :
    [separator].intercalate (item :: items) = item ++ led separator items := by
  induction items generalizing item with
  | nil => exact List.intercalate_singleton.trans (List.append_nil item).symm
  | cons next items ih =>
      rw [List.intercalate_cons_cons, ih, led_cons, List.append_assoc]
      rfl

theorem joinGroups_cons (g : Nat) (gs : List Nat) :
    joinGroups (g :: gs) = hex g ++ led ':' (gs.map hex) := by
  rw [joinGroups, List.map_cons, intercalate_cons]

/-- Digits are read up to the first character that is none. -/
theorem span_append {p : Char → Bool} (hcs : ∀ c ∈ cs, p c = true)
    (hrest : ∀ c ∈ rest.head?, p c = false) :
    (cs ++ rest).takeWhile p = cs ∧ (cs ++ rest).dropWhile p = rest := by
  rw [List.takeWhile_append_of_pos hcs, List.dropWhile_append_of_pos hcs]
  cases rest with
  | nil => exact ⟨List.append_nil cs, rfl⟩
  | cons c rest =>
      have hc : ¬ p c = true := Bool.eq_false_iff.1 (hrest c rfl)
      rw [List.takeWhile_cons_of_neg hc, List.dropWhile_cons_of_neg hc]
      exact ⟨List.append_nil cs, rfl⟩

/-- The text ends, or goes on with a colon. -/
def Parted (cs : List Char) : Prop := ∀ c ∈ cs.head?, c = ':'

theorem parted_nil : Parted [] := fun _ h => (by cases h)

theorem parted_cons (cs : List Char) : Parted (':' :: cs) :=
  fun _ h => (Option.some.inj h).symm

theorem parted_led_append (items : List (List Char)) (h : Parted rest) :
    Parted (led ':' items ++ rest) := by
  cases items with
  | nil => exact h
  | cons item items => exact parted_cons _

/-! ## Dotted quads -/

theorem readOctet?_decimal {n : Nat} (hn : n < 256)
    (hrest : ∀ c ∈ rest.head?, isDecimal c = false) :
    readOctet? (decimal n ++ rest) = some (n, rest) := by
  obtain ⟨htake, hdrop⟩ := span_append (Digits.isDecimal_of_mem_decimal n) hrest
  have hpos : (decimal n).length ≠ 0 := Nat.ne_of_gt Nat.length_toDigits_pos
  have hlength : (decimal n).length ≤ 3 :=
    (Nat.length_toDigits_le_iff (by decide) (by decide)).2 (by omega)
  have hzero : ¬ (1 < (decimal n).length ∧ (decimal n).head? = some '0') :=
    fun h => Digits.head?_decimal_ne_zero h.1 h.2
  have hrange : ¬ ((decimal n).length = 0 ∨ 3 < (decimal n).length ∨
      255 < n) := by omega
  simp only [readOctet?, htake, hdrop, Digits.number_decimal,
    if_neg hrange, if_neg hzero]

theorem readOctets?_led (os : List Nat) (hos : ∀ o ∈ os, o < 256) :
    readOctets? os.length false (led '.' (os.map decimal)) = some (os, []) := by
  induction os with
  | nil => rfl
  | cons o os ih =>
      obtain ⟨ho, hos⟩ := List.forall_mem_cons.1 hos
      have hrest : ∀ c ∈ (led '.' (os.map decimal)).head?,
          isDecimal c = false := by
        cases os with
        | nil => exact fun c hc => (by cases hc)
        | cons o os =>
            intro c hc
            cases hc
            decide
      rw [List.length_cons, readOctets?, List.map_cons, led_cons]
      simp only [separated, Bool.false_eq_true, if_false, if_true,
        Option.bind_eq_bind, Option.bind_some,
        readOctet?_decimal ho hrest, ih hos]

/-- Two groups that are written as a dotted quad are read back. -/
theorem readDotted?_dottedText (hhigh : high < 65536) (hlow : low < 65536) :
    readDotted? (dottedText high low) = some ((high, low), []) := by
  have hos : ∀ o ∈ [high % 256, low / 256, low % 256], o < 256 := by
    simp only [List.forall_mem_cons, List.not_mem_nil, false_implies,
      implies_true, and_true]
    omega
  have hrest := readOctets?_led _ hos
  have hfirst : readOctet? (decimal (high / 256) ++
      led '.' ([high % 256, low / 256, low % 256].map decimal)) =
        some (high / 256,
          led '.' ([high % 256, low / 256, low % 256].map decimal)) :=
    readOctet?_decimal (by omega) (fun c hc => by cases hc; decide)
  rw [readDotted?, dottedText, List.map_cons, intercalate_cons, readOctets?]
  simp only [separated, if_true, Option.bind_eq_bind, Option.bind_some, hfirst]
  rw [List.length_cons, List.length_cons, List.length_singleton] at hrest
  rw [hrest]
  simp only [Option.bind_some, Nat.div_add_mod']

/-- A number that no dot follows begins no dotted quad. -/
theorem readDotted?_eq_none
    (h : ∀ c ∈ (cs.dropWhile isDecimal).head?, c ≠ '.') :
    readDotted? cs = none := by
  have hnext : readOctets? 3 false (cs.dropWhile isDecimal) = none := by
    rw [readOctets?]
    cases hcs : cs.dropWhile isDecimal with
    | nil => rfl
    | cons c rest =>
        have hc : c ≠ '.' := h c (by rw [hcs]; rfl)
        simp only [separated, Bool.false_eq_true, if_false, if_neg hc,
          Option.bind_eq_bind, Option.bind_none]
  -- If there is a number at all, the next one is missed.
  have hread : readOctets? 4 true cs = none := by
    rw [readOctets?]
    simp only [separated, if_true, Option.bind_eq_bind, Option.bind_some]
    cases hoctet : readOctet? cs with
    | none => rfl
    | some octet =>
        have hrest : octet.2 = cs.dropWhile isDecimal := by
          rw [readOctet?] at hoctet
          split at hoctet
          · cases hoctet
          · split at hoctet
            · cases hoctet
            · rw [← Option.some.inj hoctet]
        simp only [Option.bind_some, hrest, hnext, Option.bind_none]
  rw [readDotted?, hread]

/-- Behind the decimal digits that a group may begin with there is no dot. -/
theorem ne_dot_of_head_dropWhile (hcs : ∀ c ∈ cs, isHex c = true)
    (hrest : Parted rest) :
    ∀ c ∈ ((cs ++ rest).dropWhile isDecimal).head?, c ≠ '.' := by
  induction cs with
  | nil =>
      intro c hc
      cases rest with
      | nil => cases hc
      | cons d rest =>
          obtain rfl : d = ':' := hrest d rfl
          rw [List.nil_append, List.dropWhile_cons_of_neg (by decide)] at hc
          cases hc
          decide
  | cons d ds ih =>
      obtain ⟨hd, hds⟩ := List.forall_mem_cons.1 hcs
      by_cases hdecimal : isDecimal d = true
      · rw [List.cons_append, List.dropWhile_cons_of_pos hdecimal]
        exact ih hds
      · rw [List.cons_append, List.dropWhile_cons_of_neg hdecimal]
        rintro c hc rfl
        cases hc
        exact absurd hd (by decide)

/-- A group is no dotted quad. -/
theorem readDotted?_hex (hrest : Parted rest) :
    readDotted? (hex g ++ rest) = none :=
  readDotted?_eq_none
    (ne_dot_of_head_dropWhile (Digits.isHex_of_mem_hex g) hrest)

/-! ## Rows of groups -/

theorem readGroup?_hex (hg : g < 65536) (hrest : Parted rest) :
    readGroup? (hex g ++ rest) = some (g, rest) := by
  have hstop : ∀ c ∈ rest.head?, isHex c = false := by
    intro c hc
    rw [hrest c hc]
    decide
  obtain ⟨htake, hdrop⟩ := span_append (Digits.isHex_of_mem_hex g) hstop
  have hpos : (hex g).length ≠ 0 := Nat.ne_of_gt Nat.length_toDigits_pos
  have hlength : (hex g).length ≤ 4 :=
    (Nat.length_toDigits_le_iff (by decide) (by decide)).2 hg
  have hrange : ¬ ((hex g).length = 0 ∨ 4 < (hex g).length) := by omega
  simp only [readGroup?, htake, hdrop, Digits.number_hex, if_neg hrange]

/-- A group is read, and then the row behind it. -/
theorem readRow_group (hg : g < 65536)
    (hbody : separated ':' first cs = some (hex g ++ rest))
    (hrest : Parted rest) :
    readRow (places + 1) first cs = ⟨g :: (readRow places false rest).groups,
      (readRow places false rest).dotted,
      (readRow places false rest).rest⟩ := by
  have hdotted :
      (if places = 0 then none else readDotted? (hex g ++ rest)) = none := by
    rw [readDotted?_hex hrest, ite_self]
  rw [readRow, hbody]
  simp only [hdotted, readGroup?_hex hg hrest]

/-- Nothing is read where the text ends, or where a double colon stands. -/
inductive Ended : List Char → Prop
  | done : Ended []
  | gap (rest : List Char) : Ended (':' :: ':' :: rest)

theorem Ended.parted (h : Ended cs) : Parted cs := by
  cases h with
  | done => exact parted_nil
  | gap rest => exact parted_cons _

/-- A row of groups is empty where no digit follows. -/
theorem readRow_of_not_digit {body : List Char}
    (hbody : separated ':' first cs = some body)
    (h : ∀ c ∈ body.head?, isHex c = false ∧ isDecimal c = false ∧ c ≠ '.') :
    readRow places first cs = ⟨[], false, cs⟩ := by
  cases places with
  | zero => rfl
  | succ places =>
      have hdropped : body.dropWhile isDecimal = body ∧
          body.takeWhile isHex = [] := by
        cases body with
        | nil => exact ⟨rfl, rfl⟩
        | cons c body =>
            obtain ⟨hhex, hdecimal, -⟩ := h c rfl
            exact ⟨List.dropWhile_cons_of_neg (Bool.eq_false_iff.1 hdecimal),
              List.takeWhile_cons_of_neg (Bool.eq_false_iff.1 hhex)⟩
      have hdotted :
          (if places = 0 then none else readDotted? body) = none := by
        rw [readDotted?_eq_none
          (by rw [hdropped.1]; exact fun c hc => (h c hc).2.2), ite_self]
      have hgroup : readGroup? body = none := by
        rw [readGroup?, hdropped.2]
        rfl
      rw [readRow, hbody]
      simp only [hdotted, hgroup]

theorem readRow_ended (h : Ended cs) :
    readRow places first cs = ⟨[], false, cs⟩ := by
  have hcolon : isHex ':' = false ∧ isDecimal ':' = false ∧
      ':' ≠ '.' := by decide
  cases first with
  | true =>
      refine readRow_of_not_digit rfl ?_
      intro c hc
      rw [h.parted c hc]
      exact hcolon
  | false =>
      cases h with
      | done => cases places <;> rfl
      | gap rest =>
          have hbody : separated ':' false (':' :: ':' :: rest) =
              some (':' :: rest) := rfl
          refine readRow_of_not_digit hbody ?_
          rintro c hc
          cases hc
          exact hcolon

theorem readRow_led (hlength : gs.length ≤ places) (hgs : ∀ g ∈ gs, g < 65536)
    (hrest : Ended rest) :
    readRow places false (led ':' (gs.map hex) ++ rest) =
      ⟨gs, false, rest⟩ := by
  induction gs generalizing places with
  | nil => exact readRow_ended hrest
  | cons g gs ih =>
      obtain ⟨hg, hgs⟩ := List.forall_mem_cons.1 hgs
      obtain ⟨places, rfl⟩ :=
        Nat.exists_eq_add_one.2 (Nat.lt_of_lt_of_le (Nat.succ_pos _) hlength)
      have hbody : separated ':' false (led ':' ((g :: gs).map hex) ++ rest) =
          some (hex g ++ (led ':' (gs.map hex) ++ rest)) := by
        rw [List.map_cons, led_cons, List.cons_append, List.append_assoc]
        rfl
      rw [readRow_group hg hbody (parted_led_append _ hrest.parted),
        ih (Nat.le_of_succ_le_succ hlength) hgs]

/-- A row of groups is read as it was written. -/
theorem readRow_joinGroups (hlength : gs.length ≤ places)
    (hgs : ∀ g ∈ gs, g < 65536) (hrest : Ended rest) :
    readRow places true (joinGroups gs ++ rest) = ⟨gs, false, rest⟩ := by
  cases gs with
  | nil => exact readRow_ended hrest
  | cons g gs =>
      obtain ⟨hg, hgs⟩ := List.forall_mem_cons.1 hgs
      obtain ⟨places, rfl⟩ :=
        Nat.exists_eq_add_one.2 (Nat.lt_of_lt_of_le (Nat.succ_pos _) hlength)
      have hbody : separated ':' true (joinGroups (g :: gs) ++ rest) =
          some (hex g ++ (led ':' (gs.map hex) ++ rest)) := by
        rw [joinGroups_cons, List.append_assoc]
        rfl
      rw [readRow_group hg hbody (parted_led_append _ hrest.parted),
        readRow_led (Nat.le_of_succ_le_succ hlength) hgs hrest]

theorem readRow_joinGroups_whole (hlength : gs.length ≤ places)
    (hgs : ∀ g ∈ gs, g < 65536) :
    readRow places true (joinGroups gs) = ⟨gs, false, []⟩ := by
  rw [← List.append_nil (joinGroups gs)]
  exact readRow_joinGroups hlength hgs Ended.done

/-! ## Runs of zeros -/

/-- What is left out is a run of zeros. -/
theorem longestZeroRun_spec (place : Nat) (gs : List Nat) :
    ∃ before after,
      gs = before ++ List.replicate (longestZeroRun place gs).length 0 ++
        after ∧
      (longestZeroRun place gs).start = place + before.length := by
  induction gs generalizing place with
  | nil => exact ⟨[], [], rfl, rfl⟩
  | cons g gs ih =>
      rw [longestZeroRun]
      split
      · refine ⟨[], (g :: gs).dropWhile (· == 0), ?_, rfl⟩
        have hzeros : (g :: gs).takeWhile (· == 0) =
            List.replicate (leadingZeros (g :: gs)) 0 := by
          refine List.eq_replicate_iff.2 ⟨rfl, fun z hz => ?_⟩
          have hzero := List.all_eq_true.1 List.all_takeWhile z hz
          exact beq_iff_eq.1 hzero
        rw [List.nil_append, ← hzeros, List.takeWhile_append_dropWhile]
      · obtain ⟨before, after, hsplit, hstart⟩ := ih (place + 1)
        refine ⟨g :: before, after, ?_, ?_⟩
        · exact congrArg (g :: ·) hsplit
        · rw [hstart, List.length_cons]
          omega

/-! ## Whole addresses -/

/-- A double colon stands for the groups that are missing. -/
theorem ofChars?_gap {dotted : Bool} (hlength : front.length + back.length < 8)
    (hfront : ∀ g ∈ front, g < 65536)
    (hback : readRow (7 - front.length) true rest = ⟨back, dotted, []⟩) :
    ofChars? (joinGroups front ++ ':' :: ':' :: rest) =
      some (ofGroups (front ++
        List.replicate (8 - front.length - back.length) 0 ++ back)) := by
  have hrow : readRow 8 true (joinGroups front ++ ':' :: ':' :: rest) =
      ⟨front, false, ':' :: ':' :: rest⟩ :=
    readRow_joinGroups (by omega) hfront (Ended.gap rest)
  have hshort : front.length ≠ 8 := by omega
  rw [ofChars?, hrow]
  simp only [if_neg hshort, Bool.false_eq_true, if_false, hback,
    List.isEmpty_nil, if_true]

theorem ofChars?_joinGroups (hlength : gs.length = 8)
    (hgs : ∀ g ∈ gs, g < 65536) :
    ofChars? (joinGroups gs) = some (ofGroups gs) := by
  rw [ofChars?, readRow_joinGroups_whole (Nat.le_of_eq hlength) hgs]
  simp only [hlength, if_true, List.isEmpty_nil]

/-- What was left out, if it is a run of zeros, is filled in again. -/
theorem ofChars?_elided {run : Nat} (hlength : gs.length = 8)
    (hgs : ∀ g ∈ gs, g < 65536) (hrun : 1 < run)
    (hsplit : gs = front ++ List.replicate run 0 ++ back) :
    ofChars? (joinGroups (gs.take front.length) ++ [':', ':'] ++
      joinGroups (gs.drop (front.length + run))) = some (ofGroups gs) := by
  have htake : gs.take front.length = front := by
    rw [hsplit, List.append_assoc, List.take_left]
  have hdrop : gs.drop (front.length + run) = back := by
    have hskipped : front.length + run =
        (front ++ List.replicate run 0).length := by simp
    rw [hsplit, hskipped, List.drop_left]
  have hsum : front.length + run + back.length = 8 := by
    rw [← hlength, hsplit, List.length_append, List.length_append,
      List.length_replicate]
  have hmem : (∀ g ∈ front, g < 65536) ∧ ∀ g ∈ back, g < 65536 := by
    refine ⟨fun g hg => hgs g ?_, fun g hg => hgs g ?_⟩ <;>
      rw [hsplit] <;> simp [hg]
  have hback : readRow (7 - front.length) true (joinGroups back) =
      ⟨back, false, []⟩ :=
    readRow_joinGroups_whole (by omega) hmem.2
  -- All other groups were read, so that the run is what is missing.
  have hzeros : 8 - front.length - back.length = run := by omega
  rw [htake, hdrop, List.append_assoc]
  exact (ofChars?_gap (by omega) hmem.1 hback).trans (by rw [hzeros, ← hsplit])

/-- A dotted quad behind `ffff` stands for the last two groups. -/
theorem ofChars?_mapped (hhigh : high < 65536) (hlow : low < 65536) :
    ofChars? ("::ffff:".toList ++ dottedText high low) =
      some (ofGroups [0, 0, 0, 0, 0, 0xffff, high, low]) := by
  have hfive : ¬ 5 = 0 := by decide
  have hquad : readRow 6 false (':' :: dottedText high low) =
      ⟨[high, low], true, []⟩ := by
    rw [readRow]
    simp only [separated, Bool.false_eq_true, if_false, if_true, if_neg hfive,
      readDotted?_dottedText hhigh hlow]
  have hback : readRow 7 true (hex 0xffff ++ ':' :: dottedText high low) =
      ⟨[0xffff, high, low], true, []⟩ := by
    rw [readRow_group (by decide) rfl (parted_cons _), hquad]
  have hlength : ([] : List Nat).length + [0xffff, high, low].length < 8 :=
    Nat.le_of_ble_eq_true rfl
  exact ofChars?_gap hlength (fun g hg => (by cases hg)) hback

/-- An address is read back as it was written. -/
theorem ofChars?_chars (a : Address) : ofChars? a.chars = some a := by
  have hgs : ∀ g ∈ a.groups, g < 65536 := fun g hg => lt_of_mem_groups hg
  rw [chars]
  split
  · next high low hgroups =>
      rw [hgroups] at hgs
      rw [ofChars?_mapped (hgs high (by simp)) (hgs low (by simp)), ← hgroups,
        ofGroups_groups]
  · obtain ⟨before, after, hsplit, hstart⟩ := longestZeroRun_spec 0 a.groups
    dsimp only
    split
    · rw [ofChars?_joinGroups a.length_groups hgs, ofGroups_groups]
    · next hlong =>
        have hrun : 1 < (longestZeroRun 0 a.groups).length :=
          Nat.lt_of_not_le hlong
        rw [hstart, Nat.zero_add,
          ofChars?_elided a.length_groups hgs hrun hsplit, ofGroups_groups]

/-! ## The characters of an address -/

theorem not_mem_led {c separator : Char} {items : List (List Char)}
    (hc : c ≠ separator) (hitems : ∀ item ∈ items, c ∉ item) :
    c ∉ led separator items := by
  induction items with
  | nil => exact List.not_mem_nil
  | cons item items ih =>
      obtain ⟨hitem, hitems⟩ := List.forall_mem_cons.1 hitems
      rw [led_cons, List.mem_cons, List.mem_append]
      exact not_or.2 ⟨hc, not_or.2 ⟨hitem, ih hitems⟩⟩

theorem not_mem_intercalate {c separator : Char} {items : List (List Char)}
    (hc : c ≠ separator) (hitems : ∀ item ∈ items, c ∉ item) :
    c ∉ [separator].intercalate items := by
  cases items with
  | nil => exact List.not_mem_nil
  | cons item items =>
      obtain ⟨hitem, hitems⟩ := List.forall_mem_cons.1 hitems
      rw [intercalate_cons, List.mem_append]
      exact not_or.2 ⟨hitem, not_mem_led hc hitems⟩

theorem slash_not_mem_joinGroups (gs : List Nat) : '/' ∉ joinGroups gs := by
  refine not_mem_intercalate (by decide) fun item hitem hslash => ?_
  obtain ⟨g, -, rfl⟩ := List.mem_map.1 hitem
  exact absurd (Digits.isHex_of_mem_hex g '/' hslash) (by decide)

theorem slash_not_mem_dottedText (high low : Nat) :
    '/' ∉ dottedText high low := by
  refine not_mem_intercalate (by decide) fun item hitem hslash => ?_
  obtain ⟨n, -, rfl⟩ := List.mem_map.1 hitem
  exact absurd (Digits.isDecimal_of_mem_decimal n '/' hslash) (by decide)

/-- The slash that a length stands behind is none of the address. -/
theorem slash_not_mem_chars (a : Address) : '/' ∉ a.chars := by
  have hgap : '/' ∉ [':', ':'] := by decide
  have hmapped : '/' ∉ "::ffff:".toList := by decide
  rw [chars]
  split
  · rw [List.mem_append]
    exact not_or.2 ⟨hmapped, slash_not_mem_dottedText _ _⟩
  · dsimp only
    split
    · exact slash_not_mem_joinGroups _
    · rw [List.mem_append, List.mem_append]
      exact not_or.2 ⟨not_or.2 ⟨slash_not_mem_joinGroups _, hgap⟩,
        slash_not_mem_joinGroups _⟩

end OnMesh.Address
