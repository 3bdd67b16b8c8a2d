import OnMesh.Text.Digits

/-!
# Numbers that are read back

A number written in a base of at most sixteen is read back from its digits,
which are all digits of that base, and only the number zero begins with a zero.
-/

namespace OnMesh.Digits

variable {base n d : Nat}

theorem hexValue?_digitChar (h : d < 16) : hexValue? d.digitChar = some d := by
  revert d
  decide

theorem isDecimal_digitChar (h : d < 10) : isDecimal d.digitChar = true := by
  revert d
  decide

theorem number_append_singleton (base : Nat) (cs : List Char) (c : Char) :
    number base (cs ++ [c]) = number base cs * base + (hexValue? c).getD 0 := by
  rw [number, List.foldl_append]
  rfl

/-- What holds of the first digit and is kept by one more digit
holds of all numbers. -/
theorem toDigits_induction {P : Nat → List Char → Prop} (hbase : 1 < base)
    (hdigit : ∀ d < base, P d [d.digitChar])
    (hmore : ∀ n d, 0 < n → d < base → P n (Nat.toDigits base n) →
      P (n * base + d) (Nat.toDigits base n ++ [d.digitChar])) (n : Nat) :
    P n (Nat.toDigits base n) := by
  induction n using Nat.strongRecOn with
  | ind n ih =>
      rcases Nat.lt_or_ge n base with hlt | hge
      · rw [Nat.toDigits_of_lt_base hlt]
        exact hdigit n hlt
      · have hpos : 0 < n / base := Nat.div_pos hge (by omega)
        have hstep := hmore (n / base) (n % base) hpos (Nat.mod_lt n (by omega))
          (ih (n / base) (Nat.div_lt_self (by omega) hbase))
        rwa [Nat.div_add_mod', ← Nat.toDigits_of_base_le hbase hge] at hstep

theorem number_toDigits (hbase : 1 < base) (hle : base ≤ 16) (n : Nat) :
    number base (Nat.toDigits base n) = n := by
  refine toDigits_induction (P := fun n cs => number base cs = n) hbase ?_ ?_ n
  · intro d hd
    rw [number, List.foldl_cons, hexValue?_digitChar (by omega),
      Nat.zero_mul, Nat.zero_add]
    rfl
  · intro n d _ hd hn
    rw [number_append_singleton, hn, hexValue?_digitChar (by omega)]
    rfl

/-- Only digits of the base are written. -/
theorem exists_digitChar_of_mem (hbase : 1 < base) (n : Nat) :
    ∀ c ∈ Nat.toDigits base n, ∃ d < base, c = d.digitChar := by
  refine toDigits_induction
    (P := fun _ cs => ∀ c ∈ cs, ∃ d < base, c = d.digitChar) hbase ?_ ?_ n
  · intro d hd c hc
    exact ⟨d, hd, List.mem_singleton.1 hc⟩
  · intro n d _ hd hn c hc
    rcases List.mem_append.1 hc with hc | hc
    · exact hn c hc
    · exact ⟨d, hd, List.mem_singleton.1 hc⟩

/-- A number other than zero does not begin with a zero. -/
theorem head?_toDigits_ne_zero (hbase : 1 < base) (hn : 0 < n) :
    (Nat.toDigits base n).head? ≠ some '0' := by
  refine toDigits_induction
    (P := fun n cs => 0 < n → cs.head? ≠ some '0') hbase ?_ ?_ n hn
  · intro d _ hd hzero
    have hdigit : d.digitChar = '0' := Option.some.inj hzero
    rw [Nat.digitChar_eq_zero] at hdigit
    omega
  · intro n d hn _ hhead _
    rw [List.head?_append]
    cases hdigits : Nat.toDigits base n with
    | nil => exact absurd hdigits Nat.toDigits_ne_nil
    | cons c cs =>
        rw [hdigits] at hhead
        exact hhead hn

/-! ## Hexadecimal and decimal -/

theorem isHex_of_mem_hex (n : Nat) : ∀ c ∈ hex n, isHex c = true := by
  intro c hc
  obtain ⟨d, hd, rfl⟩ := exists_digitChar_of_mem (by decide) n c hc
  rw [isHex, hexValue?_digitChar hd]
  rfl

theorem isDecimal_of_mem_decimal (n : Nat) :
    ∀ c ∈ decimal n, isDecimal c = true := by
  intro c hc
  obtain ⟨d, hd, rfl⟩ := exists_digitChar_of_mem (by decide) n c hc
  exact isDecimal_digitChar hd

theorem number_hex (n : Nat) : number 16 (hex n) = n :=
  number_toDigits (by decide) (by decide) n

theorem number_decimal (n : Nat) : number 10 (decimal n) = n :=
  number_toDigits (by decide) (by decide) n

/-- A decimal number of more than one digit does not begin with a zero. -/
theorem head?_decimal_ne_zero (h : 1 < (decimal n).length) :
    (decimal n).head? ≠ some '0' := by
  refine head?_toDigits_ne_zero (by decide) (Nat.pos_of_ne_zero ?_)
  rintro rfl
  exact absurd h (by decide)

/-- A number below 256 is read back from its decimal digits. -/
theorem byte?_decimal (h : n ≤ 255) : byte? (decimal n) = some n := by
  have hdigits : ∀ c ∈ decimal n, isDecimal c = true :=
    isDecimal_of_mem_decimal n
  have hall : (decimal n).all isDecimal = true := List.all_eq_true.2 hdigits
  have hempty : (decimal n).isEmpty = false := by
    rw [List.isEmpty_eq_false_iff]
    exact Nat.toDigits_ne_nil
  have hunsigned : ∀ rest, decimal n ≠ '+' :: rest := by
    intro rest hplus
    have hsign := hdigits '+' (by rw [hplus]; exact List.mem_cons_self)
    exact absurd hsign (by decide)
  rw [byte?]
  · simp only [hempty, hall, number_decimal, h, Bool.not_true, Bool.or_self,
      Bool.false_eq_true, if_false, if_true]
  · exact hunsigned

end OnMesh.Digits
