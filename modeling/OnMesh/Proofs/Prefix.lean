import OnMesh.Prefix.Text
import OnMesh.Proofs.Address

/-!
# Prefixes that are read back

The text of a prefix is read back as that prefix, so that it tells
the prefix from all others, and a text that is read and written again
does not change any more.
-/

namespace OnMesh.Prefix

/-- A text once it has been read as a prefix and written. -/
def rewritten (s : String) : Except Fault String := (parse s).map text

/-- A text of an address and a length, with a slash in between, is read as
the prefix of both. -/
theorem parse_ofList {address length : List Char} {a : Address} {n : Nat}
    (hslash : '/' ∉ address) (haddress : Address.ofChars? address = some a)
    (hlength : Digits.byte? length = some n) :
    parse (String.ofList (address ++ '/' :: length)) = make a n := by
  have hcs : ∀ c ∈ address, (c != '/') = true := by
    intro c hc
    rw [bne_iff_ne]
    rintro rfl
    exact hslash hc
  have hstop : ∀ c ∈ ('/' :: length).head?, (c != '/') = false := by
    intro c hc
    cases hc
    decide
  obtain ⟨htake, hdrop⟩ := Address.span_append hcs hstop
  rw [parse, String.toList_ofList, htake, hdrop]
  simp only [haddress, hlength]

/-- A prefix is read back as it was written. -/
theorem parse_text (p : Prefix) : parse p.text = .ok p := by
  have hlength : Digits.byte? (Digits.decimal p.length) = some p.length :=
    Digits.byte?_decimal (Nat.le_trans p.length_le (by decide))
  have hmake : make p.network p.length = .ok p := by
    rw [make, dif_pos p.length_le, ofAddress_network]
  exact (parse_ofList p.network.slash_not_mem_chars p.network.ofChars?_chars
    hlength).trans hmake

/-- Every prefix is read back from its text; so no two prefixes have one text,
and reading and writing a text twice is reading and writing it once. -/
theorem text_faithful :
    (∀ p : Prefix, parse p.text = .ok p) ∧
      (∀ p q : Prefix, p.text = q.text → p = q) ∧
      ∀ s t, rewritten s = .ok t → rewritten t = .ok t := by
  refine ⟨parse_text, fun p q htext => ?_, fun s t hs => ?_⟩
  · have hread : (.ok p : Except Fault Prefix) = .ok q := by
      rw [← parse_text p, htext, parse_text q]
    exact Except.ok.inj hread
  · rw [rewritten] at hs
    cases hparse : parse s with
    | error fault =>
        rw [hparse] at hs
        cases hs
    | ok p =>
        rw [hparse] at hs
        obtain rfl : p.text = t := Except.ok.inj hs
        rw [rewritten, parse_text]
        rfl

/-- Upper case, zeros in front and bits past the length go with
the first rewriting. -/
example :
    (rewritten "2001:DB8:0:0::0A5/+060").toOption = some "2001:db8::/60" := by
  decide +kernel

end OnMesh.Prefix
