import OnMesh.Text.Digits

/-!
# Little-endian bytes

A natural number is laid out in a fixed number of bytes, least significant byte
first.  Reading the bytes back gives the number modulo the width
(`ofBytes_toBytes`), and every byte string is the layout of the number it stands
for (`toBytes_ofBytes`).
-/

namespace OnMesh.Bytes

/-- The lowest `width` bytes of `n`, least significant first. -/
def toBytes : Nat → Nat → List UInt8
  | 0, _ => []
  | width + 1, n => UInt8.ofNat n :: toBytes width (n / 256)

/-- The number that a byte string stands for. -/
def ofBytes : List UInt8 → Nat
  | [] => 0
  | b :: bs => b.toNat + 256 * ofBytes bs

def capacity : Nat → Nat
  | 0 => 1
  | width + 1 => 256 * capacity width

@[simp]
theorem length_toBytes (width n : Nat) : (toBytes width n).length = width := by
  induction width generalizing n with
  | zero => rfl
  | succ width ih => simp [toBytes, ih]

theorem ofBytes_toBytes (width n : Nat) :
    ofBytes (toBytes width n) = n % capacity width := by
  induction width generalizing n with
  | zero => simp [toBytes, ofBytes, capacity, Nat.mod_one]
  | succ width ih =>
    have hb : (UInt8.ofNat n).toNat = n % 256 := by simp
    rw [toBytes, ofBytes, ih, hb, capacity, Nat.mod_mul]

theorem ofBytes_toBytes_of_lt {width n : Nat} (h : n < capacity width) :
    ofBytes (toBytes width n) = n := by
  rw [ofBytes_toBytes, Nat.mod_eq_of_lt h]

theorem ofBytes_lt (bs : List UInt8) : ofBytes bs < capacity bs.length := by
  induction bs with
  | nil => exact Nat.zero_lt_one
  | cons b bs ih =>
    have hb : b.toNat < 256 := b.toNat_lt
    rw [ofBytes, List.length_cons, capacity]
    omega

theorem toBytes_ofBytes (bs : List UInt8) :
    toBytes bs.length (ofBytes bs) = bs := by
  induction bs with
  | nil => rfl
  | cons b bs ih =>
    have hb : b.toNat < 256 := b.toNat_lt
    have hlow : UInt8.ofNat (b.toNat + 256 * ofBytes bs) = b := by
      apply UInt8.toNat_inj.1
      simp only [UInt8.toNat_ofNat']
      omega
    have hhigh : (b.toNat + 256 * ofBytes bs) / 256 = ofBytes bs := by omega
    rw [List.length_cons, ofBytes, toBytes, hlow, hhigh, ih]

/-! ## Hexadecimal text -/

def hex (bs : List UInt8) : String :=
  String.ofList (bs.flatMap fun b => Digits.hexFixed 2 b.toNat)

/-- The bytes of pairs of hexadecimal digits; a last single digit is left
out. -/
def ofHexChars : List Char → List UInt8
  | high :: low :: rest =>
    UInt8.ofNat (Digits.number 16 [high, low]) :: ofHexChars rest
  | _ => []

/-- The bytes of a text of pairs of hexadecimal digits. -/
def ofHex (s : String) : List UInt8 := ofHexChars s.toList

end OnMesh.Bytes
