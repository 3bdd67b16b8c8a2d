import OnMesh.Bytes
import OnMesh.Fault

/-!
# Reading bytes

A reader takes bytes from the front of a byte string.  Taking more bytes than
there are is a stop of its own, `Stop.overrun`: readers of well-designed
formats first ask whether enough bytes are left (`need`), and are then never
stopped by an overrun.
-/

namespace OnMesh.Wire

/-- Why reading stopped. -/
inductive Stop where
  /-- The bytes were looked at and refused. -/
  | refused (fault : Fault)
  /-- More bytes were taken than were left. -/
  | overrun (wanted left : Nat)
deriving DecidableEq

def Stop.fault : Stop → Fault
  | refused fault => fault
  | overrun wanted left => .tooShort wanted left

/-- A computation that consumes a byte string from the front. -/
abbrev Reader := StateT (List UInt8) (Except Stop)

namespace Reader

/-- The first `count` bytes and the bytes behind them, if there are that
many. -/
def split? : Nat → List UInt8 → Option (List UInt8 × List UInt8)
  | 0, bs => some ([], bs)
  | _ + 1, [] => none
  | count + 1, b :: bs => (split? count bs).map fun s => (b :: s.1, s.2)

/-- Exactly the front of the stated length is split off. -/
theorem split?_eq_some_iff {count : Nat} {bs front rest : List UInt8} :
    split? count bs = some (front, rest) ↔
    bs = front ++ rest ∧ front.length = count := by
  induction count generalizing bs front with
  | zero =>
    simp only [split?, Option.some.injEq, Prod.mk.injEq,
      List.length_eq_zero_iff]
    constructor
    · rintro ⟨rfl, rfl⟩
      exact ⟨rfl, rfl⟩
    · rintro ⟨rfl, rfl⟩
      exact ⟨rfl, rfl⟩
  | succ count ih =>
    cases bs with
    | nil =>
      simp only [split?, reduceCtorEq, false_iff, not_and]
      intro h
      obtain ⟨rfl, _⟩ := List.append_eq_nil_iff.1 h.symm
      simp
    | cons b bs =>
      simp only [split?, Option.map_eq_some_iff, Prod.exists, Prod.mk.injEq]
      constructor
      · rintro ⟨front, rest, h, rfl, rfl⟩
        obtain ⟨rfl, rfl⟩ := ih.1 h
        exact ⟨rfl, rfl⟩
      · rintro ⟨h, hlen⟩
        cases front with
        | nil => simp at hlen
        | cons c front =>
          obtain ⟨rfl, rfl⟩ := List.cons_eq_cons.1 h
          exact ⟨front, rest, ih.2 ⟨rfl, by simpa using hlen⟩, rfl, rfl⟩

def bytes (count : Nat) : Reader (List UInt8) := fun bs =>
  match split? count bs with
  | some s => .ok s
  | none => .error (.overrun count bs.length)

/-- Take a number of so many bytes, least significant first. -/
def number (width : Nat) : Reader Nat := do return Bytes.ofBytes (← bytes width)

def refuse {α : Type} (fault : Fault) : Reader α :=
  fun _ => .error (.refused fault)

def remaining : Reader Nat := fun bs => .ok (bs.length, bs)

/-- Refuse to go on with fewer bytes than this left. -/
def need (count : Nat) : Reader Unit := fun bs =>
  if bs.length < count then .error (.refused (.tooShort count bs.length))
  else .ok ((), bs)

def items {α : Type} (item : Reader α) (count : Nat) : Reader (List α) :=
  (List.replicate count item).mapM id

/-- Take items behind their count in two bytes, once all of them
are known to be there. -/
def counted {α : Type} (size : Nat) (item : Reader α) : Reader (List α) := do
  need 2
  let count ← number 2
  need (count * size)
  items item count

def read {α : Type} (r : Reader α) (bs : List UInt8) :
    Except Fault (α × List UInt8) :=
  match r bs with
  | .ok result => .ok result
  | .error stop => .error stop.fault

end Reader

end OnMesh.Wire
