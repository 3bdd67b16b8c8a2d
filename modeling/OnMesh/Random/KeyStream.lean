/-!
# A seeded stream of words

The stream cipher ChaCha with twelve rounds, run on a key that is expanded from
a 64-bit seed.  A stream is its key and the number of words already taken; its
words are those of the blocks 0, 1, 2 and so on.  The state of a block is worked
on as four rows of four words: a round on the columns treats the rows as they
are, a round on the diagonals turns them first.
-/

namespace OnMesh

namespace KeyStream

/-- Four words side by side. -/
structure Row where
  w0 : UInt32
  w1 : UInt32
  w2 : UInt32
  w3 : UInt32
deriving DecidableEq, Inhabited

namespace Row

def zip (f : UInt32 → UInt32 → UInt32) (a b : Row) : Row :=
  ⟨f a.w0 b.w0, f a.w1 b.w1, f a.w2 b.w2, f a.w3 b.w3⟩

def map (f : UInt32 → UInt32) (a : Row) : Row :=
  ⟨f a.w0, f a.w1, f a.w2, f a.w3⟩

def turn (a : Row) : Row := ⟨a.w1, a.w2, a.w3, a.w0⟩

def words (a : Row) : List UInt32 := [a.w0, a.w1, a.w2, a.w3]

end Row

structure Block where
  a : Row
  b : Row
  c : Row
  d : Row
deriving DecidableEq, Inhabited

def rotateLeft (n : UInt32) (x : UInt32) : UInt32 :=
  (x <<< n) ||| (x >>> (32 - n))

def rotateRight (n : UInt32) (x : UInt32) : UInt32 :=
  (x >>> n) ||| (x <<< (32 - n))

namespace Block

def columnRound (s : Block) : Block :=
  let a := Row.zip (· + ·) s.a s.b
  let d := (Row.zip (· ^^^ ·) s.d a).map (rotateLeft 16)
  let c := Row.zip (· + ·) s.c d
  let b := (Row.zip (· ^^^ ·) s.b c).map (rotateLeft 12)
  let a := Row.zip (· + ·) a b
  let d := (Row.zip (· ^^^ ·) d a).map (rotateLeft 8)
  let c := Row.zip (· + ·) c d
  let b := (Row.zip (· ^^^ ·) b c).map (rotateLeft 7)
  ⟨a, b, c, d⟩

/-- Bring the diagonals into the columns. -/
def slant (s : Block) : Block :=
  ⟨s.a, s.b.turn, s.c.turn.turn, s.d.turn.turn.turn⟩

/-- Bring the columns back into the diagonals. -/
def unslant (s : Block) : Block :=
  ⟨s.a, s.b.turn.turn.turn, s.c.turn.turn, s.d.turn⟩

def doubleRound (s : Block) : Block := s.columnRound.slant.columnRound.unslant

def doubleRounds : Nat → Block → Block
  | 0, s => s
  | count + 1, s => doubleRounds count s.doubleRound

def add (s t : Block) : Block :=
  ⟨Row.zip (· + ·) s.a t.a, Row.zip (· + ·) s.b t.b, Row.zip (· + ·) s.c t.c,
    Row.zip (· + ·) s.d t.d⟩

def words (s : Block) : List UInt32 :=
  s.a.words ++ s.b.words ++ s.c.words ++ s.d.words

end Block

structure Key where
  low : Row
  high : Row
deriving DecidableEq, Inhabited

def constants : Row := ⟨0x61707865, 0x3320646e, 0x79622d32, 0x6b206574⟩

def block (key : Key) (index : Nat) : Block :=
  let start : Block := ⟨constants, key.low, key.high,
    ⟨UInt32.ofNat index, UInt32.ofNat (index / UInt32.size), 0, 0⟩⟩
  (start.doubleRounds 6).add start

def seedStep (state : UInt64) : UInt64 :=
  state * 6364136223846793005 + 11634580027462260723

def seedWord (state : UInt64) : UInt32 :=
  rotateRight (state >>> 59).toUInt32
    (((state >>> 18) ^^^ state) >>> 27).toUInt32

/-- The key of a seed: the words of the first eight states after it. -/
def keyOfSeed (seed : UInt64) : Key :=
  let s1 := seedStep seed
  let s2 := seedStep s1
  let s3 := seedStep s2
  let s4 := seedStep s3
  let s5 := seedStep s4
  let s6 := seedStep s5
  let s7 := seedStep s6
  let s8 := seedStep s7
  ⟨⟨seedWord s1, seedWord s2, seedWord s3, seedWord s4⟩,
    ⟨seedWord s5, seedWord s6, seedWord s7, seedWord s8⟩⟩

end KeyStream

/-- A stream of words. -/
structure KeyStream where
  key : KeyStream.Key
  /-- The number of words that were taken. -/
  taken : Nat
deriving DecidableEq, Inhabited

namespace KeyStream

def ofSeed (seed : UInt64) : KeyStream := ⟨keyOfSeed seed, 0⟩

def wordAt (key : Key) (place : Nat) : UInt32 :=
  (block key (place / 16)).words.getD (place % 16) 0

/-- Take two words as one number, the first as its low half. -/
def next (s : KeyStream) : UInt64 × KeyStream :=
  let low := (wordAt s.key s.taken).toUInt64
  let high := (wordAt s.key (s.taken + 1)).toUInt64
  (low ||| (high <<< 32), { s with taken := s.taken + 2 })

end KeyStream

end OnMesh
