-- SUMMARY: The seeded word generator behind every random default: ChaCha with eight rounds.
import FormatFuzz.Bytes

/-!
# Generator

Random defaults have to come out the same whenever an unchanged node is resolved again, so
they are drawn from a generator that is a pure function of a 64-bit seed: the ChaCha
keystream with eight rounds, a 64-bit block counter from zero, and a key spread from the seed.
`FormatFuzz.Random.Range` turns its words into numbers of a range.
-/

namespace FormatFuzz

structure Generator where
  key : List UInt32
  /-- Number of the next keystream block. -/
  counter : UInt64
  /-- What is left of the current block. -/
  pending : List UInt32

namespace Generator

-- ---------------------------------------------------------------------------
-- Seeding
-- ---------------------------------------------------------------------------

/-- The next state of the linear congruential sequence that spreads a seed over the key. -/
def advanceSeed (u : UInt64) : UInt64 := u * 6364136223846793005 + 11634580027462260723

/-- A key word of a seed state: its high bits folded, then rotated by its top five bits. -/
def seedWord (u : UInt64) : UInt32 :=
  let x := (((u >>> 18) ^^^ u) >>> 27).toUInt32
  let n := (u >>> 59).toUInt32
  (x >>> n) ||| (x <<< (32 - n))

def seedWords : (n : Nat) → (u : UInt64) → List UInt32
  | 0, _ => []
  | n + 1, u =>
    let u := advanceSeed u
    seedWord u :: seedWords n u

def ofSeed (seed : UInt64) : Generator := ⟨seedWords 8 seed, 0, []⟩

-- ---------------------------------------------------------------------------
-- Blocks
-- ---------------------------------------------------------------------------

def rotateLeft (x n : UInt32) : UInt32 := (x <<< n) ||| (x >>> (32 - n))

/-- Four additions, each followed by an exclusive or and a rotation, on four state words. -/
def quarterRound (s : Array UInt32) (i j k l : Nat) : Array UInt32 :=
  let a := s.getD i 0
  let b := s.getD j 0
  let c := s.getD k 0
  let d := s.getD l 0
  let a := a + b
  let d := rotateLeft (d ^^^ a) 16
  let c := c + d
  let b := rotateLeft (b ^^^ c) 12
  let a := a + b
  let d := rotateLeft (d ^^^ a) 8
  let c := c + d
  let b := rotateLeft (b ^^^ c) 7
  (((s.setIfInBounds i a).setIfInBounds j b).setIfInBounds k c).setIfInBounds l d

/-- The columns of the state, then its diagonals. -/
def doubleRound (s : Array UInt32) : Array UInt32 :=
  let s := quarterRound s 0 4 8 12
  let s := quarterRound s 1 5 9 13
  let s := quarterRound s 2 6 10 14
  let s := quarterRound s 3 7 11 15
  let s := quarterRound s 0 5 10 15
  let s := quarterRound s 1 6 11 12
  let s := quarterRound s 2 7 8 13
  quarterRound s 3 4 9 14

/-- The words that open every state. -/
def constants : List UInt32 := [0x61707865, 0x3320646e, 0x79622d32, 0x6b206574]

def initialState (key : List UInt32) (counter : UInt64) : List UInt32 :=
  constants ++ key ++ [counter.toUInt32, (counter >>> 32).toUInt32, 0, 0]

/-- The sixteen keystream words of a block. -/
def block (key : List UInt32) (counter : UInt64) : List UInt32 :=
  let start := initialState key counter
  let mixed := doubleRound (doubleRound (doubleRound (doubleRound start.toArray)))
  List.zipWith (· + ·) mixed.toList start

-- ---------------------------------------------------------------------------
-- Draws
-- ---------------------------------------------------------------------------

def nextWord (g : Generator) : UInt32 × Generator :=
  match g.pending with
  | w :: rest => (w, { g with pending := rest })
  | [] =>
    match block g.key g.counter with
    | w :: rest => (w, { g with counter := g.counter + 1, pending := rest })
    | [] => (0, g)

/-- `n` words as one number, the first word lowest. -/
def nextWords : (n : Nat) → (g : Generator) → Nat × Generator
  | 0, g => (0, g)
  | n + 1, g =>
    let (low, g) := g.nextWord
    let (high, g) := nextWords n g
    (low.toNat + Nat.pow 2 32 * high, g)

/-- Two words, the first one lowest. -/
def nextDouble (g : Generator) : UInt64 × Generator :=
  let (v, g) := g.nextWords 2
  (UInt64.ofNat v, g)

end Generator

end FormatFuzz
