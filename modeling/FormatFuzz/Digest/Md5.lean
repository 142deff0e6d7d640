-- SUMMARY: The MD5 digest of a byte string.
import FormatFuzz.Bytes

/-!
# MD5

The digest names serializations in the trial index and decides which of them have been
seen; its first eight bytes seed the generator of a node (`FormatFuzz.Random.Generator`).
Padding and rounds are those of the MD5 message-digest algorithm.
-/

namespace FormatFuzz.Md5

structure State where
  a : UInt32
  b : UInt32
  c : UInt32
  d : UInt32

namespace State

def initial : State := ⟨0x67452301, 0xefcdab89, 0x98badcfe, 0x10325476⟩

def add (s t : State) : State := ⟨s.a + t.a, s.b + t.b, s.c + t.c, s.d + t.d⟩

def toBytes (s : State) : Bytes :=
  [s.a, s.b, s.c, s.d].flatMap fun w => Bytes.ofNat 4 w.toNat

end State

-- ---------------------------------------------------------------------------
-- Tables
-- ---------------------------------------------------------------------------

/-- The integer parts of `2^32 * |sin i|` for `i` from 1 to 64. -/
def sines : Array UInt32 := #[
  0xd76aa478, 0xe8c7b756, 0x242070db, 0xc1bdceee, 0xf57c0faf, 0x4787c62a, 0xa8304613, 0xfd469501,
  0x698098d8, 0x8b44f7af, 0xffff5bb1, 0x895cd7be, 0x6b901122, 0xfd987193, 0xa679438e, 0x49b40821,
  0xf61e2562, 0xc040b340, 0x265e5a51, 0xe9b6c7aa, 0xd62f105d, 0x02441453, 0xd8a1e681, 0xe7d3fbc8,
  0x21e1cde6, 0xc33707d6, 0xf4d50d87, 0x455a14ed, 0xa9e3e905, 0xfcefa3f8, 0x676f02d9, 0x8d2a4c8a,
  0xfffa3942, 0x8771f681, 0x6d9d6122, 0xfde5380c, 0xa4beea44, 0x4bdecfa9, 0xf6bb4b60, 0xbebfbc70,
  0x289b7ec6, 0xeaa127fa, 0xd4ef3085, 0x04881d05, 0xd9d4d039, 0xe6db99e5, 0x1fa27cf8, 0xc4ac5665,
  0xf4292244, 0x432aff97, 0xab9423a7, 0xfc93a039, 0x655b59c3, 0x8f0ccc92, 0xffeff47d, 0x85845dd1,
  0x6fa87e4f, 0xfe2ce6e0, 0xa3014314, 0x4e0811a1, 0xf7537e82, 0xbd3af235, 0x2ad7d2bb, 0xeb86d391]

/-- The rotation of each of the sixteen (round, step mod 4) pairs. -/
def rotations : Array UInt32 := #[7, 12, 17, 22, 5, 9, 14, 20, 4, 11, 16, 23, 6, 10, 15, 21]

-- ---------------------------------------------------------------------------
-- Compression
-- ---------------------------------------------------------------------------

def rotateLeft (x n : UInt32) : UInt32 := (x <<< n) ||| (x >>> (32 - n))

/-- Step `i` of the 64, on the sixteen message words of a block. -/
def step (words : Array UInt32) (s : State) (i : Nat) : State :=
  let (f, g) : UInt32 × Nat :=
    match i / 16 with
    | 0 => ((s.b &&& s.c) ||| (~~~s.b &&& s.d), i)
    | 1 => ((s.d &&& s.b) ||| (~~~s.d &&& s.c), 5 * i + 1)
    | 2 => (s.b ^^^ s.c ^^^ s.d, 3 * i + 5)
    | _ => (s.c ^^^ (s.b ||| ~~~s.d), 7 * i)
  let sum := f + s.a + sines.getD i 0 + words.getD (g % 16) 0
  ⟨s.d, s.b + rotateLeft sum (rotations.getD (4 * (i / 16) + i % 4) 0), s.b, s.c⟩

def compress (s : State) (words : Array UInt32) : State :=
  ((List.range 64).foldl (step words) s).add s

-- ---------------------------------------------------------------------------
-- Padding
-- ---------------------------------------------------------------------------

/-- A one bit, zeros up to 56 modulo 64, and the length in bits. -/
def pad (message : Bytes) : Bytes :=
  let n := message.length
  message ++ 0x80 :: List.replicate ((119 - n % 64) % 64) 0 ++ Bytes.ofNat 8 (8 * n)

def word (data : Array UInt8) (i : Nat) : UInt32 :=
  let byte := fun k => (data.getD (4 * i + k) 0).toUInt32
  byte 0 ||| (byte 1 <<< 8) ||| (byte 2 <<< 16) ||| (byte 3 <<< 24)

/-- The sixteen-byte digest. -/
def digest (message : Bytes) : Bytes :=
  let data := (pad message).toArray
  let block := fun j => ((List.range 16).map fun i => word data (16 * j + i)).toArray
  ((List.range (data.size / 64)).foldl (fun s j => compress s (block j)) State.initial).toBytes

/-- The digest as 32 hexadecimal digits. -/
def hexDigest (message : Bytes) : String := (digest message).hex

end FormatFuzz.Md5
