-- SUMMARY: Writing zlib streams.
import FormatFuzz.Digest.Checksum
import FormatFuzz.Zlib.Format
import Std.Data.HashMap

/-!
# Deflate

Writes a zlib stream. Level 0 stores the data; every other level looks for repetitions and
writes one block with the fixed codes.
-/

namespace FormatFuzz.Zlib

-- ---------------------------------------------------------------------------
-- Repetitions
-- ---------------------------------------------------------------------------

inductive Token where
  | literal (byte : UInt8)
  | copy (length distance : Nat)

/-- The number of bytes, up to `limit`, that agree from two places on. -/
def matchLength (data : Array UInt8) (i j : Nat) : (limit : Nat) → Nat
  | 0 => 0
  | limit + 1 =>
    if i < data.size ∧ j < data.size ∧ data.getD i 0 = data.getD j 0 then
      matchLength data (i + 1) (j + 1) limit + 1
    else
      0

/-- The three bytes at a place as one number. -/
def trigram (data : Array UInt8) (i : Nat) : Nat :=
  (data.getD i 0).toNat * 65536 + (data.getD (i + 1) 0).toNat * 256 + (data.getD (i + 2) 0).toNat

/-- The token at `i`, given the last place at which each trigram was seen. -/
def tokenAt (data : Array UInt8) (seen : Std.HashMap Nat Nat) (i : Nat) : Token :=
  match seen[trigram data i]? with
  | some j =>
    let length := matchLength data i j 258
    if 3 ≤ length ∧ i - j ≤ windowSize then .copy length (i - j) else .literal (data.getD i 0)
  | none => .literal (data.getD i 0)

/-- The tokens from `i` on, last first. Every token covers a byte, so the size of the data is
fuel enough. -/
def tokensFrom (data : Array UInt8) :
    (fuel : Nat) → (seen : Std.HashMap Nat Nat) → (i : Nat) → (found : List Token) → List Token
  | 0, _, _, found => found
  | fuel + 1, seen, i, found =>
    if data.size ≤ i then
      found
    else
      let token := tokenAt data seen i
      let next := match token with
        | .literal _ => i + 1
        | .copy length _ => i + length
      tokensFrom data fuel (seen.insert (trigram data i) i) next (token :: found)

def tokens (data : Bytes) : List Token :=
  let data := data.toArray
  (tokensFrom data data.size ∅ 0 []).reverse

-- ---------------------------------------------------------------------------
-- Blocks
-- ---------------------------------------------------------------------------

/-- The place in a table of bases and extra bits at which a number belongs, with its extra
bits. -/
def classify (table : List (Nat × Nat)) (v : Nat) : Nat × Bits :=
  let i := (table.takeWhile fun (base, _) => base ≤ v).length - 1
  let (base, extra) := table.getD i (0, 0)
  (i, Bits.ofNat extra (v - base))

/-- The fixed literal code's word of each symbol. -/
def fixedWords : Array Bits :=
  ((words fixedLiteralLengths).mergeSort fun a b => a.1 ≤ b.1).toArray.map (·.2)

def Token.bits (literals : Array Bits) : Token → Bits
  | .literal b => literals.getD b.toNat []
  | .copy length distance =>
    let (l, lengthExtra) := classify copyLengths length
    let (d, distanceExtra) := classify copyDistances distance
    literals.getD (endOfBlock + 1 + l) [] ++ lengthExtra ++ word 5 d ++ distanceExtra

/-- One final block with the fixed codes. -/
def fixedBlock (data : Bytes) : Bytes :=
  let literals := fixedWords
  Bits.toBytes ([true, true, false] ++ (tokens data).flatMap (·.bits literals) ++
    literals.getD endOfBlock [])

def storedBlock (final : Bool) (data : Bytes) : Bytes :=
  let n := data.length
  (if final then 1 else 0) :: Bytes.ofNat 2 n ++ Bytes.ofNat 2 (storedLimit - n) ++ data

/-- Stored blocks of the largest size, and a final one for the rest. -/
def storedBlocks : (fuel : Nat) → Bytes → Bytes
  | 0, data => storedBlock true data
  | fuel + 1, data =>
    if data.length ≤ storedLimit then storedBlock true data
    else storedBlock false (data.take storedLimit) ++ storedBlocks fuel (data.drop storedLimit)

-- ---------------------------------------------------------------------------
-- Streams
-- ---------------------------------------------------------------------------

/-- The header tells how hard the writer tried. -/
def header (level : Nat) : Bytes :=
  [0x78, if level < 2 then 0x01 else if level < 6 then 0x5e else if level = 6 then 0x9c else 0xda]

def deflate (level : Nat) (data : Bytes) : Bytes :=
  let blocks := if level = 0 then storedBlocks (data.length / storedLimit) data else fixedBlock data
  header level ++ blocks ++ (Bytes.ofNat 4 (Checksum.adler32 data).toNat).reverse

end FormatFuzz.Zlib
