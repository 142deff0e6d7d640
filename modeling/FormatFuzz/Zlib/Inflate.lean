-- SUMMARY: Reading zlib streams.
import FormatFuzz.Digest.Checksum
import FormatFuzz.Zlib.Format

/-!
# Inflate

Reads a zlib stream: a two-byte header, blocks, and the checksum of what they hold. A stream
fails in one of two ways, told apart by whether more input could have helped. Bytes after the
end of the stream are ignored.
-/

namespace FormatFuzz.Zlib

inductive StreamFault where
  /-- The input ended before the stream did. -/
  | incomplete
  | corrupt
  deriving DecidableEq, Repr

/-- What the blocks have produced so far. -/
abbrev Window := Array UInt8

-- ---------------------------------------------------------------------------
-- Reading bits
-- ---------------------------------------------------------------------------

/-- Readers take bits off the front of the input. -/
abbrev Reader := StateT Bits (Except StreamFault)

namespace Reader

/-- The next `n` bits as a number, lowest first. -/
def bits (n : Nat) : Reader Nat := fun input =>
  let taken := input.take n
  if taken.length = n then .ok (Bits.toNat taken, input.drop n) else .error .incomplete

/-- Drops the rest of a byte that has been begun. The input ends with a whole byte. -/
def align : Reader Unit := modify fun input => input.drop (input.length % 8)

def bytes (n : Nat) : Reader Bytes := fun input =>
  let taken := input.take (8 * n)
  if taken.length = 8 * n then .ok (Bits.toBytes taken, input.drop (8 * n)) else .error .incomplete

end Reader

/-- Follows the input down to the symbol of its first word. -/
def CodeTree.read : CodeTree → Reader Nat
  | .leaf s => pure s
  | .empty => throw .corrupt
  | .node zero one => fun input =>
    match input with
    | [] => .error .incomplete
    | false :: rest => zero.read rest
    | true :: rest => one.read rest

-- ---------------------------------------------------------------------------
-- Blocks
-- ---------------------------------------------------------------------------

/-- Appends `length` bytes from `distance` back, byte by byte, so that a copy may overlap
itself. Before the first byte of the stream the window holds zeros. -/
def copyBack (distance : Nat) : (length : Nat) → Window → Window
  | 0, out => out
  | n + 1, out =>
    let byte := if distance ≤ out.size then out.getD (out.size - distance) 0 else 0
    copyBack distance n (out.push byte)

/-- The symbols of a block up to its end. Every symbol takes at least one bit of the input, so
the input's length is fuel enough. -/
def readSymbols (literals distances : CodeTree) : (fuel : Nat) → Window → Reader Window
  | 0, _ => throw .incomplete
  | fuel + 1, out => do
    let s ← literals.read
    if s < endOfBlock then
      readSymbols literals distances fuel (out.push (UInt8.ofNat s))
    else if s = endOfBlock then
      return out
    else
      let some (base, extra) := copyLengths[s - (endOfBlock + 1)]? | throw .corrupt
      let length := base + (← Reader.bits extra)
      let some (base, extra) := copyDistances[← distances.read]? | throw .corrupt
      let distance := base + (← Reader.bits extra)
      readSymbols literals distances fuel (copyBack distance length out)

def readCoded (literals distances : CodeTree) (out : Window) : Reader Window := do
  readSymbols literals distances ((← get).length + 1) out

def readStored (out : Window) : Reader Window := do
  Reader.align
  let length ← Reader.bits 16
  let complement ← Reader.bits 16
  if length + complement ≠ storedLimit then
    throw .corrupt
  return out ++ (← Reader.bytes length)

/-- The lengths that a block states for its two codes, as one list of `total` lengths: a length,
a repetition of the last one, or a run of zeros at a time. -/
def readLengths (code : CodeTree) (total : Nat) : (fuel : Nat) → Array Nat → Reader (Array Nat)
  | 0, lengths => if lengths.size = total then return lengths else throw .corrupt
  | fuel + 1, lengths => do
    if total ≤ lengths.size then
      if lengths.size = total then return lengths else throw .corrupt
    let append := fun (length count : Nat) => lengths ++ List.replicate count length
    match ← code.read with
    | 16 =>
      let some last := lengths.back? | throw .corrupt
      readLengths code total fuel (append last (3 + (← Reader.bits 2)))
    | 17 => readLengths code total fuel (append 0 (3 + (← Reader.bits 3)))
    | 18 => readLengths code total fuel (append 0 (11 + (← Reader.bits 7)))
    | s => readLengths code total fuel (lengths.push s)

/-- The `n` three-bit lengths of the length code, put into the order of their symbols. -/
def readLengthCode (n : Nat) : Reader (List Nat) := do
  let stated ← (lengthCodeOrder.take n).mapM fun s => return (s, ← Reader.bits 3)
  return (List.range lengthCodeOrder.length).map fun s => (stated.lookup s).getD 0

/-- A code for literals or for distances has to be complete, unless it has no word at all, or a
single one of one bit. -/
def isUsable (lengths : List Nat) : Bool :=
  isComplete lengths || lengths.filter (· ≠ 0) ∈ [[], [1]]

/-- A block that states its own codes. -/
def readOwnCodes (out : Window) : Reader Window := do
  let literalCount := 257 + (← Reader.bits 5)
  let distanceCount := 1 + (← Reader.bits 5)
  let lengthCount := 4 + (← Reader.bits 4)
  if literalCount > 286 ∨ distanceCount > copyDistances.length then
    throw .corrupt
  let lengthCode ← readLengthCode lengthCount
  unless isComplete lengthCode do
    throw .corrupt
  let total := literalCount + distanceCount
  let lengths ← readLengths (.ofLengths lengthCode) total total #[]
  let literals := lengths.toList.take literalCount
  let distances := lengths.toList.drop literalCount
  unless isUsable literals && isUsable distances do
    throw .corrupt
  readCoded (.ofLengths literals) (.ofLengths distances) out

/-- Blocks up to the final one. -/
def readBlocks : (fuel : Nat) → Window → Reader Window
  | 0, _ => throw .incomplete
  | fuel + 1, out => do
    let final ← Reader.bits 1
    let out ← match ← Reader.bits 2 with
      | 0 => readStored out
      | 1 => readCoded (.ofLengths fixedLiteralLengths) (.ofLengths fixedDistanceLengths) out
      | 2 => readOwnCodes out
      | _ => throw .corrupt
    if final = 1 then return out else readBlocks fuel out

-- ---------------------------------------------------------------------------
-- Streams
-- ---------------------------------------------------------------------------

/-- The method must be deflate with a window of 32 KiB at most and without a preset dictionary,
and the two bytes together a multiple of 31. -/
def readHeader : Reader Unit := do
  let method ← Reader.bits 8
  let flags ← Reader.bits 8
  unless method % 16 = 8 ∧ method / 16 ≤ 7 ∧ flags / 32 % 2 = 0 ∧ (method * 256 + flags) % 31 = 0 do
    throw .corrupt

def readStream : Reader Bytes := do
  readHeader
  let out := (← readBlocks ((← get).length + 1) #[]).toList
  Reader.align
  let checksum ← Reader.bytes 4
  if Bytes.toNat checksum.reverse = (Checksum.adler32 out).toNat then return out else throw .corrupt

def inflate (data : Bytes) : Except StreamFault Bytes :=
  return (← readStream (Bits.ofBytes data)).1

end FormatFuzz.Zlib
