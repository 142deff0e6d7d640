-- SUMMARY: The CRC-32 and Adler-32 checksums.
import FormatFuzz.Bytes

/-! # Checksums -/

namespace FormatFuzz.Checksum

/-! ## CRC-32

The reflected polynomial `0xEDB88320`, with all ones before and after. -/

/-- One bit of polynomial division. -/
def crcBit (c : UInt32) : UInt32 :=
  if c &&& 1 = 1 then (c >>> 1) ^^^ 0xEDB88320 else c >>> 1

def crcByte (c : UInt32) (b : UInt8) : UInt32 :=
  crcBit (crcBit (crcBit (crcBit (crcBit (crcBit (crcBit (crcBit (c ^^^ b.toUInt32))))))))

def crc32 (data : Bytes) : UInt32 := data.foldl crcByte 0xFFFFFFFF ^^^ 0xFFFFFFFF

/-! ## Adler-32 -/

structure Adler where
  low : UInt32
  high : UInt32

namespace Adler

def initial : Adler := ⟨1, 0⟩

/-- Both sums are kept below the largest prime under `2^16`. -/
def push (s : Adler) (b : UInt8) : Adler :=
  let low := (s.low + b.toUInt32) % 65521
  ⟨low, (s.high + low) % 65521⟩

def value (s : Adler) : UInt32 := (s.high <<< 16) ||| s.low

end Adler

def adler32 (data : Bytes) : UInt32 := (data.foldl Adler.push Adler.initial).value

end FormatFuzz.Checksum
