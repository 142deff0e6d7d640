-- SUMMARY: Bit strings: bytes lowest bit first, and numbers in either bit order.
import FormatFuzz.Bytes

/-! # Bits -/

namespace FormatFuzz.Zlib

abbrev Bits := List Bool

namespace Bits

/-- The `n` lowest bits of `v`, lowest first. -/
def ofNat : (n : Nat) → (v : Nat) → Bits
  | 0, _ => []
  | n + 1, v => (v % 2 == 1) :: ofNat n (v / 2)

/-- The number whose bits, lowest first, are the given ones. -/
def toNat : Bits → Nat
  | [] => 0
  | b :: rest => b.toNat + 2 * toNat rest

/-- Each byte's bits, lowest first. -/
def ofBytes (data : Bytes) : Bits := data.flatMap fun b => ofNat 8 b.toNat

/-- The whole bytes of a bit string, of `n` bytes at most. What is left of a last byte is filled
up with zeros. -/
def takeBytes : (n : Nat) → Bits → Bytes
  | 0, _ => []
  | _, [] => []
  | n + 1, bits => UInt8.ofNat (toNat (bits.take 8)) :: takeBytes n (bits.drop 8)

/-- The bytes of a bit string, the last one filled up with zeros. -/
def toBytes (bits : Bits) : Bytes := takeBytes ((bits.length + 7) / 8) bits

@[simp] theorem length_ofNat (n v : Nat) : (ofNat n v).length = n := by
  induction n generalizing v with
  | zero => rfl
  | succ n ih => simp [ofNat, ih]

end Bits

end FormatFuzz.Zlib
