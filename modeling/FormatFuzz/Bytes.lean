-- SUMMARY: Byte strings, little-endian digits, hexadecimal, and UTF-8 text as bytes.

/-!
# Bytes

Everything a format tree resolves to is a byte string. This module has the type, the
base-256 digits of a number, and the two ways in which text becomes bytes.
-/

namespace FormatFuzz

abbrev Bytes := List UInt8

namespace Bytes

-- ---------------------------------------------------------------------------
-- Little-endian digits
-- ---------------------------------------------------------------------------

/-- The `n` lowest base-256 digits of `v`, lowest first. -/
def ofNat : (n : Nat) → (v : Nat) → Bytes
  | 0, _ => []
  | n + 1, v => UInt8.ofNat v :: ofNat n (v / 256)

/-- The number whose base-256 digits, lowest first, are the given bytes. -/
def toNat : Bytes → Nat
  | [] => 0
  | b :: rest => b.toNat + 256 * toNat rest

@[simp] theorem length_ofNat (n v : Nat) : (ofNat n v).length = n := by
  induction n generalizing v with
  | zero => rfl
  | succ n ih => simp [ofNat, ih]

/-- Reading the digits back loses exactly what does not fit in `n` bytes. -/
theorem toNat_ofNat (n v : Nat) : toNat (ofNat n v) = v % Nat.pow 256 n := by
  induction n generalizing v with
  | zero => simp [ofNat, toNat, Nat.mod_one]
  | succ n ih =>
    have digit : (UInt8.ofNat v).toNat = v % 256 := UInt8.toNat_ofNat'
    have step : Nat.pow 256 (n + 1) = 256 * Nat.pow 256 n := Nat.mul_comm ..
    rw [ofNat, toNat, ih, digit, step, Nat.mod_mul]

-- ---------------------------------------------------------------------------
-- Text
-- ---------------------------------------------------------------------------

/-- The UTF-8 bytes of a text. -/
def ofString (s : String) : Bytes := s.toUTF8.data.toList

private def hexDigit (n : Nat) : Char :=
  if n < 10 then Char.ofNat ('0'.toNat + n) else Char.ofNat ('a'.toNat + (n - 10))

/-- Two lower-case hexadecimal digits a byte. -/
def hex (b : Bytes) : String :=
  String.ofList (b.flatMap fun x => [hexDigit (x.toNat / 16), hexDigit (x.toNat % 16)])

end Bytes

end FormatFuzz
