-- SUMMARY: Integer fields: fixed-width layouts, and the range of random defaults.
import FormatFuzz.Bounds
import FormatFuzz.Bytes

/-!
# Integer fields

Packing truncates the two's complement of an integer to the width of its field, so that values
out of range wrap around instead of failing.
-/

namespace FormatFuzz

inductive Endian where
  | big
  | little
  deriving DecidableEq, Repr

-- ---------------------------------------------------------------------------
-- Layout
-- ---------------------------------------------------------------------------

structure Packing where
  width : Nat
  endian : Endian
  signed : Bool
  one_le_width : 1 ≤ width := by decide
  width_le : width ≤ 16 := by decide
  deriving DecidableEq, Repr

namespace Packing

/-- A layout of the width nearest to the given one. -/
def ofWidth (width : Nat) (endian : Endian) (signed : Bool) : Packing where
  width := max 1 (min width 16)
  endian := endian
  signed := signed
  one_le_width := by omega
  width_le := by omega

/-- The number of bit patterns. -/
def modulus (p : Packing) : Nat := Nat.pow 256 p.width

/-- All ones. -/
def mask (p : Packing) : Nat := p.modulus - 1

/-- Little-endian digits in the layout's byte order, and back. -/
def arrange (p : Packing) (b : Bytes) : Bytes :=
  match p.endian with
  | .big => b.reverse
  | .little => b

def pack (p : Packing) (v : Int) : Bytes :=
  p.arrange (Bytes.ofNat p.width (v % p.modulus).toNat)

/-- Does the highest bit count as a sign? At the full width of 128 bits it always does. -/
def readsSign (p : Packing) : Bool := p.signed || p.width == 16

/-- The integer that packs to these bytes, unless there are too many of them or too few. -/
def unpack (p : Packing) (b : Bytes) : Option Int :=
  if b.length = p.width then
    let v : Int := Bytes.toNat (p.arrange b)
    some (if p.readsSign then v.bmod p.modulus else v)
  else
    none

theorem length_pack (p : Packing) (v : Int) : (p.pack v).length = p.width := by
  unfold pack arrange
  split <;> simp

end Packing

-- ---------------------------------------------------------------------------
-- Fields
-- ---------------------------------------------------------------------------

/-- An integer field: its layout, and the range of its random defaults. -/
structure IntField where
  packing : Packing
  min : Int := 0
  max : Int := 0xffff
  deriving DecidableEq, Repr

namespace IntField

def withRange (s : IntField) (min max : Int) : IntField :=
  let (min, max) := inOrder min max
  { s with min, max }

end IntField

end FormatFuzz
