-- SUMMARY: Text fields: padding, and the lengths and letters of random defaults.
import FormatFuzz.Bounds
import FormatFuzz.Bytes

/-! # Text fields -/

namespace FormatFuzz

/-- The letters that random texts are made of. -/
def letters : Bytes :=
  Bytes.ofString "abcdefghijklmnopqrstuvwxyzABCDEFGHIJKLMNOPQRSTUVWXYZ"

/-- A text field: length range and alphabet of its random defaults, and padding. -/
structure TextField where
  minLength : Nat := 1
  maxLength : Nat := 10
  charset : Bytes := letters
  /-- Values shorter than `minLength` are filled up with this byte. -/
  pad : Option UInt8 := none
  deriving DecidableEq, Repr

namespace TextField

def withLength (s : TextField) (min max : Nat) : TextField :=
  let (min, max) := inOrder min max
  { s with minLength := min, maxLength := max }

def fillUp (s : TextField) (b : Bytes) : Bytes :=
  match s.pad with
  | some pad => b ++ List.replicate (s.minLength - b.length) pad
  | none => b

end TextField

end FormatFuzz
