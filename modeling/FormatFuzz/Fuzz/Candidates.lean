-- SUMMARY: The values that a fuzz run tries in a field.
import FormatFuzz.Field.Template

/-!
# Candidates

Every kind of leaf has values of its own that are worth trying. A field's options may replace
them, or follow them with more; no value is tried twice.
-/

namespace FormatFuzz.Candidates

/-- The longest text generated where a field does not say. -/
def defaultMaxLength : Nat := Nat.pow 2 15 + 60

/-- The byte that generated texts are made of where a run does not say. -/
def defaultFiller : UInt8 := 65

/-- The values that the options put in the place of the generated ones, or the generated ones and
then the extra ones, each once. -/
def combine (options : FieldOptions) (generated : List Value) : List Value :=
  match options.values with
  | some values => values
  | none => (generated ++ options.extra).eraseDups

-- ---------------------------------------------------------------------------
-- Integers
-- ---------------------------------------------------------------------------

/-- How far the values next to a power of two are from it. -/
def distances : List Int := [20, 40, 60]

/-- A power of two and the values next to it, those above it only as far as they fit. -/
def aroundPower (mask power : Int) : List Int :=
  power :: distances.flatMap fun d =>
    (power - d) :: if power + d ≤ mask then [power + d] else []

/-- All ones, as far as an integer with sign can hold it. -/
def largest (p : Packing) : Int := min p.mask (Int.pow 2 127 - 1)

/-- The powers of two that an integer with sign can hold. -/
def powers : List Int := (List.range 127).map (Int.pow 2)

/-- Small numbers, the powers of two that fit with the values next to them, and all ones. Those
out of range wrap around when they are packed. -/
def boundaries (p : Packing) : List Value :=
  let mask := largest p
  let small := (List.range 18).map Int.ofNat
  let near := (powers.filter (· ≤ mask)).flatMap (aroundPower mask)
  (small ++ near ++ [mask]).map .int

def ofInt (p : Packing) (options : FieldOptions) : List Value := combine options (boundaries p)

-- ---------------------------------------------------------------------------
-- Texts
-- ---------------------------------------------------------------------------

/-- Lengths of generated texts, doubling from one on. -/
def rampLengths : List Nat := (List.range 17).map (Nat.pow 2)

/-- Runs of the filler up to the longest allowed, and then the empty text. -/
def ramp (maxLength : Nat) (filler : UInt8) : List Value :=
  ((rampLengths.filter (· ≤ maxLength)).map fun n => .bytes (List.replicate n filler)) ++
    [.bytes []]

def ofStr (options : FieldOptions) (filler : UInt8) : List Value :=
  combine options (ramp (options.maxLength.getD defaultMaxLength) filler)

-- ---------------------------------------------------------------------------
-- All kinds
-- ---------------------------------------------------------------------------

/-- Both, whatever the options. -/
def ofBool : List Value := [.bool true, .bool false]

def ofLeaf (options : FieldOptions) (filler : UInt8) : LeafKind → List Value
  | .int spec => ofInt spec.packing options
  | .str _ => ofStr options filler
  | .bool => ofBool
  | .custom codec => combine options codec.candidates

end FormatFuzz.Candidates
