-- SUMMARY: Plans of fuzz runs: how many fields at a time, and how many trials.
import FormatFuzz.Bounds
import FormatFuzz.Fuzz.Candidates

/-! # Plans -/

namespace FormatFuzz

structure Plan where
  minSubset : Nat := 1
  maxSubset : Nat := 1
  /-- The number of the first trial. Numbers wrap around. -/
  firstTrial : UInt64 := 0
  /-- The run stops after this many trials. -/
  maxTrials : Option Nat := none
  /-- What generated texts are made of. -/
  filler : UInt8 := Candidates.defaultFiller
  deriving DecidableEq, Repr

namespace Plan

/-- A plan for subsets of `a` to `b` fields, or of `b` to `a`. -/
def ofSizes (a b : Nat) : Plan :=
  let (minSubset, maxSubset) := inOrder a b
  { minSubset, maxSubset }

/-- The sizes of subsets of `n` fields that the plan asks for. -/
def sizes (p : Plan) (n : Nat) : List Nat :=
  (List.range (min p.maxSubset n + 1)).filter (p.minSubset ≤ ·)

end Plan

end FormatFuzz
