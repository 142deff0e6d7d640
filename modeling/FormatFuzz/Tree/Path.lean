-- SUMMARY: Paths to nodes: steps separated by dots, with indices in brackets.
import FormatFuzz.Text.Blank

/-!
# Paths

A path is written as steps separated by dots. `^` climbs to the enclosing composite, a name
goes down to a child, and indices in brackets behind it pick elements of repeated groups. A
leading slash begins at the root. Empty steps are skipped.

A step that cannot be read is a step all the same, and fails when it is reached
(`FormatFuzz.Tree.Groups`).
-/

namespace FormatFuzz

inductive Step where
  | climb
  /-- The child of a name, unless it is empty, and then an element at each index. -/
  | descend (name : String) (indices : List Nat)
  | malformed
  deriving DecidableEq, Repr

structure Path where
  fromRoot : Bool
  steps : List Step
  deriving DecidableEq, Repr

namespace Path

-- ---------------------------------------------------------------------------
-- Indices
-- ---------------------------------------------------------------------------

/-- Indices are below this bound. -/
def indexLimit : Nat := Nat.pow 2 64

def digit? (c : Char) : Option Nat :=
  if '0' ≤ c ∧ c ≤ '9' then some (c.toNat - '0'.toNat) else none

/-- The number written by digits that follow the number `n`. -/
def readDigits (n : Nat) : List Char → Option Nat
  | [] => some n
  | c :: rest => do readDigits (10 * n + (← digit? c)) rest

/-- An optional plus sign and at least one digit, for a number below the limit. -/
def readIndex (word : List Char) : Option Nat := do
  let digits := match word with
    | '+' :: rest => rest
    | word => word
  if digits.isEmpty then
    none
  else
    let n ← readDigits 0 digits
    if n < indexLimit then some n else none

/-- The indices in a sequence of bracketed words. Inside a bracket, `word` holds what has been
read of it, last character first. -/
def readIndices : (word : Option (List Char)) → List Char → Option (List Nat)
  | none, [] => some []
  | none, c :: rest => if c = '[' then readIndices (some []) rest else none
  | some _, [] => none
  | some word, c :: rest =>
    if c = ']' then do
      let index ← readIndex (Text.trim word.reverse)
      return index :: (← readIndices none rest)
    else
      readIndices (some (c :: word)) rest

/-- A name without brackets, and the indices behind it. -/
def splitBrackets (step : List Char) : Option (String × List Nat) := do
  let indices ← readIndices none (step.dropWhile (· ≠ '['))
  return (String.ofList (step.takeWhile (· ≠ '[')), indices)

-- ---------------------------------------------------------------------------
-- Steps
-- ---------------------------------------------------------------------------

/-- The pieces between dots. -/
def splitDots : List Char → List (List Char)
  | [] => [[]]
  | c :: rest =>
    match splitDots rest with
    | [] => [[c]]
    | piece :: pieces => if c = '.' then [] :: piece :: pieces else (c :: piece) :: pieces

def readStep (step : List Char) : Step :=
  if step = ['^'] then
    .climb
  else
    match splitBrackets step with
    | some (name, indices) => .descend name indices
    | none => .malformed

def readSteps (text : List Char) : List Step :=
  ((splitDots text).filter fun piece => !piece.isEmpty).map readStep

def parse (text : String) : Path :=
  match text.toList with
  | '/' :: rest => ⟨true, readSteps rest⟩
  | text => ⟨false, readSteps text⟩

example : parse "/a.^.b[1][ +2 ].c[" =
    ⟨true, [.descend "a" [], .climb, .descend "b" [1, 2], .malformed]⟩ := by decide +kernel

end Path

end FormatFuzz
