-- SUMMARY: The choices of one candidate for each field, one after the other.

/-!
# Choices

All lists with a number below each of the given lengths, in the order in which an odometer
turns: the last place fastest. A length of zero leaves none.
-/

namespace FormatFuzz

structure Choices where
  lengths : List Nat
  /-- The choice that comes next. -/
  current : List Nat
  done : Bool
  deriving DecidableEq, Repr

namespace Choices

def ofLengths (lengths : List Nat) : Choices :=
  ⟨lengths, lengths.map fun _ => 0, lengths.contains 0⟩

/-- Turns the last place that can still turn, and puts those behind it back to zero. -/
def turn : (lengths current : List Nat) → Option (List Nat)
  | length :: lengths, place :: places =>
    match turn lengths places with
    | some places => some (place :: places)
    | none => if place + 1 < length then some ((place + 1) :: places.map fun _ => 0) else none
  | _, _ => none

def next? (p : Choices) : Option (List Nat × Choices) :=
  if p.done then
    none
  else
    match turn p.lengths p.current with
    | some following => some (p.current, { p with current := following })
    | none => some (p.current, { p with done := true })

/-- The largest number that a total can show. -/
def totalLimit : Nat := Nat.pow 2 64 - 1

/-- The number of choices, as far as it can be shown. Every factor is bounded as it is taken in,
so that a zero counts wherever it stands. -/
def total (p : Choices) : Nat :=
  p.lengths.foldl (fun n length => min (n * length) totalLimit) 1

/-- The first `limit` choices, or all if there are fewer. -/
def take : (limit : Nat) → Choices → List (List Nat)
  | 0, _ => []
  | limit + 1, p =>
    match p.next? with
    | some (choice, p) => choice :: take limit p
    | none => []

end Choices

end FormatFuzz
