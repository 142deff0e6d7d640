-- SUMMARY: The subsets of a given size, one after the other.

/-!
# Subsets

The `k`-element subsets of the numbers below `n`, as ascending lists in lexicographic order.
-/

namespace FormatFuzz

structure Subsets where
  n : Nat
  /-- The subset that comes next. -/
  current : List Nat
  done : Bool
  deriving DecidableEq, Repr

namespace Subsets

/-- `k` numbers from `start` on. -/
def ascending : (start k : Nat) → List Nat
  | _, 0 => []
  | start, k + 1 => start :: ascending (start + 1) k

/-- There is nothing to begin with where `k` exceeds `n`. -/
def ofSize (n k : Nat) : Subsets :=
  if k ≤ n then ⟨n, ascending 0 k, false⟩ else ⟨n, [], true⟩

/-- The next ascending list of numbers below `n`: the last number that has room to move does so,
and those behind it follow it closely. -/
def advance (n : Nat) : List Nat → Option (List Nat)
  | [] => none
  | x :: rest =>
    match advance n rest with
    | some rest => some (x :: rest)
    | none =>
      if x + rest.length + 1 < n then some (ascending (x + 1) (rest.length + 1)) else none

def next? (c : Subsets) : Option (List Nat × Subsets) :=
  if c.done then
    none
  else
    match advance c.n c.current with
    | some following => some (c.current, { c with current := following })
    | none => some (c.current, { c with done := true })

/-- The number of `k`-element subsets of `n` things. The product of the first `i` factors is the
number of `i`-element subsets, so that every division is exact. -/
def total (n k : Nat) : Nat := (List.range k).foldl (fun count i => count * (n - i) / (i + 1)) 1

/-- The first `limit` subsets, or all if there are fewer. -/
def take : (limit : Nat) → Subsets → List (List Nat)
  | 0, _ => []
  | limit + 1, c =>
    match c.next? with
    | some (subset, c) => subset :: take limit c
    | none => []

end Subsets

end FormatFuzz
