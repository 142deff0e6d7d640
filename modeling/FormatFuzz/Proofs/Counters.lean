-- SUMMARY: The numbers that a counter hands out, and what it is left at.
import Mathlib.Algebra.Ring.Int.Defs
import FormatFuzz.Tree.Build

/-!
# Counters

Each declaration of a counter takes a number and moves the counter on by its own step. The first one sets the
start (`Counter.numbers`). As long as the sums fit in 128 bits with sign (`Counter.Fits`), none of them is
wrapped around, and a counter that all declarations move on by one step does not come back to a number.
-/

namespace FormatFuzz

namespace Counter

variable {c : Counter} {cs : List Counter} {v : Int}

-- ---------------------------------------------------------------------------
-- Declarations in a row
-- ---------------------------------------------------------------------------

/-- The number that declarations of a counter start with. -/
def first : List Counter → Int
  | [] => 0
  | c :: _ => c.start

/-- The numbers that declarations of a counter take one after the other, from `v` on. -/
def numbersFrom (v : Int) : List Counter → List Int
  | [] => []
  | c :: rest => v :: numbersFrom (v + c.step) rest

/-- The sums that declarations of a counter leave one after the other. -/
def sumsFrom (v : Int) : List Counter → List Int
  | [] => []
  | c :: rest => (v + c.step) :: sumsFrom (v + c.step) rest

/-- What declarations of a counter move it on by in all. -/
def advance (cs : List Counter) : Int := (cs.map (·.step)).sum

/-- What declarations of a counter leave it at. -/
def reached : List Counter → Option Int
  | [] => none
  | c :: rest => some (c.start + advance (c :: rest))

/-- The start that the first one declares, and each further number the step of the one before it away. -/
def numbers (cs : List Counter) : List Int := numbersFrom (first cs) cs

/-- No sum leaves 128 bits with sign. -/
def Fits (cs : List Counter) : Prop := ∀ s ∈ sumsFrom (first cs) cs, -2 ^ 127 ≤ s ∧ s < 2 ^ 127

/-- A sum that fits is left as it is. -/
theorem wrap_of_fits (hlow : -2 ^ 127 ≤ v) (hhigh : v < 2 ^ 127) : Value.wrap v = v := by
  have hmodulus : ((Nat.pow 2 128 : Nat) : Int) = 2 * 2 ^ 127 := by decide
  unfold Value.wrap
  refine Int.bmod_eq_of_le_mul_two ?_ ?_ <;> rw [hmodulus] <;> omega

theorem advance_concat (cs : List Counter) (c : Counter) : advance (cs ++ [c]) = advance cs + c.step := by
  simp [advance]

theorem numbersFrom_concat (v : Int) (cs : List Counter) (c : Counter) :
    numbersFrom v (cs ++ [c]) = numbersFrom v cs ++ [v + advance cs] := by
  induction cs generalizing v with
  | nil => simp [numbersFrom, advance]
  | cons d rest ih =>
    have hadvance : advance (d :: rest) = d.step + advance rest := by simp [advance]
    rw [List.cons_append, numbersFrom, numbersFrom, ih, hadvance, Int.add_assoc, List.cons_append]

theorem sumsFrom_concat (v : Int) (cs : List Counter) (c : Counter) :
    sumsFrom v (cs ++ [c]) = sumsFrom v cs ++ [v + advance (cs ++ [c])] := by
  induction cs generalizing v with
  | nil => simp [sumsFrom, advance]
  | cons d rest ih =>
    have hadvance : advance (d :: (rest ++ [c])) = d.step + advance (rest ++ [c]) := by simp [advance]
    rw [List.cons_append, sumsFrom, sumsFrom, ih, hadvance, Int.add_assoc, List.cons_append]

theorem first_concat (hne : cs ≠ []) (c : Counter) : first (cs ++ [c]) = first cs := by
  cases cs with
  | nil => exact absurd rfl hne
  | cons d rest => rfl

theorem reached_getD (cs : List Counter) (c : Counter) :
    (reached cs).getD c.start = first (cs ++ [c]) + advance cs := by
  cases cs with
  | nil => exact (Int.add_zero c.start).symm
  | cons d rest => rfl

theorem reached_concat (cs : List Counter) (c : Counter) :
    reached (cs ++ [c]) = some (first (cs ++ [c]) + advance (cs ++ [c])) := by
  cases cs with
  | nil => rfl
  | cons d rest => rfl

/-- With one declaration more the counter goes on from what it was left at. -/
theorem numbers_concat (cs : List Counter) (c : Counter) :
    numbers (cs ++ [c]) = numbers cs ++ [first (cs ++ [c]) + advance cs] := by
  unfold numbers
  rw [numbersFrom_concat]
  cases cs with
  | nil => rfl
  | cons d rest => rfl

theorem Fits.of_concat (h : Fits (cs ++ [c])) : Fits cs := by
  cases cs with
  | nil => exact fun s hs => absurd hs List.not_mem_nil
  | cons d rest =>
    intro s hs
    refine h s ?_
    rw [first_concat (List.cons_ne_nil d rest), sumsFrom_concat]
    exact List.mem_append_left _ hs

theorem Fits.wrap (h : Fits (cs ++ [c])) :
    Value.wrap (first (cs ++ [c]) + advance (cs ++ [c])) = first (cs ++ [c]) + advance (cs ++ [c]) := by
  have hlast := h (first (cs ++ [c]) + advance (cs ++ [c])) (by rw [sumsFrom_concat]; simp)
  exact wrap_of_fits hlast.1 hlast.2

-- ---------------------------------------------------------------------------
-- Declarations of one step
-- ---------------------------------------------------------------------------

theorem take_number (c : Counter) (next : List (String × Int)) :
    (c.take next).1 = (next.lookup c.name).getD c.start := by
  induction next with
  | nil => rfl
  | cons pair rest ih =>
    obtain ⟨name, v⟩ := pair
    rw [take, List.lookup_cons]
    by_cases h : name = c.name
    · rw [if_pos h, h, beq_self_eq_true]
      rfl
    · rw [if_neg h, beq_false_of_ne (Ne.symm h)]
      exact ih

theorem lookup_take (c : Counter) (next : List (String × Int)) (name : String) :
    (c.take next).2.lookup name =
      if name = c.name then some (Value.wrap ((c.take next).1 + c.step)) else next.lookup name := by
  induction next with
  | nil =>
    rw [take, List.lookup_cons, List.lookup_nil]
    by_cases h : name = c.name
    · rw [if_pos h, h, beq_self_eq_true]
    · rw [if_neg h, beq_false_of_ne h]
  | cons pair rest ih =>
    obtain ⟨other, v⟩ := pair
    rw [take]
    by_cases hother : other = c.name
    · rw [if_pos hother, List.lookup_cons, List.lookup_cons, hother]
      by_cases h : name = c.name
      · rw [if_pos h, h, beq_self_eq_true]
      · rw [if_neg h, beq_false_of_ne h]
    · rw [if_neg hother, List.lookup_cons, List.lookup_cons]
      by_cases h : name = other
      · rw [if_neg fun hname => hother (h.symm.trans hname), h, beq_self_eq_true]
      · rw [beq_false_of_ne h]
        exact ih

end Counter

end FormatFuzz
