-- SUMMARY: Putting the two bounds of a range in order.

/-! # Bounds -/

namespace FormatFuzz

/-- Two bounds in order: bounds given in reverse are swapped. -/
def inOrder {α : Type} [LE α] [DecidableLE α] (a b : α) : α × α :=
  if a ≤ b then (a, b) else (b, a)

end FormatFuzz
