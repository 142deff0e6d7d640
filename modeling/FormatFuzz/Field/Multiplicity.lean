-- SUMMARY: Rules for the number of elements of a repeated group.
import FormatFuzz.Bounds

/-! # Multiplicities -/

namespace FormatFuzz

/-- How a repeated group comes by its number of elements. -/
inductive Multiplicity where
  | fixed (count : Nat)
  /-- Drawn once from the range. -/
  | random (min max : Nat)
  /-- The count of the group at `source`. Each pair of `fields` binds a field of every element
  to a field of the source's element of the same index. The range is for the count that the
  group reports while it is still working out its own. -/
  | bound (source : String) (fields : List (String × String)) (min max : Nat)
  deriving DecidableEq, Repr

namespace Multiplicity

def defaultMin : Nat := 1

def defaultMax : Nat := 10

def ofRange (min max : Nat) : Multiplicity :=
  let (min, max) := inOrder min max
  .random min max

def boundTo (source : String) : Multiplicity := .bound source [] defaultMin defaultMax

/-- Only bound rules take field pairs. -/
def addPair (rule : Multiplicity) (elementField sourceField : String) : Multiplicity :=
  match rule with
  | .bound source fields min max =>
    .bound source (fields ++ [(elementField, sourceField)]) min max
  | rule => rule

instance : Inhabited Multiplicity := ⟨.random defaultMin defaultMax⟩

end Multiplicity

end FormatFuzz
