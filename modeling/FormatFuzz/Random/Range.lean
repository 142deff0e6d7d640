-- SUMMARY: Numbers drawn from an inclusive range.
import FormatFuzz.Random.Generator

/-!
# Ranges

A draw of `w` bits is scaled to a range of `span` numbers by a multiplication: the answer is
the part of `draw * span` above bit `w`. Where the part below bit `w` is so high that a finer
draw could carry into the answer, a second draw decides the carry.
-/

namespace FormatFuzz.Generator

/-- A number below `span`, from draws of `words` words. -/
def scaled (words span : Nat) (g : Generator) : Nat × Generator :=
  let modulus := Nat.pow 2 (32 * words)
  let (draw, g) := g.nextWords words
  let high := draw * span / modulus
  let low := draw * span % modulus
  if low > modulus - span then
    let (finer, g) := g.nextWords words
    if low + finer * span / modulus ≥ modulus then (high + 1, g) else (high, g)
  else
    (high, g)

/-- A number of `lo..=hi`: one word a draw, or two where `hi` needs them. -/
def natIn (lo hi : Nat) (g : Generator) : Nat × Generator :=
  let words := if hi < Nat.pow 2 32 then 1 else 2
  let span := (hi - lo + 1) % Nat.pow 2 (32 * words)
  if span = 0 then
    g.nextWords words
  else
    let (offset, g) := g.scaled words span
    (lo + offset, g)

/-- A 128-bit integer of `lo..=hi`, four words a draw. -/
def intIn (lo hi : Int) (g : Generator) : Int × Generator :=
  let span := ((hi - lo + 1) % Int.pow 2 128).toNat
  if span = 0 then
    let (draw, g) := g.nextWords 4
    ((draw : Int).bmod (Nat.pow 2 128), g)
  else
    let (offset, g) := g.scaled 4 span
    (lo + offset, g)

/-- True for the lower half of the two-word draws. -/
def bool (g : Generator) : Bool × Generator :=
  let (draw, g) := g.nextDouble
  (draw < 0x8000000000000000, g)

/-- `n` members of an alphabet, each picked by its index. -/
def picks (alphabet : Bytes) : (n : Nat) → (g : Generator) → Bytes × Generator
  | 0, g => ([], g)
  | n + 1, g =>
    let (i, g) := g.natIn 0 (alphabet.length - 1)
    let (rest, g) := picks alphabet n g
    (alphabet.getD i 0 :: rest, g)

end FormatFuzz.Generator
