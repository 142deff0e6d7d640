-- SUMMARY: Canonical prefix codes: code words from lengths, and decoding by descent.
import FormatFuzz.Zlib.Bits

/-!
# Canonical prefix codes

A code is given by the length of each symbol's word, zero for a symbol without one. Words of
one length are consecutive numbers in symbol order, written highest bit first, and follow all
shorter words.
-/

namespace FormatFuzz.Zlib

/-- The longest word that a code may have. -/
def maxWordLength : Nat := 15

/-- The word with number `code` among those of length `n`, highest bit first. -/
def word (n code : Nat) : Bits := (Bits.ofNat n code).reverse

/-- The symbols with a word of length `n`, in order. -/
def symbolsOfLength (lengths : List Nat) (n : Nat) : List Nat :=
  (lengths.zipIdx.filter fun (l, _) => l = n).map (·.2)

/-- The words of each length from `n` on, of which the first is `code`, for `steps` lengths. -/
def wordsFrom (lengths : List Nat) : (steps n code : Nat) → List (Nat × Bits)
  | 0, _, _ => []
  | steps + 1, n, code =>
    let symbols := symbolsOfLength lengths n
    (symbols.zipIdx.map fun (s, i) => (s, word n (code + i))) ++
      wordsFrom lengths steps (n + 1) (2 * (code + symbols.length))

/-- Each symbol that has a word, with its word. -/
def words (lengths : List Nat) : List (Nat × Bits) := wordsFrom lengths maxWordLength 1 0

/-- The share of all bit strings that begin with a word, in units of `2^-15`. -/
def coverage (lengths : List Nat) : Nat :=
  (lengths.filter (· ≠ 0)).foldr (fun l share => Nat.pow 2 (maxWordLength - l) + share) 0

/-- Every bit string begins with exactly one word. -/
def isComplete (lengths : List Nat) : Bool := coverage lengths = Nat.pow 2 maxWordLength

/-! ## Decoding -/

inductive CodeTree where
  | empty
  | leaf (symbol : Nat)
  | node (zero one : CodeTree)

namespace CodeTree

def insert (symbol : Nat) : Bits → CodeTree → CodeTree
  | [], _ => .leaf symbol
  | b :: rest, t =>
    let (zero, one) := match t with
      | .node zero one => (zero, one)
      | _ => (.empty, .empty)
    if b then .node zero (insert symbol rest one) else .node (insert symbol rest zero) one

/-- The tree of a code. It branches even if the code has no words, so that a bit is read before
the input is found to be no word. -/
def ofLengths (lengths : List Nat) : CodeTree :=
  (words lengths).foldl (fun t (symbol, bits) => t.insert symbol bits) (.node .empty .empty)

end CodeTree

end FormatFuzz.Zlib
