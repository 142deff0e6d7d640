-- SUMMARY: The constants of compressed blocks: lengths, distances, and the fixed codes.
import FormatFuzz.Zlib.Huffman

/-!
# Block format

What the reader (`FormatFuzz.Zlib.Inflate`) and the writer (`FormatFuzz.Zlib.Deflate`) of
compressed streams have to agree on.
-/

namespace FormatFuzz.Zlib

/-- The symbol that ends a block. Smaller ones are literal bytes, larger ones copy lengths. -/
def endOfBlock : Nat := 256

/-- Base and number of extra bits of each copy length, from symbol 257 on. -/
def copyLengths : List (Nat × Nat) := [
  (3, 0), (4, 0), (5, 0), (6, 0), (7, 0), (8, 0), (9, 0), (10, 0), (11, 1), (13, 1), (15, 1),
  (17, 1), (19, 2), (23, 2), (27, 2), (31, 2), (35, 3), (43, 3), (51, 3), (59, 3), (67, 4),
  (83, 4), (99, 4), (115, 4), (131, 5), (163, 5), (195, 5), (227, 5), (258, 0)]

/-- Base and number of extra bits of each copy distance. -/
def copyDistances : List (Nat × Nat) := [
  (1, 0), (2, 0), (3, 0), (4, 0), (5, 1), (7, 1), (9, 2), (13, 2), (17, 3), (25, 3), (33, 4),
  (49, 4), (65, 5), (97, 5), (129, 6), (193, 6), (257, 7), (385, 7), (513, 8), (769, 8),
  (1025, 9), (1537, 9), (2049, 10), (3073, 10), (4097, 11), (6145, 11), (8193, 12), (12289, 12),
  (16385, 13), (24577, 13)]

/-- Word lengths of the literal code of a block that brings none of its own. -/
def fixedLiteralLengths : List Nat :=
  List.replicate 144 8 ++ List.replicate 112 9 ++ List.replicate 24 7 ++ List.replicate 8 8

/-- Word lengths of the distance code of such a block. -/
def fixedDistanceLengths : List Nat := List.replicate 32 5

example : isComplete fixedLiteralLengths = true := by decide +kernel
example : isComplete fixedDistanceLengths = true := by decide +kernel

/-- The order in which a block states the word lengths of its length code. -/
def lengthCodeOrder : List Nat := [16, 17, 18, 0, 8, 7, 9, 6, 10, 5, 11, 4, 12, 3, 13, 2, 14, 1, 15]

/-- The farthest that a copy reaches back. -/
def windowSize : Nat := 32768

/-- The largest number of bytes that a stored block holds. -/
def storedLimit : Nat := 65535

end FormatFuzz.Zlib
