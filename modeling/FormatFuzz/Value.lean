-- SUMMARY: Fully reduced values: integers, byte strings and truth values.
import FormatFuzz.Bytes

/-!
# Values

What a field holds once its cell is reduced. How a value turns into bytes depends on the field:
numeric fields pack an integer into their width (`FormatFuzz.Field.Integer`), text fields show it in
decimal (`Value.text`).
-/

namespace FormatFuzz

/-- An integer is meant to fit in 128 bits with sign; sums that leave them wrap around. -/
inductive Value where
  | int (v : Int)
  | bytes (b : Bytes)
  | bool (b : Bool)
  deriving DecidableEq, Repr, Inhabited

namespace Value

def ofNat (n : Nat) : Value := .int n

def ofString (s : String) : Value := .bytes (Bytes.ofString s)

def kindName : Value → String
  | .int _ => "int"
  | .bytes _ => "bytes"
  | .bool _ => "bool"

def int? : Value → Option Int
  | .int v => some v
  | .bool b => some (if b then 1 else 0)
  | .bytes _ => none

def bytes? : Value → Option Bytes
  | .bytes b => some b
  | _ => none

/-- Not zero, not empty, or true. -/
def holds : Value → Bool
  | .int v => v ≠ 0
  | .bytes b => !b.isEmpty
  | .bool b => b

/-- The bytes that a value stands for where text is wanted. -/
def text : Value → Bytes
  | .int v => Bytes.ofString (toString v)
  | .bytes b => b
  | .bool b => Bytes.ofString (toString b)

/-- Wraps a sum around to 128 bits with sign. -/
def wrap (v : Int) : Int := v.bmod (Nat.pow 2 128)

/-- The debug description. -/
def debug : Value → String
  | .int v => s!"Int({v})"
  | .bytes b => "Bytes([" ++ ", ".intercalate (b.map fun x => toString x.toNat) ++ "])"
  | .bool b => s!"Bool({b})"

end Value

end FormatFuzz
