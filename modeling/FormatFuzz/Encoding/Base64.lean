-- SUMMARY: Padded base64 in the standard alphabet: encoding, and decoding with located faults.
import FormatFuzz.Bytes

/-!
# Base64

Encoding never wraps lines. Decoding accepts exactly what encoding produces and otherwise says
what is wrong and where: it reads group after group, so the first fault wins, with one
exception that is checked up front (`decode`).
-/

namespace FormatFuzz.Base64

/-! ## Alphabet -/

def alphabet : Bytes :=
  Bytes.ofString "ABCDEFGHIJKLMNOPQRSTUVWXYZabcdefghijklmnopqrstuvwxyz0123456789+/"

/-- The padding byte `=`. -/
def padding : UInt8 := 61

/-- The symbol of a number below 64. -/
def symbol (n : Nat) : UInt8 := alphabet.getD n padding

/-- The number that a symbol stands for. -/
def digit? (b : UInt8) : Option Nat :=
  let n := b.toNat
  if 65 ≤ n ∧ n ≤ 90 then some (n - 65)
  else if 97 ≤ n ∧ n ≤ 122 then some (n - 71)
  else if 48 ≤ n ∧ n ≤ 57 then some (n + 4)
  else if n = 43 then some 62
  else if n = 47 then some 63
  else none

/-! ## Encoding -/

/-- Three bytes make four symbols; what is left over is padded to four. -/
def encode : Bytes → Bytes
  | [] => []
  | [a] => [symbol (a.toNat / 4), symbol (a.toNat % 4 * 16), padding, padding]
  | [a, b] =>
    [symbol (a.toNat / 4), symbol (a.toNat % 4 * 16 + b.toNat / 16), symbol (b.toNat % 16 * 4),
      padding]
  | a :: b :: c :: rest =>
    symbol (a.toNat / 4) :: symbol (a.toNat % 4 * 16 + b.toNat / 16) ::
      symbol (b.toNat % 16 * 4 + c.toNat / 64) :: symbol (c.toNat % 64) :: encode rest

/-! ## Decoding -/

inductive Fault where
  /-- A byte outside the alphabet, or padding out of place. -/
  | symbol (byte : UInt8) (offset : Nat)
  /-- A single symbol is left over. -/
  | length (n : Nat)
  /-- The last symbol has bits that no byte takes up. -/
  | lastSymbol (byte : UInt8) (offset : Nat)
  /-- The last group is not filled up to four. -/
  | padding
  deriving DecidableEq, Repr

def Fault.message : Fault → String
  | .symbol byte offset => s!"Invalid symbol {byte.toNat}, offset {offset}."
  | .length n => s!"Invalid input length: {n}"
  | .lastSymbol byte offset => s!"Invalid last symbol {byte.toNat}, offset {offset}."
  | .padding => "Invalid padding"

def readDigit (byte : UInt8) (offset : Nat) : Except Fault Nat :=
  match digit? byte with
  | some n => .ok n
  | none => .error (.symbol byte offset)

/-- The three bytes of four digits. -/
def join (p q r s : Nat) : Bytes :=
  [UInt8.ofNat (p * 4 + q / 16), UInt8.ofNat (q * 16 + r / 4), UInt8.ofNat (r * 64 + s)]

/-- The digits of the last group up to its padding, with the group's place `i` in it. Padding is
in place only after two or three digits and with nothing but padding after it. -/
def lastDigits (start : Nat) : (i : Nat) → Bytes → Except Fault (List Nat × Nat)
  | _, [] => .ok ([], 0)
  | i, b :: rest =>
    if b = padding then
      if i < 2 ∨ rest.any (· ≠ padding) then .error (.symbol padding (start + i))
      else .ok ([], rest.length + 1)
    else do
      let n ← readDigit b (start + i)
      let (digits, pads) ← lastDigits start (i + 1) rest
      return (n :: digits, pads)

/-- The bytes of the last group, of up to four symbols. -/
def decodeLast (start : Nat) (group : Bytes) : Except Fault Bytes := do
  let (digits, pads) ← lastDigits start 0 group
  if digits.length < 2 then
    throw (.length (start + digits.length))
  if (digits.length + pads) % 4 ≠ 0 then
    throw .padding
  let last := start + digits.length - 1
  let byte := group.getD (digits.length - 1) padding
  match digits with
  | [p, q] => if q % 16 = 0 then return (join p q 0 0).take 1 else throw (.lastSymbol byte last)
  | [p, q, r] => if r % 4 = 0 then return (join p q r 0).take 2 else throw (.lastSymbol byte last)
  | p :: q :: r :: s :: _ => return join p q r s
  | _ => return []

/-- Groups of four, of which only the last may be padded or incomplete. -/
def decodeGroups (start : Nat) : Bytes → Except Fault Bytes
  | a :: b :: c :: d :: e :: rest => do
    let p ← readDigit a start
    let q ← readDigit b (start + 1)
    let r ← readDigit c (start + 2)
    let s ← readDigit d (start + 3)
    return join p q r s ++ (← decodeGroups (start + 4) (e :: rest))
  | [] => .ok []
  | group => decodeLast start group

/-- A byte that stands alone behind whole groups and belongs to no base64 text, such as a line
end, is reported before everything else. -/
def decode (data : Bytes) : Except Fault Bytes :=
  match data.getLast? with
  | some b =>
    if data.length % 4 = 1 ∧ b ≠ padding ∧ digit? b = none then
      .error (.symbol b (data.length - 1))
    else
      decodeGroups 0 data
  | none => .ok []

end FormatFuzz.Base64
