-- SUMMARY: TOML numbers, dates and times.
import FormatFuzz.Toml.Basic
import FormatFuzz.Toml.Scanner

/-!
# Scalars

Integers have 64 bits with sign. Of floating-point numbers, dates and times only the form is
checked, and that a number that does not fit is refused.
-/

namespace FormatFuzz.Toml.Scanner

def isDigit (c : Char) : Bool := '0' ≤ c && c ≤ '9'

def digitValue (c : Char) : Nat :=
  if c ≤ '9' then c.toNat - 48 else if c ≤ 'F' then c.toNat - 55 else c.toNat - 87

def ofDigits (radix : Nat) (digits : List Char) : Nat :=
  digits.foldl (fun v c => radix * v + digitValue c) 0

/-- Digits, with single underscores between them that do not count. -/
def digits (p : Char → Bool) : Scanner (List Char) := do
  let first ← one p
  let rest ← many (one p <|> (do char '_'; one p))
  return first :: rest

def isNegative : Scanner Bool := do
  match ← optional (one fun c => c = '+' || c = '-') with
  | some c => return c = '-'
  | none => return false

/-- Decimal digits without leading zeros. -/
def decimal : Scanner (List Char) := do
  if (← peek?) = some '0' then
    char '0'
    return ['0']
  else
    digits isDigit

-- ---------------------------------------------------------------------------
-- Integers
-- ---------------------------------------------------------------------------

def fits (v : Int) : Bool := -Int.pow 2 63 ≤ v && v < Int.pow 2 63

/-- An unsigned integer behind the mark of its radix. -/
def marked (mark : String) (radix : Nat) (p : Char → Bool) : Scanner Int := do
  exactly mark
  return ofDigits radix (← digits p)

def signedDecimal : Scanner Int := do
  let negative ← isNegative
  let v : Int := ofDigits 10 (← decimal)
  return if negative then -v else v

def isHex (c : Char) : Bool := isDigit c || ('a' ≤ c && c ≤ 'f') || ('A' ≤ c && c ≤ 'F')

def integer : Scanner Document := do
  let v ←
    marked "0x" 16 isHex <|>
    marked "0o" 8 (fun c => '0' ≤ c && c ≤ '7') <|>
    marked "0b" 2 (fun c => c = '0' || c = '1') <|>
    signedDecimal
  if fits v then return .int v else failure

-- ---------------------------------------------------------------------------
-- Floating-point numbers
-- ---------------------------------------------------------------------------

/-- The least number that rounds to infinity: half a step above the largest finite one. -/
def overflowBound : Nat := Nat.pow 2 1024 - Nat.pow 2 970

/-- Does `mantissa * 10 ^ exponent` round to infinity? Numbers far from the bound are told by
their size. -/
def overflows (mantissa : Nat) (exponent : Int) : Bool :=
  let size : Int := (Nat.toDigits 10 mantissa).length + exponent
  if mantissa = 0 || size < 300 then false
  else if size > 320 then true
  else if 0 ≤ exponent then overflowBound ≤ mantissa * Nat.pow 10 exponent.toNat
  else overflowBound * Nat.pow 10 (-exponent).toNat ≤ mantissa

def exponent : Scanner Int := do
  let _ ← one fun c => c = 'e' || c = 'E'
  let negative ← isNegative
  let v : Int := ofDigits 10 (← digits isDigit)
  return if negative then -v else v

def fraction : Scanner (List Char) := do
  char '.'
  digits isDigit

/-- A number with a fraction, an exponent, or both. -/
def finite : Scanner Document := do
  let negative ← isNegative
  let whole ← decimal
  let fraction ← optional fraction
  let exponent ← optional exponent
  if fraction.isNone && exponent.isNone then
    failure
  let fraction := fraction.getD []
  let mantissa := ofDigits 10 (whole ++ fraction)
  if !negative && overflows mantissa (exponent.getD 0 - fraction.length) then
    failure
  return .float

def special : Scanner Document := do
  let _ ← isNegative
  exactly "inf" <|> exactly "nan"
  return .float

-- ---------------------------------------------------------------------------
-- Dates and times
-- ---------------------------------------------------------------------------

/-- A number of exactly `n` digits within bounds. -/
def padded (n low high : Nat) : Scanner Nat := do
  let v := ofDigits 10 (← (List.replicate n ()).mapM fun _ => one isDigit)
  if low ≤ v ∧ v ≤ high then return v else failure

def isLeapYear (year : Nat) : Bool := year % 4 = 0 && (year % 100 ≠ 0 || year % 400 = 0)

def daysIn (year month : Nat) : Nat :=
  if month = 2 then if isLeapYear year then 29 else 28
  else if month ∈ [4, 6, 9, 11] then 30 else 31

def date : Scanner Unit := do
  let year ← padded 4 0 9999
  char '-'
  let month ← padded 2 1 12
  char '-'
  let _ ← padded 2 1 (daysIn year month)

/-- A time of the day, with room for a leap second. -/
def time : Scanner Unit := do
  let _ ← padded 2 0 23
  char ':'
  let _ ← padded 2 0 59
  char ':'
  let _ ← padded 2 0 60
  let _ ← optional (do char '.'; let _ ← span1 isDigit)

/-- The distance from universal time. -/
def zone : Scanner Unit :=
  (do let _ ← one fun c => c = 'Z' || c = 'z') <|> do
    let _ ← one fun c => c = '+' || c = '-'
    let _ ← padded 2 0 23
    char ':'
    let _ ← padded 2 0 59

def moment : Scanner Document := do
  let dated : Scanner Unit := do
    date
    let _ ← optional do
      let _ ← one fun c => c = 'T' || c = 't' || c = ' '
      time
      let _ ← optional zone
  dated <|> time
  return .moment

-- ---------------------------------------------------------------------------
-- All scalars
-- ---------------------------------------------------------------------------

def boolean : Scanner Document :=
  (do exactly "true"; return .bool true) <|> (do exactly "false"; return .bool false)

def scalar : Scanner Document :=
  .text <$> string <|> boolean <|> moment <|> finite <|> special <|> integer

end FormatFuzz.Toml.Scanner
