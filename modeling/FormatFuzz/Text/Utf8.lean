-- SUMMARY: Reading UTF-8: strictly, or with replacement characters for what is not text.
import FormatFuzz.Bytes

/-!
# UTF-8

A scanner with one byte of input at a time. It answers with a character, or with a fault for
every longest prefix of a character that the input breaks off. Reading strictly refuses
faults; reading leniently shows each as the replacement character.
-/

namespace FormatFuzz.Utf8

/-- A character of which some bytes are still to come. -/
structure Unfinished where
  /-- The bits read so far. -/
  code : Nat
  /-- How many more bytes follow, less one. -/
  more : Nat
  /-- The bytes that may come next are `low..=high`. -/
  low : UInt8
  high : UInt8

structure Scanner where
  pending : Option Unfinished := none
  /-- What has been read, last first; `none` is a fault. -/
  found : List (Option Char) := []

namespace Scanner

/-- A byte that begins a character. The bounds on the second byte keep out overlong forms,
surrogates, and everything above U+10FFFF. -/
def start (s : Scanner) (b : UInt8) : Scanner :=
  let wait := fun bits more low high => { s with pending := some ⟨b.toNat % bits, more, low, high⟩ }
  if b < 0x80 then { pending := none, found := some (Char.ofNat b.toNat) :: s.found }
  else if b < 0xc2 then { pending := none, found := none :: s.found }
  else if b < 0xe0 then wait 32 0 0x80 0xbf
  else if b = 0xe0 then wait 16 1 0xa0 0xbf
  else if b = 0xed then wait 16 1 0x80 0x9f
  else if b < 0xf0 then wait 16 1 0x80 0xbf
  else if b = 0xf0 then wait 8 2 0x90 0xbf
  else if b < 0xf4 then wait 8 2 0x80 0xbf
  else if b = 0xf4 then wait 8 2 0x80 0x8f
  else { pending := none, found := none :: s.found }

/-- A byte that does not continue the pending character ends it with a fault and begins anew. -/
def push (s : Scanner) (b : UInt8) : Scanner :=
  match s.pending with
  | none => s.start b
  | some p =>
    if p.low ≤ b ∧ b ≤ p.high then
      let code := p.code * 64 + b.toNat % 64
      match p.more with
      | 0 => { pending := none, found := some (Char.ofNat code) :: s.found }
      | more + 1 => { s with pending := some ⟨code, more, 0x80, 0xbf⟩ }
    else
      { pending := none, found := none :: s.found : Scanner }.start b

def finish (s : Scanner) : List (Option Char) :=
  match s.pending with
  | none => s.found.reverse
  | some _ => (none :: s.found).reverse

end Scanner

/-- The characters and faults of a byte string, in order. -/
def scan (b : Bytes) : List (Option Char) := (b.foldl Scanner.push {}).finish

/-- The text that the bytes encode, if they do. -/
def decode? (b : Bytes) : Option String := ((scan b).mapM id).map String.ofList

/-- The text of the bytes, with U+FFFD for each fault. -/
def decodeLossy (b : Bytes) : String := String.ofList ((scan b).map (·.getD '\ufffd'))

end FormatFuzz.Utf8
