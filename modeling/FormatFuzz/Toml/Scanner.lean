-- SUMMARY: The lexical level of TOML: blanks, comments, strings and keys.

/-!
# Scanning

A scanner takes characters off the front of the input, or fails and leaves the input to the
next alternative.
-/

namespace FormatFuzz.Toml

abbrev Scanner := StateT (List Char) Option

namespace Scanner

variable {α : Type}

-- ---------------------------------------------------------------------------
-- Characters
-- ---------------------------------------------------------------------------

/-- One character of a class. -/
def one (p : Char → Bool) : Scanner Char := fun input =>
  match input with
  | c :: rest => if p c then some (c, rest) else none
  | [] => none

def char (c : Char) : Scanner Unit := do
  let _ ← one (· = c)

/-- The characters of a word, one after the other. -/
def exactly (text : String) : Scanner Unit := text.toList.forM char

/-- All characters of a class up to the first of another one. -/
def span (p : Char → Bool) : Scanner (List Char) := fun input =>
  some (input.takeWhile p, input.dropWhile p)

/-- The same, but at least one. -/
def span1 (p : Char → Bool) : Scanner (List Char) := do
  return (← one p) :: (← span p)

def peek? : Scanner (Option Char) := return (← get).head?

def atEnd : Scanner Unit := do
  unless (← get).isEmpty do
    failure

def optional (s : Scanner α) : Scanner (Option α) := some <$> s <|> pure none

def repeatUpTo (s : Scanner α) : (fuel : Nat) → Scanner (List α)
  | 0 => return []
  | fuel + 1 => do
    match ← optional s with
    | some a => return a :: (← repeatUpTo s fuel)
    | none => return []

/-- As often as it succeeds. Each time has to take a character, so the input's length is fuel
enough. -/
def many (s : Scanner α) : Scanner (List α) := do
  repeatUpTo s (← get).length

-- ---------------------------------------------------------------------------
-- Blanks and line ends
-- ---------------------------------------------------------------------------

def isBlank (c : Char) : Bool := c = ' ' || c = '\t'

/-- What comments and strings may hold: everything but control characters. -/
def isText (c : Char) : Bool := c = '\t' || (' ' ≤ c && c ≠ '\x7f')

def blanks : Scanner Unit := do
  let _ ← span isBlank

def newline : Scanner Unit := char '\n' <|> exactly "\r\n"

def comment : Scanner Unit := do
  char '#'
  let _ ← span isText

def lineEnd : Scanner Unit := newline <|> atEnd

/-- What may follow on the line of a header or a value. -/
def restOfLine : Scanner Unit := do
  blanks
  let _ ← optional comment
  lineEnd

/-- Blanks, line ends and comments between the elements of an array. -/
def gaps : Scanner Unit := do
  let _ ← many ((do let _ ← span1 isBlank) <|> newline <|> comment)

-- ---------------------------------------------------------------------------
-- Strings
-- ---------------------------------------------------------------------------

def hexDigit : Scanner Nat := do
  let c ← one fun c => ('0' ≤ c && c ≤ '9') || ('a' ≤ c && c ≤ 'f') || ('A' ≤ c && c ≤ 'F')
  return if c ≤ '9' then c.toNat - 48 else if c ≤ 'F' then c.toNat - 55 else c.toNat - 87

/-- A character by its number in `n` hexadecimal digits. -/
def numbered (n : Nat) : Scanner Char := do
  let digits ← (List.replicate n ()).mapM fun _ => hexDigit
  let code := digits.foldl (fun v d => 16 * v + d) 0
  if code.isValidChar then return Char.ofNat code else failure

def escape : Scanner Char := do
  char '\\'
  match ← one fun _ => true with
  | 'b' => return '\x08'
  | 't' => return '\t'
  | 'n' => return '\n'
  | 'f' => return '\x0c'
  | 'r' => return '\r'
  | '"' => return '"'
  | '\\' => return '\\'
  | 'u' => numbered 4
  | 'U' => numbered 8
  | _ => failure

def basicString : Scanner String := do
  char '"'
  let body ← many (one (fun c => isText c && c ≠ '"' && c ≠ '\\') <|> escape)
  char '"'
  return String.ofList body

def literalString : Scanner String := do
  char '\''
  let body ← span fun c => isText c && c ≠ '\''
  char '\''
  return String.ofList body

/-- A backslash at the end of a line, with the blanks and line ends that it takes away. -/
def joinedLines : Scanner Unit := do
  char '\\'
  blanks
  newline
  let _ ← many ((do let _ ← span1 isBlank) <|> newline)

/-- One or two quotes that do not end the string. -/
def innerQuotes (quote : Char) : Scanner (List Char) := do
  let run ← span1 (· = quote)
  if run.length < 3 then return run else failure

/-- The quotes at the end of a string of several lines. Up to two before the last three belong
to the string. -/
def closingQuotes (quote : Char) : Scanner (List Char) := do
  let run ← span1 (· = quote)
  if 3 ≤ run.length ∧ run.length ≤ 5 then return run.drop 3 else failure

/-- A string of several lines between triple quotes. A line end behind the opening quotes does
not belong to it. -/
def multiline (quote : Char) (piece : Scanner (List Char)) : Scanner String := do
  exactly (String.ofList [quote, quote, quote])
  let _ ← optional newline
  let body ← many (piece <|> (do newline; return ['\n']) <|> innerQuotes quote)
  return String.ofList (body.flatten ++ (← closingQuotes quote))

def multilineBasic : Scanner String :=
  multiline '"' <|
    span1 (fun c => isText c && c ≠ '"' && c ≠ '\\') <|>
    (do joinedLines; return []) <|>
    (do return [← escape])

def multilineLiteral : Scanner String := multiline '\'' (span1 fun c => isText c && c ≠ '\'')

def string : Scanner String :=
  multilineBasic <|> basicString <|> multilineLiteral <|> literalString

-- ---------------------------------------------------------------------------
-- Keys
-- ---------------------------------------------------------------------------

def isBare (c : Char) : Bool := c.isAlphanum || c = '-' || c = '_'

def simpleKey : Scanner String :=
  basicString <|> literalString <|> (String.ofList <$> span1 isBare)

/-- The most simple keys that one key may consist of. -/
def maxKeyParts : Nat := 79

/-- Simple keys with dots between them: all but the last, and the last. -/
def key : Scanner (List String × String) := do
  let part : Scanner String := do
    blanks
    let k ← simpleKey
    blanks
    return k
  let first ← part
  let rest ← many (do char '.'; part)
  let all := first :: rest
  if maxKeyParts < all.length then
    failure
  return (all.dropLast, all.getLast?.getD first)

end Scanner

end FormatFuzz.Toml
