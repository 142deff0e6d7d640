-- SUMMARY: Texts in double quotes, and the layout of nested debug descriptions.
import FormatFuzz.Text.Printable

/-!
# Quoted texts

The debug description of a cell or an action shows each text between double quotes. A quote,
a backslash, a tabulator, a line feed, a carriage return and a NUL have escapes of their own;
every other character that is not printable is shown by its code point.
-/

namespace FormatFuzz.Text

/-- Lower-case hexadecimal digits without leading zeros. -/
def hexNat (n : Nat) : String := String.ofList (Nat.toDigits 16 n)

def escape (c : Char) : String :=
  match c with
  | '"' => "\\\""
  | '\\' => "\\\\"
  | '\t' => "\\t"
  | '\n' => "\\n"
  | '\r' => "\\r"
  | '\x00' => "\\0"
  | c => if isPrintable c then c.toString else "\\u\x7b" ++ hexNat c.toNat ++ "\x7d"

/-- The text in quotes, escaped. -/
def quote (s : String) : String := "\"" ++ String.join (s.toList.map escape) ++ "\""

/-- Items in square brackets, separated by commas. -/
def bracketed (items : List String) : String := "[" ++ ", ".intercalate items ++ "]"

/-- A record: its name and its labelled fields in braces. -/
def record (name : String) (fields : List (String × String)) : String :=
  let shown := fields.map fun (label, value) => label ++ ": " ++ value
  name ++ " \x7b " ++ ", ".intercalate shown ++ " \x7d"

end FormatFuzz.Text
