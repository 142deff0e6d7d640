-- SUMMARY: JSON documents and their indented text.
import FormatFuzz.Text.Quoted

/-!
# JSON

The documents that the library produces: descriptions of trees and the index of a run. The
index is written as text, two blanks a level (`Json.pretty`).
-/

namespace FormatFuzz

inductive Json where
  | null
  | bool (b : Bool)
  | num (n : Int)
  | str (s : String)
  | arr (items : List Json)
  | obj (fields : List (String × Json))

namespace Json

/-- Four hexadecimal digits. -/
def hexWord (n : Nat) : String :=
  String.ofList ((Text.hexNat n).toList.leftpad 4 '0')

/-- Quotes, backslashes and control characters are escaped, and nothing else. -/
def escape (c : Char) : String :=
  match c with
  | '"' => "\\\""
  | '\\' => "\\\\"
  | '\n' => "\\n"
  | '\r' => "\\r"
  | '\t' => "\\t"
  | '\x08' => "\\b"
  | '\x0c' => "\\f"
  | c => if c.toNat < 0x20 then "\\u" ++ hexWord c.toNat else c.toString

def quote (s : String) : String := "\"" ++ String.join (s.toList.map escape) ++ "\""

def indent (level : Nat) : String := "".pushn ' ' (2 * level)

/-- Items between brackets, each on a line of its own. -/
def block (level : Nat) (opening closing : String) (items : List String) : String :=
  if items.isEmpty then
    opening ++ closing
  else
    let lines := items.map (indent (level + 1) ++ ·)
    opening ++ "\n" ++ ",\n".intercalate lines ++ "\n" ++ indent level ++ closing

mutual

/-- The text of a document at a level of indentation. -/
def prettyAt (level : Nat) : Json → String
  | .null => "null"
  | .bool b => toString b
  | .num n => toString n
  | .str s => quote s
  | .arr items => block level "[" "]" (prettyItems level items)
  | .obj fields => block level "\x7b" "\x7d" (prettyFields level fields)

def prettyItems (level : Nat) : List Json → List String
  | [] => []
  | item :: rest => prettyAt (level + 1) item :: prettyItems level rest

def prettyFields (level : Nat) : List (String × Json) → List String
  | [] => []
  | (key, item) :: rest =>
    (quote key ++ ": " ++ prettyAt (level + 1) item) :: prettyFields level rest

end

def pretty (j : Json) : String := j.prettyAt 0

end Json

end FormatFuzz
