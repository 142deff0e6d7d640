-- SUMMARY: A snapshot of a subtree for people to read.
import FormatFuzz.Json
import FormatFuzz.Text.Utf8
import FormatFuzz.Tree.Basic

/-!
# Descriptions

Names, kinds, abbreviated cells and caches of a subtree. Nothing is resolved for it.
-/

namespace FormatFuzz

namespace Cell

/-- The longest text shown in full. -/
def summaryLength : Nat := 20

/-- Longer texts are cut, and end in three dots. -/
def abbreviate (text : String) : String :=
  if text.length ≤ summaryLength then text
  else String.ofList (text.toList.take (summaryLength - 3)) ++ "..."

def abbreviateBytes (b : Bytes) : String := abbreviate (Utf8.decodeLossy b)

def summary : Cell → Json
  | .unset => .null
  | .literal v => .str (abbreviateBytes v.text)
  | .deferred _ => .str "<deferred>"
  | .computed t sources => .str (t.name ++ "(" ++ ", ".intercalate sources ++ ")")
  | .bound (.path path) => .str s!"-> {path}"
  | .bound (.element _ index field) => .str s!"-> [{index}].{field}"

end Cell

namespace Tree

/-- What is told of a node, given the descriptions of its children. -/
def describeNode (n : Node) (children : List Json) : Json :=
  .obj <|
    [("name", .str n.name), ("kind", .str n.kind.name), ("value", n.cell.summary),
      ("cache", match n.cache with
        | some b => .str (Cell.abbreviateBytes b)
        | none => .null)] ++
    (n.action.toList.map fun t => ("action", .str t.name)) ++
    (if n.hidden then [("hidden", .bool true)] else []) ++
    (if n.kind.isRepeated then [("count", .num n.children.length)] else []) ++
    (if n.children.isEmpty then [] else [("children", .arr children)])

/-- Children stand behind their parents in the arena, so the places that follow a node are as
deep as it goes below it. -/
def describeAt (t : Tree) : (fuel : Nat) → (id : NodeId) → Except TreeError Json
  | 0, id => .error (.unknownNode id.index)
  | fuel + 1, id => do
    let n ← t.node id
    return describeNode n (← n.children.mapM (describeAt t fuel))

def describe (t : Tree) (id : NodeId) : Except TreeError Json :=
  t.describeAt (t.nodes.size - id.index) id

end Tree

end FormatFuzz
