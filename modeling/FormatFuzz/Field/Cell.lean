-- SUMMARY: Cells: where a field's value comes from.
import FormatFuzz.Field.Transform

/-! # Cells -/

namespace FormatFuzz

/-- What a bound cell takes its value from. -/
inductive Binding where
  /-- The node at a path from the composite around the bound node. -/
  | path (p : String)
  /-- A field of an element of a repeated group. An empty field is the element itself. -/
  | element (group : NodeId) (index : Nat) (field : String)
  deriving DecidableEq, Repr

/-- The debug description. -/
def Binding.debug : Binding → String
  | .path p => s!"Path({Text.quote p})"
  | .element group index field =>
    Text.record "Element"
      [("group", group.debug), ("index", toString index), ("field", Text.quote field)]

inductive Cell where
  /-- No value: a random default is drawn. -/
  | unset
  | literal (v : Value)
  /-- Worked out on every resolution. -/
  | deferred (s : Script Value)
  /-- A transform of the bytes at the source paths. -/
  | computed (t : Transform) (sources : List String)
  | bound (b : Binding)

namespace Cell

/-- The offset of the field at a path, measured from the root. -/
def offsetOf (path : String) : Cell := .deferred do return .ofNat (← Script.offset path)

def isUnset : Cell → Bool
  | .unset => true
  | _ => false

def kindName : Cell → String
  | .unset => "unset"
  | .literal _ => "literal"
  | .deferred _ => "deferred"
  | .computed .. => "computed"
  | .bound _ => "bound"

/-- The debug description. -/
def debug : Cell → String
  | .unset => "Unset"
  | .literal v => s!"Literal({v.debug})"
  | .deferred _ => "Deferred(..)"
  | .computed t sources =>
    Text.record "Computed"
      [("transform", Text.quote t.name), ("sources", Text.bracketed (sources.map Text.quote))]
  | .bound b => s!"Bound({b.debug})"

/-- Reads the sources in order and transforms their bytes. -/
def compute (t : Transform) (sources : List String) : Script Value := do
  t.run (← sources.mapM Script.bytes)

end Cell

end FormatFuzz
