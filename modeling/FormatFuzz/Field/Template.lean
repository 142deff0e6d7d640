-- SUMMARY: Field templates: the inert description that trees are built from.
import FormatFuzz.Field.Cell
import FormatFuzz.Field.Codec
import FormatFuzz.Field.Integer
import FormatFuzz.Field.Multiplicity
import FormatFuzz.Field.Options
import FormatFuzz.Field.Text

/-!
# Templates

A template describes a field: its name, its kind, where its value comes from, and how it is
transformed and fuzzed. `FormatFuzz.Tree.Groups` turns templates into nodes; a repeated group
keeps the template of its elements, to make more of them when its count changes.
-/

namespace FormatFuzz

/-- A sequence shared by a tree: every node made from a template that declares it takes the next
number. -/
structure Counter where
  name : String
  start : Int
  step : Int
  deriving DecidableEq, Repr

-- ---------------------------------------------------------------------------
-- Templates
-- ---------------------------------------------------------------------------

inductive LeafKind where
  | int (spec : IntField)
  | str (spec : TextField)
  | bool
  | custom (codec : Codec)

def LeafKind.name : LeafKind → String
  | .int _ => "int"
  | .str _ => "str"
  | .bool => "bool"
  | .custom codec => codec.name

/-- What templates of all kinds have. -/
structure Header where
  name : String
  cell : Cell := .unset
  /-- Applied once to the assembled bytes. -/
  action : Option Transform := none
  /-- Hidden fields can be read and contribute no bytes. -/
  hidden : Bool := false
  fuzz : FieldOptions := {}
  counter : Option Counter := none

inductive Template where
  | leaf (header : Header) (kind : LeafKind)
  | composite (header : Header) (fields : List Template)
  | repeated (header : Header) (element : Template) (rule : Multiplicity)

namespace Template

def header : Template → Header
  | .leaf h _ | .composite h _ | .repeated h _ _ => h

def name (t : Template) : String := t.header.name

def kindName : Template → String
  | .leaf _ kind => kind.name
  | .composite .. => "composite"
  | .repeated .. => "repeated"

mutual

/-- The number of templates in a template, elements of groups included. -/
def size : Template → Nat
  | .leaf .. => 1
  | .composite _ fields => 1 + sizes fields
  | .repeated _ element _ => 1 + size element

def sizes : List Template → Nat
  | [] => 0
  | t :: rest => size t + sizes rest

end

-- ---------------------------------------------------------------------------
-- Construction
-- ---------------------------------------------------------------------------

def int (name : String) (packing : Packing) : Template := .leaf { name } (.int { packing })

def string (name : String) : Template := .leaf { name } (.str {})

def boolean (name : String) : Template := .leaf { name } .bool

def custom (name : String) (codec : Codec) : Template := .leaf { name } (.custom codec)

def ofFields (name : String) : Template := .composite { name } []

def group (name : String) (element : Template) (rule : Multiplicity) : Template :=
  .repeated { name } element rule

def mapHeader (f : Header → Header) : Template → Template
  | .leaf h kind => .leaf (f h) kind
  | .composite h fields => .composite (f h) fields
  | .repeated h element rule => .repeated (f h) element rule

/-- Replaces the first field of the same name in its place, or adds the field at the end. -/
def putField (field : Template) : List Template → List Template
  | [] => [field]
  | other :: rest =>
    if other.name = field.name then field :: rest else other :: putField field rest

/-- Adds a field to a composite; other templates stay as they are. -/
def addField (t field : Template) : Template :=
  match t with
  | .composite h fields => .composite h (putField field fields)
  | t => t

/-- The field of a composite by its name. -/
def child? (t : Template) (name : String) : Option Template :=
  match t with
  | .composite _ fields => fields.find? (·.name = name)
  | _ => none

-- ---------------------------------------------------------------------------
-- Options
-- ---------------------------------------------------------------------------

def withCell (cell : Cell) : Template → Template := mapHeader ({ · with cell })

def withAction (t : Transform) : Template → Template := mapHeader ({ · with action := some t })

def hide : Template → Template := mapHeader ({ · with hidden := true })

def withCounter (counter : Counter) : Template → Template :=
  mapHeader ({ · with counter := some counter })

def mapFuzz (f : FieldOptions → FieldOptions) : Template → Template :=
  mapHeader fun h => { h with fuzz := f h.fuzz }

def excluded : Template → Template := mapFuzz ({ · with enabled := false })

def withCandidates (values : List Value) : Template → Template :=
  mapFuzz ({ · with values := some values })

def withExtra (values : List Value) : Template → Template :=
  mapFuzz fun o => { o with extra := o.extra ++ values }

def withMaxLength (n : Nat) : Template → Template := mapFuzz ({ · with maxLength := some n })

/-- Changes the descriptor of an integer field; other fields stay as they are. -/
def mapInt (f : IntField → IntField) : Template → Template
  | .leaf h (.int spec) => .leaf h (.int (f spec))
  | t => t

/-- Changes the descriptor of a text field; other fields stay as they are. -/
def mapStr (f : TextField → TextField) : Template → Template
  | .leaf h (.str spec) => .leaf h (.str (f spec))
  | t => t

def withRange (min max : Int) : Template → Template := mapInt (·.withRange min max)

def withLength (min max : Nat) : Template → Template := mapStr (·.withLength min max)

/-- An empty alphabet changes nothing. -/
def withCharset (charset : Bytes) : Template → Template :=
  mapStr fun spec => if charset.isEmpty then spec else { spec with charset }

def withPad (pad : UInt8) : Template → Template := mapStr ({ · with pad := some pad })

end Template

end FormatFuzz
