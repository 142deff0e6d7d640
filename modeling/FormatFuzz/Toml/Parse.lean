-- SUMMARY: Reading TOML documents.
import FormatFuzz.Toml.Scalar

/-!
# Reading TOML

Values, then lines. Each header closes the table before it; the table of the last header takes
the values that follow, and goes into the document when it is closed.
-/

namespace FormatFuzz.Toml

namespace Scanner

-- ---------------------------------------------------------------------------
-- Values
-- ---------------------------------------------------------------------------

/-- Items separated by commas. -/
def separated {α : Type} (item : Scanner α) : Scanner (List α) := do
  match ← optional item with
  | none => return []
  | some first => return first :: (← many (do char ','; item))

/-- An array may run over several lines and end in a comma. -/
def array (value : Scanner Document) : Scanner Document := do
  char '['
  let items ← separated do
    gaps
    let v ← value
    gaps
    return v
  unless items.isEmpty do
    let _ ← optional (char ',')
  gaps
  char ']'
  return .array items

def keyValue (value : Scanner Document) : Scanner ((List String × String) × Document) := do
  let k ← key
  char '='
  blanks
  return (k, ← value)

/-- An inline table stands on one line, does not end in a comma, and is finished at its end. -/
def inlineTable (value : Scanner Document) : Scanner Document := do
  char '\x7b'
  let pairs ← separated do
    let pair ← keyValue value
    blanks
    return pair
  blanks
  char '\x7d'
  let t ← StateT.lift (pairs.foldlM (fun t ((path, key), v) => t.addValue path key v) Table.new)
  return t.toDocument

/-- The deepest nesting of arrays and inline tables. -/
def maxNesting : Nat := 79

/-- A value with arrays and inline tables nested to a given depth at most. -/
def value : (depth : Nat) → Scanner Document
  | 0 => scalar
  | depth + 1 => do
    match ← peek? with
    | some '[' => array (value depth)
    | some '\x7b' => inlineTable (value depth)
    | _ => scalar

end Scanner

-- ---------------------------------------------------------------------------
-- Tables
-- ---------------------------------------------------------------------------

/-- The table that values are being added to. -/
structure Section where
  /-- Where the table goes when it is closed: the root, if there is no place. -/
  place : Option (List String × String) := none
  isElement : Bool := false
  table : Table := .new

structure State where
  root : Table := .new
  current : Section := {}

namespace State

/-- Puts the current table in its place. -/
def close (s : State) : Option Table :=
  match s.current.place with
  | none => some s.current.table
  | some (path, key) =>
    let insert := fun (parent : Table) =>
      let put := fun item => some (parent.withEntries (Table.put key item parent.entries))
      match parent.entries.lookup key, s.current.isElement with
      | none, false => put (.table s.current.table)
      | some (.table t), false => if t.isImplicit then put (.table s.current.table) else none
      | none, true => put (.tables [s.current.table])
      | some (.tables ts), true => put (.tables (s.current.table :: ts))
      | _, _ => none
    s.root.update false insert path

/-- A header in single brackets begins a table. It may have been made on the way to another one,
but not by a header or by dotted keys. -/
def beginTable (path : List String) (key : String) (s : State) : Option State := do
  let root ← s.close
  let root ← root.update false some path
  let (root, table) ← takeImplicit root
  return { root, current := { place := some (path, key), table } }
where
  /-- The table of the header as far as it is there. -/
  takeImplicit (root : Table) : Option (Table × Table) := do
    let found ← lookup path root
    match found with
    | none => return (root, .new)
    | some (.table t) =>
      if t.isImplicit && !t.isDotted then return (root, .mk false false t.entries) else none
    | some _ => none
  /-- What stands under the key of the table at a path. -/
  lookup : List String → Table → Option (Option Item)
    | [], t => some (t.entries.lookup key)
    | k :: path, t =>
      match t.entries.lookup k with
      | some (.table t) => lookup path t
      | some (.tables (last :: _)) => lookup path last
      | _ => none

/-- A header in double brackets begins an element of an array of tables. -/
def beginElement (path : List String) (key : String) (s : State) : Option State := do
  let root ← s.close
  let check := fun (parent : Table) =>
    match parent.entries.lookup key with
    | none | some (.tables _) => some parent
    | _ => none
  let root ← root.update false check path
  return { root, current := { place := some (path, key), isElement := true } }

def addValue (path : List String) (key : String) (v : Document) (s : State) : Option State := do
  return { s with current := { s.current with table := ← s.current.table.addValue path key v } }

end State

-- ---------------------------------------------------------------------------
-- Lines
-- ---------------------------------------------------------------------------

namespace Scanner

/-- A header, and what it does. -/
def header : Scanner (State → Option State) := do
  char '['
  if (← peek?) = some '[' then
    char '['
    let (path, k) ← key
    exactly "]]"
    restOfLine
    return State.beginElement path k
  else
    let (path, k) ← key
    char ']'
    restOfLine
    return State.beginTable path k

/-- A line, and what it does. -/
def line : Scanner (State → Option State) := do
  let step ← match ← peek? with
    | some '#' => do comment; lineEnd; pure some
    | some '[' => header
    | some '\n' | some '\r' => do newline; pure some
    | _ => do
      let ((path, k), v) ← keyValue (value maxNesting)
      restOfLine
      pure (State.addValue path k v)
  blanks
  return step

def lines : Scanner (List (State → Option State)) := do
  let _ ← optional (char '\ufeff')
  blanks
  let steps ← many line
  atEnd
  return steps

end Scanner

/-- The entries of a document, if the text is one. -/
def parse? (text : String) : Option Document := do
  let (steps, _) ← Scanner.lines.run text.toList
  let s ← steps.foldlM (fun s step => step s) {}
  return (← s.close).toDocument

end FormatFuzz.Toml
