-- SUMMARY: TOML documents, and tables under construction.

/-!
# TOML documents

A document is a table of values. While it is read, a table also remembers how it came about,
because that decides what may still be added to it: a table is defined by one header only, and
dotted keys extend only tables that dotted keys have made.
-/

namespace FormatFuzz.Toml

inductive Document where
  | bool (b : Bool)
  | int (v : Int)
  | text (s : String)
  /-- A floating-point number. What it is makes no difference here. -/
  | float
  /-- A date, a time, or both. -/
  | moment
  | array (items : List Document)
  | table (entries : List (String × Document))
  deriving Inhabited

mutual

/-- What stands under a key of a table under construction. -/
inductive Item where
  /-- A finished value, inline tables included. -/
  | value (d : Document)
  | table (t : Table)
  /-- The elements that headers in double brackets have made, last first. -/
  | tables (ts : List Table)

inductive Table where
  /-- A table is implicit until a header of its own defines it, and dotted if dotted keys have
  made it. -/
  | mk (implicit dotted : Bool) (entries : List (String × Item))

end

namespace Table

def new : Table := .mk false false []

def isImplicit : Table → Bool
  | .mk implicit _ _ => implicit

def isDotted : Table → Bool
  | .mk _ dotted _ => dotted

def entries : Table → List (String × Item)
  | .mk _ _ entries => entries

def withEntries (t : Table) (entries : List (String × Item)) : Table :=
  .mk t.isImplicit t.isDotted entries

/-- Puts an item under a key, in the place of another one if there is one. -/
def put (key : String) (item : Item) : List (String × Item) → List (String × Item)
  | [] => [(key, item)]
  | (other, old) :: rest =>
    if other = key then (key, item) :: rest else (other, old) :: put key item rest

-- ---------------------------------------------------------------------------
-- Descending
-- ---------------------------------------------------------------------------

/-- Changes the table at a path of keys, and makes those on the way that are missing. A path
through an array of tables goes to its last element. A dotted path does not go into a table that
has been defined. -/
def update (dotted : Bool) (f : Table → Option Table) : (path : List String) → Table → Option Table
  | [], t => f t
  | key :: path, t => do
    let item ← match t.entries.lookup key with
      | none => pure (.table (← update dotted f path (.mk true dotted [])))
      | some (.value _) => none
      | some (.table child) =>
        if dotted && !child.isImplicit then none else pure (.table (← update dotted f path child))
      | some (.tables []) => none
      | some (.tables (last :: others)) => pure (.tables ((← update dotted f path last) :: others))
    return t.withEntries (put key item t.entries)

/-- Adds a value under a dotted key. The last table on the way must have been made by dotted
keys, and the key must be new. -/
def addValue (path : List String) (key : String) (d : Document) (t : Table) : Option Table :=
  let insert := fun (t : Table) =>
    if t.isDotted = path.isEmpty || (t.entries.lookup key).isSome then none
    else some (t.withEntries (put key (.value d) t.entries))
  update true insert path t

-- ---------------------------------------------------------------------------
-- Finished tables
-- ---------------------------------------------------------------------------

mutual

def toDocument : Table → Document
  | .mk _ _ entries => .table (entriesToDocuments entries)

def entriesToDocuments : List (String × Item) → List (String × Document)
  | [] => []
  | (key, item) :: rest => (key, itemToDocument item) :: entriesToDocuments rest

def itemToDocument : Item → Document
  | .value d => d
  | .table t => toDocument t
  | .tables ts => .array (tablesToDocuments ts).reverse

def tablesToDocuments : List Table → List Document
  | [] => []
  | t :: rest => toDocument t :: tablesToDocuments rest

end

end Table

end FormatFuzz.Toml
