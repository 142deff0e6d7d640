-- SUMMARY: Closures over a tree, as finitely many reads with an answer each.
import FormatFuzz.Error
import FormatFuzz.NodeId
import FormatFuzz.Random.Generator
import FormatFuzz.Value

/-!
# Scripts

A deferred value or a predicate looks at the tree around the node that it belongs to, and at
nothing else. So it is given by what it asks and by how it goes on after each answer: a script.
How the tree answers is told in `FormatFuzz.Tree.Resolve`.

A script sees the error of a question as an answer like any other and may go on after it; the
monad structure passes the first error on.
-/

namespace FormatFuzz

/-- A read of the tree. Paths start at the composite around the reading node. -/
inductive Query where
  | bytes (path : String)
  | value (path : String)
  /-- Element count of a repeated group. -/
  | count (path : String)
  | length (path : String)
  /-- Distance from the beginning of the root. -/
  | offset (path : String)
  /-- The node at a path. The question is not recorded as a read. -/
  | field (path : String)
  | fullName (id : NodeId)
  /-- The composite around the reading node. -/
  | base
  /-- The reading node. -/
  | reader
  /-- A generator of the reading node's own, the same on every resolution. -/
  | generator

/-- What a read is answered with. -/
def Query.Answer : Query → Type
  | .bytes _ => Bytes
  | .value _ => Value
  | .count _ | .length _ | .offset _ => Nat
  | .field _ | .base | .reader => NodeId
  | .fullName _ => String
  | .generator => Generator

inductive Script (α : Type) where
  | done (result : Except TreeError α)
  | ask (q : Query) (next : Except TreeError q.Answer → Script α)

namespace Script

variable {α β : Type}

def bind (s : Script α) (f : α → Script β) : Script β :=
  match s with
  | .done (.ok a) => f a
  | .done (.error e) => .done (.error e)
  | .ask q next => .ask q fun r => (next r).bind f

/-- Goes on with `handle` after an error. -/
def orElse (s : Script α) (handle : TreeError → Script α) : Script α :=
  match s with
  | .done (.ok a) => .done (.ok a)
  | .done (.error e) => handle e
  | .ask q next => .ask q fun r => (next r).orElse handle

instance : Monad Script where
  pure a := .done (.ok a)
  bind := bind

instance : MonadExceptOf TreeError Script where
  throw e := .done (.error e)
  tryCatch := orElse

-- ---------------------------------------------------------------------------
-- Single questions
-- ---------------------------------------------------------------------------

def get (q : Query) : Script q.Answer := .ask q .done

def bytes (path : String) : Script Bytes := get (.bytes path)

def value (path : String) : Script Value := get (.value path)

/-- The value at a path as an integer. Bytes are none. -/
def int (path : String) : Script Int := do
  let v ← value path
  match v.int? with
  | some i => return i
  | none => throw (.unknownValueKind path v.kindName)

def flag (path : String) : Script Bool := return (← value path).holds

def count (path : String) : Script Nat := get (.count path)

def length (path : String) : Script Nat := get (.length path)

def offset (path : String) : Script Nat := get (.offset path)

def field (path : String) : Script NodeId := get (.field path)

def fullName (id : NodeId) : Script String := get (.fullName id)

def base : Script NodeId := get .base

def reader : Script NodeId := get .reader

def generator : Script Generator := get .generator

end Script

end FormatFuzz
