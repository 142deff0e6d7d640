-- SUMMARY: The tree of nodes: its arena, its structure, and the names of nodes in it.
import FormatFuzz.Digest.Md5
import FormatFuzz.Field.Template

/-!
# Trees

Nodes live in an arena and refer to each other by their places in it: a parent lists its
children, a child knows its parent. Discarded nodes leave an empty place behind, and places are
never used again, so that an identifier that has died stays dead.

This module has the state and everything that only looks at it. Caches are in
`FormatFuzz.Tree.Cache`, repeated groups and paths in `FormatFuzz.Tree.Groups`, and values and
bytes in `FormatFuzz.Tree.Resolve`.
-/

namespace FormatFuzz

-- ---------------------------------------------------------------------------
-- Nodes
-- ---------------------------------------------------------------------------

/-- How far a group is with its elements. -/
inductive Phase where
  | uninit
  | initializing
  | ready
  /-- The group that this one follows has changed its count. -/
  | stale
  deriving DecidableEq, Repr

structure Group where
  element : Template
  rule : Multiplicity
  phase : Phase := .uninit
  /-- The groups whose count follows this one's, in ascending order. -/
  watchers : List NodeId := []

inductive NodeKind where
  | leaf (kind : LeafKind)
  | composite
  | repeated (group : Group)

namespace NodeKind

def isLeaf : NodeKind → Bool
  | .leaf _ => true
  | _ => false

def isComposite : NodeKind → Bool
  | .composite => true
  | _ => false

def isRepeated : NodeKind → Bool
  | .repeated _ => true
  | _ => false

def group? : NodeKind → Option Group
  | .repeated group => some group
  | _ => none

def name : NodeKind → String
  | .leaf kind => kind.name
  | .composite => "composite"
  | .repeated _ => "repeated"

end NodeKind

structure Node where
  name : String
  parent : Option NodeId
  kind : NodeKind
  children : List NodeId := []
  cell : Cell
  action : Option Transform
  /-- The bytes that the node last resolved to, unless something has changed since. -/
  cache : Option Bytes := none
  hidden : Bool
  fuzz : FieldOptions
  /-- The nodes that have read this one, in ascending order. -/
  dependents : List NodeId := []

namespace Node

/-- Where a change of a node goes on to: its parent and its dependents. -/
def reaches (n : Node) : List NodeId := n.parent.toList ++ n.dependents

/-- How much a node weighs: itself, and for a group the template of its elements. -/
def weight (n : Node) : Nat :=
  match n.kind with
  | .repeated group => 1 + group.element.size
  | _ => 1

end Node

-- ---------------------------------------------------------------------------
-- The arena
-- ---------------------------------------------------------------------------

structure Tree where
  nodes : Array (Option Node)
  root : NodeId
  seed : UInt64
  /-- The next number of each counter that has been used. -/
  counters : List (String × Int)
  /-- The nodes being resolved, innermost first. -/
  resolving : List NodeId

namespace Tree

def empty (seed : UInt64) : Tree := ⟨#[], ⟨0⟩, seed, [], []⟩

def node? (t : Tree) (id : NodeId) : Option Node := (t.nodes[id.index]?).join

def node (t : Tree) (id : NodeId) : Except TreeError Node :=
  match t.node? id with
  | some n => .ok n
  | none => .error (.unknownNode id.index)

def isLive (t : Tree) (id : NodeId) : Bool := (t.node? id).isSome

/-- Changes a live node. -/
def modify (t : Tree) (id : NodeId) (f : Node → Node) : Tree :=
  { t with nodes := t.nodes.modify id.index (Option.map f) }

/-- Discards a node. -/
def remove (t : Tree) (id : NodeId) : Tree :=
  { t with nodes := t.nodes.setIfInBounds id.index none }

/-- The live nodes, in the order of their places. -/
def liveNodes (t : Tree) : List Node := t.nodes.toList.filterMap id

theorem isLive_iff {t : Tree} {id : NodeId} : t.isLive id = true ↔ ∃ n, t.node id = .ok n := by
  unfold isLive node
  cases t.node? id <;> simp

-- ---------------------------------------------------------------------------
-- Structure
-- ---------------------------------------------------------------------------

/-- The part of a node that a function selects. -/
def look {α : Type} (t : Tree) (id : NodeId) (f : Node → α) : Except TreeError α :=
  return f (← t.node id)

def name (t : Tree) (id : NodeId) : Except TreeError String := t.look id (·.name)

def parent (t : Tree) (id : NodeId) : Except TreeError (Option NodeId) := t.look id (·.parent)

/-- Children in the order of their bytes, hidden ones included. -/
def children (t : Tree) (id : NodeId) : Except TreeError (List NodeId) := t.look id (·.children)

def isLeaf (t : Tree) (id : NodeId) : Except TreeError Bool := t.look id (·.kind.isLeaf)

def isGroup (t : Tree) (id : NodeId) : Except TreeError Bool := t.look id (·.kind.isRepeated)

def isHidden (t : Tree) (id : NodeId) : Except TreeError Bool := t.look id (·.hidden)

def cell (t : Tree) (id : NodeId) : Except TreeError Cell := t.look id (·.cell)

def options (t : Tree) (id : NodeId) : Except TreeError FieldOptions := t.look id (·.fuzz)

def kindName (t : Tree) (id : NodeId) : Except TreeError String := t.look id (·.kind.name)

/-- The children that contribute bytes. -/
def shownChildren (t : Tree) (id : NodeId) : Except TreeError (List NodeId) := do
  (← t.children id).filterM fun child => return !(← t.isHidden child)

/-- The chain from a node up to and including `ancestor`, if `ancestor` is on it. A node's place
comes after its parent's, so a chain is no longer than the place of its lower end. -/
def climbsTo (t : Tree) (ancestor : NodeId) : (fuel : Nat) → (id : NodeId) → Bool
  | 0, id => id = ancestor
  | fuel + 1, id =>
    id = ancestor ||
      match (t.node? id).bind (·.parent) with
      | some parent => climbsTo t ancestor fuel parent
      | none => false

/-- Is `id` the node `ancestor` or below it? -/
def contains (t : Tree) (ancestor id : NodeId) : Bool := t.climbsTo ancestor id.index id

-- ---------------------------------------------------------------------------
-- Names
-- ---------------------------------------------------------------------------

/-- The names on the way up from a parent, nearest first. The root is left out, and so are
repeated groups, because their elements bear their name already. -/
def namesAbove (t : Tree) : (fuel : Nat) → (parent : Option NodeId) → Except TreeError (List String)
  | _, none | 0, some _ => .ok []
  | fuel + 1, some id => do
    let n ← t.node id
    if n.parent.isNone then
      return []
    let above ← namesAbove t fuel n.parent
    return if n.kind.isRepeated then above else n.name :: above

/-- The names on the way down to a node, separated by dots. -/
def fullName (t : Tree) (id : NodeId) : Except TreeError String := do
  let n ← t.node id
  let above ← t.namesAbove (id.index + 1) n.parent
  return ".".intercalate (n.name :: above).reverse

/-- The full name, or the place of a node that is not live. -/
def nameOrPlace (t : Tree) (id : NodeId) : String :=
  match t.fullName id with
  | .ok name => name
  | .error _ => s!"#{id.index}"

/-- The nearest composite on the way up from a parent. -/
def compositeAbove (t : Tree) :
    (fuel : Nat) → (parent : Option NodeId) → Except TreeError (Option NodeId)
  | _, none | 0, some _ => .ok none
  | fuel + 1, some id => do
    let n ← t.node id
    if n.kind.isComposite then return some id else compositeAbove t fuel n.parent

/-- The composite that the paths of a node's closures start from: the nearest one above it, or
the node itself if there is none. -/
def enclosing (t : Tree) (id : NodeId) : Except TreeError NodeId := do
  let n ← t.node id
  return (← t.compositeAbove (id.index + 1) n.parent).getD id

-- ---------------------------------------------------------------------------
-- Random generators
-- ---------------------------------------------------------------------------

/-- The generators of one node are kept apart by what they are for. -/
inductive Purpose where
  | defaults
  | counts
  | closures
  deriving DecidableEq, Repr

def Purpose.salt : Purpose → UInt64
  | .defaults => 0
  | .counts => 0xc047
  | .closures => 0x5c0e5a17

/-- The first eight bytes of a name's digest as a number. -/
def nameSeed (name : String) : UInt64 :=
  UInt64.ofNat (Bytes.toNat ((Md5.digest (Bytes.ofString name)).take 8))

/-- A generator that depends on the tree's seed, the node's full name and the purpose alone, so
that an unchanged node draws the same again. -/
def generator (t : Tree) (id : NodeId) (purpose : Purpose) : Except TreeError Generator := do
  return .ofSeed (t.seed ^^^ nameSeed (← t.fullName id) ^^^ purpose.salt)

-- ---------------------------------------------------------------------------
-- Weight
-- ---------------------------------------------------------------------------

/-- A sum over the live nodes. -/
def total (f : Node → Nat) (t : Tree) : Nat := t.liveNodes.foldr (fun n rest => f n + rest) 0

/-- The weight of all live nodes. It bounds how deep resolution and initialization nest. -/
def weight (t : Tree) : Nat := t.total Node.weight

end Tree

-- ---------------------------------------------------------------------------
-- Operations on trees
-- ---------------------------------------------------------------------------

/-- Operations that change a tree and may fail. A failure keeps the changes made before it. -/
abbrev TreeM := ExceptT TreeError (StateM Tree)

namespace TreeM

/-- Looks at the tree without changing it. -/
def look {α : Type} (f : Tree → Except TreeError α) : TreeM α := do
  let t ← get
  match f t with
  | .ok a => return a
  | .error e => throw e

/-- The outcome of an operation, failures included. -/
def outcome {α : Type} (act : TreeM α) : TreeM (Except TreeError α) :=
  ExceptT.mk do return .ok (← act.run)

/-- An outcome that is known already. -/
def lift {α : Type} : Except TreeError α → TreeM α
  | .ok a => return a
  | .error e => throw e

end TreeM

end FormatFuzz
