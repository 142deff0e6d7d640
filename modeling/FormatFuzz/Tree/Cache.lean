-- SUMMARY: Invalidation of cached bytes, and the discarding of subtrees.
import FormatFuzz.Tree.Basic

/-!
# Caches

While a node resolves, every node that it reads notes it as a dependent. A change to a node
clears the caches that it can reach: the node's own, its ancestors', and those of everything
that has read one of them (`Tree.invalidate`).
-/

namespace FormatFuzz.Tree

-- ---------------------------------------------------------------------------
-- Dependents
-- ---------------------------------------------------------------------------

/-- Notes that `reader` has read `source`. -/
def noteReader (t : Tree) (source reader : NodeId) : Tree :=
  if source = reader then t
  else t.modify source fun n => { n with dependents := reader.insertInto n.dependents }

/-- The steps that a walk along `reaches` can take in all. -/
def reachLimit (t : Tree) : Nat := t.total (·.reaches.length) + 1

/-- The nodes that a change of the `pending` ones reaches, those in `seen` included. -/
def reachFrom (t : Tree) : (fuel : Nat) → (pending seen : List NodeId) → List NodeId
  | 0, _, seen | _, [], seen => seen
  | fuel + 1, id :: pending, seen =>
    if id ∈ seen then
      reachFrom t fuel pending seen
    else
      match t.node? id with
      | some n => reachFrom t fuel (n.reaches ++ pending) (id :: seen)
      | none => reachFrom t fuel pending (id :: seen)

/-- Everything that a change of a node can reach. -/
def reach (t : Tree) (id : NodeId) : List NodeId := t.reachFrom t.reachLimit [id] []

-- ---------------------------------------------------------------------------
-- Clearing
-- ---------------------------------------------------------------------------

/-- Clears the caches of all nodes that a change of the given one can reach. Whoever has read
one of them has to read it anew, and will be noted again. -/
def invalidate (t : Tree) (id : NodeId) : Tree :=
  (t.reach id).foldl (fun t id => t.modify id ({ · with cache := none, dependents := [] })) t

/-- Clears every cache. -/
def invalidateAll (t : Tree) : Tree :=
  { t with nodes := t.nodes.map (Option.map ({ · with cache := none })) }

-- ---------------------------------------------------------------------------
-- Cells
-- ---------------------------------------------------------------------------

/-- Replaces a node's cell without touching any cache. -/
def putCell (t : Tree) (id : NodeId) (cell : Cell) : Tree := t.modify id ({ · with cell })

/-- Replaces a node's cell and clears everything that may have seen the old one. -/
def setCell (t : Tree) (id : NodeId) (cell : Cell) : Except TreeError Tree := do
  let _ ← t.node id
  return (t.invalidate id).putCell id cell

-- ---------------------------------------------------------------------------
-- Discarding
-- ---------------------------------------------------------------------------

/-- The steps that discarding can take in all. -/
def discardLimit (t : Tree) : Nat := t.total (·.children.length) + 1

/-- Discards the pending nodes and all below them. Readers of a node are reset before it goes,
because what is known of them goes with it. -/
def discardFrom : (fuel : Nat) → (pending : List NodeId) → Tree → Tree
  | 0, _, t | _, [], t => t
  | fuel + 1, id :: pending, t =>
    let t := t.invalidate id
    match t.node? id with
    | some n => discardFrom fuel (n.children.reverse ++ pending) (t.remove id)
    | none => discardFrom fuel pending t

def discard (t : Tree) (id : NodeId) : Tree := discardFrom t.discardLimit [id] t

end FormatFuzz.Tree
