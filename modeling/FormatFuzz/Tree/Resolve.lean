-- SUMMARY: Values, bytes, lengths and offsets of nodes.
import FormatFuzz.Tree.Groups

/-!
# Resolution

What a node resolves to hangs on what its cell reads, and that may be anywhere in the tree. The
four questions that call on each other (`Request`) are answered by one step each, over a
parameter `ask` for the questions further down, and `Tree.resolve` ties the knot with a depth
that no tree of the same weight needs.

A node that is being resolved is on the stack `Tree.resolving`, and meeting it again is an
error. The length of a node is worked out without its bytes where that is possible, which is
what lets an offset stand in front of the data that it points past.
-/

namespace FormatFuzz

-- ---------------------------------------------------------------------------
-- Leaves
-- ---------------------------------------------------------------------------

namespace LeafKind

/-- The random value of an unset leaf. -/
def draw (g : Generator) : LeafKind → Except TreeError Value
  | .int spec =>
    let (min, max) := inOrder spec.min spec.max
    .ok (.int (g.intIn min max).1)
  | .str spec =>
    let (min, max) := inOrder spec.minLength spec.maxLength
    let (length, g) := g.natIn min max
    let charset := if spec.charset.isEmpty then letters else spec.charset
    .ok (.bytes (g.picks charset length).1)
  | .bool => .ok (.bool g.bool.1)
  | .custom codec => codec.defaultValue g

/-- The bytes of a value in a leaf, whose name is needed for the error message only. -/
def encode (name : String) (v : Value) : LeafKind → Except TreeError Bytes
  | .int spec =>
    match v.int? with
    | some i => .ok (spec.packing.pack i)
    | none => .error (.unknownValueKind name v.kindName)
  | .str spec => .ok (spec.fillUp v.text)
  | .bool =>
    match v with
    | .bytes _ => .error (.unknownValueKind name v.kindName)
    | v => .ok [if v.holds then 1 else 0]
  | .custom codec => codec.encode v

/-- The length that all values of a leaf without an output transform have, as far as it is known
without looking at them. -/
def fixedLength? : LeafKind → Option Nat
  | .int spec => some spec.packing.width
  | .bool => some 1
  | .str _ | .custom _ => none

end LeafKind

-- ---------------------------------------------------------------------------
-- Scripts
-- ---------------------------------------------------------------------------

/-- Runs a script on answers that may change the tree. -/
def Script.eval {α : Type} (answer : (q : Query) → TreeM q.Answer) : Script α → TreeM α
  | .done r => TreeM.lift r
  | .ask q next => do eval answer (next (← TreeM.outcome (answer q)))

-- ---------------------------------------------------------------------------
-- Requests
-- ---------------------------------------------------------------------------

/-- A question about a node whose answer may depend on the whole tree. -/
inductive Request where
  | bytes (id : NodeId)
  | value (id : NodeId)
  | length (id : NodeId)
  /-- The bytes of `within` in front of `target`. -/
  | lengthUpTo (within target : NodeId)

def Request.Answer : Request → Type
  | .bytes _ => Bytes
  | .value _ => Value
  | .length _ | .lengthUpTo .. => Nat

/-- Answers all requests. -/
abbrev Resolver := (r : Request) → TreeM r.Answer

namespace Resolver

open TreeM

-- ---------------------------------------------------------------------------
-- The stack
-- ---------------------------------------------------------------------------

/-- Puts a node on the stack, unless it is on it. -/
def enter (id : NodeId) : TreeM Unit := do
  let t ← get
  if id ∈ t.resolving then
    throw (.cyclicDependency (t.nameOrPlace id))
  modify fun t => { t with resolving := id :: t.resolving }

def leave : TreeM Unit := modify fun t => { t with resolving := t.resolving.tail }

/-- Runs an operation with a node on the stack, and takes the node off it whatever happens. -/
def guarded {α : Type} (id : NodeId) (act : TreeM α) : TreeM α := do
  enter id
  let result ← outcome act
  leave
  lift result

-- ---------------------------------------------------------------------------
-- Answers to scripts
-- ---------------------------------------------------------------------------

/-- The node at a path, noted as read. -/
def readNode (base reader : NodeId) (path : String) : TreeM NodeId := do
  let id ← Tree.find base path
  modify (·.noteReader id reader)
  return id

/-- How the tree answers a script of the node `reader`. Anything in front of a field can move it,
so an offset is noted as a read of the root. -/
def answer (ask : Resolver) (base reader : NodeId) : (q : Query) → TreeM q.Answer
  | .bytes path => do ask (.bytes (← readNode base reader path))
  | .value path => do ask (.value (← readNode base reader path))
  | .count path => do Tree.count (← readNode base reader path)
  | .length path => do ask (.length (← readNode base reader path))
  | .offset path => do
    let id ← Tree.find base path
    modify fun t => t.noteReader t.root reader
    let _ ← look (·.node id)
    ask (.lengthUpTo (← get).root id)
  | .field path => Tree.find base path
  | .fullName id => look (·.fullName id)
  | .base => return base
  | .reader => return reader
  | .generator => look (·.generator reader .closures)

def runScript {α : Type} (ask : Resolver) (id : NodeId) (s : Script α) : TreeM α := do
  let base ← look (·.enclosing id)
  s.eval (answer ask base id)

-- ---------------------------------------------------------------------------
-- Cells
-- ---------------------------------------------------------------------------

/-- The node that a binding of `id` leads to. -/
def bindingTarget (id : NodeId) : Binding → TreeM NodeId
  | .path path => do
    let base ← look (·.enclosing id)
    match ← outcome (Tree.find base path) with
    | .ok target => return target
    | .error _ => throw (.bindingUnresolved ((← get).nameOrPlace id) path)
  | .element group index field => do
    let target := s!"{(← get).nameOrPlace group}[{index}].{field}"
    unless (← get).isLive group do
      throw (.bindingUnresolved ((← get).nameOrPlace id) target)
    let _ ← Tree.count group
    modify (·.noteReader group id)
    match (← look (·.children group))[index]? with
    | none => throw (.bindingUnresolved ((← get).nameOrPlace id) target)
    | some element =>
      if field.isEmpty then
        return element
      match ← outcome (Tree.find element field) with
      | .ok target => return target
      | .error _ => throw (.bindingUnresolved ((← get).nameOrPlace id) target)

/-- The value that a node's cell reduces to, if it is set. -/
def cellValue (ask : Resolver) (id : NodeId) : TreeM (Option Value) := do
  match ← look (·.cell id) with
  | .unset => return none
  | .literal v => return some v
  | .deferred s => return some (← runScript ask id s)
  | .computed t sources => return some (← runScript ask id (Cell.compute t sources))
  | .bound binding =>
    let target ← bindingTarget id binding
    modify (·.noteReader target id)
    return some (← ask (.value target))

/-- The random value of a leaf; other nodes have their bytes for one. -/
def randomValue (ask : Resolver) (id : NodeId) : TreeM Value := do
  match ← look (·.look id (·.kind)) with
  | .leaf kind =>
    let g ← look (·.generator id .defaults)
    lift (kind.draw g)
  | _ => return .bytes (← ask (.bytes id))

def leafContent (ask : Resolver) (id : NodeId) : TreeM Value := do
  match ← cellValue ask id with
  | some v => return v
  | none => randomValue ask id

-- ---------------------------------------------------------------------------
-- Bytes
-- ---------------------------------------------------------------------------

/-- The bytes of a value in a node. -/
def encode (t : Tree) (id : NodeId) (v : Value) : Except TreeError Bytes := do
  match (← t.node id).kind with
  | .leaf kind => kind.encode (t.nameOrPlace id) v
  | _ => return v.text

/-- The bytes of a node before its output transform: a leaf's encoded value, or the value of any
other node as text, or else the bytes of its visible children. -/
def rawBytes (ask : Resolver) (id : NodeId) (kind : NodeKind) : TreeM Bytes := do
  if kind.isLeaf then
    let v ← leafContent ask id
    look (encode · id v)
  else
    if kind.isRepeated then
      Tree.touch id
    match ← cellValue ask id with
    | some v => return v.text
    | none => return (← (← look (·.shownChildren id)).mapM fun child => ask (.bytes child)).flatten

/-- The bytes of a node from scratch. -/
def freshBytes (ask : Resolver) (id : NodeId) : TreeM Bytes := do
  let kind ← look (·.look id (·.kind))
  let raw ← rawBytes ask id kind
  match ← look (·.look id (·.action)) with
  | none => return raw
  | some transform =>
    match ← runScript ask id (transform.run [raw]) with
    | .bytes b => return b
    | v => if kind.isLeaf then look (encode · id v) else return v.text

/-- The cached bytes, or new ones for the cache. -/
def bytesStep (ask : Resolver) (id : NodeId) : TreeM Bytes := do
  match (← look (·.node id)).cache with
  | some cached => return cached
  | none =>
    let b ← guarded id (freshBytes ask id)
    update fun t => do
      let _ ← t.node id
      return t.modify id ({ · with cache := some b })
    return b

/-- The value of a leaf; other nodes have their bytes for one. -/
def valueStep (ask : Resolver) (id : NodeId) : TreeM Value := do
  if ← look (·.isLeaf id) then
    guarded id (leafContent ask id)
  else
    return .bytes (← ask (.bytes id))

-- ---------------------------------------------------------------------------
-- Lengths
-- ---------------------------------------------------------------------------

/-- How the length of a node is found out when its bytes are not cached. -/
inductive LengthRule where
  | fixed (n : Nat)
  /-- The codec alone knows, whether there are cached bytes or not. -/
  | codec (codec : Codec)
  | encode
  | children

def lengthRule (n : Node) : LengthRule :=
  if n.action.isSome then
    .encode
  else
    match n.kind with
    | .leaf (.custom codec) => .codec codec
    | .leaf kind =>
      match kind.fixedLength? with
      | some n => .fixed n
      | none => .encode
    | _ => if n.cell.isUnset then .children else .encode

def lengthStep (ask : Resolver) (id : NodeId) : TreeM Nat := do
  let n ← look (·.node id)
  match lengthRule n, n.cache with
  | .codec codec, _ => lift codec.fixedLength
  | _, some cached => return cached.length
  | .fixed n, none => return n
  | .encode, none =>
    let b : Bytes ← ask (.bytes id)
    return b.length
  | .children, none =>
    if n.kind.isRepeated then
      Tree.touch id
    (← look (·.shownChildren id)).foldlM (fun total child => do
      let n : Nat ← ask (.length child)
      return total + n) 0

/-- The lengths of the visible children in front of the target, or of the child that holds it. -/
def lengthBefore (ask : Resolver) (target : NodeId) : (children : List NodeId) → TreeM Nat
  | [] => return 0
  | child :: rest => do
    if child = target then
      return 0
    if (← get).contains child target then
      ask (.lengthUpTo child target)
    else
      let n : Nat ← if ← look (·.isHidden child) then pure 0 else ask (.length child)
      return n + (← lengthBefore ask target rest)

def lengthUpToStep (ask : Resolver) (within target : NodeId) : TreeM Nat := do
  if within = target then
    return 0
  if ← look (·.isGroup within) then
    Tree.touch within
  lengthBefore ask target (← look (·.children within))

-- ---------------------------------------------------------------------------
-- The knot
-- ---------------------------------------------------------------------------

def step (ask : Resolver) : Resolver
  | .bytes id => bytesStep ask id
  | .value id => valueStep ask id
  | .length id => lengthStep ask id
  | .lengthUpTo within target => lengthUpToStep ask within target

/-- Answers a request, nested to a given depth. -/
def resolve : (depth : Nat) → Resolver
  | 0, _ => throw .nestingLimit
  | depth + 1, r => step (resolve depth) r

/-- A request leads down the tree three times at most, once to the end of an offset and once each
for a length and for bytes, before it enters a node that was not on the stack. -/
def depthFor (t : Tree) : Nat := nestingReserve + (t.weight + 2) * (3 * t.weight + 3)

/-- Answers a request. -/
def answerAll (r : Request) : TreeM r.Answer := do
  resolve (depthFor (← get)) r

end Resolver

-- ---------------------------------------------------------------------------
-- Operations
-- ---------------------------------------------------------------------------

namespace Tree

open Resolver

/-- The bytes that a node resolves to. -/
def bytes (id : NodeId) : TreeM Bytes := answerAll (.bytes id)

/-- The value that a node resolves to. -/
def value (id : NodeId) : TreeM Value := answerAll (.value id)

/-- The number of bytes that a node resolves to. -/
def byteLength (id : NodeId) : TreeM Nat := answerAll (.length id)

/-- The distance of a node from the beginning of the root. -/
def offset (id : NodeId) : TreeM Nat := do
  let _ ← TreeM.look (·.node id)
  answerAll (.lengthUpTo (← get).root id)

/-- Replaces a node's cell. -/
def replaceCell (id : NodeId) (cell : Cell) : TreeM Unit := TreeM.update (·.setCell id cell)

end Tree

end FormatFuzz
