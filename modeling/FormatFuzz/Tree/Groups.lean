-- SUMMARY: Repeated groups: their counts, their elements, and the paths that lead through them.
import FormatFuzz.Random.Range
import FormatFuzz.Tree.Build
import FormatFuzz.Tree.Path

/-!
# Groups

A group gets its elements when it is first touched. Its count is fixed, drawn, or that of
another group, which then knows it as a watcher: when the watched group changes its count, the
watcher goes stale and is initialized again at the next touch. Two groups may follow each
other; a group that is asked for its count while it works it out answers with a fallback.

Following a path touches the groups on it, and initializing a group follows paths, so the two
belong together. Each operation here is written over a parameter `init`, which initializes a
group, and the knot is tied by `TreeM.runTask` with a depth that no tree of the same weight
needs.
-/

namespace FormatFuzz

namespace Tree

-- ---------------------------------------------------------------------------
-- Phases and counts
-- ---------------------------------------------------------------------------

def group (t : Tree) (id : NodeId) : Except TreeError Group := do
  match (← t.node id).kind.group? with
  | some group => return group
  | none => throw (.notRepeated (← t.fullName id))

/-- Changes a group; other nodes stay as they are. -/
def modifyGroup (t : Tree) (id : NodeId) (f : Group → Group) : Tree :=
  t.modify id fun n =>
    match n.kind with
    | .repeated group => { n with kind := .repeated (f group) }
    | _ => n

def setPhase (t : Tree) (id : NodeId) (phase : Phase) : Except TreeError Tree := do
  let _ ← t.node id
  return t.modifyGroup id ({ · with phase })

/-- A group that was ready is to be initialized again. -/
def markStale (t : Tree) (id : NodeId) : Tree :=
  t.modifyGroup id fun group =>
    if group.phase = .ready then { group with phase := .stale } else group

/-- A count of the range, whatever the order of its bounds. -/
def randomCount (t : Tree) (id : NodeId) (min max : Nat) : Except TreeError Nat := do
  let (min, max) := inOrder min max
  return ((← t.generator id .counts).natIn min max).1

/-- The count that a group reports while it is working out its own. -/
def provisionalCount (t : Tree) (id : NodeId) : Except TreeError Nat := do
  match (← t.group id).rule with
  | .fixed count => return count
  | .random min max | .bound _ _ min max => t.randomCount id min max

def noSuchField (t : Tree) (start : NodeId) (path : String) : TreeError :=
  .fieldNotFound (t.nameOrPlace start) path

/-- The first child of a name. Children that are not live have none. -/
def childNamed (t : Tree) (id : NodeId) (name : String) : Except TreeError (Option NodeId) := do
  return (← t.children id).find? fun child => (t.node? child).any (·.name = name)

end Tree

namespace TreeM

variable (init : NodeId → TreeM Unit)

/-- Replaces the tree by an operation that may fail and then changes nothing. -/
def update (f : Tree → Except TreeError Tree) : TreeM Unit := do
  set (← look f)

-- ---------------------------------------------------------------------------
-- Touching
-- ---------------------------------------------------------------------------

/-- Initializes a group unless it is ready or on the way. -/
def touchWith (id : NodeId) : TreeM Unit := do
  match (← look (·.group id)).phase with
  | .uninit | .stale => init id
  | .initializing | .ready => return

def countWith (id : NodeId) : TreeM Nat := do
  match (← look (·.group id)).phase with
  | .ready => return (← look (·.children id)).length
  | .initializing => look (·.provisionalCount id)
  | .uninit | .stale =>
    init id
    return (← look (·.children id)).length

-- ---------------------------------------------------------------------------
-- Following paths
-- ---------------------------------------------------------------------------

/-- From a group to the element at an index. -/
def pickWith (failure : Tree → TreeError) (id : NodeId) (index : Nat) : TreeM NodeId := do
  unless ← look (·.isGroup id) do
    throw (failure (← get))
  touchWith init id
  match (← look (·.children id))[index]? with
  | some element => return element
  | none => throw (failure (← get))

def stepWith (failure : Tree → TreeError) (id : NodeId) : Step → TreeM NodeId
  | .malformed => do throw (failure (← get))
  | .climb => do
    let base ← look (·.enclosing id)
    if base = id then throw (failure (← get)) else return base
  | .descend name indices => do
    let id ←
      if name.isEmpty then
        pure id
      else
        match ← look (·.childNamed id name) with
        | some child => pure child
        | none => throw (failure (← get))
    indices.foldlM (pickWith init failure) id

/-- The node at the end of a path. -/
def findWith (start : NodeId) (path : String) : TreeM NodeId := do
  let p := Path.parse path
  let t ← get
  let id := if p.fromRoot then t.root else start
  let _ ← look (·.node id)
  p.steps.foldlM (stepWith init fun t => t.noSuchField start path) id

-- ---------------------------------------------------------------------------
-- Counts
-- ---------------------------------------------------------------------------

/-- The group that a bound group follows. A path that leads nowhere is an unresolved binding,
whatever the reason. -/
def sourceWith (id : NodeId) (path : String) : TreeM NodeId := do
  let base ← look (·.enclosing id)
  match ← outcome (findWith init base path) with
  | .ok source =>
    if ← look (·.isGroup source) then
      return source
    else
      throw (.notRepeated (← look (·.fullName source)))
  | .error _ =>
    let field := match (← get).fullName id with
      | .ok name => name
      | .error _ => ""
    throw (.bindingUnresolved field path)

/-- Works out a group's count by its rule, and enters the group as a watcher of the one that it
follows. -/
def countByRuleWith (id : NodeId) : TreeM Nat := do
  match (← look (·.group id)).rule with
  | .fixed count => return count
  | .random min max => look (·.randomCount id min max)
  | .bound path _ _ _ =>
    let source ← sourceWith init id path
    modify fun t => t.modifyGroup source fun group =>
      { group with watchers := id.insertInto group.watchers }
    countWith init source

-- ---------------------------------------------------------------------------
-- Elements
-- ---------------------------------------------------------------------------

/-- Makes the elements from the one at `index` on. -/
def makeElements (element : Template) (name : String) (id : NodeId) :
    (count index : Nat) → TreeM (List NodeId)
  | 0, _ => return []
  | count + 1, index => do
    let (child, t) := (← get).instantiate element (some s!"{name}[{index}]") (some id)
    set t
    return child :: (← makeElements element name id count (index + 1))

/-- Tells the watchers that are still there that the group has changed its count. -/
def notify (watchers : List NodeId) : TreeM Unit :=
  for watcher in watchers do
    if (← get).isLive watcher then
      modify fun t => (t.markStale watcher).invalidate watcher

/-- Discards the elements of a group and makes new ones. -/
def swapElements (id : NodeId) (element : Template) (old : List NodeId) (count : Nat) :
    TreeM (List NodeId) := do
  modify fun t => t.modify id ({ · with children := [] })
  for child in old do
    modify (·.discard child)
  let name ← look (·.name id)
  let elements ← makeElements element name id count 0
  update fun t => do
    let _ ← t.node id
    return t.modify id ({ · with children := elements })
  return elements

/-- Replaces all elements of a group if the count is a new one. -/
def replaceElementsWith (visit : NodeId → TreeM Unit) (id : NodeId) (count : Nat) : TreeM Unit := do
  let old ← look (·.children id)
  if old.length = count then
    return
  let group ← look (·.group id)
  let elements ← swapElements id group.element old count
  for element in elements do
    visit element
  modify (·.invalidate id)
  notify group.watchers

/-- Binds the fields of an element by the pairs of the group's rule. -/
def linkElementWith (source element : NodeId) (index : Nat) (fields : List (String × String)) :
    TreeM Unit :=
  for (elementField, sourceField) in fields do
    let target ← if elementField.isEmpty then pure element else findWith init element elementField
    update fun t => do
      let _ ← t.node target
      return (t.putCell target (.bound (.element source index sourceField))).invalidate target

/-- Binds the fields of all elements of a group that follows another one. -/
def linkElementsWith (id : NodeId) : TreeM Unit := do
  match (← look (·.group id)).rule with
  | .bound path fields _ _ =>
    if fields.isEmpty then
      return
    let source ← sourceWith init id path
    for (element, index) in (← look (·.children id)).zipIdx do
      linkElementWith init source element index fields
  | _ => return

-- ---------------------------------------------------------------------------
-- Tasks
-- ---------------------------------------------------------------------------

/-- The operations that call on each other to any depth. -/
inductive Task where
  /-- Give a group its elements. -/
  | init (id : NodeId)
  /-- Touch every group at or below a node. -/
  | visit (id : NodeId)

/-- Gives a group its elements. A failure leaves it uninitialized. -/
def initStep (run : Task → TreeM Unit) (id : NodeId) : TreeM Unit := do
  let init := fun id => run (.init id)
  update (·.setPhase id .initializing)
  let result ← outcome do
    let count ← countByRuleWith init id
    replaceElementsWith (fun id => run (.visit id)) id count
    linkElementsWith init id
  match result with
  | .ok () => update (·.setPhase id .ready)
  | .error e =>
    update (·.setPhase id .uninit)
    throw e

/-- A node before its children, and these in order. -/
def visitStep (run : Task → TreeM Unit) (id : NodeId) : TreeM Unit := do
  if ← look (·.isGroup id) then
    touchWith (fun id => run (.init id)) id
  for child in ← look (·.children id) do
    run (.visit child)

/-- Runs a task, nested to a given depth. -/
def runTask : (depth : Nat) → Task → TreeM Unit
  | 0, _ => throw .nestingLimit
  | depth + 1, .init id => initStep (runTask depth) id
  | depth + 1, .visit id => visitStep (runTask depth) id

/-- Room for the groups that come into being on the way. -/
def nestingReserve : Nat := Nat.pow 2 32

def perform (task : Task) : TreeM Unit := do
  runTask (nestingReserve + 2 * (← get).weight) task

end TreeM

-- ---------------------------------------------------------------------------
-- Operations
-- ---------------------------------------------------------------------------

namespace Tree

open TreeM

def init (id : NodeId) : TreeM Unit := perform (.init id)

/-- Touches a group. -/
def touch (id : NodeId) : TreeM Unit := touchWith init id

/-- The number of elements of a group. -/
def count (id : NodeId) : TreeM Nat := countWith init id

/-- The node at a path from another one. -/
def find (start : NodeId) (path : String) : TreeM NodeId := findWith init start path

/-- The node at a path from the root. -/
def lookup (path : String) : TreeM NodeId := do find (← get).root path

/-- Gives a group a count of the caller's choice. The groups that follow it do so at their next
touch. -/
def resize (id : NodeId) (count : Nat) : TreeM Unit := do
  touch id
  replaceElementsWith (fun id => perform (.visit id)) id count
  linkElementsWith init id

/-- Builds a template's tree and touches all its groups. -/
def build (template : Template) (seed : UInt64) : Except TreeError Tree :=
  let (root, t) := (empty seed).instantiate template none none
  match (perform (.visit root)).run { t with root } with
  | (.ok (), t) => .ok t
  | (.error e, _) => .error e

end Tree

end FormatFuzz
