-- SUMMARY: Making nodes from templates, and the counters that number them.
import FormatFuzz.Tree.Cache

/-!
# Building

A template becomes a node in the next free place, followed by its fields. Repeated groups come
into being without elements; `FormatFuzz.Tree.Groups` gives them theirs.
-/

namespace FormatFuzz

/-- Takes the next number of a counter. The first declaration that takes one sets the start, and
each moves the counter on by its own step. -/
def Counter.take (c : Counter) : List (String × Int) → Int × List (String × Int)
  | [] => (c.start, [(c.name, Value.wrap (c.start + c.step))])
  | (name, next) :: rest =>
    if name = c.name then
      (next, (name, Value.wrap (next + c.step)) :: rest)
    else
      let (number, rest) := c.take rest
      (number, (name, next) :: rest)

namespace Tree

/-- The cell of a new node: the next number of a counter, or the template's own. -/
def initialCell (t : Tree) (h : Header) : Cell × Tree :=
  match h.counter with
  | some counter =>
    let (number, counters) := counter.take t.counters
    (.literal (.int number), { t with counters })
  | none => (h.cell, t)

/-- Adds a node without children in the next free place. -/
def addNode (t : Tree) (h : Header) (name : Option String) (parent : Option NodeId)
    (kind : NodeKind) : NodeId × Tree :=
  let (cell, t) := t.initialCell h
  let node : Node := {
    name := name.getD h.name, parent, kind, cell
    action := h.action, hidden := h.hidden, fuzz := h.fuzz }
  (⟨t.nodes.size⟩, { t with nodes := t.nodes.push (some node) })

mutual

/-- Makes a template's node, under its own name unless another one is given, and those of all its
fields. -/
def instantiate (template : Template) (name : Option String) (parent : Option NodeId) (t : Tree) :
    NodeId × Tree :=
  match template with
  | .leaf h kind => t.addNode h name parent (.leaf kind)
  | .composite h fields =>
    let (id, t) := t.addNode h name parent .composite
    let (children, t) := instantiateAll fields id t
    (id, t.modify id ({ · with children }))
  | .repeated h element rule => t.addNode h name parent (.repeated { element, rule })

def instantiateAll (templates : List Template) (parent : NodeId) (t : Tree) :
    List NodeId × Tree :=
  match templates with
  | [] => ([], t)
  | template :: rest =>
    let (id, t) := instantiate template none (some parent) t
    let (ids, t) := instantiateAll rest parent t
    (id :: ids, t)

end

end Tree

end FormatFuzz
