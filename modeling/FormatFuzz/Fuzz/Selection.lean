-- SUMMARY: The fields that a fuzz run changes.
import FormatFuzz.Fuzz.Candidates
import FormatFuzz.Tree.Groups

/-!
# Selection

A run changes the leaves at or below its root, in the order of their bytes, except those that
are excluded: a node whose options say so excludes everything at and below it. The root of the
run is asked for explicitly, so its own options are not heard on that.
-/

namespace FormatFuzz

/-- Changes to the options of fields, by full name. -/
abbrev Patches := List (String × OptionsPatch)

/-- A field to be changed. -/
structure Target where
  id : NodeId
  name : String
  /-- What is put back after every trial. -/
  saved : Cell
  candidates : List Value

namespace Selection

open TreeM

/-- A node's options with the patch for its name. -/
def effectiveOptions (patches : Patches) (name : String) (options : FieldOptions) : FieldOptions :=
  match patches.lookup name with
  | some patch => patch.apply options
  | none => options

/-- The fields at or below a node of the run from `root`. -/
def targetsAt (patches : Patches) (filler : UInt8) (root : NodeId) :
    (depth : Nat) → (id : NodeId) → TreeM (List Target)
  | 0, _ => throw .nestingLimit
  | depth + 1, id => do
    let name ← look (·.fullName id)
    let options := effectiveOptions patches name (← look (·.options id))
    if !options.enabled && id ≠ root then
      return []
    if ← look (·.isGroup id) then
      Tree.touch id
    let n ← look (·.node id)
    match n.kind with
    | .leaf kind => return [⟨id, name, n.cell, Candidates.ofLeaf options filler kind⟩]
    | _ => return (← n.children.mapM (targetsAt patches filler root depth)).flatten

/-- The fields of a run, in order. -/
def targets (patches : Patches) (filler : UInt8) (root : NodeId) : TreeM (List Target) := do
  targetsAt patches filler root (nestingReserve + (← get).weight) root

end Selection

end FormatFuzz
