-- SUMMARY: Output transforms: an action, or a choice between transforms by predicates.
import FormatFuzz.Field.Action
import FormatFuzz.Field.Script

/-!
# Transforms

What is attached to a field: a plain action, or a cascade of predicates of which the first that
holds selects a transform. Only plain actions can be inverted, because the branch taken depends
on the tree.
-/

namespace FormatFuzz

mutual

inductive Transform where
  | action (a : Action)
  | choose (c : Cascade)

/-- Branches in order, and what applies when none of their predicates holds. -/
inductive Cascade where
  /-- Empty bytes. -/
  | nothing
  | otherwise (t : Transform)
  | when (predicate : Script Bool) (t : Transform) (rest : Cascade)

end

namespace Cascade

/-- The number of predicates. -/
def branches : Cascade → Nat
  | .nothing | .otherwise _ => 0
  | .when _ _ rest => rest.branches + 1

end Cascade

namespace Transform

def name : Transform → String
  | .action a => a.name
  | .choose _ => "if"

/-- The debug description. -/
def debug : Transform → String
  | .action a => s!"Action({a.name})"
  | .choose c => s!"If({c.branches} branches)"

mutual

/-- Transforms the inputs once. -/
def run : Transform → List Bytes → Script Value
  | .action a, inputs => .done ((a.apply inputs).mapError .action)
  | .choose c, inputs => runCascade c inputs

def runCascade : Cascade → List Bytes → Script Value
  | .nothing, _ => .done (.ok (.bytes []))
  | .otherwise t, inputs => run t inputs
  | .when predicate t rest, inputs =>
    predicate.bind fun holds => if holds then run t inputs else runCascade rest inputs

end

def isReversible : Transform → Bool
  | .action a => a.isReversible
  | .choose _ => false

def invert (t : Transform) (data : Bytes) : Except ActionError Bytes :=
  match t with
  | .action a => a.invert data
  | .choose _ => .error (.notReversible t.name)

end Transform

end FormatFuzz
