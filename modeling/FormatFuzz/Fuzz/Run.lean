-- SUMMARY: Fuzz runs: every subset of the fields, every choice of their candidates.
import FormatFuzz.Fuzz.Choices
import FormatFuzz.Fuzz.Plan
import FormatFuzz.Fuzz.Selection
import FormatFuzz.Fuzz.Sink
import FormatFuzz.Fuzz.Subsets

/-!
# Runs

For every subset size of the plan, a run walks the subsets of the selected fields, and for every
subset the choices of one candidate a field. Each choice is a trial: its values are written into
the tree, the sink takes it, and the tree is restored.
-/

namespace FormatFuzz

inductive CampaignError where
  /-- Selecting fields or writing a candidate failed. -/
  | tree (error : TreeError)
  /-- The sink did not take a trial. -/
  | sink (trial : UInt64) (error : SinkError)
  /-- The sink failed after the last trial. -/
  | finish (error : SinkError)
  deriving DecidableEq, Repr

def CampaignError.message : CampaignError → String
  | .tree error => s!"Tree error during fuzzing: {error.message}"
  | .sink trial error => s!"Sink rejected trial {trial.toNat}: {error.message}"
  | .finish error => s!"Sink failed to finish: {error.message}"

structure Report where
  /-- Subsets walked. -/
  subsets : Nat := 0
  trials : Nat := 0
  /-- Did the limit on trials cut the run short? -/
  truncated : Bool := false
  deriving DecidableEq, Repr

/-- A run that is yet to start. -/
structure Campaign where
  root : NodeId
  plan : Plan := {}
  patches : Patches := []

-- ---------------------------------------------------------------------------
-- State of a run
-- ---------------------------------------------------------------------------

structure RunState (σ : Type) where
  tree : Tree
  sink : σ
  report : Report := {}
  /-- The keys of the subsets walked. -/
  walked : List String := []
  /-- The number of the next trial. -/
  number : UInt64

/-- Why a run ends before its last trial. -/
inductive Stop where
  | limit
  | failure (error : CampaignError)

abbrev RunM (σ : Type) := ExceptT Stop (StateM (RunState σ))

-- ---------------------------------------------------------------------------
-- Trials
-- ---------------------------------------------------------------------------

/-- Puts a name into a list sorted by character. -/
def insertName (name : String) : List String → List String
  | [] => [name]
  | other :: rest => if name ≤ other then name :: other :: rest else other :: insertName name rest

/-- What tells a subset from others: its names, sorted and joined. -/
def subsetKey (names : List String) : String :=
  "--".intercalate (names.foldr insertName [])

namespace Campaign

variable {σ : Type}

/-- Writes the values of a choice into their fields. -/
def writeValues (chosen : List (Target × Value)) : TreeM Unit :=
  for (field, v) in chosen do
    Tree.replaceCell field.id (.literal v)

/-- Puts the saved cells of all targets back, where these are still there, and clears every
cache. -/
def restore (targets : List Target) (t : Tree) : Tree :=
  (targets.foldl (fun t target => t.putCell target.id target.saved) t).invalidateAll

/-- Ends a run that has had as many trials as it may. -/
def checkLimit (c : Campaign) : RunM σ Unit := do
  if c.plan.maxTrials.any (· ≤ (← get).report.trials) then
    modify fun s => { s with report := { s.report with truncated := true } }
    throw .limit

/-- A trial from its values to the restoration of the tree. A field that cannot be written ends
the run, and so does a sink that fails. -/
def tryChoice (c : Campaign) (sink : Sink σ) (targets : List Target)
    (chosen : List (Target × Value)) : RunM σ Unit := do
  c.checkLimit
  let s ← get
  match (writeValues chosen).run s.tree with
  | (.error e, t) =>
    set { s with tree := restore targets t }
    throw (.failure (.tree e))
  | (.ok (), t) =>
    let trial : Trial := {
      number := s.number, root := c.root
      fields := chosen.map (·.1.name), values := chosen.map (·.2) }
    let (result, sinkState, t) := sink.accept trial s.sink t
    set { s with tree := restore targets t, sink := sinkState }
    match result with
    | .error e => throw (.failure (.sink s.number e))
    | .ok () =>
      modify fun s => { s with
        number := s.number + 1
        report := { s.report with trials := s.report.trials + 1 } }

-- ---------------------------------------------------------------------------
-- Subsets
-- ---------------------------------------------------------------------------

/-- The fields with the candidate at each choice. -/
def choose (fields : List Target) (choice : List Nat) : List (Target × Value) :=
  List.zipWith (fun field i => (field, field.candidates.getD i default)) fields choice

/-- Up to `limit` of the choices that are left. -/
def tryChoices (c : Campaign) (sink : Sink σ) (targets fields : List Target) :
    (limit : Nat) → Choices → RunM σ Unit
  | 0, _ => return
  | limit + 1, choices =>
    match choices.next? with
    | none => return
    | some (choice, choices) => do
      c.tryChoice sink targets (choose fields choice)
      tryChoices c sink targets fields limit choices

/-- All choices for a subset, unless one of the same key has been walked before. -/
def trySubset (c : Campaign) (sink : Sink σ) (targets : List Target) (subset : List Nat) :
    RunM σ Unit := do
  let fields := subset.filterMap (targets[·]?)
  let key := subsetKey (fields.map (·.name))
  if key ∈ (← get).walked then
    return
  modify fun s => { s with
    walked := key :: s.walked
    report := { s.report with subsets := s.report.subsets + 1 } }
  let lengths := fields.map (·.candidates.length)
  c.tryChoices sink targets fields (lengths.foldl (· * ·) 1) (.ofLengths lengths)

/-- Up to `limit` of the subsets that are left. -/
def trySubsets (c : Campaign) (sink : Sink σ) (targets : List Target) :
    (limit : Nat) → Subsets → RunM σ Unit
  | 0, _ => return
  | limit + 1, subsets =>
    match subsets.next? with
    | none => return
    | some (subset, subsets) => do
      c.trySubset sink targets subset
      trySubsets c sink targets limit subsets

/-- All subsets of the plan's sizes, smaller ones first. -/
def tryAll (c : Campaign) (sink : Sink σ) (targets : List Target) : RunM σ Unit :=
  let n := targets.length
  for k in c.plan.sizes n do
    c.trySubsets sink targets (Subsets.total n k) (.ofSize n k)

-- ---------------------------------------------------------------------------
-- Runs
-- ---------------------------------------------------------------------------

/-- The fields that a run would change. -/
def targets (c : Campaign) : TreeM (List Target) :=
  Selection.targets c.patches c.plan.filler c.root

/-- The full names of the fields that a run would change. -/
def targetNames (c : Campaign) : TreeM (List String) := return (← c.targets).map (·.name)

/-- Walks the plan and finishes the sink, unless something fails before. -/
def run (c : Campaign) (sink : Sink σ) (s : σ) (t : Tree) :
    Except CampaignError Report × σ × Tree :=
  match c.targets.run t with
  | (.error e, t) => (.error (.tree e), s, t)
  | (.ok targets, t) =>
    let start : RunState σ := { tree := t, sink := s, number := c.plan.firstTrial }
    match (c.tryAll sink targets).run start with
    | (.error (.failure e), s) => (.error e, s.sink, s.tree)
    | (.error .limit, s) | (.ok (), s) =>
      let (result, sinkState) := sink.finish s.sink
      (match result with
        | .ok () => .ok s.report
        | .error e => .error (.finish e), sinkState, s.tree)

end Campaign

end FormatFuzz
