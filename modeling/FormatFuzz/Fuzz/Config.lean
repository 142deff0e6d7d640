-- SUMMARY: Configured runs: the settings of a TOML file and what they set up.
import FormatFuzz.Fuzz.Directory
import FormatFuzz.Fuzz.Run
import FormatFuzz.Text.Utf8
import FormatFuzz.Toml.Parse

/-!
# Configuration

A configuration file may set the seed of the tree, the plan of the run, options of single fields
by their full names, and a directory for the trials. Every section and nearly every key may be
left out; keys that mean nothing are refused.

A section may also be written as an array of its settings in order.
-/

namespace FormatFuzz

-- ---------------------------------------------------------------------------
-- Settings
-- ---------------------------------------------------------------------------

/-- The plan as it is written, before its bounds are put in order. -/
structure PlanSettings where
  minSubset : Nat := 1
  maxSubset : Nat := 1
  firstTrial : UInt64 := 0
  maxTrials : Option Nat := none
  filler : UInt8 := Candidates.defaultFiller
  deriving DecidableEq, Repr

def PlanSettings.plan (s : PlanSettings) : Plan :=
  { Plan.ofSizes s.minSubset s.maxSubset with
    firstTrial := s.firstTrial, maxTrials := s.maxTrials, filler := s.filler }

structure DirectorySettings where
  dir : String
  names : FileNames := {}
  /-- Leave out trials whose bytes have been written already. -/
  dedup : Bool := false
  deriving DecidableEq, Repr

structure Config where
  seed : UInt64 := 0
  fuzz : PlanSettings := {}
  /-- Changes to the options of fields, by full name. -/
  fields : Patches := []
  output : Option DirectorySettings := none
  deriving DecidableEq, Repr

inductive ConfigError where
  /-- There is no such file, or it is not text. -/
  | unreadable
  /-- The text is not TOML, or not a configuration. -/
  | malformed
  deriving DecidableEq, Repr

-- ---------------------------------------------------------------------------
-- Reading
-- ---------------------------------------------------------------------------

namespace Config

open Toml (Document)

/-- Reads a value of one type. -/
abbrev Decoder (α : Type) := Document → Option α

namespace Decoder

def bool : Decoder Bool
  | .bool b => some b
  | _ => none

def text : Decoder String
  | .text s => some s
  | _ => none

def nat : Decoder Nat
  | .int v => if 0 ≤ v then some v.toNat else none
  | _ => none

def word : Decoder UInt64 := fun d => (nat d).map UInt64.ofNat

/-- A text of one character, of those that a single byte can number. -/
def byte : Decoder UInt8
  | .text s =>
    match s.toList with
    | [c] => if c.toNat < 256 then some (UInt8.ofNat c.toNat) else none
    | _ => none
  | _ => none

def value : Decoder Value
  | .bool b => some (.bool b)
  | .int v => some (.int v)
  | .text s => some (.ofString s)
  | _ => none

def list {α : Type} (item : Decoder α) : Decoder (List α)
  | .array items => items.mapM item
  | _ => none

/-- The settings of a section by their keys: a table with no other keys, or an array of settings
in the order of the keys. -/
def settings (keys : List String) : Decoder (List (String × Document))
  | .table entries => if entries.all fun (key, _) => key ∈ keys then some entries else none
  | .array items => some (keys.zip items)
  | _ => none

/-- A setting that may be left out. -/
def setting? {α : Type} (entries : List (String × Document)) (key : String) (decoder : Decoder α) :
    Option (Option α) :=
  match entries.lookup key with
  | some d => (decoder d).map some
  | none => some none

/-- A setting with a default. -/
def setting {α : Type} (entries : List (String × Document)) (key : String) (decoder : Decoder α)
    (default : α) : Option α :=
  return (← setting? entries key decoder).getD default

-- ---------------------------------------------------------------------------
-- Sections
-- ---------------------------------------------------------------------------

/-- The seed. -/
def tree : Decoder UInt64 := fun d => do
  let entries ← settings ["seed"] d
  setting entries "seed" word 0

def fuzz : Decoder PlanSettings := fun d => do
  let entries ← settings ["min-subset", "max-subset", "first-trial", "max-trials", "filler"] d
  let default : PlanSettings := {}
  return {
    minSubset := ← setting entries "min-subset" nat default.minSubset
    maxSubset := ← setting entries "max-subset" nat default.maxSubset
    firstTrial := ← setting entries "first-trial" word default.firstTrial
    maxTrials := ← setting? entries "max-trials" nat
    filler := ← setting entries "filler" byte default.filler }

def patch : Decoder OptionsPatch := fun d => do
  let entries ← settings ["fuzz", "values", "extra", "max-length"] d
  return {
    enabled := ← setting? entries "fuzz" bool
    values := ← setting? entries "values" (list value)
    extra := ← setting entries "extra" (list value) []
    maxLength := ← setting? entries "max-length" nat }

def fields : Decoder Patches
  | .table entries => entries.mapM fun (name, d) => return (name, ← patch d)
  | _ => none

/-- The directory is the one setting that cannot be left out. -/
def output : Decoder DirectorySettings := fun d => do
  let entries ← settings ["dir", "prefix", "extension", "dedup"] d
  let dir ← setting? entries "dir" text
  let default : FileNames := {}
  return {
    dir := ← dir
    names := {
      stem := ← setting entries "prefix" text default.stem
      extension := ← setting entries "extension" text default.extension }
    dedup := ← setting entries "dedup" bool false }

def config : Decoder Config := fun d => do
  let entries ← settings ["tree", "fuzz", "fields", "output"] d
  return {
    seed := ← setting entries "tree" tree 0
    fuzz := ← setting entries "fuzz" fuzz {}
    fields := ← setting entries "fields" fields []
    output := ← setting? entries "output" output }

end Decoder

/-- The configuration in a file, given what the file holds if there is one. -/
def load (file : Option Bytes) : Except ConfigError Config :=
  match file.bind Utf8.decode? with
  | none => .error .unreadable
  | some text =>
    match (Toml.parse? text).bind Decoder.config with
    | none => .error .malformed
    | some config => .ok config

-- ---------------------------------------------------------------------------
-- Setting up
-- ---------------------------------------------------------------------------

/-- The run below a node. -/
def campaign (c : Config) (root : NodeId) : Campaign :=
  { root, plan := c.fuzz.plan, patches := c.fields }

end Config

namespace DirectorySettings

/-- Writes trials to the directory, all of them or only those that are new. -/
def sink (o : DirectorySettings) : Sink (Dedup × DirectoryState) :=
  if o.dedup then
    (directorySink o.names).dedup
  else {
    accept := fun trial (d, s) t =>
      let (result, s, t) := (directorySink o.names).accept trial s t
      (result, (d, s), t)
    finish := fun (d, s) =>
      let (result, s) := (directorySink o.names).finish s
      (result, (d, s)) }

end DirectorySettings

end FormatFuzz
