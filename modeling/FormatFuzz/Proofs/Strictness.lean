-- SUMMARY: What is promised of closures, codecs and the templates that they are in.
import FormatFuzz.Proofs.Positions

/-!
# Strictness

A strict closure reads fields and nothing else of the tree, and passes on the first error that it
gets. So whenever it has a result, all that it has asked for has been answered, and the answers
determine the result.

Whether lengths and offsets may be asked for is left open (`measured`). If they may, codecs have to
be honest about the length of what they encode.
-/

namespace FormatFuzz

variable {measured : Prop} {α β : Type}

-- ---------------------------------------------------------------------------
-- Scripts
-- ---------------------------------------------------------------------------

/-- The reads of a strict closure. -/
def Query.Allowed (measured : Prop) : Query → Prop
  | .bytes _ | .value _ | .count _ | .generator => True
  | .length _ | .offset _ => measured
  | .field _ | .fullName _ | .base | .reader => False

namespace Script

def Strict (measured : Prop) : Script α → Prop
  | .done _ => True
  | .ask q next =>
    q.Allowed measured ∧ (∀ e, next (.error e) = .done (.error e)) ∧ ∀ r, (next r).Strict measured

theorem bind_assoc {γ : Type} (s : Script α) (f : α → Script β) (g : β → Script γ) :
    (s.bind f).bind g = s.bind fun a => (f a).bind g := by
  induction s with
  | done r => cases r <;> rfl
  | ask q next ih => exact congrArg (Script.ask q) (funext fun r => ih r)

theorem bind_pure (s : Script α) : s.bind (fun a => .done (.ok a)) = s := by
  induction s with
  | done r => cases r <;> rfl
  | ask q next ih => exact congrArg (Script.ask q) (funext fun r => ih r)

instance : LawfulMonad Script := LawfulMonad.mk' Script bind_pure (fun _ _ => rfl) bind_assoc

theorem Strict.bind {s : Script α} {f : α → Script β} (hs : s.Strict measured)
    (hf : ∀ a, (f a).Strict measured) : (s.bind f).Strict measured := by
  induction s with
  | done r =>
    cases r with
    | ok a => exact hf a
    | error e => trivial
  | ask q next ih =>
    obtain ⟨hq, herror, hnext⟩ := hs
    exact ⟨hq, fun e => congrArg (Script.bind · f) (herror e), fun r => ih r (hnext r)⟩

theorem Strict.get {q : Query} (hq : q.Allowed measured) : (Script.get q).Strict measured :=
  ⟨hq, fun _ => rfl, fun _ => trivial⟩

theorem Strict.mapM {f : α → Script β} {xs : List α} (hf : ∀ x, (f x).Strict measured) :
    (xs.mapM f).Strict measured := by
  induction xs with
  | nil => trivial
  | cons x rest ih =>
    rw [List.mapM_cons]
    exact (hf x).bind fun y => ih.bind fun ys => trivial

end Script

-- ---------------------------------------------------------------------------
-- Transforms and cells
-- ---------------------------------------------------------------------------

mutual

/-- All predicates in a transform are strict. -/
def Transform.Strict (measured : Prop) : Transform → Prop
  | .action _ => True
  | .choose c => Cascade.Strict measured c

def Cascade.Strict (measured : Prop) : Cascade → Prop
  | .nothing => True
  | .otherwise f => Transform.Strict measured f
  | .when predicate f rest =>
    predicate.Strict measured ∧ Transform.Strict measured f ∧ Cascade.Strict measured rest

end

mutual

theorem Transform.Strict.run (inputs : List Bytes) :
    (f : Transform) → f.Strict measured → (f.run inputs).Strict measured
  | .action _, _ => trivial
  | .choose c, h => Cascade.Strict.run inputs c h

theorem Cascade.Strict.run (inputs : List Bytes) :
    (c : Cascade) → c.Strict measured → (Transform.runCascade c inputs).Strict measured
  | .nothing, _ => trivial
  | .otherwise f, h => Transform.Strict.run inputs f h
  | .when predicate f rest, ⟨hp, hf, hrest⟩ => by
    refine Script.Strict.bind hp fun holds => ?_
    cases holds with
    | true => exact Transform.Strict.run inputs f hf
    | false => exact Cascade.Strict.run inputs rest hrest

end

namespace Cell

/-- The closures in a cell are strict. -/
def Strict (measured : Prop) : Cell → Prop
  | .unset | .literal _ | .bound _ => True
  | .deferred s => s.Strict measured
  | .computed f _ => f.Strict measured

theorem compute_strict {f : Transform} (hf : f.Strict measured) (sources : List String) :
    (compute f sources).Strict measured :=
  Script.Strict.bind (.mapM fun _ => .get trivial) fun inputs => Transform.Strict.run inputs f hf

end Cell

-- ---------------------------------------------------------------------------
-- Codecs and templates
-- ---------------------------------------------------------------------------

/-- A codec that tells the length of its encodings tells the truth. -/
def Codec.Honest (codec : Codec) : Prop :=
  ∀ v n b, codec.fixedLength = .ok n → codec.encode v = .ok b → b.length = n

namespace Template

mutual

/-- All parts of a template satisfy a predicate, the template itself included. -/
def Every (P : Template → Prop) : Template → Prop
  | .leaf h kind => P (.leaf h kind)
  | .composite h fields => P (.composite h fields) ∧ EveryField P fields
  | .repeated h element rule => P (.repeated h element rule) ∧ Every P element

def EveryField (P : Template → Prop) : List Template → Prop
  | [] => True
  | τ :: rest => Every P τ ∧ EveryField P rest

end

variable {P : Template → Prop} {τ σ : Template} {p : Position} {name : String}

theorem Every.self (h : τ.Every P) : P τ := by
  cases τ with
  | leaf h' kind => exact h
  | composite h' fields => exact h.1
  | repeated h' element rule => exact h.1

theorem EveryField.getElem? {τs : List Template} (h : EveryField P τs) {i : Nat}
    (hi : τs[i]? = some τ) : τ.Every P := by
  induction τs generalizing i with
  | nil => cases hi
  | cons σ rest ih =>
    cases i with
    | zero =>
      cases hi
      exact h.1
    | succ i => exact ih h.2 hi

theorem Every.part {name' : String} {i : Nat} (h : τ.Every P) (hi : τ.part name i = some (σ, name')) :
    σ.Every P := by
  cases τ with
  | leaf h' kind => cases hi
  | composite h' fields =>
    obtain ⟨field, hfield, heq⟩ := Option.map_eq_some_iff.mp hi
    cases heq
    exact h.2.getElem? hfield
  | repeated h' element rule =>
    cases hi
    exact h.2

theorem Every.partAt (h : τ.Every P) (hp : τ.partAt p = some (σ, name)) : σ.Every P := by
  induction p generalizing σ name with
  | nil =>
    cases hp
    exact h
  | cons i p ih =>
    obtain ⟨⟨above, name'⟩, hpart, hi⟩ := Option.bind_eq_some_iff.mp hp
    exact (ih hpart).part hi

/-- The output transform of a template is strict, and its codec is honest where lengths are
asked for. -/
def Decent (measured : Prop) (τ : Template) : Prop :=
  (∀ f, τ.header.action = some f → f.Strict measured) ∧
    match τ with
    | .leaf _ (.custom codec) => measured → codec.Honest
    | _ => True

/-- The template is not a group that follows another one. -/
def Unbound : Template → Prop
  | .repeated _ _ (.bound ..) => False
  | _ => True

end Template

end FormatFuzz
