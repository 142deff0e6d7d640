-- SUMMARY: Which groups the initialization of a group may initialize, and which group a count stems from.
import FormatFuzz.Proofs.Links
import FormatFuzz.Proofs.Portraits

/-!
# Rousing

To initialize a group means to touch others: the one that it follows, those on the paths of its rule, and those in
its elements. Which ones these can be hangs on the template alone (`Template.Rouses`). A group that loses the
elements it has never touches those that a group on its way is in, for then this one is gone.

A count stems from the group at the end of the sources if no source on the way can be asked while it is on its way
itself (`Template.Stems`). The group at the end follows no other one, so that its count can be told beforehand
(`Template.ownCount`).
-/

namespace FormatFuzz

open TreeM
open Relation (ReflTransGen TransGen)

namespace Template

variable {τ : Template} {p q z : Position} {path : String} {fields : List (String × String)} {min max : Nat}

/-- The group at a position follows no other one. -/
def IsOrigin (τ : Template) (p : Position) : Prop := ∃ rule, τ.ruleAt p = some rule ∧ rule.isBound = false

/-- While a group is on its way, to initialize one at the first position may mean to touch one at the second. It may
be in an element, unless the elements are those that the group on its way is in. -/
inductive Rouses (τ : Template) (onWay : Position) : Position → Position → Prop
  | touch {p q : Position} (h : τ.Touches p q) : Rouses τ onWay p q
  | element {p : Position} {rule : Multiplicity} (hrule : τ.ruleAt p = some rule)
      (houtside : ∀ j, ¬ (j :: p) <:+ onWay) (r : Position) (i : Nat) : Rouses τ onWay p (r ++ i :: p)

/-- The sources of the group at the first position end at the second. A source that could be touched while it is
on its way follows no other one. -/
inductive Stems (τ : Template) : Position → Position → Prop
  | origin {p : Position} (h : τ.IsOrigin p) : Stems τ p p
  | link {p q z : Position} (hsource : τ.source p = some q) (hback : TransGen (τ.Rouses q) q p → τ.IsOrigin q)
      (hstems : Stems τ q z) : Stems τ p z

/-- The count that the rule of the group at a position asks for by itself. -/
def ownCount (τ : Template) (seed : UInt64) (p : Position) : Nat :=
  match τ.partAt p with
  | some (.repeated _ _ rule, name) => rule.countFor seed (".".intercalate (name :: τ.namesAt p).reverse)
  | _ => 0

theorem IsOrigin.source (h : τ.IsOrigin p) : τ.source p = none := by
  cases hsource : τ.source p with
  | none => rfl
  | some q =>
    obtain ⟨path, fields, min, max, hrule⟩ := exists_rule_of_source hsource
    obtain ⟨rule, hrule', hfree⟩ := h
    cases hrule.symm.trans hrule'
    cases hfree

/-- A bound group is asked for its count by others only. -/
theorem not_isOrigin (h : τ.ruleAt p = some (.bound path fields min max)) : ¬ τ.IsOrigin p := by
  rintro ⟨rule, hrule, hfree⟩
  cases h.symm.trans hrule
  cases hfree

namespace Stems

/-- The count of a group that follows no other one is its own. -/
theorem eq_of_isOrigin (h : τ.Stems p z) (hp : τ.IsOrigin p) : z = p := by
  cases h with
  | origin => rfl
  | link hsource => cases hp.source.symm.trans hsource

/-- What stems from the source of a group, and that this is not asked while it is on its way. -/
theorem of_source (h : τ.Stems p z) (hsource : τ.source p = some q) :
    τ.Stems q z ∧ (TransGen (τ.Rouses q) q p → τ.IsOrigin q) := by
  cases h with
  | origin h => cases h.source.symm.trans hsource
  | link hsource' hback hstems =>
    cases hsource.symm.trans hsource'
    exact ⟨hstems, hback⟩

/-- No group stems from another one that follows itself. -/
theorem source_ne (h : τ.Stems p z) (hsource : τ.source p = some q) : q ≠ p := by
  rintro rfl
  have horigin := (h.of_source hsource).2 (.single (.touch (.source hsource)))
  cases horigin.source.symm.trans hsource

end Stems

end Template

namespace Tree

variable {τ : Template} {t : Tree} {x : NodeId} {n : Node} {g : Group} {p : Position}

/-- The count that a group reports while it is on its way can be told beforehand. -/
theorem provisionalCount_placed (hwf : t.WellFormed) (hm : t.Models (fun _ => True) τ τ.name t.root)
    (hp : t.placed p = some x) (hn : t.node? x = some n) (hk : n.kind = .repeated g) :
    t.provisionalCount x = .ok (τ.ownCount t.seed p) := by
  obtain ⟨header, name, hpart⟩ := hm.rule hp hn hk
  rw [provisionalCount_fullName hn hk (fullName_placed hwf hm hp hpart), Template.ownCount, hpart]

end Tree

end FormatFuzz
