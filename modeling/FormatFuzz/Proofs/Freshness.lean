-- SUMMARY: What is serialized once all groups are up to date is what comes out from scratch.
import FormatFuzz.Proofs.Coherence

/-!
# Freshness

Between the time when a group goes stale and the time when it is asked for, the caches still hold
what its old elements give. They are right for the tree as it is, so that the tree stays coherent:
when the group is asked for, the caches go with the elements that they hang on. But if that happens
in the middle of a serialization, some of them have been used already.

So templates may have groups that follow others, and these may be given other counts, as long as
nothing is read before all groups are up to date (`Tree.Call.Timely`). Then serializing a node and
serializing it again from scratch give the same bytes (`Tree.bytes_again`).
-/

namespace FormatFuzz

open TreeM
open Relation (ReflTransGen)

namespace Tree

variable {C : Cell → Prop} {τ : Template} {measured : Prop} {t t' t₁ : Tree} {id : NodeId}

-- ---------------------------------------------------------------------------
-- Settled trees
-- ---------------------------------------------------------------------------

instance : Decidable t.Settled :=
  decidable_of_iff
    (∀ i < t.nodes.size, ∀ g ∈ (t.node? ⟨i⟩).bind (·.kind.group?), g.phase = .ready) <| by
    constructor
    · intro h id n g hn hk
      refine h id.index (lt_size hn) g ?_
      rw [Option.mem_def, hn, Option.bind_some, hk]
      rfl
    · intro h i _ g hg
      obtain ⟨n, hn, hg⟩ := Option.bind_eq_some_iff.mp hg
      cases hk : n.kind with
      | leaf kind =>
        rw [hk] at hg
        cases hg
      | composite =>
        rw [hk] at hg
        cases hg
      | repeated g' =>
        rw [hk] at hg
        cases hg
        exact h hn hk

-- ---------------------------------------------------------------------------
-- Calls
-- ---------------------------------------------------------------------------

/-- The call reads only when all groups are up to date, its work on groups is not cut short, and if
it writes a cell, then one of `C`. -/
def Call.Timely (C : Cell → Prop) (t : Tree) : Call → Prop
  | .count id => ((Tree.count id).run t).1.isOk
  | .resize id n => ((Tree.resize id n).run t).1.isOk
  | .replaceCell _ cell => C cell
  | .invalidate _ | .invalidateAll => True
  | .find .. | .bytes _ | .value _ | .byteLength _ | .offset _ => t.Settled

/-- What a call makes of a tree at the right time. -/
def Steps (C : Cell → Prop) (t t' : Tree) : Prop := ∃ c : Call, c.Timely C t ∧ c.run t = t'

namespace Coherent

theorem answerAll (h : t.Coherent C τ measured) (hs : t.Settled) (hτ : τ.Reliable C measured)
    (r : Request) (hr : r.Apt measured t) :
    wp (Resolver.answerAll r) (fun _ t' => t'.Coherent C τ measured) t := by
  have hsteady : t.Steady C τ := ⟨h.wellFormed, h.models, hs⟩
  refine (Reads.answerAll hsteady hτ r hr t h.sound).mono ?_
  rintro _ t' ⟨hsound, -⟩
  exact h.of_sound hτ.cells hsound

/-- An operation on groups that succeeds keeps the caches only that are still right. -/
theorem of_groups {α : Type} {act : TreeM α} (h : t.Coherent C τ measured) (hcells : τ.CellsIn C)
    (hevolves : Preserves (Evolves C) (Evolves C) act)
    (hkeeps : Preserves (Keeps fun _ => False) (fun _ _ => True) act)
    (hok : (act.run t).1.isOk) : (act.run t).2.Coherent C τ measured := by
  have hkept := hkeeps t
  unfold wp at hkept
  cases hr : (act.run t).1 with
  | error e =>
    rw [hr] at hok
    cases hok
  | ok a =>
    rw [hr] at hkept
    exact h.evolve hcells (hevolves.run t) hkept

/-- Calls at the right time keep a tree coherent. -/
theorem call (hC : Permits C) (hτ : τ.Reliable C measured) (hmeasured : measured)
    (h : t.Coherent C τ measured) (c : Call) (htimely : c.Timely C t) :
    (c.run t).Coherent C τ measured := by
  have hevolves := groupLaws_evolves hC
  cases c with
  | find start path =>
    have ht' : (Call.find start path).run t = t :=
      find_settled h.wellFormed h.models htimely start path
    rwa [ht']
  | bytes id => exact h.answerAll htimely hτ (.bytes id) trivial
  | value id => exact h.answerAll htimely hτ (.value id) trivial
  | byteLength id => exact h.answerAll htimely hτ (.length id) hmeasured
  | offset id => exact offset_asks h.wellFormed hmeasured h fun r hr => h.answerAll htimely hτ r hr
  | count id => exact h.of_groups hτ.cells (hevolves.count id) (groupLaws_keeps.count id) htimely
  | resize id count =>
    exact h.of_groups hτ.cells (hevolves.resize id count) (groupLaws_keeps.resize id count) htimely
  | replaceCell id cell =>
    suffices hcell : wp (Tree.replaceCell id cell) (fun _ t' => t'.Coherent C τ measured) t from hcell
    unfold Tree.replaceCell
    rw [wp.update]
    cases ht' : t.setCell id cell with
    | error e => exact h
    | ok t' => exact h.setCell hτ.cells htimely ht'
  | invalidate id => exact h.evolve hτ.cells .of_invalidate .of_invalidate
  | invalidateAll => exact h.invalidateAll hτ.cells

theorem steps (hC : Permits C) (hτ : τ.Reliable C measured) (hmeasured : measured)
    (h : t.Coherent C τ measured) (hsteps : ReflTransGen (Steps C) t t') :
    t'.Coherent C τ measured := by
  induction hsteps with
  | refl => exact h
  | tail _ hstep ih =>
    obtain ⟨c, htimely, rfl⟩ := hstep
    exact ih.call hC hτ hmeasured c htimely

end Coherent

-- ---------------------------------------------------------------------------
-- Serialization
-- ---------------------------------------------------------------------------

/-- Once all groups are up to date, serializing a node and serializing it again after all caches have
been cleared give the same bytes, whichever groups follow others and have been given other counts. -/
theorem bytes_again {seed : UInt64} {t₀ : Tree} (hcells : τ.CellsIn (Cell.Strict True))
    (hdecent : τ.Every (Template.Decent True)) (hbuild : build τ seed = .ok t₀)
    (hsteps : ReflTransGen (Steps (Cell.Strict True)) t₀ t) (hs : t.Settled) {b b' : Bytes}
    (hb : (bytes id).run t = (.ok b, t₁)) (hb' : ((bytes id).run t₁.invalidateAll).1 = .ok b') :
    b = b' := by
  have hC : Permits (Cell.Strict True) := permits_strict True
  have hτ : τ.Reliable (Cell.Strict True) True := ⟨hcells, fun _ hcell => hcell, hdecent⟩
  have hnew : t₀.Coherent (Cell.Strict True) τ True := build_coherent hC hcells hbuild
  have h := hnew.steps hC hτ trivial hsteps
  have hsteady : t.Steady (Cell.Strict True) τ := ⟨h.wellFormed, h.models, hs⟩
  obtain ⟨hsound, -⟩ := (Reads.answerAll hsteady hτ (.bytes id) trivial t h.sound).of_run hb
  exact Sound.bytes_unique hsteady hτ h.sound hsound.invalidateAll (congrArg Prod.fst hb) hb'

/-- A flag that shows the first element of a group, which follows another group. -/
def peeking : Template :=
  let flag : Template := .leaf { name := "flag", cell := .literal (.bool true) } .bool
  .composite { name := "record" } [
    .leaf { name := "first", cell := .bound (.path "copy[0]") } .bool,
    .group "source" flag (.fixed 1),
    .group "copy" flag (.bound "source" [] 0 9)]

/-- When a group has gone stale, and what it shows has been used before it is asked for, then that
comes out differently from scratch. -/
theorem bytes_torn : ((build peeking 7).toOption.map fun t₀ =>
    let t := (Call.resize ⟨2⟩ 2).run <| (Call.bytes ⟨0⟩).run <|
      (Call.replaceCell ⟨5⟩ (.literal (.bool false))).run t₀
    let t₁ := (Call.bytes ⟨0⟩).run t
    (((bytes ⟨0⟩).run t).1.toOption, ((bytes ⟨0⟩).run t₁.invalidateAll).1.toOption)) =
      some (some [0, 1, 1, 1, 1], some [1, 1, 1, 1, 1]) := by
  decide +kernel

theorem bytes_again_peeking : ∃ t₀ t₁ b b', build peeking 7 = .ok t₀ ∧
    let t := (Call.count ⟨3⟩).run <| (Call.resize ⟨2⟩ 2).run <| (Call.bytes ⟨0⟩).run <|
      (Call.replaceCell ⟨5⟩ (.literal (.bool false))).run t₀
    (bytes ⟨0⟩).run t = (.ok b, t₁) ∧ ((bytes ⟨0⟩).run t₁.invalidateAll).1 = .ok b' ∧ b = b' := by
  have hall : (build peeking 7).toOption.any (fun t₀ =>
      let t := (Call.replaceCell ⟨5⟩ (.literal (.bool false))).run t₀
      let t' := (Call.bytes ⟨0⟩).run t
      let t'' := (Call.resize ⟨2⟩ 2).run t'
      let v := (Call.count ⟨3⟩).run t''
      t.Settled ∧ ((resize ⟨2⟩ 2).run t').1.isOk ∧ ((count ⟨3⟩).run t'').1.isOk ∧ v.Settled ∧
        ((bytes ⟨0⟩).run v).1.isOk ∧
        ((bytes ⟨0⟩).run ((bytes ⟨0⟩).run v).2.invalidateAll).1.isOk) = true := by decide +kernel
  obtain ⟨t₀, hbuild, hall⟩ := exists_build hall
  obtain ⟨hs, hresize, hcount, hs', hok, hok'⟩ := of_decide_eq_true hall
  have hcells : peeking.CellsIn (Cell.Strict True) :=
    ⟨trivial, trivial, ⟨trivial, trivial⟩, ⟨trivial, trivial⟩, trivial⟩
  have hnone : ∀ f : Transform, none = some f → f.Strict True := fun _ h => by cases h
  have hdecent : peeking.Every (Template.Decent True) :=
    ⟨⟨hnone, trivial⟩, ⟨hnone, trivial⟩, ⟨⟨hnone, trivial⟩, hnone, trivial⟩,
      ⟨⟨hnone, trivial⟩, hnone, trivial⟩, trivial⟩
  have hsteps : ReflTransGen (Steps (Cell.Strict True)) t₀ _ :=
    .tail (.tail (.tail (.single ⟨.replaceCell ⟨5⟩ (.literal (.bool false)), trivial, rfl⟩)
      ⟨.bytes ⟨0⟩, hs, rfl⟩) ⟨.resize ⟨2⟩ 2, hresize, rfl⟩) ⟨.count ⟨3⟩, hcount, rfl⟩
  refine ⟨t₀, ?_⟩
  dsimp only
  generalize (Call.count ⟨3⟩).run _ = t at hsteps hs' hok hok' ⊢
  rcases hb : (bytes ⟨0⟩).run t with ⟨_ | b, t₁⟩
  case error =>
    rw [hb] at hok
    cases hok
  rw [hb] at hok'
  dsimp only at hok'
  cases hb' : ((bytes ⟨0⟩).run t₁.invalidateAll).1 with
  | error e =>
    rw [hb'] at hok'
    cases hok'
  | ok b' =>
    exact ⟨t₁, b, b', hbuild, rfl, hb', bytes_again hcells hdecent hbuild hsteps hs' hb hb'⟩

end Tree

end FormatFuzz
