-- SUMMARY: What resolution keeps, from what the changes that it is made of keep.
import FormatFuzz.Proofs.GroupLaws
import FormatFuzz.Proofs.ReadRules

/-!
# Laws of resolution

Resolving a node notes readers, fills caches and moves the stack, and otherwise only does what
operations on groups do. A relation that is kept by all of these is kept by resolution
(`ResolverLaws`). If it matters what a cache is filled with, or that what is put on the stack is taken
off it again, the relation has to be kept by each of the two as a whole (`ScopeLaws`).
-/

namespace FormatFuzz

open TreeM Resolver

theorem Resolver.wp_answerAll {t : Tree} (r : Request) {Q : Except TreeError r.Answer → Tree → Prop} :
    wp (answerAll r) Q t ↔ wp (resolve (depthFor t) r) Q t :=
  wp.get_bind

/-- The depth always allows for one step. -/
theorem Resolver.exists_depthFor (t : Tree) : ∃ depth, depthFor t = depth + 1 := by
  have hpos : 0 < depthFor t := Nat.lt_of_lt_of_le (by decide) (Nat.le_add_right nestingReserve _)
  exact Nat.exists_eq_add_one_of_ne_zero (Nat.ne_of_gt hpos)

/-- The operations on groups that resolution calls on keep `R`. So does noting a reader, and what is
done with a node on the stack if it keeps `R` itself. -/
structure ScopeLaws (R : Tree → Tree → Prop) : Prop where
  find : ∀ start path, Preserves R R (Tree.find start path)
  touch : ∀ id, Preserves R R (Tree.touch id)
  count : ∀ id, Preserves R R (Tree.count id)
  note : ∀ t source reader, R t (t.noteReader source reader)
  guarded : ∀ {α : Type} id {act : TreeM α}, Preserves R R act →
    Preserves R R (Resolver.guarded id act)

namespace ScopeLaws

variable {R : Tree → Tree → Prop} [IsPreorder Tree R]

theorem readRules (laws : ScopeLaws R) :
    ReadRules (fun _ => True) fun _ act => Preserves R R act where
  pure _ := .pure
  fail _ := .throw
  bind := .bind
  look {_ _ f _} _ hg t := by
    rw [wp.bind, wp.look]
    cases hf : f t with
    | ok a => exact hg t a trivial hf t
    | error e => exact refl_of R t
  state _ hf := .bind .get hf
  find := laws.find
  tryFind start path := .outcome (laws.find start path)
  touch := laws.touch
  count := laws.count
  note reader _ := .modify fun t => laws.note t _ reader

section

variable {ask : Resolver} (hask : ∀ r, Preserves R R (ask r))

include hask

theorem runScript {α : Type} (laws : ScopeLaws R) (id : NodeId) (s : Script α) :
    Preserves R R (Resolver.runScript ask id s) := by
  refine .bind .look fun base => ?_
  induction s with
  | done r => exact .lift
  | ask q next ih => exact .bind (.outcome (laws.readRules.answer hask base id q)) fun r => ih r

theorem scriptRules (laws : ScopeLaws R) :
    ScriptRules (fun _ => True) (fun _ act => Preserves R R act) ask where
  deferred _ _ := laws.runScript hask _ _
  computed _ _ := laws.runScript hask _ _
  action _ _ _ := laws.runScript hask _ _

theorem freshBytes (laws : ScopeLaws R) (id : NodeId) :
    Preserves R R (Resolver.freshBytes ask id) :=
  laws.readRules.freshBytes hask (laws.scriptRules hask) id

theorem valueStep (laws : ScopeLaws R) (id : NodeId) :
    Preserves R R (Resolver.valueStep ask id) := by
  refine .bind .look fun isLeaf => ?_
  cases isLeaf with
  | true => exact laws.guarded id (laws.readRules.leafContent hask (laws.scriptRules hask) id)
  | false => exact .bind (hask (.bytes id)) fun _ => .pure

theorem lengthStep (laws : ScopeLaws R) (id : NodeId) :
    Preserves R R (Resolver.lengthStep ask id) := by
  refine .bind .look fun n => ?_
  cases lengthRule n with
  | codec codec => exact .lift
  | fixed m => cases n.cache <;> exact .pure
  | encode =>
    cases n.cache with
    | some b => exact .pure
    | none => exact .bind (hask (.bytes id)) fun _ => .pure
  | children =>
    cases n.cache with
    | some b => exact .pure
    | none =>
      have hsum := laws.readRules.shownLength hask id
      dsimp only
      split
      · exact .bind (laws.touch id) fun _ => hsum
      · exact hsum

theorem step (laws : ScopeLaws R) (hbytes : ∀ id, Preserves R R (Resolver.bytesStep ask id))
    (r : Request) : Preserves R R (Resolver.step ask r) := by
  cases r with
  | bytes id => exact hbytes id
  | value id => exact laws.valueStep hask id
  | length id => exact laws.lengthStep hask id
  | lengthUpTo within target => exact laws.readRules.lengthUpToStep hask within target

end

-- ---------------------------------------------------------------------------
-- Operations
-- ---------------------------------------------------------------------------

section

variable (laws : ScopeLaws R) (hbytes : ∀ ask : Resolver, (∀ r, Preserves R R (ask r)) →
  ∀ id, Preserves R R (Resolver.bytesStep ask id))

include laws hbytes

theorem resolve (depth : Nat) (r : Request) : Preserves R R (Resolver.resolve depth r) := by
  induction depth generalizing r with
  | zero => exact .throw
  | succ depth ih => exact step ih laws (hbytes _ ih) r

theorem answerAll (r : Request) : Preserves R R (Resolver.answerAll r) :=
  .bind .get fun _ => laws.resolve hbytes _ r

theorem offset (id : NodeId) : Preserves R R (Tree.offset id) :=
  .bind .look fun _ => .bind .get fun t => laws.answerAll hbytes (.lengthUpTo t.root id)

end

end ScopeLaws

-- ---------------------------------------------------------------------------
-- Changes of any kind
-- ---------------------------------------------------------------------------

/-- The operations on groups that resolution calls on keep `R`, and so do the changes that it adds
to theirs. -/
structure ResolverLaws (R : Tree → Tree → Prop) : Prop where
  find : ∀ start path, Preserves R R (Tree.find start path)
  touch : ∀ id, Preserves R R (Tree.touch id)
  count : ∀ id, Preserves R R (Tree.count id)
  note : ∀ t source reader, R t (t.noteReader source reader)
  store : ∀ t id b, R t (t.modify id ({ · with cache := some b }))
  stack : ∀ t resolving, R t { t with resolving }

namespace ResolverLaws

variable {R : Tree → Tree → Prop} [IsPreorder Tree R] (laws : ResolverLaws R)

include laws

theorem guarded {α : Type} (id : NodeId) {act : TreeM α} (hact : Preserves R R act) :
    Preserves R R (Resolver.guarded id act) := by
  refine .bind (.bind .get fun t => ?_) fun _ => .bind (.outcome hact) fun r =>
    .bind (.modify fun t => laws.stack t _) fun _ => .lift
  split
  · exact .bind .throw fun _ => .modify fun t => laws.stack t _
  · exact .modify fun t => laws.stack t _

theorem scope : ScopeLaws R where
  find := laws.find
  touch := laws.touch
  count := laws.count
  note := laws.note
  guarded := laws.guarded

theorem bytesStep {ask : Resolver} (hask : ∀ r, Preserves R R (ask r)) (id : NodeId) :
    Preserves R R (Resolver.bytesStep ask id) := by
  refine .bind .look fun n => ?_
  cases n.cache with
  | some b => exact .pure
  | none =>
    refine .bind (laws.guarded id (laws.scope.freshBytes hask id)) fun b => .bind (.update ?_) fun _ => .pure
    intro t t' h
    cases hn : t.node id with
    | error e =>
      rw [hn] at h
      cases h
    | ok n =>
      rw [hn] at h
      cases h
      exact laws.store t id b

theorem answerAll (r : Request) : Preserves R R (Resolver.answerAll r) :=
  laws.scope.answerAll (fun _ => laws.bytesStep) r

theorem offset (id : NodeId) : Preserves R R (Tree.offset id) :=
  laws.scope.offset (fun _ => laws.bytesStep) id

end ResolverLaws

end FormatFuzz
