-- SUMMARY: Questions to a tree whose groups are ready add caches and readers to it, and change nothing else.
import FormatFuzz.Proofs.Fillings
import FormatFuzz.Proofs.Guards

/-!
# Annotations

All questions take the tree as something that they may change, because they can lead to groups that have
to be initialized first. Where all groups are ready, they only annotate it (`Tree.Annotates`): they cache
bytes and note readers. No cache is dropped or overwritten on the way, because a node without a cache stays
without one for as long as it is on the stack. That holds whatever closures do with the answers that they
get, and whatever the question ends with (`Tree.Settled.annotates`).
-/

namespace FormatFuzz

open TreeM

namespace Tree

variable {t t' u : Tree} {id : NodeId} {n : Node} {b : Bytes}

-- ---------------------------------------------------------------------------
-- Annotated trees
-- ---------------------------------------------------------------------------

/-- The trees differ in caches and readers at most. No cache has gone or changed, and no reader has been
forgotten. New caches are those of nodes that were not on the stack. -/
structure Annotates (t t' : Tree) : Prop extends Rests t t' where
  kept : ∀ {x b}, t.cacheOf x = some b → t'.cacheOf x = some b
  readers : ∀ {x n n'}, t.node? x = some n → t'.node? x = some n' → n.dependents ⊆ n'.dependents
  apart : ∀ {x b}, t.cacheOf x = none → t'.cacheOf x = some b → x ∉ t.resolving

namespace Annotates

theorem refl (t : Tree) : t.Annotates t where
  toRests := .refl t
  kept h := h
  readers hn hn' := by
    rw [hn] at hn'
    cases hn'
    exact List.Subset.refl _
  apart hnone hb := by
    rw [hnone] at hb
    cases hb

theorem trans (h : t.Annotates u) (h' : u.Annotates t') : t.Annotates t' where
  toRests := h.toRests.trans h'.toRests
  kept hb := h'.kept (h.kept hb)
  readers hn hn' := by
    obtain ⟨m, hm, -⟩ := h.node? hn
    exact fun y hy => h'.readers hm hn' (h.readers hn hm hy)
  apart {x b} hnone hb := by
    cases hb' : u.cacheOf x with
    | none => exact h.resolving ▸ h'.apart hb' hb
    | some b' => exact h.apart hnone hb'

/-- Caches are not touched when a reader is noted. -/
theorem of_noteReader (source reader : NodeId) : t.Annotates (t.noteReader source reader) := by
  refine ⟨.of_noteReader source reader, fun hb => (cacheOf_noteReader source reader).trans hb,
    fun {x n n'} hn hn' => ?_, fun hnone hb => ?_⟩
  · rw [node?_noteReader, hn] at hn'
    split at hn'
    · cases hn'
      exact fun y hy => NodeId.mem_insertInto.mpr (.inr hy)
    · cases hn'
      exact List.Subset.refl _
  · rw [cacheOf_noteReader, hnone] at hb
    cases hb

/-- The bytes of a node that is not on the stack may be cached. -/
theorem of_store (hn : t.node? id = some n) (hnone : n.cache = none) (hid : id ∉ t.resolving) :
    t.Annotates (t.modify id ({ · with cache := some b })) where
  toRests := .of_store
  kept := kept_store hn hnone
  readers {x m m'} hm hm' := by
    rw [node?_modify] at hm'
    split at hm'
    · rename_i hx
      rw [← hx, hm] at hm'
      cases hm'
      exact List.Subset.refl _
    · rw [hm] at hm'
      cases hm'
      exact List.Subset.refl _
  apart hx hb' := (new_store hn hx hb').1 ▸ hid

theorem uncached (h : t.Annotates u) {x : NodeId} (hx : x ∈ t.resolving) (hnone : t.cacheOf x = none) :
    u.cacheOf x = none := by
  cases hb : u.cacheOf x with
  | none => rfl
  | some b => exact absurd hx (h.apart hnone hb)

/-- What is done with a node on the stack may be looked at without it. -/
theorem pop (h : Annotates { t with resolving := id :: t.resolving } u) :
    t.Annotates { u with resolving := u.resolving.tail } where
  toRests := h.toRests.stack List.tail
  kept := h.kept
  readers := h.readers
  apart hnone hb hmem := h.apart hnone hb (List.mem_cons_of_mem _ hmem)

end Annotates

-- ---------------------------------------------------------------------------
-- Questions
-- ---------------------------------------------------------------------------

/-- The operation annotates trees whose groups are all ready. -/
def Scribbles (t t' : Tree) : Prop := t.Settled → t.Annotates t'

instance : IsPreorder Tree Scribbles where
  refl t _ := .refl t
  trans _ _ _ := fun h h' hs => (h hs).trans (h' ((h hs).settled hs))

theorem Surveys.scribbles {α : Type} {act : TreeM α} (h : Surveys act) :
    Preserves Scribbles Scribbles act := by
  refine .of_run fun t hs => ?_
  rw [h.idle hs]
  exact .refl t

/-- With a node on the stack, nothing is cached for it. -/
theorem annotates_guarded {α : Type} (id : NodeId) {act : TreeM α}
    (hact : Preserves Scribbles Scribbles act) (hs : t.Settled) :
    wp (Resolver.guarded id act) (fun r t' => t.Annotates t' ∧
      (t.cacheOf id = none → t'.cacheOf id = none) ∧ ∀ a, r = .ok a → id ∉ t.resolving) t := by
  rw [wp.guarded]
  split
  · exact ⟨.refl t, fun hnone => hnone, fun a ha => by cases ha⟩
  · rename_i hid
    refine (hact { t with resolving := id :: t.resolving }).mono fun r u hu => ?_
    have h := hu.rel hs
    exact ⟨h.pop, h.uncached List.mem_cons_self, fun _ _ => hid⟩

theorem scopeLaws_scribbles : ScopeLaws Scribbles where
  find start path := (find_surveys start path).scribbles
  touch id := (touch_surveys id).scribbles
  count id := (count_surveys id).scribbles
  note _ source reader _ := .of_noteReader source reader
  guarded id _ hact := .of_run fun _ hs => (annotates_guarded id hact hs).1

theorem scribbles_bytesStep {ask : Resolver} (hask : ∀ r, Preserves Scribbles Scribbles (ask r))
    (id : NodeId) : Preserves Scribbles Scribbles (Resolver.bytesStep ask id) := by
  refine .of_run fun t hs => ?_
  suffices h : wp (Resolver.bytesStep ask id) (fun _ t' => t.Annotates t') t from h
  refine Resolver.wp_bytesStep_of_fresh (.refl t) fun hn hcache => ?_
  refine (annotates_guarded id (scopeLaws_scribbles.freshBytes hask id) hs).mono fun r t₁ h => ?_
  obtain ⟨h₁, hunset, hid⟩ := h
  refine ⟨h₁, fun b n₁ hb hn₁ => h₁.trans (.of_store hn₁ ?_ (h₁.resolving ▸ hid b hb))⟩
  rw [← cacheOf_of_node? hn₁]
  exact hunset ((cacheOf_of_node? hn).trans hcache)

theorem scribbles_answerAll (r : Request) : Preserves Scribbles Scribbles (Resolver.answerAll r) :=
  scopeLaws_scribbles.answerAll (fun _ => scribbles_bytesStep) r

theorem Call.scribbles (c : Call) (hc : c.Asks) (t : Tree) : Scribbles t (c.run t) := by
  cases c with
  | find start path => exact (scopeLaws_scribbles.find start path).run t
  | bytes id => exact (scribbles_answerAll (.bytes id)).run t
  | value id => exact (scribbles_answerAll (.value id)).run t
  | byteLength id => exact (scribbles_answerAll (.length id)).run t
  | offset id => exact (scopeLaws_scribbles.offset (fun _ => scribbles_bytesStep) id).run t
  | count id => exact (scopeLaws_scribbles.count id).run t
  | resize id n => exact hc.elim
  | replaceCell id cell => exact hc.elim
  | invalidate id => exact hc.elim
  | invalidateAll => exact hc.elim

/-- Where all groups are ready, questions of all kinds change nothing but caches and readers, to which they
only add, whatever they end with. -/
theorem Settled.annotates (hs : t.Settled) : (∀ c : Call, c.Asks → t.Annotates (c.run t)) ∧
    ∀ path, t.Annotates ((Tree.lookup path).run t).2 := by
  refine ⟨fun c hc => c.scribbles hc t hs, fun path => ?_⟩
  have hlookup : Preserves Scribbles Scribbles (Tree.lookup path) :=
    .bind .get fun t => scopeLaws_scribbles.find t.root path
  exact hlookup.run t hs

theorem Settled.annotates_flags : ∃ t₀, build flags 7 = .ok t₀ ∧ t₀.Settled ∧
    t₀.Annotates ((Call.bytes ⟨0⟩).run t₀) := by
  have hready : (build flags 7).toOption.any (fun t =>
      t.nodes.all (·.all fun n => n.kind.group?.all (·.phase = .ready)) = true) = true := by
    decide +kernel
  obtain ⟨t₀, hbuild, hready⟩ := exists_build hready
  have hs : t₀.Settled := .of_all (of_decide_eq_true hready)
  exact ⟨t₀, hbuild, hs, hs.annotates.1 (.bytes ⟨0⟩) trivial⟩

end Tree

end FormatFuzz
