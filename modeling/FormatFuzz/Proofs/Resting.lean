-- SUMMARY: What questions leave of a tree whose groups are ready, and what a trial leaves of it.
import FormatFuzz.Proofs.Restoration
import FormatFuzz.Proofs.Twins

/-!
# Resting trees

Between two trials the tree of a run is the one of before the run, but for caches and readers: it rests
(`Tree.Rests`). Questions leave it so, and so does the restoration after a trial. If nothing was cached
before the run, readers are all that trials can leave behind (`Tree.Rests.twins`), and writing values
leads on from there to trees that differ in readers only (`Campaign.writeValues_twins`).
-/

namespace FormatFuzz

open TreeM

namespace Tree

variable {t t' u v : Tree} {id : NodeId}

theorem Surveys.idle {α : Type} {act : TreeM α} (h : Surveys act) (hs : t.Settled) :
    (act.run t).2 = t := by
  obtain ⟨r, hr⟩ := h t hs
  exact (hr t rfl).2

-- ---------------------------------------------------------------------------
-- Questions
-- ---------------------------------------------------------------------------

/-- The trees differ in caches and readers at most. -/
structure Rests (t t' : Tree) : Prop extends Intact t t' where
  resolving : t'.resolving = t.resolving

theorem Rests.refl (t : Tree) : t.Rests t := ⟨.refl t, rfl⟩

theorem Rests.trans (h : t.Rests u) (h' : u.Rests v) : t.Rests v :=
  ⟨h.toIntact.trans h'.toIntact, h'.resolving.trans h.resolving⟩

theorem Rests.settled (h : t.Rests v) (hs : t.Settled) : v.Settled := hs.of_sameKinds h.sameKinds

/-- A tree stays at rest if it is looked at with another stack. -/
theorem Rests.stack (h : t.Rests u) (f : List NodeId → List NodeId) :
    Rests { t with resolving := f t.resolving } { u with resolving := f u.resolving } :=
  ⟨⟨⟨h.root, h.seed, h.size, h.nodes⟩, h.counters⟩, congrArg f h.resolving⟩

theorem Rests.of_noteReader (source reader : NodeId) : t.Rests (t.noteReader source reader) := by
  refine ⟨⟨.of_noteReader source reader, ?_⟩, ?_⟩ <;>
  · unfold noteReader
    split <;> rfl

theorem Rests.of_store {b : Bytes} : t.Rests (t.modify id ({ · with cache := some b })) :=
  ⟨⟨.of_modify fun _ => rfl, rfl⟩, rfl⟩

/-- The operation lets trees rest whose groups are all ready. -/
def Calms (t t' : Tree) : Prop := t.Settled → t.Rests t'

instance : IsPreorder Tree Calms where
  refl t _ := .refl t
  trans _ _ _ := fun h h' hs => (h hs).trans (h' ((h hs).settled hs))

theorem Surveys.calms {α : Type} {act : TreeM α} (h : Surveys act) : Preserves Calms Calms act := by
  refine .of_run fun t hs => ?_
  rw [h.idle hs]
  exact .refl t

theorem calms_guarded {α : Type} (id : NodeId) {act : TreeM α} (hact : Preserves Calms Calms act) :
    Preserves Calms Calms (Resolver.guarded id act) := by
  refine .of_run fun t hs => ?_
  suffices h : wp (Resolver.guarded id act) (fun _ t' => t.Rests t') t from h
  rw [wp.guarded]
  split
  · exact .refl t
  · exact (hact { t with resolving := id :: t.resolving }).mono fun r u hu => (hu.rel hs).stack List.tail

theorem scopeLaws_calms : ScopeLaws Calms where
  find start path := (find_surveys start path).calms
  touch id := (touch_surveys id).calms
  count id := (count_surveys id).calms
  note _ source reader _ := .of_noteReader source reader
  guarded := calms_guarded

theorem calms_bytesStep {ask : Resolver} (hask : ∀ r, Preserves Calms Calms (ask r)) (id : NodeId) :
    Preserves Calms Calms (Resolver.bytesStep ask id) := by
  refine .bind .look fun n => ?_
  cases n.cache with
  | some b => exact .pure
  | none =>
    refine .bind (calms_guarded id (scopeLaws_calms.freshBytes hask id)) fun b =>
      .bind (.update fun t t' h hs => ?_) fun _ => .pure
    cases hn : t.node id with
    | error e =>
      rw [hn] at h
      cases h
    | ok n =>
      rw [hn] at h
      cases h
      exact .of_store

theorem calms_answerAll (r : Request) : Preserves Calms Calms (Resolver.answerAll r) :=
  scopeLaws_calms.answerAll (fun _ => calms_bytesStep) r

theorem Call.calms (c : Call) (hc : c.Asks) (t : Tree) : Calms t (c.run t) := by
  cases c with
  | find start path => exact (scopeLaws_calms.find start path).run t
  | bytes id => exact (calms_answerAll (.bytes id)).run t
  | value id => exact (calms_answerAll (.value id)).run t
  | byteLength id => exact (calms_answerAll (.length id)).run t
  | offset id => exact (scopeLaws_calms.offset (fun _ => calms_bytesStep) id).run t
  | count id => exact (scopeLaws_calms.count id).run t
  | resize id n => exact hc.elim
  | replaceCell id cell => exact hc.elim
  | invalidate id => exact hc.elim
  | invalidateAll => exact hc.elim

/-- Questions let a tree rest whose groups are ready. -/
theorem Queried.rests (h : t.Queried t') (hs : t.Settled) : t.Rests t' := by
  suffices hcalms : Calms t t' from hcalms hs
  clear hs
  induction h with
  | refl => exact refl_of Calms t
  | tail _ hstep ih =>
    refine trans_of Calms ih ?_
    rcases hstep with ⟨c, hc, rfl⟩ | ⟨c, rfl⟩
    · exact c.calms hc _
    · intro hs
      have htargets := c.targets_settled hs
      unfold wp at htargets
      rw [htargets.1]
      exact .refl _

-- ---------------------------------------------------------------------------
-- Trees without caches
-- ---------------------------------------------------------------------------

/-- Nothing is cached. -/
def Uncached (t : Tree) : Prop := ∀ id n, t.node? id = some n → n.cache = none

theorem uncached_invalidateAll (t : Tree) : t.invalidateAll.Uncached := by
  intro id n hn
  rw [node?_invalidateAll] at hn
  obtain ⟨m, -, rfl⟩ := Option.map_eq_some_iff.mp hn
  rfl

theorem unread_eq_of_bare (hroot : t'.root = t.root) (hseed : t'.seed = t.seed)
    (hcounters : t'.counters = t.counters) (hresolving : t'.resolving = t.resolving)
    (hsize : t'.nodes.size = t.nodes.size)
    (hbare : ∀ id, (t'.node? id).map Node.bare = (t.node? id).map Node.bare)
    (hu : t.Uncached) (hu' : t'.Uncached) : t'.unread = t.unread := by
  have hsame : ∀ {t : Tree} id, t.Uncached →
      (t.node? id).map Node.unread = (t.node? id).map Node.bare := by
    intro t id hu
    cases hn : t.node? id with
    | none => rfl
    | some n =>
      have hcache := hu id n hn
      obtain ⟨⟩ := n
      cases hcache
      rfl
  have hnodes : t'.nodes.map (Option.map Node.unread) = t.nodes.map (Option.map Node.unread) :=
    map_nodes_eq hsize fun id => by rw [hsame id hu', hsame id hu, hbare id]
  unfold unread
  rw [hnodes, hroot, hseed, hcounters, hresolving]

/-- Where nothing is cached, readers are all that resting trees can differ in. -/
theorem Rests.twins (h : t.Rests v) (hs : t.Settled) (hu : t.Uncached) (hu' : v.Uncached) : t.Twins v :=
  ⟨hs, unread_eq_of_bare h.root h.seed h.counters h.resolving h.size h.nodes hu hu'⟩

theorem Uncached.invalidate (hu : t.Uncached) (id : NodeId) : (t.invalidate id).Uncached := by
  intro x n hn
  rw [node?_invalidate] at hn
  split at hn
  · obtain ⟨m, -, rfl⟩ := Option.map_eq_some_iff.mp hn
    rfl
  · exact hu x n hn

theorem Uncached.putCell (hu : t.Uncached) (id : NodeId) (cell : Cell) : (t.putCell id cell).Uncached := by
  intro x n hn
  unfold Tree.putCell at hn
  rw [node?_modify] at hn
  split at hn
  · obtain ⟨m, hm, rfl⟩ := Option.map_eq_some_iff.mp hn
    exact hu id m hm
  · exact hu x n hn

theorem Uncached.twins_invalidate (hu : t.Uncached) (hs : t.Settled) (id : NodeId) :
    t.Twins (t.invalidate id) :=
  ⟨hs, unread_eq_of_bare root_invalidate seed_invalidate counters_invalidate resolving_invalidate
    size_invalidate Like.of_invalidate.nodes hu (hu.invalidate id)⟩

theorem Twins.uncached (h : t.Twins t') (hu : t.Uncached) : t'.Uncached := by
  intro id n' hn'
  have hnode := congrArg (·.node? id) h.unread
  simp only [node?_unread] at hnode
  rw [hn'] at hnode
  obtain ⟨n, hn, heq⟩ := Option.map_eq_some_iff.mp hnode.symm
  have hcache := congrArg Node.cache heq
  exact hcache.symm.trans (hu id n hn)

theorem Varies.outline {D : NodeId → Prop} (h : Varies D t t') : t'.outline = t.outline :=
  outline_eq_iff.mpr ⟨h.root, h.seed, h.size, h.varied⟩

end Tree

-- ---------------------------------------------------------------------------
-- Trials
-- ---------------------------------------------------------------------------

namespace Campaign

open FormatFuzz.Tree (Rests Twins Uncached Varies Intact)

variable {t t' v : Tree} {targets : List Target}

/-- The tree after values have been written into live nodes. -/
def written (chosen : List (Target × Value)) (t : Tree) : Tree :=
  chosen.foldl (fun t pair => (t.invalidate pair.1.id).putCell pair.1.id (.literal pair.2)) t

theorem setCell_of_live {id : NodeId} {cell : Cell} (hlive : t.isLive id = true) :
    t.setCell id cell = .ok ((t.invalidate id).putCell id cell) := by
  obtain ⟨n, hn⟩ := Tree.isLive_iff.mp hlive
  unfold Tree.setCell
  rw [hn]
  rfl

theorem written_varies {D : NodeId → Prop} {chosen : List (Target × Value)}
    (hD : ∀ pair ∈ chosen, D pair.1.id) (t : Tree) :
    Varies D t (written chosen t) ∧ (written chosen t).resolving = t.resolving := by
  induction chosen generalizing t with
  | nil => exact ⟨.of_intact (.refl t), rfl⟩
  | cons pair rest ih =>
    obtain ⟨hvaries, hresolving⟩ := ih (fun x hx => hD x (List.mem_cons_of_mem _ hx))
      ((t.invalidate pair.1.id).putCell pair.1.id (.literal pair.2))
    have hinvalidate : t.Intact (t.invalidate pair.1.id) :=
      ⟨.of_invalidate, Tree.counters_invalidate⟩
    have hput : Varies D t ((t.invalidate pair.1.id).putCell pair.1.id (.literal pair.2)) :=
      (Varies.of_intact hinvalidate).trans (.of_putCell (hD pair List.mem_cons_self))
    exact ⟨hput.trans hvaries, hresolving.trans Tree.resolving_invalidate⟩

theorem isLive_written (chosen : List (Target × Value)) (t : Tree) (id : NodeId) :
    (written chosen t).isLive id = t.isLive id :=
  Tree.eq_of_outline (f := (·.isLive id)) (fun _ => Tree.isLive_outline)
    (written_varies (D := fun _ => True) (fun _ _ => trivial) t).1.outline

/-- Writing into live nodes cannot fail. -/
theorem run_writeValues {chosen : List (Target × Value)}
    (hlive : ∀ pair ∈ chosen, t.isLive pair.1.id = true) :
    (writeValues chosen).run t = (.ok (), written chosen t) := by
  induction chosen generalizing t with
  | nil => rfl
  | cons pair rest ih =>
    have hset : t.setCell pair.1.id (.literal pair.2) = _ :=
      setCell_of_live (hlive pair List.mem_cons_self)
    have hrest := ih (t := written [pair] t) fun x hx => by
      rw [isLive_written]
      exact hlive x (List.mem_cons_of_mem _ hx)
    have hcons : writeValues (pair :: rest) =
        (Tree.replaceCell pair.1.id (.literal pair.2) >>= fun _ => writeValues rest) := by
      unfold writeValues
      rw [List.forIn_cons]
      simp only [bind_assoc, pure_bind]
    suffices h : wp (writeValues (pair :: rest))
        (fun r u => r = .ok () ∧ u = written (pair :: rest) t) t from Prod.ext h.1 h.2
    rw [hcons, wp.bind, Tree.replaceCell, wp.update, hset]
    exact ⟨congrArg Prod.fst hrest, congrArg Prod.snd hrest⟩

/-- The same values written into two trees that differ in readers only leave two such trees, if nothing
is cached in them. -/
theorem written_twins (chosen : List (Target × Value)) (h : t.Twins t') (hu : t.Uncached) :
    (written chosen t).Twins (written chosen t') := by
  induction chosen generalizing t t' with
  | nil => exact h
  | cons pair rest ih =>
    have hinvalidate : (t.invalidate pair.1.id).Twins (t'.invalidate pair.1.id) :=
      (hu.twins_invalidate h.settled _).symm.trans
        (h.trans ((h.uncached hu).twins_invalidate h.symm.settled _))
    exact ih (hinvalidate.modify pair.1.id (f := ({ · with cell := .literal pair.2 })) (fun _ => rfl)
      fun _ => rfl) ((hu.invalidate _).putCell _ _)

/-- The restoration puts a tree to rest that has had targets written and questions asked. -/
theorem rests_restore (hsaved : ∀ x ∈ targets, ∃ n, t.node? x.id = some n ∧ n.cell = x.saved)
    (hnodup : (targets.map (·.id)).Nodup) (h : Varies (· ∈ targets.map (·.id)) t v)
    (hresolving : v.resolving = t.resolving) :
    t.Rests (restore targets v) ∧ (restore targets v).Uncached := by
  have hstack : ∀ (targets : List Target) (v : Tree),
      (targets.foldl (fun t x => t.putCell x.id x.saved) v).resolving = v.resolving := by
    intro targets
    induction targets with
    | nil => exact fun _ => rfl
    | cons x rest ih => exact fun v => ih _
  exact ⟨⟨intact_restore hsaved hnodup h, (hstack targets v).trans hresolving⟩,
    (restored_restore hnodup v).cache⟩

end Campaign

end FormatFuzz
