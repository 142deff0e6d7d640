-- SUMMARY: What has had a result has it with less on the stack and with more depth.
import FormatFuzz.Proofs.Replays

/-!
# Stacks

The nodes on the stack can only stand in the way of a question, and so can the depth. What has had a result
has the same one in a tree with less on the stack that differs in readers otherwise, and with more depth
(`Resolver.lightens_resolve`). The two runs go through the same parts side by side, as far as the first one
does not fail. As the same is cached in both trees at all times, nothing is asked of codecs.
-/

namespace FormatFuzz

open TreeM

namespace Tree

variable {t t' u v u' v' : Tree} {id : NodeId} {n m : Node}

-- ---------------------------------------------------------------------------
-- Trees with less on the stack
-- ---------------------------------------------------------------------------

/-- All groups are ready, and closures fail once a read of them fails. -/
structure Firm (t : Tree) : Prop where
  settled : t.Settled
  cell : ∀ ⦃id n⦄, t.node? id = some n → n.cell.Brittle
  action : ∀ ⦃id n f⦄, t.node? id = some n → n.action = some f → ∀ raw, (f.run [raw]).Brittle

theorem Firm.of_like (h : t.Firm) (hlike : t.Like t') : t'.Firm where
  settled := h.settled.of_sameKinds hlike.sameKinds
  cell := by
    intro id n' hn'
    obtain ⟨n, hn, hbare⟩ := hlike.symm.node? hn'
    have hcell : n.cell = n'.cell := Node.cell_of_bare hbare
    exact hcell ▸ h.cell hn
  action := by
    intro id n' f hn' hf
    obtain ⟨n, hn, hbare⟩ := hlike.symm.node? hn'
    have haction := congrArg Node.action hbare
    exact h.action hn (haction.trans hf)

theorem Firm.brittle (h : t.Firm) {cell : Cell} (hcell : t.cell id = .ok cell) : cell.Brittle := by
  obtain ⟨n, hn, rfl⟩ := look_eq_ok.mp hcell
  exact h.cell hn

theorem Firm.brittle_of_action (h : t.Firm) {f : Transform} (haction : t.look id (·.action) = .ok (some f))
    (raw : Bytes) : (f.run [raw]).Brittle := by
  obtain ⟨n, hn, hf⟩ := look_eq_ok.mp haction
  exact h.action hn hf raw

/-- The trees differ in readers, and the second one has no more on the stack. -/
structure Lighter (u v : Tree) : Prop where
  like : u.Like v
  cached : ∀ x, v.cacheOf x = u.cacheOf x
  stack : v.resolving ⊆ u.resolving

/-- The two trees go on side by side. -/
structure Marches (u v u' v' : Tree) : Prop where
  lighter : u'.Lighter v'
  left : u.Rests u'
  right : v.Rests v'

namespace Lighter

theorem outline (h : u.Lighter v) : v.outline = u.outline := h.like.outline

theorem node? (h : u.Lighter v) (hn : u.node? id = some n) :
    ∃ m, v.node? id = some m ∧ m.bare = n.bare ∧ m.cache = n.cache := by
  obtain ⟨m, hm, hbare⟩ := h.like.node? hn
  exact ⟨m, hm, hbare, by rw [← cacheOf_of_node? hm, h.cached, cacheOf_of_node? hn]⟩

theorem push (h : u.Lighter v) {stack stack' : List NodeId} (hstack : stack' ⊆ stack) :
    Lighter { u with resolving := stack } { v with resolving := stack' } where
  like := ⟨h.like.root, h.like.seed, h.like.size, h.like.nodes⟩
  cached := h.cached
  stack := hstack

theorem noteReader (h : u.Lighter v) (source reader : NodeId) :
    (u.noteReader source reader).Lighter (v.noteReader source reader) where
  like := (Like.of_noteReader source reader).symm.trans (h.like.trans (.of_noteReader source reader))
  cached x := by rw [cacheOf_noteReader, cacheOf_noteReader, h.cached]
  stack := by
    rw [(Rests.of_noteReader source reader).resolving, (Rests.of_noteReader source reader).resolving]
    exact h.stack

theorem store (h : u.Lighter v) (hn : u.node? id = some n) (b : Bytes) :
    (u.modify id ({ · with cache := some b })).Lighter (v.modify id ({ · with cache := some b })) where
  like := Like.trans (.symm (.of_modify fun _ => rfl)) (h.like.trans (.of_modify fun _ => rfl))
  cached x := by
    obtain ⟨m, hm, -⟩ := h.node? hn
    rw [cacheOf_store hn, cacheOf_store hm, h.cached]
  stack := h.stack

theorem marches (h : u.Lighter v) : Marches u v u v := ⟨h, .refl u, .refl v⟩

end Lighter

namespace Marches

variable {u₁ v₁ : Tree}

theorem trans (h : Marches u v u₁ v₁) (h' : Marches u₁ v₁ u' v') : Marches u v u' v' :=
  ⟨h'.lighter, h.left.trans h'.left, h.right.trans h'.right⟩

end Marches

end Tree

open FormatFuzz.Tree (Firm Lighter Marches)

-- ---------------------------------------------------------------------------
-- Operations
-- ---------------------------------------------------------------------------

/-- Where the first operation has a result, the second one has the same in a tree with less on the stack. -/
def Lightens {α : Type} (act act' : TreeM α) : Prop :=
  ∀ u v : Tree, u.Firm → u.Lighter v → wp act (fun r u' => ∀ a, r = .ok a →
    wp act' (fun r' v' => r' = .ok a ∧ Marches u v u' v') v) u

namespace Lightens

variable {α β : Type} {act act' : TreeM α} {f f' : α → TreeM β} {id : NodeId}

theorem of_surveys (h : Tree.Surveys act) : Lightens act act := by
  intro u v hu huv
  obtain ⟨r, hr⟩ := h u hu.settled
  refine (hr u rfl).mono ?_
  rintro _ _ ⟨rfl, rfl⟩ a rfl
  refine (hr v huv.outline).mono ?_
  rintro _ _ ⟨rfl, rfl⟩
  exact ⟨rfl, huv.marches⟩

theorem throw {e : TreeError} : Lightens (MonadExcept.throw e : TreeM α) act' := by
  rintro u v - - a ⟨⟩

/-- A failure may be looked at if it only leads to another one. -/
theorem attempt {g g' : Except TreeError α → TreeM β} (hact : Lightens act act')
    (hok : ∀ a, Lightens (g (.ok a)) (g' (.ok a)))
    (herror : ∀ e, ∃ e', g (.error e) = MonadExcept.throw e') :
    Lightens (TreeM.outcome act >>= g) (TreeM.outcome act' >>= g') := by
  intro u v hu huv
  rw [wp.bind, wp.outcome]
  refine (hact u v hu huv).mono fun r u₁ h₁ => ?_
  dsimp only
  cases r with
  | error e =>
    obtain ⟨e', he'⟩ := herror e
    rw [he']
    rintro a ⟨⟩
  | ok a =>
    obtain ⟨v₁, hrun, hmarches⟩ := (h₁ a rfl).exists_run
    have hu₁ := hu.of_like hmarches.left.toLike
    refine (hok a u₁ v₁ hu₁ hmarches.lighter).mono fun r u₂ h₂ b hb => ?_
    rw [wp.bind, wp.outcome]
    exact wp.of_eq hrun ((h₂ b hb).mono fun r' v₂ h => ⟨h.1, hmarches.trans h.2⟩)

theorem bind (hact : Lightens act act') (hf : ∀ a, Lightens (f a) (f' a)) :
    Lightens (act >>= f) (act' >>= f') := by
  rw [TreeM.bind_eq_outcome, TreeM.bind_eq_outcome act']
  exact attempt hact hf fun e => ⟨e, rfl⟩

/-- Without closures, caches and the stack, there is nothing to show. -/
theorem readRules : PairRules Firm fun _ => Lightens where
  pure _ := .of_surveys .pure
  fail _ := .throw
  bind := .bind
  look {_ _ f g g'} hf hg u v hu huv := by
    cases ha : f u with
    | error e =>
      rw [wp.look_error ha]
      rintro a ⟨⟩
    | ok a =>
      rw [wp.look_ok ha]
      refine (hg u a hu ha u v hu huv).mono fun r u' h b hb => ?_
      rw [wp.look_ok ((huv.like.eq_of_bare hf).trans ha)]
      exact h b hb
  state {_ f f'} hf hf' hact u v hu huv := by
    rw [wp.get_bind]
    refine (hact u u v hu huv).mono fun r u' h b hb => ?_
    rw [wp.get_bind, Tree.eq_of_outline hf' huv.outline]
    exact h b hb
  find start path := .of_surveys (Tree.find_surveys start path)
  tryFind start path := .of_surveys (Replays.surveys_outcome (Tree.find_surveys start path))
  touch id := .of_surveys (Tree.touch_surveys id)
  count id := .of_surveys (Tree.count_surveys id)
  note {source} reader hsource u v _ huv := by
    rw [wp.modify]
    rintro _ ⟨⟩
    rw [wp.modify, Tree.eq_of_outline hsource huv.outline]
    exact ⟨rfl, huv.noteReader _ reader, .of_noteReader _ reader, .of_noteReader _ reader⟩

/-- A node may be looked up for its cache as well. -/
theorem node {g g' : Node → TreeM α}
    (hg : ∀ n m : Node, m.bare = n.bare → m.cache = n.cache → Lightens (g n) (g' m)) :
    Lightens (TreeM.look (·.node id) >>= g) (TreeM.look (·.node id) >>= g') := by
  intro u v hu huv
  cases hn : u.node id with
  | error e =>
    rw [wp.look_error hn]
    rintro a ⟨⟩
  | ok n =>
    obtain ⟨m, hm, hbare, hcache⟩ := huv.node? (Tree.node_eq_ok.mp hn)
    rw [wp.look_ok hn]
    refine (hg n m hbare hcache u v hu huv).mono fun r u' h a ha => ?_
    rw [wp.look_ok (Tree.node_eq_ok.mpr hm)]
    exact h a ha

/-- A node that is on neither stack is put on both. -/
theorem guarded (hact : Lightens act act') :
    Lightens (Resolver.guarded id act) (Resolver.guarded id act') := by
  intro u v hu huv
  rw [wp.guarded]
  split
  · rintro a ⟨⟩
  · rename_i hid
    have hpushed := huv.push (List.cons_subset_cons id huv.stack)
    have hlike : u.Like { u with resolving := id :: u.resolving } := ⟨rfl, rfl, rfl, fun _ => rfl⟩
    have hu' := hu.of_like hlike
    refine (hact _ _ hu' hpushed).mono fun r u₁ h₁ a ha => ?_
    rw [wp.guarded, if_neg fun hmem => hid (huv.stack hmem)]
    refine (h₁ a ha).mono fun r' v₁ h => ⟨h.1, ?_, h.2.left.stack List.tail, h.2.right.stack List.tail⟩
    refine h.2.lighter.push ?_
    rw [h.2.left.resolving, h.2.right.resolving]
    exact huv.stack

theorem store (id : NodeId) (b : Bytes) : Lightens
    (TreeM.update fun t => do
      let _ ← t.node id
      return t.modify id ({ · with cache := some b }))
    (TreeM.update fun t => do
      let _ ← t.node id
      return t.modify id ({ · with cache := some b })) := by
  intro u v _ huv
  simp only [wp.update]
  cases hn : u.node id with
  | error e => exact fun a ha => absurd ha error_ne_ok
  | ok n =>
    have hn := Tree.node_eq_ok.mp hn
    obtain ⟨m, hm, -⟩ := huv.node? hn
    rintro _ ⟨⟩
    rw [Tree.node_eq_ok.mpr hm]
    exact ⟨trivial, huv.store hn b, .of_store, .of_store⟩

end Lightens

-- ---------------------------------------------------------------------------
-- Resolution
-- ---------------------------------------------------------------------------

namespace Resolver

section

variable {ask ask' : Resolver} (hask : ∀ r, Lightens (ask r) (ask' r))

include hask

theorem lightens_runScript {α : Type} (id : NodeId) {s : Script α} (hs : s.Brittle) :
    Lightens (runScript ask id s) (runScript ask' id s) := by
  refine Lightens.readRules.survey (fun _ => Tree.enclosing_outline) fun base => ?_
  induction s with
  | done r => exact Lightens.readRules.lift r
  | ask q next ih =>
    obtain ⟨herror, hnext⟩ := hs
    refine .attempt (Lightens.readRules.answer ask ask' base id q fun r _ => hask r)
      (fun a => ih (.ok a) (hnext (.ok a))) fun e => ?_
    obtain ⟨e', he'⟩ := herror e
    exact ⟨e', by rw [he']; rfl⟩

theorem lightens_scripts : PairScripts Firm (fun _ => Lightens) ask ask' where
  deferred hfirm hcell := lightens_runScript hask _ (hfirm.brittle hcell)
  computed hfirm hcell := lightens_runScript hask _ (hfirm.brittle hcell)
  action hfirm haction raw := lightens_runScript hask _ (hfirm.brittle_of_action haction raw)

theorem lightens_bytesStep (id : NodeId) : Lightens (bytesStep ask id) (bytesStep ask' id) := by
  refine .node fun n m _ hcache => ?_
  rw [hcache]
  cases n.cache with
  | some b => exact .of_surveys .pure
  | none =>
    have hfresh := Lightens.readRules.freshBytes ask ask' (fun id => hask (.bytes id))
      (fun id => hask (.value id)) (lightens_scripts hask) id
    exact .bind hfresh.guarded fun b => .bind (.store id b) fun _ => .of_surveys .pure

theorem lightens_valueStep (id : NodeId) : Lightens (valueStep ask id) (valueStep ask' id) := by
  refine Lightens.readRules.survey (fun _ => Tree.isLeaf_outline) fun isLeaf => ?_
  cases isLeaf with
  | true =>
    have hcontent := Lightens.readRules.leafContent ask ask' (fun id => hask (.bytes id))
      (fun id => hask (.value id)) (lightens_scripts hask) id
    exact hcontent.guarded
  | false => exact .bind (hask (.bytes id)) fun _ => .of_surveys .pure

theorem lightens_lengthStep (id : NodeId) : Lightens (lengthStep ask id) (lengthStep ask' id) := by
  refine .node fun n m hbare hcache => ?_
  have hkind := Node.kind_of_bare hbare
  have hrepeated : m.kind.isRepeated = n.kind.isRepeated := congrArg NodeKind.isRepeated hkind
  rw [Tree.lengthRule_of_bare hbare, hcache, hrepeated]
  have hsum := Lightens.readRules.shownLength ask ask' id fun _ _ _ _ c _ => hask (.length c)
  cases lengthRule n with
  | codec codec => exact Lightens.readRules.lift _
  | fixed k => cases n.cache <;> exact .of_surveys .pure
  | encode =>
    cases n.cache with
    | some b => exact .of_surveys .pure
    | none => exact .bind (hask (.bytes id)) fun _ => .of_surveys .pure
  | children =>
    cases n.cache with
    | some b => exact .of_surveys .pure
    | none => exact PairRules.ite (.bind (Lightens.readRules.touch id) fun _ => hsum) hsum

theorem lightens_step (r : Request) : Lightens (step ask r) (step ask' r) := by
  cases r with
  | bytes id => exact lightens_bytesStep hask id
  | value id => exact lightens_valueStep hask id
  | length id => exact lightens_lengthStep hask id
  | lengthUpTo within target =>
    exact Lightens.readRules.lengthUpToStep ask ask' within target fun _ _ _ _ c _ =>
      ⟨hask (.length c), hask (.lengthUpTo c target)⟩

end

/-- What a question has come out with comes out with more depth, and with less on the stack. -/
theorem lightens_resolve {d e : Nat} (hde : d ≤ e) (r : Request) : Lightens (resolve d r) (resolve e r) := by
  induction d generalizing e r with
  | zero => exact .throw
  | succ d ih =>
    cases e with
    | zero => exact absurd hde (Nat.not_succ_le_zero d)
    | succ e => exact lightens_step (ih (Nat.le_of_succ_le_succ hde)) r

end Resolver

end FormatFuzz
