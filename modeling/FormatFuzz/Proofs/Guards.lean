-- SUMMARY: The stack is left as it was found, and no group is left in the middle of its initialization.
import FormatFuzz.Proofs.Readiness

/-!
# Guards

Two marks keep the recursion through a tree in bounds: the stack of the nodes being resolved, and
the phase of a group that is being initialized. Both are set and reset around operations that may
fail at any point. No operation leaves behind a mark of its own (`Tree.Unwinds`), whatever it
ends with, so that no state between two calls has any (`Tree.Reaches.remains_idle`).
-/

namespace FormatFuzz

open TreeM

/-- New nodes are not being initialized. -/
theorem Node.New.not_initializing {n : Node} {g : Group} (h : n.New) (hk : n.kind = .repeated g) :
    g.phase ≠ .initializing := by
  have hstill := h.kind
  rw [hk] at hstill
  rw [← NodeKind.repeated.inj hstill]
  exact Phase.noConfusion

namespace Tree

variable {t t₁ t₂ u : Tree} {id x : NodeId}

-- ---------------------------------------------------------------------------
-- Unwinding
-- ---------------------------------------------------------------------------

/-- The stack is as it was, and what is being initialized was being initialized before. -/
structure Unwinds (t t' : Tree) : Prop where
  resolving : t'.resolving = t.resolving
  busy : ∀ {x}, t'.Busy x → t.Busy x

theorem Busy.of_sameKinds (hkinds : t.SameKinds u) (h : u.Busy x) : t.Busy x := by
  obtain ⟨n', g, hn', hk, hphase⟩ := h
  obtain ⟨n, hn, hkind⟩ := hkinds hn'
  exact ⟨n, g, hn, hkind.trans hk, hphase⟩

namespace Unwinds

theorem refl (t : Tree) : t.Unwinds t := ⟨rfl, fun h => h⟩

theorem trans (h : t.Unwinds t₁) (h' : t₁.Unwinds t₂) : t.Unwinds t₂ :=
  ⟨h'.resolving.trans h.resolving, fun hx => h.busy (h'.busy hx)⟩

instance : IsPreorder Tree Unwinds where
  refl := refl
  trans _ _ _ := trans

theorem of_sameKinds (hresolving : u.resolving = t.resolving) (h : t.SameKinds u) : t.Unwinds u :=
  ⟨hresolving, Busy.of_sameKinds h⟩

theorem of_modify {f : Node → Node} (hf : ∀ n, (f n).kind = n.kind) : t.Unwinds (t.modify id f) := by
  refine of_sameKinds rfl fun x n' hn' => ?_
  rw [node?_modify] at hn'
  split at hn'
  · rename_i hx
    obtain ⟨n, hn, rfl⟩ := Option.map_eq_some_iff.mp hn'
    exact ⟨n, hx ▸ hn, (hf n).symm⟩
  · exact ⟨n', hn', rfl⟩

theorem of_modifyGroup {f : Group → Group}
    (hf : ∀ g, (f g).phase = .initializing → g.phase = .initializing) :
    t.Unwinds (t.modifyGroup id f) := by
  refine ⟨rfl, ?_⟩
  rintro x ⟨n', g', hn', hk', hphase⟩
  unfold modifyGroup at hn'
  rw [node?_modify] at hn'
  split at hn'
  · rename_i hx
    subst hx
    obtain ⟨n, hn, rfl⟩ := Option.map_eq_some_iff.mp hn'
    cases hk : n.kind with
    | repeated g =>
      rw [hk] at hk'
      cases hk'
      exact ⟨n, g, hn, hk, hf g hphase⟩
    | leaf k =>
      rw [hk] at hk'
      exact ⟨n, g', hn, hk', hphase⟩
    | composite =>
      rw [hk] at hk'
      exact ⟨n, g', hn, hk', hphase⟩
  · exact ⟨n', g', hn', hk', hphase⟩

theorem of_putCell {cell : Cell} : t.Unwinds (t.putCell id cell) := of_modify fun _ => rfl

theorem of_invalidate : t.Unwinds (t.invalidate id) :=
  of_sameKinds resolving_invalidate Like.of_invalidate.sameKinds

theorem of_invalidateAll : t.Unwinds t.invalidateAll := by
  refine of_sameKinds rfl fun x n' hn' => ?_
  rw [node?_invalidateAll] at hn'
  obtain ⟨n, hn, rfl⟩ := Option.map_eq_some_iff.mp hn'
  exact ⟨n, hn, rfl⟩

theorem of_remove : t.Unwinds (t.remove id) := by
  refine of_sameKinds rfl fun x n' hn' => ?_
  rw [node?_remove] at hn'
  split at hn'
  · cases hn'
  · exact ⟨n', hn', rfl⟩

theorem of_discard : t.Unwinds (t.discard id) := by
  suffices hfrom : ∀ fuel pending t, Unwinds t (discardFrom fuel pending t) from hfrom _ _ t
  intro fuel
  induction fuel with
  | zero =>
    intro pending t
    exact refl t
  | succ fuel ih =>
    intro pending t
    cases pending with
    | nil => exact refl t
    | cons id rest =>
      rw [discardFrom]
      split
      · exact of_invalidate.trans (of_remove.trans (ih _ _))
      · exact of_invalidate.trans (ih _ _)

theorem of_sprouts {parent : Option NodeId} {roots : List NodeId}
    (hresolving : u.resolving = t.resolving) (h : t.Sprouts u parent roots) : t.Unwinds u := by
  refine ⟨hresolving, ?_⟩
  rintro x ⟨n, g, hn, hk, hphase⟩
  rcases Nat.lt_or_ge x.index t.nodes.size with hlt | hge
  · exact ⟨n, g, h.old hlt ▸ hn, hk, hphase⟩
  · exact absurd hphase ((h.fresh hge hn).new.not_initializing hk)

end Unwinds

-- ---------------------------------------------------------------------------
-- New nodes
-- ---------------------------------------------------------------------------

theorem resolving_addNode (t : Tree) (h : Header) (name : Option String) (parent : Option NodeId)
    (kind : NodeKind) : (t.addNode h name parent kind).2.resolving = t.resolving := by
  unfold addNode initialCell
  cases h.counter <;> rfl

mutual

theorem resolving_instantiate : (τ : Template) → (name : Option String) → (parent : Option NodeId) →
    (t : Tree) → (instantiate τ name parent t).2.resolving = t.resolving
  | .leaf h kind, name, parent, t => resolving_addNode t h name parent (.leaf kind)
  | .composite h fields, name, parent, t => by
    rw [instantiate_composite]
    exact (resolving_instantiateAll fields _ _).trans (resolving_addNode t h name parent .composite)
  | .repeated h element rule, name, parent, t => resolving_addNode t h name parent _

theorem resolving_instantiateAll : (τs : List Template) → (parent : NodeId) → (t : Tree) →
    (instantiateAll τs parent t).2.resolving = t.resolving
  | [], _, _ => rfl
  | τ :: rest, parent, t =>
    (resolving_instantiateAll rest parent _).trans (resolving_instantiate τ none (some parent) t)

end

theorem Unwinds.of_instantiate (τ : Template) (name : Option String) (parent : Option NodeId) (t : Tree) :
    t.Unwinds (instantiate τ name parent t).2 :=
  .of_sprouts (resolving_instantiate τ name parent t)
    (instantiate_sprouts (C := fun _ => True) (fun _ => trivial) τ name parent t).1

theorem makeElements_unwinds (element : Template) (name : String) (id : NodeId) (count index : Nat) :
    Preserves Unwinds Unwinds (makeElements element name id count index) := by
  induction count generalizing index with
  | zero => exact .pure
  | succ count ih =>
    rw [makeElements]
    intro t
    simp only [wp.bind, wp.get, wp.set]
    have hmade := Unwinds.of_instantiate element (some s!"{name}[{index}]") (some id) t
    refine (ih (index + 1) _).mono fun r t' h => ?_
    cases r with
    | error e => exact hmade.trans h
    | ok rest => exact hmade.trans h

theorem swapElements_unwinds (id : NodeId) (element : Template) (old : List NodeId) (count : Nat) :
    Preserves Unwinds Unwinds (swapElements id element old count) := by
  refine .bind (.modify fun t => .of_modify fun _ => rfl) fun _ => .bind (.forIn fun child _ => ?_) fun _ =>
    .bind .look fun name => .bind (makeElements_unwinds element name id count 0) fun elements =>
      .bind (.update fun t t' h => ?_) fun _ => .pure
  · exact .bind (.modify fun t => .of_discard) fun _ => .pure
  · cases hn : t.node id with
    | error e =>
      rw [hn] at h
      cases h
    | ok n =>
      rw [hn] at h
      cases h
      exact .of_modify fun _ => rfl

-- ---------------------------------------------------------------------------
-- Groups
-- ---------------------------------------------------------------------------

theorem markStale_unwinds (t : Tree) (id : NodeId) : t.Unwinds ((t.markStale id).invalidate id) := by
  refine .trans (.of_modifyGroup fun g hphase => ?_) .of_invalidate
  split at hphase
  · cases hphase
  · exact hphase

theorem watch_unwinds (t : Tree) (id watcher : NodeId) : t.Unwinds (t.modifyGroup id fun group =>
    { group with watchers := NodeId.insertInto watcher group.watchers }) :=
  .of_modifyGroup fun _ hphase => hphase

theorem link_unwinds (s t : Tree) (id source : NodeId) (index : Nat) (field : String)
    (_ : s.isGroup source = .ok true) (h : s.Unwinds t) :
    s.Unwinds ((t.putCell id (.bound (.element source index field))).invalidate id) :=
  h.trans (.trans .of_putCell .of_invalidate)

theorem swapLaws_unwinds : SwapLaws Unwinds (fun _ => Unwinds) Unwinds where
  stale := markStale_unwinds
  swap t id n g count _ _ := swapElements_unwinds id g.element n.children count t
  swapped h h' := h.trans h'
  settle h := h.trans .of_invalidate
  spoil h h' := h.trans h'

/-- A group is marked by its phase alone. -/
theorem Busy.of_setPhase {phase : Phase} (h : (t.modifyGroup id ({ · with phase })).Busy x) :
    x = id ∧ phase = .initializing ∨ x ≠ id ∧ t.Busy x := by
  by_cases hx : x = id
  · refine .inl ⟨hx, ?_⟩
    obtain ⟨n', g', hn', hk', hphase⟩ := h
    unfold modifyGroup at hn'
    rw [node?_modify, if_pos hx] at hn'
    obtain ⟨n, -, rfl⟩ := Option.map_eq_some_iff.mp hn'
    cases hk : n.kind with
    | repeated g =>
      rw [hk] at hk'
      cases hk'
      exact hphase
    | leaf k =>
      rw [hk] at hk'
      cases hk.symm.trans hk'
    | composite =>
      rw [hk] at hk'
      cases hk.symm.trans hk'
  · obtain ⟨n', g', hn', hk', hphase⟩ := h
    unfold modifyGroup at hn'
    rw [node?_modify, if_neg hx] at hn'
    exact .inr ⟨hx, n', g', hn', hk', hphase⟩

/-- The phase that is set last takes the mark off the group, which may have died in the meantime. -/
theorem setPhase_unwinds {phase : Phase} (hphase : phase ≠ .initializing)
    (hresolving : u.resolving = t.resolving) (hbusy : ∀ x, u.Busy x → x ≠ id → t.Busy x) :
    wp (TreeM.update (·.setPhase id phase)) (fun _ t' => t.Unwinds t') u := by
  rw [wp.update]
  cases hset : u.setPhase id phase with
  | error e =>
    refine ⟨hresolving, fun {x} hx => hbusy x hx ?_⟩
    rintro rfl
    obtain ⟨n, g, hn, -⟩ := hx
    unfold setPhase at hset
    rw [node_eq_ok.mpr hn] at hset
    cases hset
  | ok u' =>
    rw [setPhase_eq_ok hset]
    refine ⟨hresolving, fun {x} hx => ?_⟩
    rcases hx.of_setPhase with ⟨-, h⟩ | ⟨hne, hx⟩
    · exact absurd h hphase
    · exact hbusy x hx hne

/-- A group is marked while it is initialized, and not when that is over. -/
theorem initStep_unwinds {run : Task → TreeM Unit} (hrun : ∀ task, Preserves Unwinds Unwinds (run task))
    (id : NodeId) : Preserves Unwinds Unwinds (TreeM.initStep run id) := by
  have htouch := GroupLaws.touchWith fun id => hrun (.init id)
  have hcount := GroupLaws.countWith fun id => hrun (.init id)
  have hbody : Preserves Unwinds Unwinds (do
      let count ← countByRuleWith (fun id => run (.init id)) id
      replaceElementsWith (fun id => run (.visit id)) id count
      linkElementsWith (fun id => run (.init id)) id : TreeM Unit) := by
    refine .bind ?_ fun count => .bind ?_ fun _ => GroupLaws.linkElementsWith htouch link_unwinds id
    · exact GroupLaws.countByRuleWith htouch hcount fun t source => watch_unwinds t source id
    · exact GroupLaws.replaceElementsWith swapLaws_unwinds (fun id => hrun (.visit id)) id count
  refine .of_run fun t => ?_
  suffices h : wp (TreeM.initStep run id) (fun _ t' => t.Unwinds t') t from h
  unfold TreeM.initStep
  rw [wp.bind, wp.update]
  cases hset : t.setPhase id .initializing with
  | error e => exact .refl t
  | ok t₁ =>
    rw [setPhase_eq_ok hset]
    dsimp only
    rw [wp.bind, wp.outcome]
    refine (hbody _).mono fun r t₂ h => ?_
    -- Only the group itself can be marked in excess now, and its phase is set once more.
    have hbusy : ∀ x, t₂.Busy x → x ≠ id → t.Busy x := by
      intro x hx hne
      rcases (h.rel.busy hx).of_setPhase with ⟨rfl, -⟩ | ⟨-, hx⟩
      · exact absurd rfl hne
      · exact hx
    cases r with
    | ok _ => exact setPhase_unwinds (t := t) Phase.noConfusion h.rel.resolving hbusy
    | error e =>
      dsimp only
      rw [wp.bind]
      refine (setPhase_unwinds (t := t) Phase.noConfusion h.rel.resolving hbusy).mono fun r t₃ h₃ => ?_
      cases r <;> exact h₃

theorem runTask_unwinds (depth : Nat) (task : Task) :
    Preserves Unwinds Unwinds (TreeM.runTask depth task) := by
  induction depth generalizing task with
  | zero => exact .throw
  | succ depth ih =>
    cases task with
    | init id => exact initStep_unwinds ih id
    | visit id =>
      exact GroupLaws.visitStep (GroupLaws.touchWith (fun id => ih (.init id)) id) fun id => ih (.visit id)

theorem perform_unwinds (task : Task) : Preserves Unwinds Unwinds (TreeM.perform task) :=
  .bind .get fun _ => runTask_unwinds _ task

theorem touch_unwinds (id : NodeId) : Preserves Unwinds Unwinds (Tree.touch id) :=
  GroupLaws.touchWith (fun id => perform_unwinds (.init id)) id

theorem resize_unwinds (id : NodeId) (count : Nat) : Preserves Unwinds Unwinds (Tree.resize id count) := by
  refine .bind (touch_unwinds id) fun _ => .bind ?_ fun _ =>
    GroupLaws.linkElementsWith touch_unwinds link_unwinds id
  exact GroupLaws.replaceElementsWith swapLaws_unwinds (fun id => perform_unwinds (.visit id)) id count

-- ---------------------------------------------------------------------------
-- Resolution
-- ---------------------------------------------------------------------------

theorem scopeLaws_unwinds : ScopeLaws Unwinds where
  find := GroupLaws.findWith touch_unwinds
  touch := touch_unwinds
  count := GroupLaws.countWith fun id => perform_unwinds (.init id)
  note t source reader := by
    unfold noteReader
    split
    · exact .refl t
    · exact .of_modify fun _ => rfl
  guarded id act hact := by
    refine .of_run fun t => ?_
    suffices h : wp (Resolver.guarded id act) (fun _ t' => t.Unwinds t') t from h
    rw [wp.guarded]
    split
    · exact .refl t
    · refine (hact _).mono fun r t' h => ⟨congrArg List.tail h.rel.resolving, fun hx => ?_⟩
      exact h.rel.busy hx

theorem bytesStep_unwinds {ask : Resolver} (hask : ∀ r, Preserves Unwinds Unwinds (ask r)) (id : NodeId) :
    Preserves Unwinds Unwinds (Resolver.bytesStep ask id) := by
  refine .bind .look fun n => ?_
  cases n.cache with
  | some b => exact .pure
  | none =>
    refine .bind (scopeLaws_unwinds.guarded id (scopeLaws_unwinds.freshBytes hask id)) fun b =>
      .bind (.update fun t t' h => ?_) fun _ => .pure
    cases hn : t.node id with
    | error e =>
      rw [hn] at h
      cases h
    | ok n =>
      rw [hn] at h
      cases h
      exact .of_modify fun _ => rfl

-- ---------------------------------------------------------------------------
-- All operations
-- ---------------------------------------------------------------------------

theorem Unwinds.of_setCell {cell : Cell} (h : t.setCell id cell = .ok u) : t.Unwinds u := by
  rw [setCell_eq_ok h]
  exact .trans .of_invalidate .of_putCell

theorem Unwinds.of_restore (targets : List Target) (t : Tree) :
    t.Unwinds (Campaign.restore targets t) := by
  unfold Campaign.restore
  refine .trans ?_ .of_invalidateAll
  induction targets generalizing t with
  | nil => exact .refl t
  | cons x rest ih => exact .trans .of_putCell (ih _)

theorem Call.unwinds (c : Call) (t : Tree) : t.Unwinds (c.run t) :=
  c.rule scopeLaws_unwinds (fun _ => bytesStep_unwinds) (fun id n _ => (resize_unwinds id n).run t)
    (fun _ _ _ _ => .of_setCell) (fun _ => .of_invalidate) .of_invalidateAll

theorem targets_unwinds (c : Campaign) (t : Tree) : wp c.targets (fun _ t' => t.Unwinds t') t :=
  (c.targets_saved t).mono fun _ _ h => h.1.keeps scopeLaws_unwinds.touch

theorem campaign_unwinds {σ : Type} (c : Campaign) {sink : Sink σ}
    (hsink : ∀ trial s v, Unwinds v (sink.accept trial s v).2.2) (s : σ) (t : Tree) :
    t.Unwinds (c.run sink s t).2.2 :=
  c.run_preserves (P := fun _ _ => True) ((targets_unwinds c t).mono fun _ _ h => ⟨h, fun _ _ => trivial⟩)
    (fun _ _ _ _ => .of_setCell) (fun targets _ t _ _ => .of_restore targets t) hsink s

theorem Reaches.unwinds {allowed : Tree → Call → Prop} (h : Reaches allowed t u) : t.Unwinds u := by
  induction h with
  | refl t => exact .refl t
  | call c _ _ ih => exact ih.trans (c.unwinds _)
  | targets c _ ih => exact ih.trans (targets_unwinds c _)
  | campaign c sink s _ _ ih hsink => exact ih.trans (campaign_unwinds c hsink s _)

-- ---------------------------------------------------------------------------
-- States between calls
-- ---------------------------------------------------------------------------

/-- Nothing is being resolved, and no group is being initialized. -/
structure Idle (t : Tree) : Prop where
  resolving : t.resolving = []
  busy : ∀ id, ¬ t.Busy id

theorem Unwinds.idle (h : t.Unwinds u) (ht : t.Idle) : u.Idle :=
  ⟨h.resolving.trans ht.resolving, fun id hid => ht.busy id (h.busy hid)⟩

theorem build_idle {template : Template} {seed : UInt64} (h : build template seed = .ok t) : t.Idle := by
  have hmade := Unwinds.of_instantiate template none none (empty seed)
  obtain ⟨root, start, heq, hvisit⟩ := build_eq_ok.mp h
  rw [heq] at hmade
  have hempty : (empty seed).Idle := by
    refine ⟨rfl, ?_⟩
    rintro id ⟨n, g, hn, -⟩
    exact absurd (lt_size hn) (Nat.not_lt_zero _)
  have hrooted : start.Unwinds { start with root } := ⟨rfl, fun hx => hx⟩
  have hvisited : Unwinds _ t := ((perform_unwinds (.visit root)) _).of_run hvisit
  exact (hmade.trans (hrooted.trans hvisited)).idle hempty

/-- Whatever has been done to a tree, and whatever it ended with, nothing is being resolved afterwards and
no group is being initialized; and so it is after one more call or fuzz run. A question asked in the middle
of a resolution leaves the stack as it found it. -/
theorem Reaches.remains_idle {allowed : Tree → Call → Prop} {template : Template} {seed : UInt64}
    {t₀ : Tree} (hbuild : build template seed = .ok t₀) (h : Reaches allowed t₀ t) :
    t.Idle ∧ (∀ c : Call, (c.run t).Idle) ∧ (∀ c : Campaign, (c.targets.run t).2.Idle) ∧
      (∀ {σ : Type} (c : Campaign) (sink : Sink σ) (s : σ),
        (∀ trial s v, Reaches (fun _ _ => True) v (sink.accept trial s v).2.2) →
          (c.run sink s t).2.2.Idle) ∧
      ∀ depth r (u : Tree), ((Resolver.resolve depth r).run u).2.resolving = u.resolving := by
  have hidle : t.Idle := h.unwinds.idle (build_idle hbuild)
  refine ⟨hidle, fun c => (c.unwinds t).idle hidle, fun c => Unwinds.idle (targets_unwinds c t) hidle, ?_, ?_⟩
  · intro σ c sink s hsink
    exact (campaign_unwinds c (fun trial s v => (hsink trial s v).unwinds) s t).idle hidle
  · intro depth r u
    exact ((scopeLaws_unwinds.resolve (fun _ => bytesStep_unwinds) depth r).run u).resolving

/-- A group, and two fields that stand for each other. -/
def crossed : Template :=
  .composite { name := "record" } [
    .group "flags" (.boolean "flag") (.fixed 1),
    .leaf { name := "left", cell := .bound (.path "right") } .bool,
    .leaf { name := "right", cell := .bound (.path "left") } .bool]

theorem Reaches.remains_idle_crossed : ∃ t₀, build crossed 7 = .ok t₀ ∧
    ((Tree.bytes ⟨0⟩).run t₀).1.isOk = false ∧ ((Call.bytes ⟨0⟩).run t₀).Idle := by
  have hfails : (build crossed 7).toOption.any
      (fun t => ((Tree.bytes ⟨0⟩).run t).1.isOk = false) = true := by
    decide +kernel
  obtain ⟨t₀, hbuild, hfails⟩ := exists_build hfails
  have hreach : Reaches (fun _ _ => True) t₀ t₀ := .refl t₀
  exact ⟨t₀, hbuild, of_decide_eq_true hfails, (Reaches.remains_idle hbuild hreach).2.1 (.bytes ⟨0⟩)⟩

end Tree

end FormatFuzz
