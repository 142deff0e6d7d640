-- SUMMARY: What the operations on groups keep, from what the changes that they are made of keep.
import FormatFuzz.Proofs.Arena
import FormatFuzz.Proofs.Wp

/-!
# Laws of group operations

Groups are initialized, resized and followed by operations that call on each other to any depth,
but all of them change the tree in one of six ways. A relation that these keep is kept by all
operations (`GroupLaws`).

What an element is bound to is a group when the elements of a group start to be bound, so that `link`
speaks of the changes since then.

Between the replacement of a group's elements and the invalidation of the group the tree may be in
a state that does not satisfy the relation `R` itself. It is `S id` that holds there, where `id`
is the group.
-/

namespace FormatFuzz

open TreeM

/-- The changes that group operations are made of keep `R`, and `E` if something fails. -/
structure GroupLaws (R : Tree → Tree → Prop) (S : NodeId → Tree → Tree → Prop)
    (E : Tree → Tree → Prop) : Prop where
  phase : ∀ t id phase, R t (t.modifyGroup id ({ · with phase }))
  watch : ∀ t id watcher, R t (t.modifyGroup id fun group =>
    { group with watchers := NodeId.insertInto watcher group.watchers })
  stale : ∀ t id, R t ((t.markStale id).invalidate id)
  link : ∀ s t id source index field, s.isGroup source = .ok true → R s t →
    R s ((t.putCell id (.bound (.element source index field))).invalidate id)
  swap : ∀ t id n g count, t.node? id = some n → n.kind = .repeated g →
    wp (swapElements id g.element n.children count) (Related (S id) E t) t
  swapped : ∀ {id t₁ t₂ t₃}, S id t₁ t₂ → R t₂ t₃ → S id t₁ t₃
  settle : ∀ {id t t'}, S id t t' → R t (t'.invalidate id)
  spoil : ∀ {id t₁ t₂ t₃}, S id t₁ t₂ → E t₂ t₃ → E t₁ t₃

/-- The changes that the elements of a group are replaced by keep `R`. These are the `GroupLaws` that
do not speak of the group's own state. -/
structure SwapLaws (R : Tree → Tree → Prop) (S : NodeId → Tree → Tree → Prop)
    (E : Tree → Tree → Prop) : Prop where
  stale : ∀ t id, R t ((t.markStale id).invalidate id)
  swap : ∀ t id n g count, t.node? id = some n → n.kind = .repeated g →
    wp (swapElements id g.element n.children count) (Related (S id) E t) t
  swapped : ∀ {id t₁ t₂ t₃}, S id t₁ t₂ → R t₂ t₃ → S id t₁ t₃
  settle : ∀ {id t t'}, S id t t' → R t (t'.invalidate id)
  spoil : ∀ {id t₁ t₂ t₃}, S id t₁ t₂ → E t₂ t₃ → E t₁ t₃

theorem GroupLaws.swaps {R : Tree → Tree → Prop} {S : NodeId → Tree → Tree → Prop}
    {E : Tree → Tree → Prop} (laws : GroupLaws R S E) : SwapLaws R S E :=
  ⟨laws.stale, laws.swap, laws.swapped, laws.settle, laws.spoil⟩

-- ---------------------------------------------------------------------------
-- Bindings
-- ---------------------------------------------------------------------------

/-- The pairs of a rule are gone through one after the other. What a pair leads to is bound if it is live. -/
theorem wp.linkElementWith {init : NodeId → TreeM Unit} {source element : NodeId} {index : Nat}
    {fields : List (String × String)} {Q : Except TreeError Unit → Tree → Prop} {t : Tree}
    (I : List (String × String) → Tree → Prop) (ht : I fields t) (hnil : ∀ s, I [] s → Q (.ok ()) s)
    (hcons : ∀ own field rest s, I ((own, field) :: rest) s →
      wp (if own.isEmpty then Pure.pure element else TreeM.findWith init element own) (fun r s' => match r with
        | .ok target => match s'.node target with
          | .ok _ => I rest ((s'.putCell target (.bound (.element source index field))).invalidate target)
          | .error e => Q (.error e) s'
        | .error e => Q (.error e) s') s) :
    wp (TreeM.linkElementWith init source element index fields) Q t := by
  unfold TreeM.linkElementWith
  rw [wp.bind]
  refine wp.forIn I ht hnil ?_
  rintro ⟨own, field⟩ rest s hs
  have hfound := hcons own field rest s hs
  have hbind : ∀ {Q' : Except TreeError (ForInStep PUnit) → Tree → Prop} {s' : Tree} {target : NodeId},
      (match s'.node target with
        | .ok _ => Q' (.ok (.yield ⟨⟩)) ((s'.putCell target (.bound (.element source index field))).invalidate target)
        | .error e => Q' (.error e) s') → wp (do
          TreeM.update fun t => do
            let _ ← t.node target
            return (t.putCell target (.bound (.element source index field))).invalidate target
          return ForInStep.yield PUnit.unit : TreeM (ForInStep PUnit)) Q' s' := by
    intro Q' s' target h
    rw [wp.bind, wp.update]
    cases hn : s'.node target <;> rw [hn] at h <;> exact h
  dsimp only
  split at hfound
  · rename_i hempty
    rw [if_pos hempty, wp.bind, wp.pure]
    exact hbind hfound
  · rename_i hempty
    rw [if_neg hempty, wp.bind]
    refine hfound.mono ?_
    rintro (e | target) s' h
    · exact h
    · exact hbind h

-- ---------------------------------------------------------------------------
-- Lookups
-- ---------------------------------------------------------------------------

theorem Tree.group_eq_ok {t : Tree} {id : NodeId} {g : Group} :
    t.group id = .ok g ↔ ∃ n, t.node? id = some n ∧ n.kind = .repeated g := by
  unfold group node
  cases hn : t.node? id with
  | none => simp
  | some n =>
    cases hk : n.kind with
    | repeated g' => simp [NodeKind.group?, hk]
    | leaf k => cases t.fullName id <;> simp [NodeKind.group?, hk]
    | composite => cases t.fullName id <;> simp [NodeKind.group?, hk]

theorem Tree.setPhase_eq_ok {t t' : Tree} {id : NodeId} {phase : Phase}
    (h : t.setPhase id phase = .ok t') : t' = t.modifyGroup id ({ · with phase }) := by
  unfold setPhase at h
  cases hn : t.node id with
  | error e =>
    rw [hn] at h
    cases h
  | ok n =>
    rw [hn] at h
    cases h
    rfl

namespace GroupLaws

variable {R : Tree → Tree → Prop} {S : NodeId → Tree → Tree → Prop} {E : Tree → Tree → Prop}
  [IsPreorder Tree R] [Absorbs R E]

-- ---------------------------------------------------------------------------
-- Touching
-- ---------------------------------------------------------------------------

section

variable {init : NodeId → TreeM Unit} (hinit : ∀ id, Preserves R E (init id))

include hinit

theorem touchWith (id : NodeId) : Preserves R E (TreeM.touchWith init id) := by
  refine .bind .look fun g => ?_
  cases g.phase with
  | uninit => exact hinit id
  | stale => exact hinit id
  | initializing => exact .pure
  | ready => exact .pure

theorem countWith (id : NodeId) : Preserves R E (TreeM.countWith init id) := by
  refine .bind .look fun g => ?_
  cases g.phase with
  | uninit => exact .bind (hinit id) fun _ => .bind .look fun _ => .pure
  | stale => exact .bind (hinit id) fun _ => .bind .look fun _ => .pure
  | initializing => exact .look
  | ready => exact .bind .look fun _ => .pure

end

-- ---------------------------------------------------------------------------
-- Following paths
-- ---------------------------------------------------------------------------

section

variable {init : NodeId → TreeM Unit} (htouch : ∀ id, Preserves R E (TreeM.touchWith init id))

include htouch

theorem pickWith (failure : Tree → TreeError) (id : NodeId) (index : Nat) :
    Preserves R E (TreeM.pickWith init failure id index) := by
  refine .bind .look fun isGroup => ?_
  cases isGroup
  case' false => refine .bind .get fun _ => .bind .throw fun _ => ?_
  all_goals
    refine .bind (htouch id) fun _ => .bind .look fun children => ?_
    cases children[index]? with
    | some element => exact .pure
    | none => exact .bind .get fun _ => .throw

theorem stepWith (failure : Tree → TreeError) (id : NodeId) (step : Step) :
    Preserves R E (TreeM.stepWith init failure id step) := by
  cases step with
  | malformed => exact .bind .get fun _ => .throw
  | climb =>
    refine .bind .look fun base => ?_
    split
    · exact .bind .get fun _ => .throw
    · exact .pure
  | descend name indices =>
    have hrest : ∀ id, Preserves R E (indices.foldlM (TreeM.pickWith init failure) id) :=
      fun id => .foldlM fun id i _ => pickWith htouch failure id i
    unfold TreeM.stepWith
    dsimp only
    split
    · exact .bind .pure hrest
    · refine .bind .look fun child => ?_
      cases child with
      | some child => exact .bind .pure hrest
      | none => exact .bind .get fun _ => .bind .throw hrest

theorem findWith (start : NodeId) (path : String) :
    Preserves R E (TreeM.findWith init start path) := by
  refine .bind .get fun t => .bind .look fun _ => ?_
  exact .foldlM fun id step _ => stepWith htouch _ id step

theorem sourceWith (id : NodeId) (path : String) :
    Preserves R E (TreeM.sourceWith init id path) := by
  refine .bind .look fun base => .attempt (findWith htouch base path) (fun source => ?_) ?_
  · refine .bind .look fun isGroup => ?_
    cases isGroup with
    | true => exact .pure
    | false => exact .bind .look fun _ => .throw
  · intro e t
    simp only [wp.bind, wp.get, wp.throw]
    exact ⟨⟨_, rfl⟩, refl_of R t⟩

end

-- ---------------------------------------------------------------------------
-- Counts and bindings
-- ---------------------------------------------------------------------------

section

variable {init : NodeId → TreeM Unit} (htouch : ∀ id, Preserves R E (TreeM.touchWith init id))

include htouch

theorem countByRuleWith (hcount : ∀ id, Preserves R E (TreeM.countWith init id)) {id : NodeId}
    (hwatch : ∀ t source, R t (t.modifyGroup source fun group =>
      { group with watchers := NodeId.insertInto id group.watchers })) :
    Preserves R E (TreeM.countByRuleWith init id) := by
  refine .bind .look fun g => ?_
  cases g.rule with
  | fixed count => exact .pure
  | random min max => exact .look
  | bound path fields min max =>
    exact .bind (sourceWith htouch id path) fun source => .bind (.modify fun t => hwatch t source) fun _ =>
      hcount source

omit htouch in
/-- What a bound group follows is a group. -/
theorem sourceWith_isGroup (id : NodeId) (path : String) (t : Tree) :
    wp (TreeM.sourceWith init id path)
      (fun r t' => ∀ source, r = .ok source → t'.isGroup source = .ok true) t := by
  unfold TreeM.sourceWith
  simp only [wp.bind, wp.look]
  cases t.enclosing id with
  | error e => exact fun _ h => absurd h error_ne_ok
  | ok base =>
    dsimp only
    rw [wp.outcome]
    refine wp.mono (Q := fun _ _ => True) trivial ?_
    rintro (e | source) t' -
    · simp only [wp.bind, wp.get, wp.throw]
      exact fun _ h => absurd h error_ne_ok
    · simp only [wp.bind, wp.look]
      cases hgroup : t'.isGroup source with
      | error e => exact fun _ h => absurd h error_ne_ok
      | ok isGroup =>
        cases isGroup with
        | true =>
          intro found h
          exact Except.ok.inj h ▸ hgroup
        | false =>
          dsimp only
          rw [if_neg Bool.false_ne_true, wp.bind, wp.look]
          cases t'.fullName source <;> exact fun _ h => absurd h error_ne_ok

variable (hlink : ∀ s t id source index field, s.isGroup source = .ok true → R s t →
  R s ((t.putCell id (.bound (.element source index field))).invalidate id))

include hlink

/-- The fields of an element may be bound to what was a group in `s`. -/
theorem linkElementWith {s : Tree} {source : NodeId} (hsource : s.isGroup source = .ok true)
    (element : NodeId) (index : Nat)
    (fields : List (String × String)) {t : Tree} (ht : R s t) :
    wp (TreeM.linkElementWith init source element index fields) (Related R E s) t := by
  refine wp.linkElementWith (fun _ t => R s t) ht (fun t ht => ht) fun own field rest t ht => ?_
  have hfound : Preserves R E (if own.isEmpty then Pure.pure element else TreeM.findWith init element own) := by
    split
    · exact .pure
    · exact findWith htouch element own
  refine (hfound t).mono ?_
  rintro (e | target) t' ht'
  · exact Absorbs.left ht ht'
  · have hst := trans_of R ht ht'
    dsimp only
    cases t'.node target with
    | error e => exact Absorbs.of_rel hst
    | ok n => exact hlink s t' target source index field hsource hst

theorem linkElementsWith (id : NodeId) :
    Preserves R E (TreeM.linkElementsWith init id) := by
  refine .bind .look fun g => ?_
  cases g.rule with
  | fixed count => exact .pure
  | random min max => exact .pure
  | bound path fields min max =>
    dsimp only
    split
    · exact .pure
    · intro t
      rw [wp.bind]
      refine ((sourceWith htouch id path t).and (sourceWith_isGroup id path t)).mono ?_
      rintro (e | source) s ⟨hs, hsource⟩
      · exact hs
      · simp only [wp.bind, wp.look]
        cases s.children id with
        | error e => exact Absorbs.of_rel hs
        | ok children =>
          refine wp.forIn (fun _ t' => R s t') (refl_of R s) (fun t' ht' => trans_of R hs ht') ?_
          rintro pair rest t' ht'
          rw [wp.bind]
          refine (linkElementWith htouch hlink (hsource source rfl) pair.1 pair.2 fields ht').mono ?_
          rintro (e | _) t'' ht''
          · exact Absorbs.left hs ht''
          · exact ht''

end

-- ---------------------------------------------------------------------------
-- Elements
-- ---------------------------------------------------------------------------

theorem notify {watchers : List NodeId}
    (hstale : ∀ t, ∀ id ∈ watchers, R t ((t.markStale id).invalidate id)) :
    Preserves R E (TreeM.notify watchers) := by
  refine .bind (.forIn fun watcher hmem => .bind .get fun t => ?_) fun _ => .pure
  split
  · exact .bind (.modify fun t => hstale t watcher hmem) fun _ => .pure
  · exact .pure

theorem replaceElementsWith (laws : SwapLaws R S E) {visit : NodeId → TreeM Unit}
    (hvisit : ∀ id, Preserves R E (visit id)) (id : NodeId) (count : Nat) :
    Preserves R E (TreeM.replaceElementsWith visit id count) := by
  intro t
  unfold TreeM.replaceElementsWith
  simp only [wp.bind, wp.look]
  cases hold : t.children id with
  | error e => exact Absorbs.of_rel (refl_of R t)
  | ok old =>
    dsimp only
    split
    · exact refl_of R t
    · simp only [wp.bind, wp.look]
      cases hg : t.group id with
      | error e => exact Absorbs.of_rel (refl_of R t)
      | ok g =>
        obtain ⟨n, hn, hk⟩ := Tree.group_eq_ok.mp hg
        obtain ⟨n', hn', hch⟩ := Tree.look_eq_ok.mp hold
        rw [hn] at hn'
        cases hn'
        subst hch
        refine (laws.swap t id n g count hn hk).mono fun r t₁ h₁ => ?_
        cases r with
        | error e => exact h₁
        | ok elements =>
          refine wp.forIn (fun _ t₂ => S id t t₂) h₁ (fun t₂ h₂ => ?_) fun x rest t₂ h₂ => ?_
          · simp only [wp.modify]
            have h₃ : R t (t₂.invalidate id) := laws.settle h₂
            exact (notify (fun t w _ => laws.stale t w) _).mono fun _ _ h₄ => h₄.left h₃
          · simp only [wp.bind, wp.pure]
            refine (hvisit x t₂).mono fun r t₃ h₃ => ?_
            cases r with
            | ok _ => exact laws.swapped h₂ h₃
            | error e => exact laws.spoil h₂ h₃

-- ---------------------------------------------------------------------------
-- Tasks
-- ---------------------------------------------------------------------------

section

variable {run : Task → TreeM Unit} {id : NodeId}

theorem initStep (hphase : ∀ t phase, R t (t.modifyGroup id ({ · with phase })))
    (hcount : Preserves R E (TreeM.countByRuleWith (fun id => run (.init id)) id))
    (hreplace : ∀ count, Preserves R E (TreeM.replaceElementsWith (fun id => run (.visit id)) id count))
    (hlink : Preserves R E (TreeM.linkElementsWith (fun id => run (.init id)) id)) :
    Preserves R E (TreeM.initStep run id) := by
  have hset : ∀ phase, Preserves R E (TreeM.update (·.setPhase id phase)) := by
    refine fun phase => .update fun t t' h => ?_
    rw [Tree.setPhase_eq_ok h]
    exact hphase t phase
  refine .bind (hset .initializing) fun _ => .attempt ?_ (fun _ => hset .ready) ?_
  · exact .bind hcount fun count => .bind (hreplace count) fun _ => hlink
  · intro e t
    simp only [wp.bind, wp.update, wp.throw]
    cases h : t.setPhase id .uninit with
    | error e' => exact ⟨⟨e', rfl⟩, refl_of R t⟩
    | ok t' =>
      rw [Tree.setPhase_eq_ok h]
      exact ⟨⟨e, rfl⟩, hphase t .uninit⟩

theorem visitStep (htouch : Preserves R E (TreeM.touchWith (fun id => run (.init id)) id))
    (hvisit : ∀ id, Preserves R E (run (.visit id))) : Preserves R E (TreeM.visitStep run id) := by
  have hrest : Preserves R E (do
      for child in ← TreeM.look (·.children id) do
        run (.visit child) : TreeM Unit) := by
    refine .bind .look fun children => .bind (.forIn fun child _ => ?_) fun _ => .pure
    exact .bind (hvisit child) fun _ => .pure
  refine .bind .look fun isGroup => ?_
  cases isGroup with
  | true => exact .bind htouch fun _ => hrest
  | false => exact hrest

end

theorem runTask (laws : GroupLaws R S E) (depth : Nat) (task : Task) :
    Preserves R E (TreeM.runTask depth task) := by
  induction depth generalizing task with
  | zero => exact .throw
  | succ depth ih =>
    have htouch := touchWith fun id => ih (.init id)
    have hcount := countWith fun id => ih (.init id)
    cases task with
    | init id =>
      refine initStep (fun t phase => laws.phase t id phase) ?_ ?_ ?_
      · exact countByRuleWith htouch hcount fun t source => laws.watch t source id
      · exact replaceElementsWith laws.swaps (fun id => ih (.visit id)) id
      · exact linkElementsWith htouch laws.link id
    | visit id => exact visitStep (htouch id) fun id => ih (.visit id)

theorem perform (laws : GroupLaws R S E) (task : Task) : Preserves R E (TreeM.perform task) :=
  .bind .get fun _ => laws.runTask _ task

-- ---------------------------------------------------------------------------
-- Operations
-- ---------------------------------------------------------------------------

theorem init (laws : GroupLaws R S E) (id : NodeId) : Preserves R E (Tree.init id) :=
  laws.perform (.init id)

theorem touch (laws : GroupLaws R S E) (id : NodeId) : Preserves R E (Tree.touch id) :=
  touchWith laws.init id

theorem count (laws : GroupLaws R S E) (id : NodeId) : Preserves R E (Tree.count id) :=
  countWith laws.init id

theorem find (laws : GroupLaws R S E) (start : NodeId) (path : String) :
    Preserves R E (Tree.find start path) :=
  findWith laws.touch start path

theorem resize (laws : GroupLaws R S E) (id : NodeId) (count : Nat) :
    Preserves R E (Tree.resize id count) := by
  refine .bind (laws.touch id) fun _ => .bind ?_ fun _ => linkElementsWith laws.touch laws.link id
  exact replaceElementsWith laws.swaps (fun id => laws.perform (.visit id)) id count

end GroupLaws

end FormatFuzz
