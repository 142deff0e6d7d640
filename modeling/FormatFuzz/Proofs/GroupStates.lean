-- SUMMARY: The states of groups and their watchers, and what the changes of a tree do to them.
import FormatFuzz.Proofs.Agreement
import FormatFuzz.Proofs.Readiness

/-!
# States of groups

Of a group it matters here in which phase it is, how many elements it has (`Tree.states`), and which
groups are to be told when it changes its count (`Tree.Watches`). What hangs on this alone is kept by
all operations if it is kept when groups are initialized and resized (`Tree.Coarse.reaches`).
-/

namespace FormatFuzz

namespace Tree

variable {t t' : Tree} {id x y : NodeId} {n : Node}

-- ---------------------------------------------------------------------------
-- States of groups
-- ---------------------------------------------------------------------------

/-- The states of the groups of a tree. -/
def states (t : Tree) : States := fun id =>
  (t.node? id).bind fun n => n.kind.group?.map fun g => (g.phase, n.children.length)

theorem states_eq_some {phase : Phase} {c : Nat} : t.states id = some (phase, c) ↔
    ∃ n g, t.node? id = some n ∧ n.kind = .repeated g ∧ g.phase = phase ∧ n.children.length = c := by
  unfold states
  cases hn : t.node? id with
  | none => simp
  | some n => cases hk : n.kind <;> simp [NodeKind.group?, hk]

theorem states_eq_none : t.states id = none ↔
    ∀ n, t.node? id = some n → n.kind.isRepeated = false := by
  unfold states
  cases hn : t.node? id with
  | none => simp
  | some n => cases hk : n.kind <;> simp [NodeKind.group?, NodeKind.isRepeated, hk]

theorem states_of_node? {g : Group} (hn : t.node? id = some n) (hk : n.kind = .repeated g) :
    t.states id = some (g.phase, n.children.length) :=
  states_eq_some.mpr ⟨n, g, hn, hk, rfl, rfl⟩

theorem states_of_group_error {e : TreeError} (h : t.group id = .error e) : t.states id = none := by
  refine states_eq_none.mpr fun n hn => ?_
  by_contra hrep
  obtain ⟨g, hk⟩ := NodeKind.isRepeated_iff.mp (Bool.eq_true_of_not_eq_false hrep)
  rw [group_eq_ok.mpr ⟨n, hn, hk⟩] at h
  cases h

theorem pending_iff : t.Pending id ↔ ∃ phase c, t.states id = some (phase, c) ∧ phase ≠ .ready := by
  constructor
  · rintro ⟨n, g, hn, hk, hphase⟩
    exact ⟨_, _, states_of_node? hn hk, hphase⟩
  · rintro ⟨phase, c, hstates, hphase⟩
    obtain ⟨n, g, hn, hk, rfl, -⟩ := states_eq_some.mp hstates
    exact ⟨n, g, hn, hk, hphase⟩

theorem busy_iff : t.Busy id ↔ ∃ c, t.states id = some (.initializing, c) := by
  constructor
  · rintro ⟨n, g, hn, hk, hphase⟩
    exact ⟨_, hphase ▸ states_of_node? hn hk⟩
  · rintro ⟨c, hstates⟩
    obtain ⟨n, g, hn, hk, hphase, -⟩ := states_eq_some.mp hstates
    exact ⟨n, g, hn, hk, hphase⟩

theorem served_iff : t.Served id ↔ ∃ c, t.states id = some (.ready, c) := by
  constructor
  · rintro ⟨n, g, hn, hk, hphase⟩
    exact ⟨_, hphase ▸ states_of_node? hn hk⟩
  · rintro ⟨c, hstates⟩
    obtain ⟨n, g, hn, hk, hphase, -⟩ := states_eq_some.mp hstates
    exact ⟨n, g, hn, hk, hphase⟩

/-- States are seen when nodes are looked at without their caches and readers. -/
theorem states_congr (h : (t'.node? x).map Node.bare = (t.node? x).map Node.bare) :
    t'.states x = t.states x := by
  have hbare : ∀ t : Tree, t.states x = ((t.node? x).map Node.bare).bind fun n =>
      n.kind.group?.map fun g => (g.phase, n.children.length) := by
    intro t
    unfold states
    cases t.node? x <;> rfl
  rw [hbare, hbare, h]

theorem Like.states (h : t.Like t') : t'.states = t.states :=
  funext fun id => states_congr (h.nodes id)

theorem states_modifyGroup (f : Group → Group) : (t.modifyGroup id f).states x =
    if x = id then
      (t.node? id).bind fun n => n.kind.group?.map fun g => ((f g).phase, n.children.length)
    else t.states x := by
  unfold states modifyGroup
  rw [node?_modify]
  split
  · cases t.node? id with
    | none => rfl
    | some n => cases hk : n.kind <;> simp [NodeKind.group?, hk]
  · rfl

theorem states_modifyGroup_eq_none {f : Group → Group} :
    (t.modifyGroup id f).states x = none ↔ t.states x = none := by
  rw [states_modifyGroup]
  split
  · rename_i hx
    subst hx
    unfold states
    cases t.node? x with
    | none => exact Iff.rfl
    | some n => cases hk : n.kind <;> simp [NodeKind.group?, hk]
  · exact Iff.rfl

theorem states_setPhase (phase : Phase) {c : Nat} {old : Phase} (h : t.states id = some (old, c)) :
    (t.modifyGroup id ({ · with phase })).states id = some (phase, c) := by
  obtain ⟨n, g, hn, hk, -, hc⟩ := states_eq_some.mp h
  simp [states_modifyGroup, hn, hk, NodeKind.group?, hc]

theorem states_setPhase_ne (phase : Phase) (h : x ≠ id) :
    (t.modifyGroup id ({ · with phase })).states x = t.states x := by
  rw [states_modifyGroup, if_neg h]

theorem states_watch (watcher : NodeId) : (t.modifyGroup id fun group =>
    { group with watchers := NodeId.insertInto watcher group.watchers }).states = t.states := by
  funext x
  rw [states_modifyGroup]
  split
  · rename_i hx
    subst hx
    rfl
  · rfl

/-- Only a group that is ready goes stale. -/
theorem states_markStale (t : Tree) (id x : NodeId) : (t.markStale id).states x = t.states x ∨
    x = id ∧ ∃ c, t.states x = some (.ready, c) ∧ (t.markStale id).states x = some (.stale, c) := by
  by_cases hx : x = id
  · subst hx
    unfold markStale
    rw [states_modifyGroup, if_pos rfl]
    unfold states
    cases t.node? x with
    | none => exact .inl rfl
    | some n =>
      cases hk : n.kind with
      | leaf kind => simp [NodeKind.group?, hk]
      | composite => simp [NodeKind.group?, hk]
      | repeated g => cases hphase : g.phase <;> simp [NodeKind.group?, hk, hphase]
  · unfold markStale
    rw [states_modifyGroup, if_neg hx]
    exact .inl rfl

theorem states_markStale_ne {c : Nat} : (t.markStale id).states id ≠ some (.ready, c) := by
  intro h
  obtain ⟨n', g', hn', hk', hphase, -⟩ := states_eq_some.mp h
  unfold markStale at hn'
  obtain ⟨n, hn, ⟨hne, -⟩ | ⟨-, -, hgroup⟩⟩ := node?_modifyGroup hn'
  · exact hne rfl
  · obtain ⟨g, hk, rfl⟩ := hgroup g' hk'
    split at hphase
    · cases hphase
    · exact absurd hphase ‹_›

-- ---------------------------------------------------------------------------
-- Watchers
-- ---------------------------------------------------------------------------

theorem watches_iff {g : Group} (hn : t.node? y = some n) (hk : n.kind = .repeated g) :
    t.Watches x y ↔ x ∈ g.watchers := by
  constructor
  · rintro ⟨m, g', hm, hk', hx⟩
    rw [hn] at hm
    cases hm
    rw [hk] at hk'
    cases hk'
    exact hx
  · exact fun hx => ⟨n, g, hn, hk, hx⟩

theorem watches_modifyGroup {f : Group → Group} : (t.modifyGroup id f).Watches x y ↔
    if y = id then ∃ n g, t.node? id = some n ∧ n.kind = .repeated g ∧ x ∈ (f g).watchers
    else t.Watches x y := by
  unfold Watches modifyGroup
  rw [node?_modify]
  split
  · cases t.node? id with
    | none => simp
    | some n => cases hk : n.kind <;> simp [hk]
  · exact Iff.rfl

/-- Watchers stay when something else of a group changes. -/
theorem watches_keep {f : Group → Group} (hf : ∀ g, (f g).watchers = g.watchers) :
    (t.modifyGroup id f).Watches x y ↔ t.Watches x y := by
  rw [watches_modifyGroup]
  split
  · rename_i hy
    subst hy
    simp only [hf]
    exact Iff.rfl
  · exact Iff.rfl

theorem watches_markStale : (t.markStale id).Watches x y ↔ t.Watches x y :=
  watches_keep fun g => by split <;> rfl

/-- A group is entered as a watcher of another one. -/
theorem watches_watch {watcher : NodeId} : (t.modifyGroup id fun group =>
    { group with watchers := NodeId.insertInto watcher group.watchers }).Watches x y ↔
      t.Watches x y ∨ x = watcher ∧ y = id ∧ t.states id ≠ none := by
  rw [watches_modifyGroup]
  split
  · rename_i hy
    subst hy
    unfold Watches states
    cases t.node? y with
    | none => simp
    | some n => cases hk : n.kind <;> simp [NodeKind.group?, hk, NodeId.mem_insertInto, or_comm]
  · rename_i hy
    simp [hy]

theorem Like.watches (hlike : t.Like t') : t'.Watches x y ↔ t.Watches x y := by
  have hkept : ∀ {t t' : Tree}, t.Like t' → t'.Watches x y → t.Watches x y := by
    rintro t t' hlike ⟨n', g, hn', hk, hx⟩
    obtain ⟨n, hn, hkind⟩ := hlike.sameKinds hn'
    exact ⟨n, g, hn, hkind.trans hk, hx⟩
  exact ⟨hkept hlike, hkept hlike.symm⟩

-- ---------------------------------------------------------------------------
-- Cells
-- ---------------------------------------------------------------------------

theorem states_putCell {cell : Cell} : (t.putCell id cell).states = t.states := by
  funext x
  unfold states putCell
  rw [node?_modify]
  split
  · rename_i hx
    subst hx
    cases t.node? x <;> rfl
  · rfl

theorem watches_putCell {cell : Cell} : (t.putCell id cell).Watches x y ↔ t.Watches x y := by
  unfold Watches putCell
  rw [node?_modify]
  split
  · rename_i hy
    subst hy
    cases t.node? y <;> simp
  · exact Iff.rfl

/-- A group that is ready gives its count at once. -/
theorem count_ready {k : Nat} (h : t.states x = some (.ready, k)) : (count x).run t = (.ok k, t) := by
  obtain ⟨n, g, hn, hk, hphase, hcount⟩ := states_eq_some.mp h
  suffices hwp : wp (count x) (fun r t' => r = .ok k ∧ t' = t) t from Prod.ext hwp.1 hwp.2
  unfold Tree.count TreeM.countWith
  rw [wp.look_ok (group_eq_ok.mpr ⟨n, hn, hk⟩), hphase]
  simp only [wp.bind, wp.look, children, look_of_node? hn, wp.pure]
  exact ⟨congrArg Except.ok hcount, trivial⟩

-- ---------------------------------------------------------------------------
-- Resolution
-- ---------------------------------------------------------------------------

/-- Resolution does nothing to groups but initialize them, and other than that it changes readers and caches
only. -/
theorem resolverLaws_of_like {P : Tree → Prop} (hlike : ∀ t t' : Tree, t.Like t' → P t → P t')
    (htouch : ∀ t id, P t → P ((touch id).run t).2) (hcount : ∀ t id, P t → P ((count id).run t).2) :
    ResolverLaws (Upholds P) := by
  have htouch' : ∀ id, Preserves (Upholds P) (Upholds P) (touch id) :=
    fun id => .of_run fun t => htouch t id
  constructor
  case find => exact GroupLaws.findWith htouch'
  case touch => exact htouch'
  case count => exact fun id => .of_run fun t => hcount t id
  case note => exact fun t source reader => hlike _ _ (.of_noteReader source reader)
  case store => exact fun t id b => hlike _ _ (.of_modify fun _ => rfl)
  case stack => exact fun t resolving => hlike _ _ ⟨rfl, rfl, rfl, fun _ => rfl⟩

-- ---------------------------------------------------------------------------
-- Shallow properties
-- ---------------------------------------------------------------------------

/-- The trees differ in cells and caches at most. -/
structure Level (t t' : Tree) : Prop where
  alike : t.Alike t'
  states : t'.states = t.states
  watches : ∀ x y, t'.Watches x y ↔ t.Watches x y

theorem Level.evolves (h : t.Level t') : Evolves (fun _ => True) t t' :=
  .of_alike h.alike fun _ _ _ _ _ _ => trivial

theorem Level.refl (t : Tree) : t.Level t := ⟨.refl t, rfl, fun _ _ => Iff.rfl⟩

theorem Level.trans {t'' : Tree} (h : t.Level t') (h' : t'.Level t'') : t.Level t'' where
  alike := h.alike.trans h'.alike
  states := h'.states.trans h.states
  watches := fun x y => (h'.watches x y).trans (h.watches x y)

theorem Like.level (hlike : t.Like t') : t.Level t' :=
  ⟨hlike.alike, hlike.states, fun _ _ => hlike.watches⟩

theorem Level.of_putCell {cell : Cell} : t.Level (t.putCell id cell) :=
  ⟨.of_modify fun _ _ => rfl, states_putCell, fun _ _ => watches_putCell⟩

/-- The property does not hang on cells and caches. -/
def Shallow (P : Tree → Prop) : Prop := ∀ t t', t.Level t' → P t → P t'

namespace Shallow

variable {P : Tree → Prop} (hP : Shallow P)

include hP

theorem of_like (hlike : t.Like t') (h : P t) : P t' := hP t t' hlike.level h

theorem putCell {cell : Cell} (h : P t) : P (t.putCell id cell) := hP t _ .of_putCell h

theorem setCell {cell : Cell} (ht' : t.setCell id cell = .ok t') (h : P t) : P t' := by
  rw [setCell_eq_ok ht']
  exact hP.putCell (hP.of_like .of_invalidate h)

theorem restore (targets : List Target) (h : P t) : P (Campaign.restore targets t) := by
  unfold Campaign.restore
  refine hP.of_like .of_invalidateAll ?_
  induction targets generalizing t with
  | nil => exact h
  | cons x rest ih => exact ih (hP.putCell h)

variable (htouch : ∀ t id, P t → P ((touch id).run t).2)
  (hcount : ∀ t id, P t → P ((count id).run t).2)

include htouch hcount

theorem resolverLaws : ResolverLaws (Upholds P) :=
  resolverLaws_of_like (fun _ _ hlike => hP.of_like hlike) htouch hcount

theorem call (c : Call) (hresize : ∀ id n, c = .resize id n → P ((resize id n).run t).2) (h : P t) :
    P (c.run t) := by
  have hcall : Upholds P t (c.run t) := by
    have laws := hP.resolverLaws htouch hcount
    refine c.rule laws.scope (fun _ => laws.bytesStep) (fun id n hc _ => hresize id n hc) ?_ ?_ ?_
    · exact fun id cell t' _ ht' h => hP.setCell ht' h
    · exact fun id h => hP.of_like .of_invalidate h
    · exact fun h => hP.of_like .of_invalidateAll h
  exact hcall h

/-- A shallow property holds in all states if initializing and resizing groups keep it. -/
theorem reaches {allowed : Tree → Call → Prop}
    (hresize : ∀ t id n, allowed t (.resize id n) → P t → P ((resize id n).run t).2)
    (h : Reaches allowed t t') (ht : P t) : P t' := by
  have laws := hP.resolverLaws htouch hcount
  refine h.upholds (Q := fun _ _ => True) ?_ ?_ ?_ ?_ ht
  · intro t c hallowed h
    refine hP.call htouch hcount c (fun id n hc => ?_) h
    exact hresize t id n (hc ▸ hallowed) h
  · exact fun t c h => ⟨(laws.campaignTargets c).run t h, fun _ _ => trivial⟩
  · exact fun t t' id v ht' h => hP.setCell ht' h
  · exact fun targets _ t _ _ h => hP.restore targets h

end Shallow

-- ---------------------------------------------------------------------------
-- Coarse properties
-- ---------------------------------------------------------------------------

/-- The property hangs on the states of groups and on their watchers only, as long as the tree is
evolved. -/
def Coarse (P : Tree → Prop) : Prop :=
  ∀ t t', Evolves (fun _ => True) t t' → t'.states = t.states →
    (∀ x y, t'.Watches x y ↔ t.Watches x y) → P t → P t'

namespace Coarse

variable {P : Tree → Prop} (hP : Coarse P)

include hP

theorem shallow : Shallow P := fun t t' h => hP t t' h.evolves h.states h.watches

theorem of_like (hlike : t.Like t') (h : P t) : P t' := hP.shallow.of_like hlike h

theorem putCell {cell : Cell} (h : P t) : P (t.putCell id cell) := hP.shallow.putCell h

variable (htouch : ∀ t id, P t → P ((touch id).run t).2)
  (hcount : ∀ t id, P t → P ((count id).run t).2)

include htouch hcount

/-- A coarse property holds in all states if initializing and resizing groups keep it. -/
theorem reaches {allowed : Tree → Call → Prop}
    (hresize : ∀ t id n, allowed t (.resize id n) → P t → P ((resize id n).run t).2)
    (h : Reaches allowed t t') (ht : P t) : P t' :=
  hP.shallow.reaches htouch hcount hresize h ht

end Coarse

end Tree

end FormatFuzz
