-- SUMMARY: Groups that have the counts they stem from, and the changes of a tree that keep them so.
import FormatFuzz.Proofs.Rousing

/-!
# Provenance

A group that is ready has the count of the group that it stems from (`Tree.Stemmed`). For this to last, what it
watches must have that count as well, so that it is never told of another one.

Two relations say what initializations leave alone. Groups that are on their way, and those that are ready and have
the count that they stem from, stay as they are or go with the elements of others (`Tree.Heeds`). An initialization
that succeeds leaves no new group untouched, and no group stale that has the count that it stems from
(`Tree.Clears`).
-/

namespace FormatFuzz

open TreeM
open Relation (ReflTransGen TransGen)

namespace Tree

variable {τ : Template} {t t' t₁ t₂ : Tree} {A D D' : NodeId → Prop} {id b w x y : NodeId} {n : Node} {g : Group}
  {p q r z : Position} {phase : Phase} {c count : Nat}

-- ---------------------------------------------------------------------------
-- Groups with the counts that they stem from
-- ---------------------------------------------------------------------------

/-- Groups that are ready have the counts that they stem from, and so has what they watch. -/
structure Stemmed (τ : Template) (t : Tree) : Prop where
  wellFormed : t.WellFormed
  models : t.Models (fun _ => True) τ τ.name t.root
  ready : ∀ {p z x c}, τ.Stems p z → t.placed p = some x → t.states x = some (.ready, c) →
    c = τ.ownCount t.seed z
  old : ∀ {w y}, t.Watches w y → w.index < t.nodes.size
  /-- A group watches the one that it follows. -/
  heard : ∀ {w y p}, t.Watches w y → t.placed p = some w → ∃ q, τ.source p = some q ∧ t.placed q = some y
  told : ∀ {w y p z}, t.Watches w y → t.Served w → t.placed p = some w → τ.Stems p z →
    ∃ phase, t.states y = some (phase, τ.ownCount t.seed z)

/-- The group keeps its count: it is on its way, or it has the count that it stems from. -/
def Pinned (τ : Template) (t : Tree) (x : NodeId) : Prop :=
  t.Busy x ∨ t.Served x ∧ ∃ p z, t.placed p = some x ∧ τ.Stems p z

/-- Where groups are on their way, the group at the position is one of them or may be touched by them. -/
def Led (τ : Template) (t : Tree) (p : Position) : Prop :=
  ∀ ⦃b q⦄, t.placed q = some b → t.Busy b → ReflTransGen (τ.Rouses q) q p

/-- No node is left out. -/
abbrev Nowhere (_ : NodeId) : Prop := False

/-- A group that is on its way has its elements if it follows no other one. Those of `A` are left out. -/
def Stocked (τ : Template) (A : NodeId → Prop) (t : Tree) : Prop :=
  ∀ ⦃b q c⦄, ¬ A b → t.placed q = some b → τ.IsOrigin q → t.states b = some (.initializing, c) →
    c = τ.ownCount t.seed q

/-- The group at a position may be initialized. -/
structure Ripe (τ : Template) (p : Position) (t : Tree) : Prop extends t.Stemmed τ where
  led : t.Led τ p
  stocked : t.Stocked τ Nowhere

/-- A group that has never been initialized, or whose initialization has failed. -/
def Blank (t : Tree) (x : NodeId) : Prop := ∃ c, t.states x = some (.uninit, c)

/-- Who watches has been initialized, and no group is stale that has the count that it stems from. -/
structure Prompt (τ : Template) (t : Tree) : Prop where
  watchers : ∀ {w y}, t.Watches w y → ¬ t.Blank w
  stale : ∀ {p z x c}, τ.Stems p z → t.placed p = some x → t.states x ≠ some (.stale, c)

-- ---------------------------------------------------------------------------
-- What initializations leave alone
-- ---------------------------------------------------------------------------

/-- Groups on their way stay so, and groups that keep their counts are left alone, except for those of `A`. -/
structure Heeds (τ : Template) (A : NodeId → Prop) (t t' : Tree) : Prop where
  evolves : Evolves (fun _ => True) t t'
  busy : ∀ {x}, t'.Busy x → t.Busy x
  still : ∀ {x}, t.Busy x → t'.isLive x = true → t'.Busy x
  kept : ∀ {x}, ¬ A x → t.Pinned τ x → t'.isLive x = true → t'.states x = t.states x
  unheard : ∀ {w y}, ¬ A w → t.Busy w → t'.isLive w = true → t'.Watches w y → t.Watches w y

/-- No new group is left untouched, and those of `D` have been touched. -/
structure Clears (τ : Template) (D : NodeId → Prop) (t t' : Tree) : Prop where
  blank : ∀ {y}, t'.Blank y → t.Blank y ∧ ¬ D y
  prompt : t.Prompt τ → t'.Prompt τ

/-- What is known after a task: if it succeeds, it clears the nodes of `D`. -/
structure Proceeds {α : Type} (τ : Template) (A D : NodeId → Prop) (t : Tree) (r : Except TreeError α)
    (t' : Tree) : Prop where
  stemmed : t'.Stemmed τ
  heeds : Heeds τ A t t'
  clears : ∀ a, r = .ok a → Clears τ D t t'

theorem Busy.live (h : t.Busy x) : t.isLive x = true := by
  obtain ⟨n, g, hn, -⟩ := h
  exact isLive_iff_node?.mpr ⟨n, hn⟩

theorem Served.live (h : t.Served x) : t.isLive x = true := by
  obtain ⟨n, g, hn, -⟩ := h
  exact isLive_iff_node?.mpr ⟨n, hn⟩

theorem live_of_states (h : t.states x = some (phase, c)) : t.isLive x = true := by
  obtain ⟨n, g, hn, -⟩ := states_eq_some.mp h
  exact isLive_iff_node?.mpr ⟨n, hn⟩

theorem not_busy (h : t.states x = some (phase, c)) (hphase : phase ≠ .initializing) : ¬ t.Busy x := by
  intro hbusy
  obtain ⟨d, hd⟩ := busy_iff.mp hbusy
  cases h.symm.trans hd
  exact hphase rfl

theorem not_blank (h : t.states x = some (phase, c)) (hphase : phase ≠ .uninit) : ¬ t.Blank x := by
  rintro ⟨d, hd⟩
  cases h.symm.trans hd
  exact hphase rfl

theorem Pinned.live (h : t.Pinned τ x) : t.isLive x = true := by
  rcases h with h | ⟨h, -⟩
  · exact h.live
  · exact h.live

theorem lt_of_live (h : t.isLive x = true) : x.index < t.nodes.size := by
  obtain ⟨n, hn⟩ := isLive_iff_node?.mp h
  exact lt_size hn

namespace Heeds

theorem refl (τ : Template) (A : NodeId → Prop) (t : Tree) : Heeds τ A t t where
  evolves := .refl _ t
  busy := fun h => h
  still := fun h _ => h
  kept := fun _ _ _ => rfl
  unheard := fun _ _ _ h => h

theorem mono (h : Heeds τ Nowhere t t') : Heeds τ A t t' where
  evolves := h.evolves
  busy := h.busy
  still := h.still
  kept := fun _ => h.kept not_false
  unheard := fun _ => h.unheard not_false

theorem placed (h : Heeds τ A t t') (hwf : t.WellFormed) (hp : t.placed p = some x)
    (hlive : t'.isLive x = true) : t'.placed p = some x :=
  (h.evolves.grows hwf).placed hwf (h.evolves.wellFormed hwf) hp hlive

theorem placed_back (h : Heeds τ A t t') (hwf : t.WellFormed) (hx : t.isLive x = true)
    (hp : t'.placed p = some x) : t.placed p = some x := by
  obtain ⟨n, hn⟩ := isLive_iff_node?.mp hx
  exact (h.evolves.grows hwf).placed_back hwf (h.evolves.wellFormed hwf) hn hp

theorem seed (h : Heeds τ A t t') (hwf : t.WellFormed) : t'.seed = t.seed := (h.evolves.grows hwf).seed

theorem pinned (h : Heeds τ A t t') (hwf : t.WellFormed) (hx : ¬ A x) (hpinned : t.Pinned τ x)
    (hlive : t'.isLive x = true) : t'.Pinned τ x := by
  rcases id hpinned with hbusy | ⟨hserved, p, z, hp, hstems⟩
  · exact .inl (h.still hbusy hlive)
  · refine .inr ⟨?_, p, z, h.placed hwf hp hlive, hstems⟩
    rw [served_iff, h.kept hx hpinned hlive, ← served_iff]
    exact hserved

theorem trans (h : Heeds τ A t t₁) (hwf : t.WellFormed) (h' : Heeds τ A t₁ t₂) : Heeds τ A t t₂ := by
  -- What is there in the end has been there all the time.
  have hbetween : ∀ {x}, t.isLive x = true → t₂.isLive x = true → t₁.isLive x = true := fun hx hx₂ =>
    (h'.evolves.grows (h.evolves.wellFormed hwf)).live
      ((lt_of_live hx).trans_le (h.evolves.grows hwf).size) hx₂
  refine ⟨h.evolves.trans h'.evolves, fun hx => h.busy (h'.busy hx), fun hx hlive => ?still,
    fun hx hpinned hlive => ?kept, fun hw hbusy hlive hwatches => ?unheard⟩
  case still => exact h'.still (h.still hx (hbetween hx.live hlive)) hlive
  case kept =>
    have hlive₁ := hbetween hpinned.live hlive
    exact (h'.kept hx (h.pinned hwf hx hpinned hlive₁) hlive).trans (h.kept hx hpinned hlive₁)
  case unheard =>
    have hlive₁ := hbetween hbusy.live hlive
    exact h.unheard hw hbusy hlive₁ (h'.unheard hw (h.still hbusy hlive₁) hlive hwatches)

theorem led (h : Heeds τ A t t') (hwf : t.WellFormed) (hled : t.Led τ p) : t'.Led τ p :=
  fun _ _ hq hb => hled (h.placed_back hwf (h.busy hb).live hq) (h.busy hb)

theorem stocked (h : Heeds τ A t t') (hwf : t.WellFormed) (hstocked : t.Stocked τ A) : t'.Stocked τ A := by
  intro b q c hA hq horigin hb
  have hlive := live_of_states hb
  have hbusy := h.busy (busy_iff.mpr ⟨c, hb⟩)
  rw [h.kept hA (.inl hbusy) hlive] at hb
  rw [h.seed hwf]
  exact hstocked hA (h.placed_back hwf hbusy.live hq) horigin hb

end Heeds

namespace Clears

theorem refl (τ : Template) (t : Tree) : Clears τ Nowhere t t := ⟨fun h => ⟨h, not_false⟩, fun h => h⟩

theorem trans (h : Clears τ D t t₁) (h' : Clears τ D' t₁ t₂) : Clears τ (fun y => D y ∨ D' y) t t₂ where
  blank := fun hy => ⟨(h.blank (h'.blank hy).1).1, not_or.mpr ⟨(h.blank (h'.blank hy).1).2, (h'.blank hy).2⟩⟩
  prompt := fun hprompt => h'.prompt (h.prompt hprompt)

theorem mono (h : Clears τ D t t') (hD : ∀ {y}, t'.Blank y → D' y → D y) : Clears τ D' t t' where
  blank := fun hy => ⟨(h.blank hy).1, fun hy' => (h.blank hy).2 (hD hy hy')⟩
  prompt := h.prompt

end Clears

namespace Led

theorem touch (h : t.Led τ p) (htouches : τ.Touches p q) : t.Led τ q :=
  fun _ _ hb hbusy => (h hb hbusy).tail (.touch htouches)

end Led

namespace Ripe

theorem touch (h : t.Ripe τ p) (htouches : τ.Touches p q) : t.Ripe τ q :=
  ⟨h.toStemmed, h.led.touch htouches, h.stocked⟩

theorem heeds (h : t.Ripe τ p) (hheeds : Heeds τ Nowhere t t') (hstemmed : t'.Stemmed τ) : t'.Ripe τ p :=
  ⟨hstemmed, hheeds.led h.wellFormed h.led, hheeds.stocked h.wellFormed h.stocked⟩

end Ripe

namespace Proceeds

variable {α β : Type} {r : Except TreeError α} {r' : Except TreeError β}

theorem refl (h : t.Stemmed τ) : Proceeds τ A Nowhere t r t :=
  ⟨h, .refl τ A t, fun _ _ => .refl τ t⟩

theorem mono (h : Proceeds τ Nowhere D t r t') : Proceeds τ A D t r t' := ⟨h.stemmed, h.heeds.mono, h.clears⟩

theorem of_error {e : TreeError} (h : t.Stemmed τ) : Proceeds τ A D t (.error e : Except TreeError α) t :=
  ⟨h, .refl τ A t, fun _ h => absurd h error_ne_ok⟩

theorem fail {e : TreeError} (h : Proceeds τ A D t r t') : Proceeds τ A D' t (.error e : Except TreeError β) t' :=
  ⟨h.stemmed, h.heeds, fun _ h => absurd h error_ne_ok⟩

theorem ok {a : α} {b : β} (h : Proceeds τ A D t (.ok a) t') (hD : ∀ {y}, D' y → D y) :
    Proceeds τ A D' t (.ok b : Except TreeError β) t' :=
  ⟨h.stemmed, h.heeds, fun _ _ => (h.clears a rfl).mono fun _ => hD⟩

/-- What has been touched on the way may be forgotten. -/
theorem done {a : α} {b : β} (h : Proceeds τ A D t (.ok a) t') :
    Proceeds τ A Nowhere t (.ok b : Except TreeError β) t' := h.ok False.elim

theorem trans {a : α} (h : Proceeds τ A D t (.ok a) t₁) (hwf : t.WellFormed) (h' : Proceeds τ A D' t₁ r' t₂) :
    Proceeds τ A (fun y => D y ∨ D' y) t r' t₂ :=
  ⟨h'.stemmed, h.heeds.trans hwf h'.heeds, fun b hb => (h.clears a rfl).trans (h'.clears b hb)⟩

theorem seq {a : α} (h : Proceeds τ A Nowhere t (.ok a) t₁) (hwf : t.WellFormed)
    (h' : Proceeds τ A Nowhere t₁ r' t₂) : Proceeds τ A Nowhere t r' t₂ :=
  have htrans := h.trans hwf h'
  ⟨htrans.stemmed, htrans.heeds, fun b hb => (htrans.clears b hb).mono fun _ => False.elim⟩

end Proceeds

-- ---------------------------------------------------------------------------
-- Changes that leave children alone
-- ---------------------------------------------------------------------------

/-- A group has as many elements as before. -/
theorem Alike.states_length (h : t.Alike t') (hx : t.states x = some (phase, c)) :
    ∃ phase', t'.states x = some (phase', c) := by
  obtain ⟨n, g, hn, hk, -, rfl⟩ := states_eq_some.mp hx
  obtain ⟨n', hn', hf, hch⟩ := h.node? hn
  obtain ⟨g', hk', -⟩ := Node.rule_of_fixture hf hk
  exact ⟨g'.phase, by rw [states_of_node? hn' hk', hch]⟩

/-- A change of phases, after which a group may be ready if it has the count that it stems from and so has what it
watches. -/
theorem Stemmed.of_alike (h : t.Stemmed τ) (halike : t.Alike t')
    (hwatches : ∀ {w y}, t'.Watches w y → t.Watches w y ∨ ¬ t'.Served w ∧ w.index < t.nodes.size ∧
      ∀ p, t.placed p = some w → ∃ q, τ.source p = some q ∧ t.placed q = some y)
    (hready : ∀ {x c}, t'.states x = some (.ready, c) → t.states x = some (.ready, c) ∨
      ∀ {p z}, t.placed p = some x → τ.Stems p z → c = τ.ownCount t.seed z ∧
        ∀ {y}, t.Watches x y → ∃ phase, t.states y = some (phase, τ.ownCount t.seed z)) : t'.Stemmed τ where
  wellFormed := halike.wellFormed h.wellFormed
  models := h.models.evolve h.wellFormed τ.cellsIn_true (.of_alike halike fun _ _ _ _ _ _ => trivial)
  ready := by
    intro p z x c hstems hp hx
    rw [halike.placed] at hp
    rw [halike.seed]
    rcases hready hx with hx | hx
    · exact h.ready hstems hp hx
    · exact (hx hp hstems).1
  old := by
    intro w y hw
    rw [halike.size]
    rcases hwatches hw with hw | ⟨-, hlt, -⟩
    · exact h.old hw
    · exact hlt
  heard := by
    intro w y p hw hp
    simp only [halike.placed] at hp ⊢
    rcases hwatches hw with hw | ⟨-, -, hsource⟩
    · exact h.heard hw hp
    · exact hsource p hp
  told := by
    intro w y p z hw hserved hp hstems
    rw [halike.placed] at hp
    rw [halike.seed]
    have hold : t.Watches w y := (hwatches hw).resolve_right fun hnew => hnew.1 hserved
    obtain ⟨c, hc⟩ := served_iff.mp hserved
    have hy : ∃ phase, t.states y = some (phase, τ.ownCount t.seed z) := by
      rcases hready hc with hready | hready
      · exact h.told hold (served_iff.mpr ⟨c, hready⟩) hp hstems
      · exact (hready hp hstems).2 hold
    obtain ⟨phase, hy⟩ := hy
    exact halike.states_length hy

theorem Stemmed.of_level (h : t.Stemmed τ) (hlevel : t.Level t') : t'.Stemmed τ := by
  refine h.of_alike hlevel.alike (fun hw => .inl ((hlevel.watches _ _).mp hw)) fun hx => .inl ?_
  rwa [← hlevel.states]

theorem Heeds.of_level (h : t.Level t') : Heeds τ A t t' where
  evolves := h.evolves
  busy := fun hx => by rwa [busy_iff, h.states, ← busy_iff] at hx
  still := fun hx _ => by rwa [busy_iff, h.states, ← busy_iff]
  kept := fun _ _ _ => by rw [h.states]
  unheard := fun _ _ _ => (h.watches _ _).mp

theorem Prompt.of_level (h : t.Prompt τ) (hlevel : t.Level t') : t'.Prompt τ where
  watchers := by
    intro w y hw
    unfold Blank
    rw [hlevel.states]
    exact h.watchers ((hlevel.watches _ _).mp hw)
  stale := by
    intro p z x c hstems hp
    rw [hlevel.alike.placed] at hp
    rw [hlevel.states]
    exact h.stale hstems hp

theorem Clears.of_level (h : t.Level t') : Clears τ Nowhere t t' where
  blank := fun hy => by
    unfold Blank at hy ⊢
    rw [h.states] at hy
    exact ⟨hy, not_false⟩
  prompt := fun hprompt => hprompt.of_level h

theorem Proceeds.of_level {α : Type} {r : Except TreeError α} (h : t.Stemmed τ) (hlevel : t.Level t') :
    Proceeds τ A Nowhere t r t' :=
  ⟨h.of_level hlevel, .of_level hlevel, fun _ _ => .of_level hlevel⟩

-- ---------------------------------------------------------------------------
-- Phases and watchers
-- ---------------------------------------------------------------------------

/-- A group that is given a phase is ready afterwards only if it has the count that it stems from, and so has what
it watches. -/
theorem Stemmed.setPhase (h : t.Stemmed τ)
    (hready : phase = .ready → ∀ {p z c old}, t.placed p = some id → t.states id = some (old, c) → τ.Stems p z →
      c = τ.ownCount t.seed z ∧
        ∀ {y}, t.Watches id y → ∃ phase, t.states y = some (phase, τ.ownCount t.seed z)) :
    (t.modifyGroup id ({ · with phase })).Stemmed τ := by
  refine h.of_alike (.of_modifyGroup fun _ => rfl) (fun hw => .inl ((watches_setPhase phase).mp hw)) ?_
  intro x c hx
  by_cases hxid : x = id
  · subst hxid
    have hgroup : t.states x ≠ none := by
      rw [Ne, ← states_modifyGroup_eq_none, hx]
      exact Option.some_ne_none _
    obtain ⟨⟨old, c'⟩, hold⟩ := Option.ne_none_iff_exists'.mp hgroup
    rw [states_setPhase phase hold] at hx
    cases hx
    exact .inr fun hp hstems => hready rfl hp hold hstems
  · rw [states_setPhase_ne phase hxid] at hx
    exact .inl hx

/-- A group that is not ready is entered as a watcher of the one that it follows. -/
theorem Stemmed.watch (h : t.Stemmed τ) {source : NodeId} (hid : id.index < t.nodes.size)
    (hserved : ¬ t.Served id)
    (hsource : ∀ p, t.placed p = some id → ∃ q, τ.source p = some q ∧ t.placed q = some source) :
    (t.modifyGroup source fun group =>
      { group with watchers := NodeId.insertInto id group.watchers }).Stemmed τ := by
  have hsame : (t.modifyGroup source fun group =>
      { group with watchers := NodeId.insertInto id group.watchers }).states = t.states := states_watch id
  refine h.of_alike (.of_modifyGroup fun _ => rfl) (fun hw => ?_) fun hx => .inl (hsame ▸ hx)
  rcases watches_watch.mp hw with hw | ⟨rfl, rfl, -⟩
  · exact .inl hw
  · refine .inr ⟨?_, hid, hsource⟩
    rwa [served_iff, hsame, ← served_iff]

theorem Stemmed.markStale (h : t.Stemmed τ) (id : NodeId) : (t.markStale id).Stemmed τ := by
  refine h.of_alike (.of_modifyGroup fun g => by split <;> rfl) (fun hw => .inl (watches_markStale.mp hw)) ?_
  intro x c hx
  rcases states_markStale t id x with hsame | ⟨-, d, -, hstale⟩
  · exact .inl (hsame ▸ hx)
  · rw [hstale] at hx
    cases hx

/-- Of the groups at hand, some that were ready have gone stale. -/
structure Alerts (watchers : List NodeId) (t t' : Tree) : Prop where
  alike : t.Alike t'
  states : ∀ x, t'.states x = t.states x ∨
    x ∈ watchers ∧ ∃ c, t.states x = some (.ready, c) ∧ t'.states x = some (.stale, c)
  watches : ∀ {w y}, t'.Watches w y ↔ t.Watches w y

theorem Alerts.trans {watchers : List NodeId} (h : Alerts watchers t t₁) (h' : Alerts watchers t₁ t₂) :
    Alerts watchers t t₂ where
  alike := h.alike.trans h'.alike
  states := by
    intro x
    rcases h.states x with hx | ⟨hmem, c, hready, hstale⟩
    · rw [← hx]
      exact h'.states x
    · rcases h'.states x with hx | ⟨-, d, hready', -⟩
      · exact .inr ⟨hmem, c, hready, hx.trans hstale⟩
      · rw [hstale] at hready'
        cases hready'
  watches := h'.watches.trans h.watches

theorem Alerts.of_level {watchers : List NodeId} (h : t.Level t') : Alerts watchers t t' where
  alike := h.alike
  states := fun x => .inl (by rw [h.states])
  watches := h.watches _ _

/-- Whoever is told may be anything; only its phase can change. -/
theorem notify_alerts (watchers : List NodeId) (h : t.Stemmed τ) :
    wp (notify watchers) (fun r t' => r = .ok ⟨⟩ ∧ t'.Stemmed τ ∧ Alerts watchers t t') t := by
  unfold notify
  rw [wp.bind]
  refine wp.forIn (fun rest s => s.Stemmed τ ∧ Alerts watchers t s ∧ rest ⊆ watchers)
    ⟨h, .of_level (Like.refl t).level, fun _ hx => hx⟩ (fun s hs => ⟨rfl, hs.1, hs.2.1⟩) ?_
  rintro w rest s ⟨hstemmed, halerts, hrest⟩
  have hrest' : rest ⊆ watchers := fun x hx => hrest (List.mem_cons_of_mem _ hx)
  rw [wp.bind, wp.get]
  dsimp only
  split
  · simp only [wp.bind, wp.modify, wp.pure]
    have hlevel : (s.markStale w).Level ((s.markStale w).invalidate w) := Like.of_invalidate.level
    have hmarked : Alerts watchers s (s.markStale w) := by
      refine ⟨.of_modifyGroup fun g => by split <;> rfl, fun x => ?_, watches_markStale⟩
      rcases states_markStale s w x with hsame | ⟨rfl, hstale⟩
      · exact .inl hsame
      · exact .inr ⟨hrest List.mem_cons_self, hstale⟩
    exact ⟨(hstemmed.markStale w).of_level hlevel, halerts.trans (hmarked.trans (.of_level hlevel)), hrest'⟩
  · exact ⟨hstemmed, halerts, hrest'⟩

-- ---------------------------------------------------------------------------
-- New elements
-- ---------------------------------------------------------------------------

/-- If a group that has its count watches another one, the other one has this count, too. -/
theorem Stemmed.count_of_watched (h : t.Stemmed τ) (hw : t.Watches w x) (hserved : t.Served w)
    (hq : t.placed q = some w) (hstems : τ.Stems q z) (hp : t.placed p = some x)
    (hx : t.states x = some (phase, c)) : τ.Stems p z ∧ c = τ.ownCount t.seed z := by
  obtain ⟨p', hsource, hp'⟩ := h.heard hw hq
  cases placed_inj h.wellFormed hp hp'
  obtain ⟨phase', hx'⟩ := h.told hw hserved hq hstems
  cases hx.symm.trans hx'
  exact ⟨(hstems.of_source hsource).1, rfl⟩

section

variable {element : Template} {elements : List NodeId} (hswap : Swapped (fun _ => True) x element elements t t₁)

include hswap

/-- Groups that are still there are as they were, except for the one with the new elements. -/
theorem Swapped.states_kept (hy : t.isLive y = true) (hlive : t₁.isLive y = true) (hne : y ≠ x) :
    t₁.states y = t.states y := by
  obtain ⟨n', hn'⟩ := isLive_iff_node?.mp hlive
  exact states_congr (hswap.kept (lt_of_live hy) hne (hswap.old (lt_of_live hy) hn').1)

theorem Swapped.states_self (hx : t.states x = some (phase, c)) :
    t₁.states x = some (phase, elements.length) := by
  obtain ⟨n, g, hn, hk, rfl, -⟩ := states_eq_some.mp hx
  obtain ⟨n', hn', hkind, hch⟩ := hswap.exchanged hn
  rw [states_of_node? hn' (hkind.trans hk), hch]

/-- A group is the one with the new elements, or as it was, or new itself. -/
theorem Swapped.states_cases (hy : t₁.states y = some (phase, c)) :
    y = x ∨ y ≠ x ∧ t.states y = some (phase, c) ∨ t.nodes.size ≤ y.index ∧ phase = .uninit := by
  obtain ⟨m, g, hm, hk, rfl, -⟩ := states_eq_some.mp hy
  rcases hswap.group_cases hm hk with ⟨-, l, hl, -⟩ | ⟨hge, huninit, -⟩
  · by_cases hyx : y = x
    · exact .inl hyx
    · rw [hswap.states_kept (isLive_iff_node?.mpr ⟨l, hl⟩) (live_of_states hy) hyx] at hy
      exact .inr (.inl ⟨hyx, hy⟩)
  · exact .inr (.inr ⟨hge, huninit⟩)

theorem Swapped.heeds (hn : t.node? x = some n) (hk : n.kind = .repeated g) (helement : g.element = element) :
    Heeds τ (· = x) t t₁ where
  evolves := hswap.evolves hn hk helement
  busy := fun hy => (hswap.busy_cases hy).2
  still := by
    intro y hy hlive
    obtain ⟨c, hc⟩ := busy_iff.mp hy
    by_cases hyx : y = x
    · exact busy_iff.mpr ⟨_, hyx ▸ hswap.states_self (hyx ▸ hc)⟩
    · exact busy_iff.mpr ⟨c, (hswap.states_kept hy.live hlive hyx).trans hc⟩
  kept := fun hyx hpinned hlive => hswap.states_kept hpinned.live hlive hyx
  unheard := fun _ _ _ hw => hswap.watches_old hw

variable (h : t.Stemmed τ) (hn : t.node? x = some n) (hk : n.kind = .repeated g) (helement : g.element = element)
  (hphase : g.phase = .initializing)

include h hn hk helement hphase

/-- Who watches the group has not got its count yet, if this is to be another one. -/
theorem Stemmed.swapped (hp : t.placed p = some x)
    (hcount : ∀ z, τ.Stems p z → elements.length = τ.ownCount t.seed z)
    (hne : n.children.length ≠ elements.length) : t₁.Stemmed τ := by
  have hwf := h.wellFormed
  have hheeds : Heeds τ (· = x) t t₁ := hswap.heeds hn hk helement
  have hself := states_of_node? hn hk
  rw [hphase] at hself
  -- What is ready was ready before.
  have hready : ∀ {y c}, t₁.states y = some (.ready, c) → y ≠ x ∧ t.states y = some (.ready, c) := by
    intro y c hy
    rcases hswap.states_cases hy with rfl | hold | ⟨-, hnew⟩
    · cases (hswap.states_self hself).symm.trans hy
    · exact hold
    · cases hnew
  refine ⟨hswap.wellFormed hwf, h.models.evolve hwf τ.cellsIn_true hheeds.evolves, fun {p z y c} hstems hp hy => ?ready,
    fun hw => (h.old (hswap.watches_old hw)).trans_le hswap.size, fun {w y p} hw hp => ?heard,
    fun {w y q z} hw hserved hq hstems => ?told⟩
  case ready =>
    obtain ⟨-, hold⟩ := hready hy
    rw [hswap.seed]
    exact h.ready hstems (hheeds.placed_back hwf (live_of_states hold) hp) hold
  case heard =>
    have hw' := hswap.watches_old hw
    have hlive := (hheeds.evolves.grows hwf).live (h.old hw')
      (isLive_of_placed (hheeds.evolves.wellFormed hwf) hp)
    obtain ⟨q, hsource, hq⟩ := h.heard hw' (hheeds.placed_back hwf hlive hp)
    obtain ⟨l, -, hl, -⟩ := hw
    exact ⟨q, hsource, hheeds.placed hwf hq (isLive_iff_node?.mpr ⟨l, hl⟩)⟩
  case told =>
    have hw' := hswap.watches_old hw
    obtain ⟨c, hc⟩ := served_iff.mp hserved
    obtain ⟨-, hold⟩ := hready hc
    have hserved' := served_iff.mpr ⟨c, hold⟩
    have hq' := hheeds.placed_back hwf hserved'.live hq
    obtain ⟨l, -, hl, -⟩ := hw
    obtain ⟨phase, hy⟩ := h.told hw' hserved' hq' hstems
    by_cases hyx : y = x
    · subst hyx
      obtain ⟨hstems', heq⟩ := h.count_of_watched hw' hserved' hq' hstems hp hself
      exact absurd (heq.trans (hcount z hstems').symm) hne
    · refine ⟨phase, ?_⟩
      rw [hswap.states_kept (live_of_states hy) (isLive_iff_node?.mpr ⟨l, hl⟩) hyx, hswap.seed]
      exact hy

/-- New groups watch no others. -/
theorem Prompt.swapped (hprompt : t.Prompt τ) : t₁.Prompt τ := by
  have hheeds : Heeds τ (· = x) t t₁ := hswap.heeds hn hk helement
  have hself := states_of_node? hn hk
  rw [hphase] at hself
  refine ⟨fun {w y} hw => ?watchers, fun {p z y c} hstems hp hy => ?stale⟩
  case watchers =>
    rintro ⟨c, hc⟩
    have hw' := hswap.watches_old hw
    rcases hswap.states_cases hc with rfl | ⟨-, hold⟩ | ⟨hnew, -⟩
    · cases (hswap.states_self hself).symm.trans hc
    · exact hprompt.watchers hw' ⟨c, hold⟩
    · exact absurd (h.old hw') (Nat.not_lt.mpr hnew)
  case stale =>
    rcases hswap.states_cases hy with rfl | ⟨-, hold⟩ | ⟨-, hnew⟩
    · cases (hswap.states_self hself).symm.trans hy
    · exact hprompt.stale hstems (hheeds.placed_back h.wellFormed (live_of_states hold) hp) hold
    · cases hnew

end

/-- When the watchers of a group are told, those that have the counts that they stem from are not among them. -/
theorem Proceeds.alerts {α : Type} {r : Except TreeError α} {watchers : List NodeId} (h : t.Stemmed τ)
    (h₁ : Proceeds τ A D t r t₁) (halerts : Alerts watchers t₁ t₂) (h₂ : t₂.Stemmed τ)
    (hwatch : ∀ w ∈ watchers, t.Watches w x)
    (hunpinned : ∀ {w q z}, t.Watches w x → t.Served w → t.placed q = some w → ¬ τ.Stems q z) :
    Proceeds τ A D t r t₂ := by
  have hwf := h.wellFormed
  have hheeds := h₁.heeds
  have hlive : ∀ {y}, t₂.isLive y = true → t₁.isLive y = true := fun hy => halerts.alike.live ▸ hy
  -- Only groups that are ready in between can have been told anything.
  have hstates : ∀ {y phase c}, t₁.states y = some (phase, c) → phase ≠ .ready → t₂.states y = some (phase, c) := by
    intro y phase c hy hphase
    rcases halerts.states y with hsame | ⟨-, d, hready, -⟩
    · exact hsame.trans hy
    · cases hy.symm.trans hready
      exact absurd rfl hphase
  have hback : ∀ {y phase c}, t₂.states y = some (phase, c) → phase ≠ .stale → t₁.states y = some (phase, c) := by
    intro y phase c hy hphase
    rcases halerts.states y with hsame | ⟨-, d, -, hstale⟩
    · exact hsame.symm.trans hy
    · cases hy.symm.trans hstale
      exact absurd rfl hphase
  refine ⟨h₂, ⟨?evolves, fun {y} hy => ?busy, fun {y} hy hy₂ => ?still, fun {y} hA hpinned hy₂ => ?kept,
    fun hA hbusy hy₂ hw => hheeds.unheard hA hbusy (hlive hy₂) (halerts.watches.mp hw)⟩,
    fun a ha => ⟨fun {y} hy => ?blank, fun hprompt => ⟨fun {w y} hw => ?watchers, fun {p z y c} hstems hp hy => ?stale⟩⟩⟩
  case evolves => exact hheeds.evolves.trans (.of_alike halerts.alike fun _ _ _ _ _ _ => trivial)
  case busy =>
    obtain ⟨c, hc⟩ := busy_iff.mp hy
    exact hheeds.busy (busy_iff.mpr ⟨c, hback hc nofun⟩)
  case still =>
    obtain ⟨c, hc⟩ := busy_iff.mp (hheeds.still hy (hlive hy₂))
    exact busy_iff.mpr ⟨c, hstates hc nofun⟩
  case kept =>
    have hkept := hheeds.kept hA hpinned (hlive hy₂)
    rcases halerts.states y with hsame | ⟨hmem, c, hready, -⟩
    · exact hsame.trans hkept
    · rw [hkept] at hready
      rcases hpinned with hbusy | ⟨hserved, q, z, hq, hstems⟩
      · exact absurd hbusy (not_busy hready nofun)
      · exact absurd hstems (hunpinned (hwatch y hmem) hserved hq)
  case blank =>
    obtain ⟨c, hc⟩ := hy
    exact (h₁.clears a ha).blank ⟨c, hback hc nofun⟩
  case watchers =>
    rintro ⟨c, hc⟩
    exact ((h₁.clears a ha).prompt hprompt).watchers (halerts.watches.mp hw) ⟨c, hback hc nofun⟩
  case stale =>
    rcases halerts.states y with hsame | ⟨hmem, d, hready, -⟩
    · rw [halerts.alike.placed] at hp
      exact ((h₁.clears a ha).prompt hprompt).stale hstems hp (hsame.symm.trans hy)
    -- Who was entered as a watcher before had been initialized, or was on its way.
    · have hw := hwatch y hmem
      have hy₁ := live_of_states hready
      have hy₀ := (hheeds.evolves.grows hwf).live (h.old hw) hy₁
      rw [halerts.alike.placed] at hp
      have hp₀ := hheeds.placed_back hwf hy₀ hp
      obtain ⟨n, hn⟩ := isLive_iff_node?.mp hy₀
      obtain ⟨n₁, g₁, hn₁, hk₁, -⟩ := states_eq_some.mp hready
      obtain ⟨g, hk, -⟩ := Node.rule_of_fixture ((hheeds.evolves.grows hwf).fixture hn hn₁).symm hk₁
      have hstates₀ := states_of_node? hn hk
      cases hphase : g.phase with
      | uninit => exact hprompt.watchers hw ⟨_, hphase ▸ hstates₀⟩
      | stale => exact hprompt.stale hstems hp₀ (hphase ▸ hstates₀)
      | initializing =>
        exact not_busy hready nofun (hheeds.still ⟨n, g, hn, hk, hphase⟩ hy₁)
      | ready => exact hunpinned hw ⟨n, g, hn, hk, hphase⟩ hp₀ hstems

end Tree

end FormatFuzz
