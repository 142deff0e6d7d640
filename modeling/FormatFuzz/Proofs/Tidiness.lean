-- SUMMARY: Only bound groups go stale, and other groups that are not ready have their rule's elements or none.
import FormatFuzz.Proofs.Confinement
import FormatFuzz.Proofs.Ties

/-!
# Tidy trees

Only groups with a bound rule are entered as watchers, so that no other group ever goes stale. A group
without one is initialized by its own rule, and if that fails after the elements have been made, these are as
many as the rule says. Both hold in every state (`Tree.Reaches.tidy`). A group that is ready keeps the elements of
its rule as long as it is not resized (`Tree.Reaches.keeps_tidy`).

While an unbound group is initialized or resized, what is initialized on the way does not touch it
(`Tree.replaceElements_held`).
-/

namespace FormatFuzz

open TreeM

/-- The group follows another one. -/
def Multiplicity.isBound : Multiplicity → Bool
  | .bound .. => true
  | .fixed _ | .random .. => false

namespace Tree

variable {X : NodeId → Prop} {t t' t₁ : Tree} {id w x : NodeId} {n n' : Node} {g : Group} {count : Nat}

-- ---------------------------------------------------------------------------
-- Groups that are left alone
-- ---------------------------------------------------------------------------

/-- The group needs no initialization, and is not told when others change their counts. -/
structure Held (t : Tree) (id : NodeId) : Prop where
  wellFormed : t.WellFormed
  index : id.index < t.nodes.size
  quiet : ∀ {phase c}, t.states id = some (phase, c) → phase = .ready ∨ phase = .initializing
  unheard : ∀ {x}, ¬ t.Watches id x

namespace Held

theorem realm (h : t.Held id) : Realm (· ≠ id) (fun _ => True) t where
  wellFormed := h.wellFormed
  fresh := fun hx he => absurd h.index (Nat.not_lt.mpr (he ▸ hx))
  under := fun _ _ _ => .inr trivial
  quiet := fun hx hstates => h.quiet (not_not.mp hx ▸ hstates)

theorem confined (h : t.Held id) : Confined (· ≠ id) (fun _ => True) t t :=
  .refl fun hw _ he => h.unheard (he ▸ hw)

theorem swapped (h : t.Held id) {element : Template} {elements : List NodeId}
    (hswap : Swapped (fun _ => True) id element elements t t₁) : t₁.Held id where
  wellFormed := hswap.wellFormed h.wellFormed
  index := h.index.trans_le hswap.size
  quiet := by
    intro phase c hstates
    obtain ⟨m, g', hm, hk, rfl, -⟩ := states_eq_some.mp hstates
    rcases hswap.group_cases hm hk with ⟨-, l, hl, hlk⟩ | ⟨hge, -⟩
    · exact h.quiet (states_of_node? hl hlk)
    · exact absurd h.index (Nat.not_lt.mpr hge)
  unheard := by
    rintro x ⟨m, g', hm, hk, hw⟩
    rcases hswap.group_cases hm hk with ⟨-, l, hl, hlk⟩ | ⟨-, -, hnone⟩
    · exact h.unheard ⟨l, g', hl, hlk, hw⟩
    · rw [hnone] at hw
      cases hw

end Held

/-- The node has the children of `n`, or new ones if the count is another one. -/
structure Refilled (t : Tree) (n : Node) (count : Nat) (n' : Node) : Prop where
  length : n'.children.length = count
  same : n.children.length = count → n'.children = n.children
  fresh : n.children.length ≠ count → ∀ c ∈ n'.children, t.nodes.size ≤ c.index

/-- Whatever comes of it, a group that is given another count while others leave it alone has that many
elements, or is gone. -/
theorem replaceElements_held (h : t.Held id) (hn : t.node? id = some n) (hk : n.kind = .repeated g)
    {visit : NodeId → TreeM Unit}
    (hvisit : ∀ t₁, t₁.Held id → ∀ x, Confines (· ≠ id) (fun _ => True) t₁ (visit x)) (count : Nat) :
    wp (replaceElementsWith visit id count) (fun _ t' => ∀ n', t'.node? id = some n' →
      t.Refilled n count n' ∧ ∃ g', n'.kind = .repeated g' ∧ g'.phase = g.phase) t := by
  refine replaceElements_rule h.wellFormed (fun hnone => ?_) (fun m hm hcount n' hn' => ?_) ?_
  · rw [states_of_node? hn hk] at hnone
    cases hnone
  · rw [hn] at hm hn'
    cases hm
    cases hn'
    exact ⟨⟨hcount, fun _ => rfl, fun hne => absurd hcount hne⟩, g, hk, rfl⟩
  intro m g' elements t₁ hm hk' hne hcount hswap
  rw [hn] at hm
  cases hm
  rw [hk] at hk'
  cases hk'
  obtain ⟨n₁, hn₁, hkind₁, hch₁⟩ := hswap.exchanged hn
  have hk₁ := hkind₁.trans hk
  have hheld := h.swapped hswap
  -- The group is not active, so it has its elements and its phase as long as it is there.
  have hdone : ∀ {s}, Confined (· ≠ id) (fun _ => True) t₁ s → ∀ n', s.node? id = some n' →
      t.Refilled n count n' ∧ ∃ g', n'.kind = .repeated g' ∧ g'.phase = g.phase := by
    intro s hs n' hn'
    rcases hs.kept (not_not.mpr rfl) with ⟨-, hdead⟩ | ⟨hstates, hchildren⟩
    · rw [hn'] at hdead
      cases hdead
    rw [hn', hn₁, Option.map_some, Option.map_some, hch₁] at hchildren
    have hch := Option.some.inj hchildren
    rw [states_of_node? hn₁ hk₁] at hstates
    obtain ⟨l, g', hl, hlk, hphase, -⟩ := states_eq_some.mp hstates
    rw [hn'] at hl
    cases hl
    refine ⟨⟨hch ▸ hcount, fun heq => absurd heq hne, fun _ c hc => ?_⟩, g', hlk, hphase⟩
    exact (hswap.roots (hch ▸ hc)).1
  refine ⟨Confined (· ≠ id) (fun _ => True) t₁, hheld.confined, fun x s hs => ?_, fun s hs => ?_⟩
  · refine (hvisit t₁ hheld x s).mono fun r s' hs' => ?_
    cases r with
    | ok _ => exact hs' hs
    | error e => exact hdone (hs' hs)
  · have htold : ∀ w ∈ g.watchers, w ≠ id :=
      fun w hw he => h.unheard (he ▸ (watches_iff hn hk).mpr hw)
    have htell : Confines (· ≠ id) (fun _ => True) t₁ (notify g.watchers) :=
      GroupLaws.notify fun s w hw hs => hs.markStale (htold w hw)
    exact hdone (htell.run _ (Confined.shallow.of_like .of_invalidate hs))

-- ---------------------------------------------------------------------------
-- Tidiness
-- ---------------------------------------------------------------------------

/-- Watchers are bound groups, and unbound groups are ready or have the elements of their rule or none. Those of
`X` have the elements of their rule when they are ready. -/
structure Tidy (X : NodeId → Prop) (t : Tree) : Prop where
  heard : ∀ {w x}, t.Watches w x → w.index < t.nodes.size ∧
    ∀ {n g}, t.node? w = some n → n.kind = .repeated g → g.rule.isBound = true
  unbound : ∀ {id n g}, t.node? id = some n → n.kind = .repeated g → g.rule.isBound = false →
    g.phase ≠ .stale ∧
      (g.phase = .uninit → n.children = [] ∨ t.provisionalCount id = .ok n.children.length)
  ruled : ∀ {id n g}, t.node? id = some n → n.kind = .repeated g → g.rule.isBound = false →
    g.phase = .ready → X id → t.provisionalCount id = .ok n.children.length

/-- The count that a group has by itself is the same as long as it is there. -/
theorem Grows.provisionalCount (h : t.Grows t') (hwf : t.WellFormed) (hwf' : t'.WellFormed)
    (hn : t.node? id = some n) (hn' : t'.node? id = some n') (hk : n.kind = .repeated g) :
    t'.provisionalCount id = t.provisionalCount id := by
  obtain ⟨g', hk', hrule⟩ := Node.rule_of_fixture (h.fixture hn hn') hk
  unfold Tree.provisionalCount randomCount
  rw [group_eq_ok.mpr ⟨n, hn, hk⟩, group_eq_ok.mpr ⟨n', hn', hk'⟩, ok_bind, ok_bind, hrule,
    h.generator hwf hwf' hn hn']

namespace Tidy

/-- A change that enters only bound groups as watchers, and after which every unbound group is ready, on
the way or empty, or as it was. -/
theorem step (h : t.Tidy X) (hwf : t.WellFormed) (hev : Evolves (fun _ => True) t t')
    (hwatches : ∀ {w x}, t'.Watches w x → t.Watches w x ∨ w.index < t.nodes.size ∧
      ∀ {n g}, t.node? w = some n → n.kind = .repeated g → g.rule.isBound = true)
    (hstates : ∀ {id n g}, t'.node? id = some n → n.kind = .repeated g → g.rule.isBound = false →
      g.phase = .ready ∧ (X id → t'.provisionalCount id = .ok n.children.length) ∨ g.phase = .initializing ∨
        g.phase = .uninit ∧ (n.children = [] ∨ t'.provisionalCount id = .ok n.children.length) ∨
          t.states id = some (g.phase, n.children.length)) : t'.Tidy X where
  heard := by
    intro w x hw
    have hold : w.index < t.nodes.size ∧
        ∀ {n g}, t.node? w = some n → n.kind = .repeated g → g.rule.isBound = true := by
      rcases hwatches hw with hw | hw
      · exact h.heard hw
      · exact hw
    refine ⟨hold.1.trans_le (hev.grows hwf).size, fun {n' g'} hn' hk' => ?_⟩
    obtain ⟨n, hn, hf, -⟩ := (hev.grows hwf).old hold.1 hn'
    obtain ⟨g, hk, hrule⟩ := Node.rule_of_fixture hf.symm hk'
    exact hrule ▸ hold.2 hn hk
  unbound := by
    intro id n' g' hn' hk' hunbound
    rcases hstates hn' hk' hunbound with ⟨hphase, -⟩ | hphase | ⟨hphase, hfilled⟩ | hsame
    · simp [hphase]
    · simp [hphase]
    · simp [hphase, hfilled]
    · obtain ⟨n, g, hn, hk, hphase, hlength⟩ := states_eq_some.mp hsame
      have hgrows := hev.grows hwf
      obtain ⟨g₁, hk₁, hrule⟩ := Node.rule_of_fixture (hgrows.fixture hn hn') hk
      rw [hk'] at hk₁
      cases hk₁
      obtain ⟨hstale, huninit⟩ := h.unbound hn hk (hrule ▸ hunbound)
      rw [hphase] at hstale huninit
      refine ⟨hstale, fun hphase' => (huninit hphase').imp (fun hempty => ?_) fun hcount => ?_⟩
      · rw [hempty] at hlength
        exact List.eq_nil_of_length_eq_zero hlength.symm
      · rw [hgrows.provisionalCount hwf (hev.wellFormed hwf) hn hn' hk, hcount, hlength]
  ruled := by
    intro id n' g' hn' hk' hunbound hready hX
    rcases hstates hn' hk' hunbound with ⟨-, hcount⟩ | hphase | ⟨hphase, -⟩ | hsame
    · exact hcount hX
    · rw [hready] at hphase
      cases hphase
    · rw [hready] at hphase
      cases hphase
    · obtain ⟨n, g, hn, hk, hphase, hlength⟩ := states_eq_some.mp hsame
      have hgrows := hev.grows hwf
      obtain ⟨g₁, hk₁, hrule⟩ := Node.rule_of_fixture (hgrows.fixture hn hn') hk
      rw [hk'] at hk₁
      cases hk₁
      rw [hgrows.provisionalCount hwf (hev.wellFormed hwf) hn hn' hk, ← hlength]
      exact h.ruled hn hk (hrule ▸ hunbound) (hphase.trans hready) hX

theorem of_level (h : t.Tidy X) (hwf : t.WellFormed) (hlevel : t.Level t') : t'.Tidy X := by
  refine h.step hwf hlevel.evolves (fun hw => .inl ((hlevel.watches _ _).mp hw)) fun hn hk _ => ?_
  rw [← hlevel.states]
  exact .inr (.inr (.inr (states_of_node? hn hk)))

/-- A group that fails to be initialized has the elements of its rule or none, and one of `X` that is ready has
the elements of its rule. -/
theorem setPhase (h : t.Tidy X) (hwf : t.WellFormed) {phase : Phase} (hstale : phase ≠ .stale)
    (hfilled : phase = .uninit → ∀ {n g}, t.node? id = some n → n.kind = .repeated g →
      g.rule.isBound = false → n.children = [] ∨ t.provisionalCount id = .ok n.children.length)
    (hruled : phase = .ready → ∀ {n g}, t.node? id = some n → n.kind = .repeated g →
      g.rule.isBound = false → t.provisionalCount id = .ok n.children.length) :
    (t.modifyGroup id ({ · with phase })).Tidy X := by
  have hev : Evolves (fun _ => True) t (t.modifyGroup id ({ · with phase })) := .of_modifyGroup fun _ => rfl
  refine h.step hwf hev (fun hw => .inl ((watches_setPhase phase).mp hw)) fun {x n' g'} hn' hk' hunbound => ?_
  by_cases hx : x = id
  · subst hx
    obtain ⟨n, hn, ⟨hne, -⟩ | ⟨-, hch, hgroup⟩⟩ := node?_modifyGroup hn'
    · exact absurd rfl hne
    · obtain ⟨g, hk, rfl⟩ := hgroup g' hk'
      cases phase with
      | ready =>
        refine .inl ⟨rfl, fun _ => ?_⟩
        rw [hch, (hev.grows hwf).provisionalCount hwf (hev.wellFormed hwf) hn hn' hk]
        exact hruled rfl hn hk hunbound
      | initializing => exact .inr (.inl rfl)
      | stale => exact absurd rfl hstale
      | uninit =>
        refine .inr (.inr (.inl ⟨rfl, ?_⟩))
        rw [hch, (hev.grows hwf).provisionalCount hwf (hev.wellFormed hwf) hn hn' hk]
        exact hfilled rfl hn hk hunbound
  · rw [← states_setPhase_ne phase hx]
    exact .inr (.inr (.inr (states_of_node? hn' hk')))

theorem watch (h : t.Tidy X) (hwf : t.WellFormed) (hid : id.index < t.nodes.size)
    (hbound : ∀ {n g}, t.node? id = some n → n.kind = .repeated g → g.rule.isBound = true)
    (source : NodeId) : (t.modifyGroup source fun group =>
      { group with watchers := NodeId.insertInto id group.watchers }).Tidy X := by
  refine h.step hwf (.of_modifyGroup fun _ => rfl) (fun hw => ?_) fun hn' hk' _ => ?_
  · rcases watches_watch.mp hw with hw | ⟨rfl, -, -⟩
    · exact .inl hw
    · exact .inr ⟨hid, hbound⟩
  · have hsame : (t.modifyGroup source fun group =>
        { group with watchers := NodeId.insertInto id group.watchers }).states = t.states := states_watch id
    rw [← hsame]
    exact .inr (.inr (.inr (states_of_node? hn' hk')))

/-- Only a bound group may go stale. -/
theorem markStale (h : t.Tidy X) (hwf : t.WellFormed)
    (hbound : ∀ {n g}, t.node? id = some n → n.kind = .repeated g → g.rule.isBound = true) :
    ((t.markStale id).invalidate id).Tidy X := by
  have hstill : ∀ g : Group, (if g.phase = .ready then { g with phase := .stale } else g).still = g.still :=
    fun g => by split <;> rfl
  have halike : t.Alike (t.markStale id) := .of_modifyGroup hstill
  have hev : Evolves (fun _ => True) t (t.markStale id) := .of_modifyGroup hstill
  have hmarked : (t.markStale id).Tidy X := by
    refine h.step hwf hev (fun hw => .inl (watches_markStale.mp hw)) fun {x n' g'} hn' hk' hunbound => ?_
    by_cases hx : x = id
    · subst hx
      obtain ⟨n, hn, hf, -⟩ := halike.symm.node? hn'
      obtain ⟨g, hk, hrule⟩ := Node.rule_of_fixture hf hk'
      rw [← hrule, hbound hn hk] at hunbound
      cases hunbound
    · rcases states_markStale t id x with hsame | ⟨he, -⟩
      · rw [← hsame]
        exact .inr (.inr (.inr (states_of_node? hn' hk')))
      · exact absurd he hx
  exact hmarked.of_level (hev.wellFormed hwf) Like.of_invalidate.level

theorem swapped (h : t.Tidy X) (hwf : t.WellFormed) (hn : t.node? id = some n) (hk : n.kind = .repeated g)
    (hid : g.rule.isBound = false → g.phase = .ready ∧ ¬ X id ∨ g.phase = .initializing) {elements : List NodeId}
    (hswap : Swapped (fun _ => True) id g.element elements t t₁) : t₁.Tidy X := by
  refine h.step hwf (hswap.evolves hn hk rfl) ?_ fun {x n' g'} hn' hk' hunbound => ?_
  · rintro w x ⟨m, g', hm, hk', hw⟩
    rcases hswap.group_cases hm hk' with ⟨-, l, hl, hlk⟩ | ⟨-, -, hnone⟩
    · exact .inl ⟨l, g', hl, hlk, hw⟩
    · rw [hnone] at hw
      cases hw
  · rcases hswap.group_cases hn' hk' with ⟨hlt, l, hl, hlk⟩ | ⟨hge, huninit, -⟩
    · obtain ⟨-, m, hm, -, -, ⟨rfl, -⟩ | ⟨-, hch⟩⟩ := hswap.old hlt hn'
      · rw [hn] at hl
        cases hl
        rw [hk] at hlk
        cases hlk
        exact (hid hunbound).imp (fun h => ⟨h.1, fun hX => absurd hX h.2⟩) .inl
      · rw [hl] at hm
        cases hm
        rw [hch]
        exact .inr (.inr (.inr (states_of_node? hl hlk)))
    · have hempty := (hswap.fresh hge hn').new.empty (by rw [hk']; rfl)
      exact .inr (.inr (.inl ⟨huninit, .inl hempty⟩))

end Tidy

-- ---------------------------------------------------------------------------
-- Operations
-- ---------------------------------------------------------------------------

/-- A tidy tree stays tidy while it evolves. -/
def Tidies (X : NodeId → Prop) (t t' : Tree) : Prop :=
  t.WellFormed → t.Tidy X → Evolves (fun _ => True) t t' ∧ t'.Tidy X

instance : IsPreorder Tree (Tidies X) where
  refl t := fun _ h => ⟨.refl _ t, h⟩
  trans t₁ t₂ t₃ h h' := fun hwf htidy => by
    obtain ⟨hev, h₂⟩ := h hwf htidy
    obtain ⟨hev', h₃⟩ := h' (hev.wellFormed hwf) h₂
    exact ⟨hev.trans hev', h₃⟩

theorem Tidies.preserves {α : Type} {act : TreeM α} (h : ∀ t, t.WellFormed → t.Tidy X →
    wp act (fun _ t' => Evolves (fun _ => True) t t' ∧ t'.Tidy X) t) : Preserves (Tidies X) (Tidies X) act :=
  .of_run fun t hwf htidy => h t hwf htidy

theorem Tidies.of_level (h : t.Level t') : Tidies X t t' :=
  fun hwf htidy => ⟨h.evolves, htidy.of_level hwf h⟩

/-- An unbound group is given another count when it is on the way, or ready and not one of `X`. -/
theorem replaceElements_tidies {visit : NodeId → TreeM Unit}
    (hvisit : ∀ x, Preserves (Tidies X) (Tidies X) (visit x)) (hwf : t.WellFormed) (h : t.Tidy X)
    (hid : ∀ {n g}, t.node? id = some n → n.kind = .repeated g → g.rule.isBound = false →
      g.phase = .ready ∧ ¬ X id ∨ g.phase = .initializing) (count : Nat) :
    wp (replaceElementsWith visit id count)
      (fun _ t' => Evolves (fun _ => True) t t' ∧ t'.Tidy X) t := by
  refine replaceElements_rule hwf (fun _ _ => ⟨.refl _ t, h⟩) (fun _ _ _ => ⟨.refl _ t, h⟩) ?_
  intro n g elements t₁ hn hk _ _ hswap
  have hev := hswap.evolves (C := fun _ => True) hn hk rfl
  refine ⟨fun s => Evolves (fun _ => True) t s ∧ s.Tidy X,
    ⟨hev, h.swapped hwf hn hk (hid hn hk) hswap⟩, fun x s hs => ?_, fun s hs => ?_⟩
  · refine (hvisit x s).mono fun r s' h' => ?_
    have hnext := h'.rel (hs.1.wellFormed hwf) hs.2
    cases r <;> exact ⟨hs.1.trans hnext.1, hnext.2⟩
  · have htell : Preserves (Upholds fun s => Evolves (fun _ => True) t s ∧ s.Tidy X)
        (Upholds fun s => Evolves (fun _ => True) t s ∧ s.Tidy X) (notify g.watchers) := by
      refine GroupLaws.notify fun s w hw hs => ?_
      have hbound := h.heard ((watches_iff hn hk).mpr hw)
      have hstale : Evolves (fun _ => True) s ((s.markStale w).invalidate w) :=
        .trans (.of_modifyGroup fun g => by split <;> rfl) .of_invalidate
      refine ⟨hs.1.trans hstale, hs.2.markStale (hs.1.wellFormed hwf) fun {n' g'} hn' hk' => ?_⟩
      obtain ⟨m, hm, hf, -⟩ := (hs.1.grows hwf).old hbound.1 hn'
      obtain ⟨g₀, hk₀, hrule⟩ := Node.rule_of_fixture hf.symm hk'
      exact hrule ▸ hbound.2 hm hk₀
    have hlevel : s.Level (s.invalidate id) := Like.of_invalidate.level
    exact htell.run _ ⟨hs.1.trans hlevel.evolves, hs.2.of_level (hs.1.wellFormed hwf) hlevel⟩

/-- Only bound groups are entered as watchers. -/
theorem countByRule_tidies {init : NodeId → TreeM Unit} (hinit : ∀ id, Preserves (Tidies X) (Tidies X) (init id))
    (id : NodeId) : Preserves (Tidies X) (Tidies X) (countByRuleWith init id) := by
  have htouch := GroupLaws.touchWith hinit
  refine Tidies.preserves fun t hwf h => ?_
  unfold countByRuleWith
  cases hg : t.group id with
  | error e => exact (wp.look_error hg).mpr ⟨.refl _ t, h⟩
  | ok g =>
    obtain ⟨n, hn, hk⟩ := group_eq_ok.mp hg
    rw [wp.look_ok hg]
    cases hrule : g.rule with
    | fixed count => exact ⟨.refl _ t, h⟩
    | random min max => exact wp.look.mpr ⟨.refl _ t, h⟩
    | bound path fields min max =>
      dsimp only
      rw [wp.bind]
      refine (GroupLaws.sourceWith htouch id path t).mono fun r t₁ h₁ => ?_
      obtain ⟨hev, htidy⟩ := h₁.rel hwf h
      cases r with
      | error e => exact ⟨hev, htidy⟩
      | ok source =>
        dsimp only
        rw [wp.bind, wp.modify]
        have hbound : ∀ {n' g'}, t₁.node? id = some n' → n'.kind = .repeated g' →
            g'.rule.isBound = true := by
          intro n' g' hn' hk'
          obtain ⟨g₁, hk₁, hrule₁⟩ := Node.rule_of_fixture ((hev.grows hwf).fixture hn hn') hk
          rw [hk'] at hk₁
          cases hk₁
          rw [hrule₁, hrule]
          rfl
        have hwatched := htidy.watch (hev.wellFormed hwf)
          ((lt_size hn).trans_le (hev.grows hwf).size) hbound source
        have hev₂ : Evolves (fun _ => True) t (t₁.modifyGroup source fun group =>
            { group with watchers := NodeId.insertInto id group.watchers }) :=
          hev.trans (.of_modifyGroup fun _ => rfl)
        refine (GroupLaws.countWith hinit source _).mono fun r t₃ h₃ => ?_
        obtain ⟨hev₃, h₃⟩ := h₃.rel (hev₂.wellFormed hwf) hwatched
        exact ⟨hev₂.trans hev₃, h₃⟩

theorem linkElements_tidies {init : NodeId → TreeM Unit}
    (hinit : ∀ id, Preserves (Tidies X) (Tidies X) (init id)) (id : NodeId) :
    Preserves (Tidies X) (Tidies X) (linkElementsWith init id) :=
  GroupLaws.linkElementsWith (GroupLaws.touchWith hinit) (fun _ _ _ _ _ _ _ hst =>
    trans_of (Tidies X) hst (trans_of (Tidies X) (.of_level .of_putCell) (.of_level Like.of_invalidate.level))) id

-- ---------------------------------------------------------------------------
-- Initialization
-- ---------------------------------------------------------------------------

/-- An unbound group works its count out by itself. -/
theorem wp_countByRule_unbound {init : NodeId → TreeM Unit} (hn : t.node? id = some n)
    (hk : n.kind = .repeated g) (hunbound : g.rule.isBound = false)
    {Q : Except TreeError Nat → Tree → Prop} :
    wp (countByRuleWith init id) Q t ↔ Q (t.provisionalCount id) t := by
  unfold countByRuleWith Tree.provisionalCount
  rw [wp.look_ok (group_eq_ok.mpr ⟨n, hn, hk⟩), group_eq_ok.mpr ⟨n, hn, hk⟩, ok_bind]
  cases hrule : g.rule with
  | fixed count => exact Iff.rfl
  | random min max => exact wp.look
  | bound path fields min max =>
    rw [hrule] at hunbound
    cases hunbound

/-- In the elements of an unbound group nothing is bound by pairs. -/
theorem linkElements_unbound {init : NodeId → TreeM Unit}
    (hunbound : ∀ {n g}, t.node? id = some n → n.kind = .repeated g → g.rule.isBound = false) :
    wp (linkElementsWith init id)
      (fun r t' => t' = t ∧ (r = .ok () → ∃ n, t.node? id = some n)) t := by
  unfold linkElementsWith
  cases hg : t.group id with
  | error e => exact (wp.look_error hg).mpr ⟨rfl, fun h => absurd h error_ne_ok⟩
  | ok g =>
    obtain ⟨n, hn, hk⟩ := group_eq_ok.mp hg
    rw [wp.look_ok hg]
    cases hrule : g.rule with
    | fixed count => exact ⟨rfl, fun _ => ⟨n, hn⟩⟩
    | random min max => exact ⟨rfl, fun _ => ⟨n, hn⟩⟩
    | bound path fields min max =>
      have hnone := hunbound hn hk
      rw [hrule] at hnone
      cases hnone

section

variable {run : Task → TreeM Unit}

/-- What an initialization does between its first and its last step. -/
def initBody (run : Task → TreeM Unit) (id : NodeId) : TreeM Unit := do
  let count ← countByRuleWith (fun id => run (.init id)) id
  replaceElementsWith (fun id => run (.visit id)) id count
  linkElementsWith (fun id => run (.init id)) id

/-- The phase after an initialization. -/
def phaseAfter : Except TreeError Unit → Phase
  | .ok _ => .ready
  | .error _ => .uninit

/-- Only a group that is gone cannot be given a phase. -/
theorem wp_setPhase {phase : Phase} {Q : Except TreeError Unit → Tree → Prop}
    (hgone : t.node? id = none → ∀ e, Q (.error e) t)
    (hset : ∀ n, t.node? id = some n → Q (.ok ()) (t.modifyGroup id ({ · with phase }))) :
    wp (update (·.setPhase id phase)) Q t := by
  rw [wp.update]
  unfold Tree.setPhase
  cases hn : t.node? id with
  | none =>
    obtain ⟨e, he⟩ := node_eq_error.mpr hn
    rw [he]
    exact hgone hn e
  | some n =>
    rw [node_eq_ok.mpr hn]
    exact hset n hn

/-- An initialization first marks its group, and in the end gives it the phase that goes with its outcome. It
fails if the group is gone by then. -/
theorem wp_initStep {Q : Except TreeError Unit → Tree → Prop}
    (hgone : t.node? id = none → ∀ e, Q (.error e) t)
    (hbody : ∀ n, t.node? id = some n → wp (initBody run id)
      (fun r t' => (t'.node? id = none → ∀ e, Q (.error e) t') ∧
        ∀ n', t'.node? id = some n' → Q r (t'.modifyGroup id ({ · with phase := phaseAfter r })))
      (t.modifyGroup id ({ · with phase := .initializing }))) : wp (initStep run id) Q t := by
  unfold initStep
  rw [wp.bind]
  refine wp_setPhase hgone fun n hn => ?_
  dsimp only
  rw [wp.bind, wp.outcome]
  refine wp.mono (hbody n hn) fun r t₂ h₂ => ?_
  cases r with
  | ok _ => exact wp_setPhase h₂.1 h₂.2
  | error e =>
    dsimp only
    rw [wp.bind]
    exact wp_setPhase h₂.1 h₂.2

/-- Whatever comes of its initialization, an unbound group has the elements of its rule, or is gone. -/
theorem initBody_unbound (h : t.Held id) (hn : t.node? id = some n) (hk : n.kind = .repeated g)
    (hunbound : g.rule.isBound = false)
    (hvisit : ∀ t₁, t₁.Held id → ∀ x, Confines (· ≠ id) (fun _ => True) t₁ (run (.visit x)))
    (hevolves : ∀ x, Preserves (Evolves fun _ => True) (Evolves fun _ => True) (run (.visit x))) :
    wp (initBody run id) (fun _ t' => ∀ n', t'.node? id = some n' →
      t.Refilled n (t.provision id) n' ∧ ∃ g', n'.kind = .repeated g' ∧ g'.phase = g.phase) t := by
  unfold initBody
  rw [wp.bind, wp_countByRule_unbound hn hk hunbound, provisionalCount_eq h.wellFormed hn hk]
  dsimp only
  rw [wp.bind]
  have hgrows := GroupLaws.replaceElementsWith
    (groupLaws_evolves .any).swaps hevolves id
    (t.provision id) t
  refine ((replaceElements_held h hn hk hvisit (t.provision id)).and hgrows).mono fun r t₁ h₁ => ?_
  obtain ⟨hdone, hgrows⟩ := h₁
  cases r with
  | error e => exact hdone
  | ok _ =>
    refine (linkElements_unbound fun {n' g'} hn' hk' => ?_).mono ?_
    · obtain ⟨g₁, hk₁, hrule⟩ :=
        Node.rule_of_fixture ((hgrows.rel.grows h.wellFormed).fixture hn hn') hk
      rw [hk'] at hk₁
      cases hk₁
      exact hrule ▸ hunbound
    · rintro r _ ⟨rfl, -⟩
      exact hdone

/-- A group that is being initialized is left alone if it is unbound. -/
theorem Tidy.held (h : t.Tidy X) (hwf : t.WellFormed) (hn : t.node? id = some n)
    (hk : n.kind = .repeated g) (hunbound : g.rule.isBound = false) :
    (t.modifyGroup id ({ · with phase := .initializing })).Held id where
  wellFormed := Alike.wellFormed (.of_modifyGroup fun _ => rfl) hwf
  index := by
    rw [Tree.modifyGroup, size_modify]
    exact lt_size hn
  quiet := by
    intro phase c hstates
    rw [states_setPhase .initializing (states_of_node? hn hk)] at hstates
    cases hstates
    exact .inr rfl
  unheard := by
    intro x hw
    have hbound := (h.heard ((watches_setPhase _).mp hw)).2 hn hk
    rw [hunbound] at hbound
    cases hbound

/-- Of an initialization, an unbound group has the elements of its rule. If nothing fails, it is ready. -/
theorem initStep_unbound (h : t.Tidy X) (hwf : t.WellFormed) (hn : t.node? id = some n)
    (hk : n.kind = .repeated g) (hunbound : g.rule.isBound = false)
    (hvisit : ∀ t₁, t₁.Held id → ∀ x, Confines (· ≠ id) (fun _ => True) t₁ (run (.visit x)))
    (hevolves : ∀ x, Preserves (Evolves fun _ => True) (Evolves fun _ => True) (run (.visit x))) :
    wp (initStep run id) (fun r t' => (r = .ok () → ∃ n', t'.node? id = some n') ∧
      ∀ n', t'.node? id = some n' → t.Refilled n (t.provision id) n' ∧
        ∃ g', n'.kind = .repeated g' ∧ (r = .ok () → g'.phase = .ready)) t := by
  have hheld := h.held hwf hn hk hunbound
  have halike : t.Alike (t.modifyGroup id ({ · with phase := .initializing })) := .of_modifyGroup fun _ => rfl
  obtain ⟨n₁, hn₁, hf, hch⟩ := halike.node? hn
  obtain ⟨g₁, hk₁, hrule⟩ := Node.rule_of_fixture hf hk
  have hprovision : (t.modifyGroup id ({ · with phase := .initializing })).provision id = t.provision id := by
    unfold provision
    rw [halike.grows.provisionalCount hwf hheld.wellFormed hn hn₁ hk]
  have hbody := initBody_unbound hheld hn₁ hk₁ (hrule ▸ hunbound) hvisit hevolves
  rw [hprovision] at hbody
  have hrefilled : ∀ {n'}, Refilled (t.modifyGroup id ({ · with phase := .initializing })) n₁
      (t.provision id) n' → t.Refilled n (t.provision id) n' := fun h =>
    ⟨h.length, fun heq => (h.same (hch ▸ heq)).trans hch, fun hne => halike.size ▸ h.fresh (hch ▸ hne)⟩
  refine wp_initStep (fun hnone => ?_) fun _ _ =>
    hbody.mono fun r t₂ h₂ => ⟨fun hnone e => ?_, fun n₂ hn₂ => ?_⟩
  · rw [hn] at hnone
    cases hnone
  · refine ⟨fun h => absurd h error_ne_ok, fun n' hn' => ?_⟩
    rw [hnone] at hn'
    cases hn'
  · obtain ⟨hdone, g₂, hk₂, -⟩ := h₂ n₂ hn₂
    have halike₂ : t₂.Alike (t₂.modifyGroup id ({ · with phase := phaseAfter r })) :=
      .of_modifyGroup fun _ => rfl
    obtain ⟨n₃, hn₃, hf₃, hch₃⟩ := halike₂.node? hn₂
    refine ⟨fun _ => ⟨n₃, hn₃⟩, fun n' hn' => ?_⟩
    rw [hn₃] at hn'
    cases hn'
    have hdone := hrefilled hdone
    refine ⟨⟨hch₃ ▸ hdone.length, fun heq => hch₃.trans (hdone.same heq), hch₃ ▸ hdone.fresh⟩, ?_⟩
    obtain ⟨g₃, hk₃, -⟩ := Node.rule_of_fixture hf₃ hk₂
    obtain ⟨m, hm, ⟨hne, -⟩ | ⟨-, -, hgroup⟩⟩ := node?_modifyGroup hn₃
    · exact absurd rfl hne
    · obtain ⟨g₀, -, rfl⟩ := hgroup g₃ hk₃
      exact ⟨_, hk₃, fun hr => hr ▸ rfl⟩

/-- Of an unbound group the phase is known when it works its count out, and it keeps it. -/
theorem initBody_tidies (hvisit : ∀ x, Preserves (Tidies X) (Tidies X) (run (.visit x)))
    (hinit : ∀ x, Preserves (Tidies X) (Tidies X) (run (.init x))) (hwf : t.WellFormed) (h : t.Tidy X)
    (hid : ∀ {n g}, t.node? id = some n → n.kind = .repeated g → g.phase = .initializing) :
    wp (initBody run id) (fun _ t' => Evolves (fun _ => True) t t' ∧ t'.Tidy X) t := by
  have hrest : ∀ {t₁} count, Evolves (fun _ => True) t t₁ → t₁.Tidy X →
      (∀ {n g}, t₁.node? id = some n → n.kind = .repeated g → g.rule.isBound = false →
        g.phase = .ready ∧ ¬ X id ∨ g.phase = .initializing) →
      wp (do
        replaceElementsWith (fun id => run (.visit id)) id count
        linkElementsWith (fun id => run (.init id)) id)
        (fun _ t' => Evolves (fun _ => True) t t' ∧ t'.Tidy X) t₁ := by
    intro t₁ count hev h₁ hid₁
    rw [wp.bind]
    refine (replaceElements_tidies hvisit (hev.wellFormed hwf) h₁ hid₁ count).mono fun r t₂ h₂ => ?_
    have hev₂ := hev.trans h₂.1
    cases r with
    | error e => exact ⟨hev₂, h₂.2⟩
    | ok _ =>
      refine (linkElements_tidies hinit id t₂).mono fun r t₃ h₃ => ?_
      have h₃ := h₃.rel (hev₂.wellFormed hwf) h₂.2
      exact ⟨hev₂.trans h₃.1, h₃.2⟩
  unfold initBody
  rw [wp.bind]
  cases hg : t.group id with
  | error e => exact (wp.look_error hg).mpr ⟨.refl _ t, h⟩
  | ok g =>
    obtain ⟨n, hn, hk⟩ := group_eq_ok.mp hg
    cases hunbound : g.rule.isBound with
    | false =>
      rw [wp_countByRule_unbound hn hk hunbound, provisionalCount_eq hwf hn hk]
      exact hrest _ (.refl _ t) h fun hn' hk' _ => .inr (hid hn' hk')
    | true =>
      refine (countByRule_tidies hinit id t).mono fun r t₁ hcount => ?_
      have h₁ := hcount.rel hwf h
      clear hcount
      cases r with
      | error e => exact h₁
      | ok count =>
        refine hrest count h₁.1 h₁.2 fun {n' g'} hn' hk' hfree => ?_
        obtain ⟨g₁, hk₁, hrule⟩ := Node.rule_of_fixture ((h₁.1.grows hwf).fixture hn hn') hk
        rw [hk'] at hk₁
        cases hk₁
        rw [hrule, hunbound] at hfree
        cases hfree

theorem initStep_tidies (hvisit : ∀ x, Preserves (Tidies X) (Tidies X) (run (.visit x)))
    (hinit : ∀ x, Preserves (Tidies X) (Tidies X) (run (.init x)))
    (hconfines : ∀ id t₁, t₁.Held id → ∀ x, Confines (· ≠ id) (fun _ => True) t₁ (run (.visit x)))
    (hevolves : ∀ x, Preserves (Evolves fun _ => True) (Evolves fun _ => True) (run (.visit x)))
    (id : NodeId) : Preserves (Tidies X) (Tidies X) (initStep run id) := by
  refine Tidies.preserves fun t hwf h => wp_initStep (fun _ _ => ⟨.refl _ t, h⟩) fun n hn => ?_
  have hev : Evolves (fun _ => True) t (t.modifyGroup id ({ · with phase := .initializing })) :=
    .of_modifyGroup fun _ => rfl
  have hwf₁ := hev.wellFormed hwf
  have h₁ : (t.modifyGroup id ({ · with phase := .initializing })).Tidy X := h.setPhase hwf nofun nofun nofun
  have halike : t.Alike (t.modifyGroup id ({ · with phase := .initializing })) := .of_modifyGroup fun _ => rfl
  obtain ⟨n₁, hn₁, hf, -⟩ := halike.node? hn
  have hbusy : ∀ {n' g'}, (t.modifyGroup id ({ · with phase := .initializing })).node? id = some n' →
      n'.kind = .repeated g' → g'.phase = .initializing := by
    intro n' g' hn' hk'
    obtain ⟨m, -, ⟨hne, -⟩ | ⟨-, -, hgroup⟩⟩ := node?_modifyGroup hn'
    · exact absurd rfl hne
    · obtain ⟨g, -, rfl⟩ := hgroup g' hk'
      rfl
  have hbody := initBody_tidies hvisit hinit hwf₁ h₁ hbusy
  have hcount : wp (initBody run id) (fun _ t₂ => ∀ g₁, n₁.kind = .repeated g₁ → g₁.rule.isBound = false →
      ∀ n₂, t₂.node? id = some n₂ → n₂.children.length =
        (t.modifyGroup id ({ · with phase := .initializing })).provision id)
      (t.modifyGroup id ({ · with phase := .initializing })) := by
    by_cases hfree : ∃ g₁, n₁.kind = .repeated g₁ ∧ g₁.rule.isBound = false
    · obtain ⟨g₁, hk₁, hunbound⟩ := hfree
      obtain ⟨g, hk, hrule⟩ := Node.rule_of_fixture hf.symm hk₁
      have hheld := h.held hwf hn hk (hrule ▸ hunbound)
      refine (initBody_unbound hheld hn₁ hk₁ hunbound (hconfines id) hevolves).mono ?_
      exact fun _ t₂ h₂ _ _ _ n₂ hn₂ => (h₂ n₂ hn₂).1.length
    · exact hbody.mono fun _ _ _ g₁ hk₁ hunbound => absurd ⟨g₁, hk₁, hunbound⟩ hfree
  refine (hbody.and hcount).mono fun r t₂ h₂ => ?_
  obtain ⟨⟨hev₂, h₂⟩, hlength⟩ := h₂
  have hwf₂ := hev₂.wellFormed hwf₁
  refine ⟨fun _ _ => ⟨hev.trans hev₂, h₂⟩, fun n' _ => ?_⟩
  refine ⟨(hev.trans hev₂).trans (.of_modifyGroup fun _ => rfl), ?_⟩
  have hruled : ∀ {n₂ g₂}, t₂.node? id = some n₂ → n₂.kind = .repeated g₂ → g₂.rule.isBound = false →
      t₂.provisionalCount id = .ok n₂.children.length := by
    intro n₂ g₂ hn₂ hk₂ hunbound
    obtain ⟨g₁, hk₁, hrule⟩ := Node.rule_of_fixture ((hev₂.grows hwf₁).fixture hn₁ hn₂).symm hk₂
    rw [(hev₂.grows hwf₁).provisionalCount hwf₁ hwf₂ hn₁ hn₂ hk₁,
      provisionalCount_eq hwf₁ hn₁ hk₁, hlength g₁ hk₁ (hrule ▸ hunbound) n₂ hn₂]
  exact h₂.setPhase hwf₂ (by cases r <;> nofun) (fun _ _ _ hn hk hunbound => .inr (hruled hn hk hunbound))
    fun _ => hruled

end

theorem runTask_tidies (depth : Nat) : (∀ x, Preserves (Tidies X) (Tidies X) (runTask depth (.visit x))) ∧
    ∀ x, Preserves (Tidies X) (Tidies X) (runTask depth (.init x)) := by
  induction depth with
  | zero => exact ⟨fun _ => .throw, fun _ => .throw⟩
  | succ depth ih =>
    obtain ⟨hvisit, hinit⟩ := ih
    have laws := groupLaws_evolves .any
    refine ⟨fun x => GroupLaws.visitStep (GroupLaws.touchWith hinit x) hvisit, ?_⟩
    exact initStep_tidies hvisit hinit (fun _ _ hheld => (runTask_confined hheld.realm depth).1)
      fun x => laws.runTask depth (.visit x)

theorem visit_tidies (x : NodeId) : Preserves (Tidies X) (Tidies X) (perform (.visit x)) :=
  .bind .get fun _ => (runTask_tidies _).1 x

theorem init_tidies (id : NodeId) : Preserves (Tidies X) (Tidies X) (init id) :=
  .bind .get fun _ => (runTask_tidies _).2 id

theorem touch_tidies (id : NodeId) : Preserves (Tidies X) (Tidies X) (touch id) :=
  GroupLaws.touchWith init_tidies id

theorem count_tidies (id : NodeId) : Preserves (Tidies X) (Tidies X) (Tree.count id) :=
  GroupLaws.countWith init_tidies id

/-- A group that is touched is initialized unless it is ready or on the way. -/
theorem touch_unbound (h : t.Tidy X) (hwf : t.WellFormed) (hn : t.node? id = some n)
    (hk : n.kind = .repeated g) (hunbound : g.rule.isBound = false) :
    wp (touch id) (fun r t' => r = .ok () → t' = t ∧ (g.phase = .ready ∨ g.phase = .initializing) ∨
      g.phase = .uninit ∧ ∃ n' g', t'.node? id = some n' ∧ n'.kind = .repeated g' ∧ g'.phase = .ready ∧
        t.Refilled n (t.provision id) n') t := by
  have hinit : wp (init id) (fun r t' => (r = .ok () → ∃ n', t'.node? id = some n') ∧
      ∀ n', t'.node? id = some n' → t.Refilled n (t.provision id) n' ∧
        ∃ g', n'.kind = .repeated g' ∧ (r = .ok () → g'.phase = .ready)) t := by
    have hdepth : 0 < nestingReserve + 2 * t.weight := Nat.lt_of_lt_of_le (by decide) (Nat.le_add_right _ _)
    obtain ⟨depth, hdepth⟩ := Nat.exists_eq_add_one_of_ne_zero (Nat.ne_of_gt hdepth)
    have laws := groupLaws_evolves .any
    unfold init perform
    rw [wp.bind, wp.get]
    dsimp only
    rw [hdepth]
    exact initStep_unbound h hwf hn hk hunbound (fun _ hheld => (runTask_confined hheld.realm depth).1)
      fun x => laws.runTask depth (.visit x)
  unfold touch touchWith
  rw [wp.look_ok (group_eq_ok.mpr ⟨n, hn, hk⟩)]
  cases hphase : g.phase with
  | stale => exact absurd hphase (h.unbound hn hk hunbound).1
  | uninit =>
    refine hinit.mono fun r t' h' hok => ?_
    obtain ⟨n', hn'⟩ := h'.1 hok
    obtain ⟨hrefilled, g', hk', hready⟩ := h'.2 n' hn'
    exact .inr ⟨rfl, n', g', hn', hk', hready hok, hrefilled⟩
  | initializing => exact fun _ => .inl ⟨rfl, .inr rfl⟩
  | ready => exact fun _ => .inl ⟨rfl, .inl rfl⟩

theorem resize_tidies (hX : ¬ X id) (count : Nat) : Preserves (Tidies X) (Tidies X) (resize id count) := by
  refine Tidies.preserves fun t hwf h => ?_
  have htouched : wp (touch id) (fun r t' => r = .ok () → ∀ {n g}, t'.node? id = some n →
      n.kind = .repeated g → g.rule.isBound = false → g.phase = .ready ∨ g.phase = .initializing) t := by
    cases hg : t.group id with
    | error e =>
      unfold touch touchWith
      exact (wp.look_error hg).mpr fun hok => absurd hok error_ne_ok
    | ok g =>
      obtain ⟨n, hn, hk⟩ := group_eq_ok.mp hg
      cases hunbound : g.rule.isBound with
      | false =>
        refine (touch_unbound h hwf hn hk hunbound).mono fun r t' h' hok n' g' hn' hk' _ => ?_
        rcases h' hok with ⟨rfl, hphase⟩ | ⟨-, n₁, g₁, hn₁, hk₁, hready, -⟩
        · rw [hn] at hn'
          cases hn'
          rw [hk] at hk'
          cases hk'
          exact hphase
        · rw [hn'] at hn₁
          cases hn₁
          rw [hk'] at hk₁
          cases hk₁
          exact .inl hready
      | true =>
        refine (touch_tidies (X := X) id t).mono fun r t' htouch _ n' g' hn' hk' hfree => ?_
        obtain ⟨hev, -⟩ := htouch.rel hwf h
        obtain ⟨g₁, hk₁, hrule⟩ := Node.rule_of_fixture ((hev.grows hwf).fixture hn hn') hk
        rw [hk'] at hk₁
        cases hk₁
        rw [hrule, hunbound] at hfree
        cases hfree
  unfold resize
  rw [wp.bind]
  refine (htouched.and (touch_tidies (X := X) id t)).mono fun r t₁ h₁ => ?_
  obtain ⟨hphase, htouch⟩ := h₁
  obtain ⟨hev, h₁⟩ := htouch.rel hwf h
  clear htouch
  cases r with
  | error e => exact ⟨hev, h₁⟩
  | ok _ =>
    dsimp only
    rw [wp.bind]
    have hid : ∀ {n g}, t₁.node? id = some n → n.kind = .repeated g → g.rule.isBound = false →
        g.phase = .ready ∧ ¬ X id ∨ g.phase = .initializing := fun hn hk hunbound =>
      (hphase rfl hn hk hunbound).imp_left fun h => ⟨h, hX⟩
    refine (replaceElements_tidies visit_tidies (hev.wellFormed hwf) h₁ hid count).mono fun r t₂ h₂ => ?_
    have hev₂ := hev.trans h₂.1
    cases r with
    | error e => exact ⟨hev₂, h₂.2⟩
    | ok _ =>
      refine (linkElements_tidies (X := X) init_tidies id t₂).mono fun r t₃ hlink => ?_
      have h₃ := hlink.rel (hev₂.wellFormed hwf) h₂.2
      exact ⟨hev₂.trans h₃.1, h₃.2⟩

theorem build_tidy {τ : Template} {seed : UInt64} (hbuild : build τ seed = .ok t) : t.Tidy X := by
  obtain ⟨t₀, hwf, -, hnew, -, hrun⟩ := exists_start τ seed
  have htidy : t₀.Tidy X := by
    refine ⟨?_, fun hn hk _ => ?_, fun hn hk _ hready => ?_⟩
    · rintro w x ⟨n, g, hn, hk, hw⟩
      rw [((hnew hn).group hk).2] at hw
      cases hw
    · refine ⟨by simp [((hnew hn).group hk).1], fun _ => .inl ((hnew hn).empty ?_)⟩
      exact NodeKind.isRepeated_iff.mpr ⟨_, hk⟩
    · rw [((hnew hn).group hk).1] at hready
      cases hready
  exact (((visit_tidies t₀.root t₀).of_run ((hrun t).mp hbuild)).rel hwf htidy).2

/-- A tidy tree stays tidy as long as no group of `X` is resized. -/
theorem Reaches.keeps_tidy {allowed : Tree → Call → Prop}
    (hallowed : ∀ t id n, allowed t (.resize id n) → ¬ X id) (hwf : t.WellFormed) (h : Reaches allowed t t')
    (ht : t.Tidy X) : t'.Tidy X := by
  have hkeep : ∀ {α : Type} {act : TreeM α}, Preserves (Tidies X) (Tidies X) act → ∀ t,
      t.WellFormed ∧ t.Tidy X → (act.run t).2.WellFormed ∧ (act.run t).2.Tidy X := by
    intro α act hact t ht
    obtain ⟨hev, h⟩ := hact.run t ht.1 ht.2
    exact ⟨hev.wellFormed ht.1, h⟩
  have hshallow : Shallow fun t => t.WellFormed ∧ t.Tidy X := fun t t' hlevel ht =>
    ⟨hlevel.evolves.wellFormed ht.1, ht.2.of_level ht.1 hlevel⟩
  exact (hshallow.reaches (fun t id => hkeep (touch_tidies id) t) (fun t id => hkeep (count_tidies id) t)
    (fun t id n hresize => hkeep (resize_tidies (hallowed t id n hresize) n) t) h ⟨hwf, ht⟩).2

/-- Every state is tidy: only bound groups are watchers, and an unbound group is ready, or has the elements of its
rule or none. -/
theorem Reaches.tidy {allowed : Tree → Call → Prop} {τ : Template} {seed : UInt64} {t₀ : Tree}
    (hbuild : build τ seed = .ok t₀) (h : Reaches allowed t₀ t) : t.Tidy fun _ => False := by
  have hstart : Reaches allowed t₀ t₀ := .refl t₀
  exact h.keeps_tidy (fun _ _ _ _ => not_false) (hstart.wellFormed hbuild) (build_tidy hbuild)

end Tree

end FormatFuzz
