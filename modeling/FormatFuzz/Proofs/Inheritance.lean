-- SUMMARY: Groups inherit the counts that they stem from, whatever is initialized on the way.
import FormatFuzz.Proofs.Provenance

/-!
# Inheritance

Initializations ask each other for counts to any depth. While one is on its way, others are begun in the groups that
its rule and its elements lead to. Whatever order this comes in, a group that is initialized gets the count that it
stems from (`Tree.Inherits`): the group that it follows can only be one that answers with this count, since it is
not on its way itself, or follows no other one and answers with its own count.

The steps of an initialization are taken one by one: the path to the group that is followed, its count, the new
elements, the visits to these, and the bindings of their fields. Each of them leaves alone what keeps its count
(`Tree.Heeds`), and the induction on the depth puts them together (`Tree.runTask_proceeds`).
-/

namespace FormatFuzz

open TreeM
open Relation (ReflTransGen TransGen)

namespace Tree

variable {τ : Template} {t t' t₁ t₂ : Tree} {id w x y s : NodeId} {n : Node} {g : Group} {p q r z : Position}
  {phase : Phase} {c count min max : Nat} {path : String} {fields : List (String × String)}
  {init visit : NodeId → TreeM Unit}

-- ---------------------------------------------------------------------------
-- Touching groups
-- ---------------------------------------------------------------------------

/-- Initializing a group that may be initialized keeps the counts that others stem from. -/
def Inherits (τ : Template) (init : NodeId → TreeM Unit) : Prop :=
  ∀ ⦃t : Tree⦄ ⦃q y⦄, t.Ripe τ q → t.placed q = some y → t.Pending y → ¬ t.Busy y →
    wp (init y) (fun r t' => Proceeds τ Nowhere (· = y) t r t' ∧ (r = .ok () → t'.Served y)) t

theorem touchWith_proceeds (hinit : Inherits τ init) (h : t.Ripe τ q) (hq : t.placed q = some y) :
    wp (touchWith init y)
      (fun r t' => Proceeds τ Nowhere (· = y) t r t' ∧ (r = .ok () → t'.isLive y = true)) t := by
  unfold touchWith
  cases hg : t.group y with
  | error e => exact (wp.look_error hg).mpr ⟨.of_error h.toStemmed, fun h => absurd h error_ne_ok⟩
  | ok g =>
    obtain ⟨n, hn, hk⟩ := group_eq_ok.mp hg
    have hstates := states_of_node? hn hk
    rw [wp.look_ok hg]
    have hidle : g.phase ≠ .uninit → Proceeds τ Nowhere (· = y) t (.ok () : Except TreeError Unit) t ∧
        ((Except.ok () : Except TreeError Unit) = .ok () → t.isLive y = true) := by
      refine fun hphase => ⟨⟨h.toStemmed, .refl .., fun _ _ => ⟨fun hy => ⟨hy, ?_⟩, fun h => h⟩⟩,
        fun _ => live_of_states hstates⟩
      rintro rfl
      exact not_blank hstates hphase hy
    have hrun : g.phase ≠ .ready → g.phase ≠ .initializing → wp (init y)
        (fun r t' => Proceeds τ Nowhere (· = y) t r t' ∧ (r = .ok () → t'.isLive y = true)) t := by
      intro hready hbusy
      refine (hinit h hq ⟨n, g, hn, hk, hready⟩ (not_busy hstates hbusy)).mono fun r t' h' => ?_
      exact ⟨h'.1, fun hr => (h'.2 hr).live⟩
    cases hphase : g.phase with
    | uninit => exact hrun (by simp [hphase]) (by simp [hphase])
    | stale => exact hrun (by simp [hphase]) (by simp [hphase])
    | initializing => exact hidle (by simp [hphase])
    | ready => exact hidle (by simp [hphase])

/-- The group keeps the count `c`. -/
def Retains (τ : Template) (t : Tree) (x : NodeId) (c : Nat) : Prop :=
  t.Pinned τ x ∧ ∃ phase, t.states x = some (phase, c)

theorem countWith_proceeds (hinit : Inherits τ init) (h : t.Ripe τ q) (hq : t.placed q = some y) :
    wp (countWith init y) (fun r t' => Proceeds τ Nowhere Nowhere t r t' ∧ ∀ c, r = .ok c →
      ∀ z, τ.Stems q z → (t.Busy y → τ.IsOrigin q) →
        c = τ.ownCount t.seed z ∧ t'.placed q = some y ∧ t'.Retains τ y c) t := by
  unfold countWith
  cases hg : t.group y with
  | error e => exact (wp.look_error hg).mpr ⟨.of_error h.toStemmed, fun _ h => absurd h error_ne_ok⟩
  | ok g =>
    obtain ⟨n, hn, hk⟩ := group_eq_ok.mp hg
    have hstates := states_of_node? hn hk
    have hwf := h.wellFormed
    rw [wp.look_ok hg]
    -- A group that has its elements has as many as the group that it stems from.
    have hcounted : ∀ {t' : Tree} {c}, t'.Stemmed τ → t'.seed = t.seed → t'.placed q = some y →
        t'.states y = some (.ready, c) → ∀ z, τ.Stems q z →
          c = τ.ownCount t.seed z ∧ t'.placed q = some y ∧ t'.Retains τ y c := by
      intro t' c h' hseed hq' hc z hstems
      refine ⟨hseed ▸ h'.ready hstems hq' hc, hq', .inr ⟨served_iff.mpr ⟨c, hc⟩, q, z, hq', hstems⟩, _, hc⟩
    have hrun : g.phase ≠ .ready → g.phase ≠ .initializing → wp (do
        init y
        return (← TreeM.look (·.children y)).length : TreeM Nat) (fun r t' => Proceeds τ Nowhere Nowhere t r t' ∧
          ∀ c, r = .ok c → ∀ z, τ.Stems q z → (t.Busy y → τ.IsOrigin q) →
            c = τ.ownCount t.seed z ∧ t'.placed q = some y ∧ t'.Retains τ y c) t := by
      intro hready hbusy
      rw [wp.bind]
      refine (hinit h hq ⟨n, g, hn, hk, hready⟩ (not_busy hstates hbusy)).mono ?_
      rintro (e | _) t' ⟨hproceeds, hserved⟩
      · exact ⟨hproceeds.fail, fun _ h => absurd h error_ne_ok⟩
      · obtain ⟨c, hc⟩ := served_iff.mp (hserved rfl)
        obtain ⟨n', g', hn', -, -, rfl⟩ := states_eq_some.mp hc
        simp only [wp.bind, wp.look, children, look_of_node? hn', wp.pure]
        refine ⟨hproceeds.done, ?_⟩
        rintro _ ⟨⟩ z hstems -
        exact hcounted hproceeds.stemmed (hproceeds.heeds.seed hwf)
          (hproceeds.heeds.placed hwf hq (live_of_states hc)) hc z hstems
    cases hphase : g.phase with
    | uninit => exact hrun (by simp [hphase]) (by simp [hphase])
    | stale => exact hrun (by simp [hphase]) (by simp [hphase])
    | ready =>
      rw [hphase] at hstates
      simp only [wp.bind, wp.look, children, look_of_node? hn, wp.pure]
      refine ⟨.refl h.toStemmed, ?_⟩
      rintro _ ⟨⟩ z hstems -
      exact hcounted h.toStemmed rfl hq hstates z hstems
    | initializing =>
      rw [hphase] at hstates
      rw [wp.look, provisionalCount_placed hwf h.models hq hn hk]
      refine ⟨.refl h.toStemmed, ?_⟩
      rintro _ ⟨⟩ z hstems horigin
      have hbusy : t.Busy y := busy_iff.mpr ⟨_, hstates⟩
      cases hstems.eq_of_isOrigin (horigin hbusy)
      refine ⟨rfl, hq, .inl hbusy, .initializing, ?_⟩
      rw [← h.stocked not_false hq (horigin hbusy) hstates]
      exact hstates

-- ---------------------------------------------------------------------------
-- Following paths
-- ---------------------------------------------------------------------------

/-- What touches a group on the way of another one is done while that one is on its way. -/
theorem Ripe.pathRules (hinit : Inherits τ init) (h : t.Ripe τ p) :
    PathRules (fun _ => True) τ init (τ.Touches p)
      (fun t' _ => t'.Ripe τ p ∧ Proceeds τ Nowhere Nowhere t (.ok () : Except TreeError Unit) t')
      (fun t' => Proceeds τ Nowhere Nowhere t (.error .nestingLimit : Except TreeError Unit) t') where
  wellFormed := fun h => h.1.wellFormed
  models := fun h => h.1.models
  fail := fun h => h.2.fail
  climb := fun h _ => h
  descend := fun h _ => h
  touch := by
    rintro s q y ⟨hs, hproceeds⟩ htouches hq -
    refine (touchWith_proceeds hinit (hs.touch htouches) hq).mono ?_
    rintro r s' ⟨h', hlive⟩
    refine ⟨?_, ?_⟩
    · rintro rfl
      have hs' : s'.Ripe τ p := hs.heeds h'.heeds h'.stemmed
      have hall : Proceeds τ Nowhere Nowhere t (.ok () : Except TreeError Unit) s' :=
        hproceeds.seq h.wellFormed h'.done
      exact ⟨⟨hs', hall⟩, h'.heeds.placed hs.wellFormed hq (hlive rfl), fun _ => ⟨hs', hall⟩⟩
    · rintro e rfl
      exact (hproceeds.trans h.wellFormed h').fail

/-- The group that a group follows is where the template says. -/
theorem sourceWith_proceeds (hinit : Inherits τ init) (h : t.Ripe τ p) (hp : t.placed p = some x)
    (hrule : τ.ruleAt p = some (.bound path fields min max)) :
    wp (sourceWith init x path) (fun r t' => Proceeds τ Nowhere Nowhere t r t' ∧ ∀ s, r = .ok s →
      ∃ q, τ.source p = some q ∧ t'.placed q = some s) t := by
  have hstart : t.Ripe τ p ∧ Proceeds τ Nowhere Nowhere t (.ok () : Except TreeError Unit) t := ⟨h, .refl h.toStemmed⟩
  refine ((h.pathRules hinit).sourceWith h.wellFormed h.models hp (fun _ htouched => .way hrule htouched) hstart
    hstart).mono ?_
  rintro (e | source) t' ⟨hok, herror⟩
  · exact ⟨(herror e rfl).fail, fun _ h => absurd h error_ne_ok⟩
  · obtain ⟨q, hq, hplace, -, hproceeds⟩ := hok source rfl
    refine ⟨hproceeds.done, ?_⟩
    rintro s ⟨⟩
    exact ⟨q, (Template.source_of_rule hrule).trans hq, hplace⟩

-- ---------------------------------------------------------------------------
-- Counts
-- ---------------------------------------------------------------------------

/-- A group that is on its way is entered as a watcher of the one that it follows. -/
theorem Ripe.watch (h : t.Ripe τ p) (hid : id.index < t.nodes.size) (hbusy : t.isLive id = true → t.Busy id)
    (hsource : ∀ p, t.placed p = some id → ∃ q, τ.source p = some q ∧ t.placed q = some s) :
    let t' := t.modifyGroup s fun group => { group with watchers := NodeId.insertInto id group.watchers }
    t'.Ripe τ p ∧ Proceeds τ (· = id) Nowhere t (.ok () : Except TreeError Unit) t' := by
  intro t'
  have hsame : t'.states = t.states := states_watch id
  have halike : t.Alike t' := .of_modifyGroup fun _ => rfl
  have hserved : ¬ t.Served id := fun hserved => by
    obtain ⟨c, hc⟩ := served_iff.mp hserved
    exact not_busy hc nofun (hbusy hserved.live)
  have hstemmed : t'.Stemmed τ := h.toStemmed.watch hid hserved hsource
  refine ⟨⟨hstemmed, fun b q hq hb => ?led, fun b q c _ hq horigin hb => ?stocked⟩, hstemmed, ?heeds,
    fun _ _ => ⟨fun hy => ⟨?blank, not_false⟩, fun hprompt => ⟨fun {w y} hw => ?watchers, fun {p z x c} hstems hp => ?stale⟩⟩⟩
  case led =>
    rw [halike.placed] at hq
    rw [busy_iff, hsame, ← busy_iff] at hb
    exact h.led hq hb
  case stocked =>
    rw [halike.placed] at hq
    rw [hsame] at hb
    rw [halike.seed]
    exact h.stocked not_false hq horigin hb
  case heeds =>
    refine ⟨.of_alike halike fun _ _ _ _ _ _ => trivial, fun hx => ?_, fun hx _ => ?_, fun _ _ _ => by rw [hsame],
      fun hw _ _ hwatches => ?_⟩
    · rwa [busy_iff, hsame, ← busy_iff] at hx
    · rwa [busy_iff, hsame, ← busy_iff]
    · exact (watches_watch.mp hwatches).resolve_right fun hnew => hw hnew.1
  case blank =>
    obtain ⟨c, hc⟩ := hy
    exact ⟨c, hsame ▸ hc⟩
  case watchers =>
    rintro ⟨c, hc⟩
    rw [hsame] at hc
    rcases watches_watch.mp hw with hw | ⟨rfl, -, -⟩
    · exact hprompt.watchers hw ⟨c, hc⟩
    · exact not_busy hc nofun (hbusy (live_of_states hc))
  case stale =>
    rw [halike.placed] at hp
    rw [hsame]
    exact hprompt.stale hstems hp

/-- A group that is on its way is told the count that it stems from, by the only group that it watches. -/
theorem countByRule_proceeds (hinit : Inherits τ init) (h : t.Ripe τ p) (hp : t.placed p = some x)
    (hbusy : t.Busy x) (hn : t.node? x = some n) (hk : n.kind = .repeated g)
    (hrule : g.rule = .bound path fields min max) :
    wp (countByRuleWith init x) (fun r t' => Proceeds τ (· = x) Nowhere t r t' ∧ ∀ c, r = .ok c →
      ∀ z, τ.Stems p z → c = τ.ownCount t.seed z ∧
        (t'.isLive x = true → ∀ y, t'.Watches x y → y ≠ x ∧ t'.Retains τ y c)) t := by
  have hwf := h.wellFormed
  have hruleAt : τ.ruleAt p = some (.bound path fields min max) := hrule ▸ h.models.ruleAt hp hn hk
  unfold countByRuleWith
  rw [wp.look_ok (group_eq_ok.mpr ⟨n, hn, hk⟩), hrule]
  dsimp only
  rw [wp.bind]
  refine (sourceWith_proceeds hinit h hp hruleAt).mono ?_
  rintro (e | source) t₁ ⟨h₁, hsource⟩
  · exact ⟨h₁.mono.fail, fun _ h => absurd h error_ne_ok⟩
  obtain ⟨q, hsource, hq⟩ := hsource source rfl
  have hripe₁ : t₁.Ripe τ p := h.heeds h₁.heeds h₁.stemmed
  have htouches : τ.Touches p q := .source hsource
  dsimp only
  rw [wp.bind, wp.modify]
  dsimp only
  obtain ⟨hripe₂, h₂⟩ := hripe₁.watch (s := source)
    ((lt_size hn).trans_le (h₁.heeds.evolves.grows hwf).size) (h₁.heeds.still hbusy) fun p' hp' => by
      cases placed_inj hwf hp (h₁.heeds.placed_back hwf hbusy.live hp')
      exact ⟨q, hsource, hq⟩
  have halike : t₁.Alike (t₁.modifyGroup source fun group =>
      { group with watchers := NodeId.insertInto x group.watchers }) := .of_modifyGroup fun _ => rfl
  have hq₂ := (halike.placed q).trans hq
  refine (countWith_proceeds hinit (hripe₂.touch htouches) hq₂).mono ?_
  intro r t₃ h₃
  obtain ⟨h₃, hcount⟩ := h₃
  have hto : Proceeds τ (· = x) Nowhere t r t₃ := (h₁.mono.seq hwf h₂).seq hwf h₃.mono
  refine ⟨hto, fun c hc z hstems => ?_⟩
  obtain ⟨hstems', hback⟩ := hstems.of_source hsource
  have hask : _ → τ.IsOrigin q := fun hbusy => by
    rcases Relation.reflTransGen_iff_eq_or_transGen.mp (hripe₂.led hq₂ hbusy) with heq | htrans
    · exact absurd heq.symm (hstems.source_ne hsource)
    · exact hback htrans
  obtain ⟨hown, hq₃, hretains⟩ := hcount c hc z hstems' hask
  refine ⟨hown.trans (by rw [h₂.heeds.seed hripe₁.wellFormed, h₁.heeds.seed hwf]), fun hlive y hy => ?_⟩
  have hp₃ := hto.heeds.placed hwf hp hlive
  obtain ⟨q', hsource', hy'⟩ := h₃.stemmed.heard hy hp₃
  cases hsource.symm.trans hsource'
  cases hq₃.symm.trans hy'
  refine ⟨?_, hretains⟩
  rintro rfl
  exact hstems.source_ne hsource (placed_inj h₃.stemmed.wellFormed hq₃ hp₃)

-- ---------------------------------------------------------------------------
-- Visits
-- ---------------------------------------------------------------------------

/-- The second node is the first one or below it. -/
def Spans (t : Tree) (x y : NodeId) : Prop := ∃ p r, t.placed p = some x ∧ t.placed (r ++ p) = some y

/-- Visiting a node at and below which groups may be initialized keeps the counts that others stem from. -/
def InheritsBelow (τ : Template) (visit : NodeId → TreeM Unit) : Prop :=
  ∀ ⦃t : Tree⦄ ⦃x⦄, t.Stemmed τ → (∀ ⦃p⦄, t.placed p = some x → ∀ r, t.Ripe τ (r ++ p)) →
    wp (visit x) (fun r t' => Proceeds τ Nowhere (t.Spans x) t r t' ∧ (r = .ok () → t.isLive x = true)) t

/-- The children of a node are visited one after the other. -/
theorem visitAll_proceeds (hvisit : InheritsBelow τ visit) (h : t.Stemmed τ)
    (hripe : ∀ r i, t.Ripe τ (r ++ i :: p)) (hp : t.placed p = some x) (hn : t.node? x = some n) :
    wp (forIn n.children PUnit.unit fun c _ => do
      visit c
      return .yield PUnit.unit : TreeM PUnit)
      (fun r t' => Proceeds τ Nowhere (fun y => ∃ r i, t.placed (r ++ i :: p) = some y) t r t') t := by
  have hwf := h.wellFormed
  refine wp.forIn (fun rest s => ∃ done, n.children = done ++ rest ∧ Proceeds τ Nowhere
      (fun y => ∃ r i, i < done.length ∧ t.placed (r ++ i :: p) = some y) t (.ok () : Except TreeError Unit) s)
    ⟨[], rfl, h, .refl .., fun _ _ => (Clears.refl τ t).mono fun _ ⟨_, _, hi, _⟩ => absurd hi (Nat.not_lt_zero _)⟩ ?_ ?_
  · rintro s ⟨done, hdone, hs⟩
    refine ⟨hs.stemmed, hs.heeds, fun _ _ => (hs.clears () rfl).mono ?_⟩
    rintro y - ⟨r, i, hy⟩
    obtain ⟨c, hc⟩ := placed_suffix hy
    obtain ⟨above, m, habove, hm, hi⟩ := placed_cons.mp hc
    cases habove.symm.trans hp
    cases hm.symm.trans hn
    rw [hdone, List.append_nil] at hi
    exact ⟨r, i, (List.getElem?_eq_some_iff.mp hi).1, hy⟩
  · rintro c rest s ⟨done, hdone, hs⟩
    have hc : t.placed (done.length :: p) = some c := placed_cons.mpr ⟨x, n, hp, hn, by simp [hdone]⟩
    obtain ⟨m, hm⟩ := live_of_placed hwf hc
    have hripe' : ∀ ⦃p'⦄, s.placed p' = some c → ∀ r, s.Ripe τ (r ++ p') := by
      intro p' hp' r
      cases placed_inj hwf hc (hs.heeds.placed_back hwf (isLive_iff_node?.mpr ⟨m, hm⟩) hp')
      exact (hripe r _).heeds hs.heeds hs.stemmed
    rw [wp.bind]
    refine (hvisit hs.stemmed hripe').mono ?_
    rintro (e | _) s' ⟨h', hlive⟩
    · exact (hs.trans hwf h').fail
    · have hall := hs.trans hwf h'
      refine ⟨done ++ [c], by rw [hdone, List.append_assoc]; rfl, hall.stemmed, hall.heeds,
        fun _ _ => (hall.clears () rfl).mono ?_⟩
      rintro y hblank ⟨r, i, hi, hy⟩
      rw [List.length_append, List.length_singleton] at hi
      rcases Nat.lt_succ_iff_lt_or_eq.mp hi with hi | rfl
      · exact .inl ⟨r, i, hi, hy⟩
      · obtain ⟨d, hd⟩ := (h'.clears () rfl).blank hblank |>.1
        exact .inr ⟨_, r, hs.heeds.placed hwf hc (hlive rfl), hs.heeds.placed hwf hy (live_of_states hd)⟩

-- ---------------------------------------------------------------------------
-- Elements
-- ---------------------------------------------------------------------------

/-- The group at a position is on its way, and may be given its elements. -/
structure Fillable (τ : Template) (x : NodeId) (p : Position) (t : Tree) : Prop extends t.Stemmed τ where
  led : t.Led τ p
  stocked : t.Stocked τ (· = x)
  place : t.placed p = some x
  busy : t.Busy x

/-- A group on its way has so many elements, and watches no more groups than it did. -/
structure Filled (x : NodeId) (count : Nat) (t t' : Tree) : Prop where
  states : t'.isLive x = true → t'.states x = some (.initializing, count)
  watches : ∀ {y}, t'.isLive x = true → t'.Watches x y → t.Watches x y

/-- A group on its way gets the elements that it stems from; groups in these are initialized meanwhile. -/
theorem replaceElements_proceeds (hvisit : InheritsBelow τ visit) (h : t.Fillable τ x p)
    (hcount : ∀ z, τ.Stems p z → count = τ.ownCount t.seed z) :
    wp (replaceElementsWith visit x count)
      (fun r t' => Proceeds τ (· = x) Nowhere t r t' ∧ Filled x count t t') t := by
  have hwf := h.wellFormed
  have hp := h.place
  obtain ⟨n, g, hn, hk, hphase⟩ := h.busy
  have hself := states_of_node? hn hk
  rw [hphase] at hself
  unfold replaceElementsWith
  simp only [wp.bind, wp.look, children, look_of_node? hn]
  split
  · rename_i hsame
    exact ⟨.refl h.toStemmed, fun _ => hsame ▸ hself, fun _ h => h⟩
  rename_i hne
  simp only [wp.bind, wp.look, group_eq_ok.mpr ⟨n, hn, hk⟩]
  refine (swapElements_spec (C := fun _ => True) (fun _ => trivial) hwf hn g.element count).mono ?_
  rintro _ t₂ ⟨elements, rfl, rfl, hswap⟩
  have hheeds₂ : Heeds τ (· = x) t t₂ := hswap.heeds hn hk rfl
  have hstemmed₂ : t₂.Stemmed τ := h.toStemmed.swapped hswap hn hk rfl hphase hp hcount hne
  have hwf₂ := hstemmed₂.wellFormed
  obtain ⟨n₂, hn₂, hkind₂, hch₂⟩ := hswap.exchanged hn
  have hp₂ := hheeds₂.placed hwf hp (isLive_iff_node?.mpr ⟨n₂, hn₂⟩)
  have hself₂ := hswap.states_self hself
  have hstocked₂ : t₂.Stocked τ Nowhere := by
    intro b q c _ hq horigin hb
    by_cases hbx : b = x
    · subst hbx
      cases placed_inj hwf₂ hp₂ hq
      cases hself₂.symm.trans hb
      rw [hswap.seed]
      exact hcount _ (.origin horigin)
    · exact hheeds₂.stocked hwf h.stocked hbx hq horigin hb
  -- No group on its way is in the new elements, and the old ones are gone.
  have hled₂ : ∀ r i, t₂.Led τ (r ++ i :: p) := by
    refine fun r i b q hb hbusy => (hheeds₂.led hwf h.led hb hbusy).tail (.element (h.models.ruleAt hp hn hk) ?_ r i)
    rintro j ⟨s, rfl⟩
    exact absurd (hswap.busy_cases hbusy).1 (Nat.not_lt.mpr (hswap.fresh_below hwf₂ hp₂ hb))
  have hripe₂ : ∀ r i, t₂.Ripe τ (r ++ i :: p) := fun r i => ⟨hstemmed₂, hled₂ r i, hstocked₂⟩
  have hloop := visitAll_proceeds hvisit hstemmed₂ hripe₂ hp₂ hn₂
  rw [hch₂] at hloop
  refine hloop.mono ?_
  intro r t₃ h₃
  -- The new groups have been visited, and the others are as they were.
  have hto : Proceeds τ (· = x) Nowhere t r t₃ := by
    refine ⟨h₃.stemmed, hheeds₂.trans hwf h₃.heeds.mono, fun a ha => ⟨fun {y} hy => ⟨?_, not_false⟩, fun hprompt => ?_⟩⟩
    · obtain ⟨⟨c, hc⟩, hnew⟩ := (h₃.clears a ha).blank hy
      rcases hswap.states_cases hc with rfl | ⟨-, hold⟩ | ⟨hge, -⟩
      · cases hself₂.symm.trans hc
      · exact ⟨c, hold⟩
      · obtain ⟨m, hm⟩ := isLive_iff_node?.mp (live_of_states hc)
        obtain ⟨r, i, hr⟩ := hswap.placed_fresh hp₂ hge hm
        exact absurd ⟨r, i, hr⟩ hnew
    · exact (h₃.clears a ha).prompt (hprompt.swapped hswap h.toStemmed hn hk rfl hphase)
  have hbusy₂ : t₂.Busy x := busy_iff.mpr ⟨_, hself₂⟩
  have hfilled : Filled x elements.length t t₃ :=
    ⟨fun hlive => (h₃.heeds.kept not_false (.inl hbusy₂) hlive).trans hself₂,
      fun hlive hw => hswap.watches_old (h₃.heeds.unheard not_false hbusy₂ hlive hw)⟩
  cases r with
  | error e => exact ⟨hto.fail, hfilled⟩
  | ok _ =>
    simp only [wp.modify]
    have hlevel : t₃.Level (t₃.invalidate x) := Like.of_invalidate.level
    refine (notify_alerts g.watchers (h₃.stemmed.of_level hlevel)).mono ?_
    rintro _ t₅ ⟨rfl, hstemmed₅, halerts⟩
    have hto₄ : Proceeds τ (· = x) Nowhere t (.ok PUnit.unit : Except TreeError PUnit) (t₃.invalidate x) :=
      hto.seq hwf (.of_level h₃.stemmed hlevel)
    have hto₅ := hto₄.alerts h.toStemmed halerts hstemmed₅ (fun w hw => (watches_iff hn hk).mpr hw)
      fun hw hserved hq hstems => by
        obtain ⟨hstems', heq⟩ := h.count_of_watched hw hserved hq hstems hp hself
        exact hne (heq.trans (hcount _ hstems').symm)
    have hlive₃ : t₅.isLive x = true → t₃.isLive x = true := fun hlive =>
      hlevel.alike.live ▸ halerts.alike.live ▸ hlive
    refine ⟨hto₅.done, fun hlive => ?_, fun hlive hw => ?_⟩
    · rcases halerts.states x with hsame | ⟨-, d, hready, -⟩
      · rw [hsame, hlevel.states]
        exact hfilled.states (hlive₃ hlive)
      · rw [hlevel.states, hfilled.states (hlive₃ hlive)] at hready
        cases hready
    · exact hfilled.watches (hlive₃ hlive) ((hlevel.watches _ _).mp (halerts.watches.mp hw))

-- ---------------------------------------------------------------------------
-- Bindings
-- ---------------------------------------------------------------------------

/-- Bindings are made while their group is on its way. -/
theorem linkRules (hinit : Inherits τ init) (p : Position) : LinkRules τ init p (·.Ripe τ p)
    (fun s u => Proceeds τ Nowhere Nowhere s (.ok () : Except TreeError Unit) u)
    (fun s u => Proceeds τ Nowhere Nowhere s (.error .nestingLimit : Except TreeError Unit) u) where
  paths := fun h => h.pathRules hinit
  evolves := fun h => h.heeds.evolves
  refl := fun h => .refl h.toStemmed
  trans := fun h h' h'' => h'.seq h.wellFormed h''
  left := fun h h' h'' => h'.seq h.wellFormed h''
  bind := by
    intro s u source target i own field q r _ _ _ _ hu _ _ _ _ u'
    have hproceeds : Proceeds τ Nowhere Nowhere u (.ok () : Except TreeError Unit) u' :=
      .of_level hu.toStemmed (.trans .of_putCell Like.of_invalidate.level)
    exact ⟨hu.heeds hproceeds.heeds hproceeds.stemmed, hproceeds⟩

theorem linkElements_proceeds (hinit : Inherits τ init) (h : t.Ripe τ p) (hp : t.placed p = some x) :
    wp (linkElementsWith init x) (Proceeds τ Nowhere Nowhere t) t := by
  refine ((linkRules hinit p).linkElementsWith h hp).mono ?_
  rintro (e | _) t' h'
  · exact h'.fail
  · exact h'.2

-- ---------------------------------------------------------------------------
-- Initialization
-- ---------------------------------------------------------------------------

/-- The group has the count that it stems from, and so has what it watches. -/
def Endowed (τ : Template) (x : NodeId) (p : Position) (t : Tree) : Prop :=
  ∀ {z}, τ.Stems p z → ∀ {phase c}, t.states x = some (phase, c) → c = τ.ownCount t.seed z ∧
    ∀ {y}, t.Watches x y → ∃ phase, t.states y = some (phase, τ.ownCount t.seed z)

/-- A group on its way gets the elements that it stems from, and then the fields of these are bound. -/
theorem fill_proceeds (hinit : Inherits τ init) (hvisit : InheritsBelow τ visit) (h : t.Fillable τ x p)
    (hcount : ∀ z, τ.Stems p z → count = τ.ownCount t.seed z) :
    wp (do
      replaceElementsWith visit x count
      linkElementsWith init x : TreeM Unit)
      (fun r t' => Proceeds τ (· = x) Nowhere t r t' ∧ Filled x count t t') t := by
  have hwf := h.wellFormed
  rw [wp.bind]
  refine (replaceElements_proceeds hvisit h hcount).mono ?_
  rintro (e | _) t₁ ⟨h₁, hfilled⟩
  · exact ⟨h₁, hfilled⟩
  have hwf₁ := h₁.stemmed.wellFormed
  cases hg : t₁.group x with
  | error e =>
    unfold linkElementsWith
    exact (wp.look_error hg).mpr ⟨h₁.fail, hfilled⟩
  | ok g =>
    obtain ⟨n, hn, -⟩ := group_eq_ok.mp hg
    have hlive : t₁.isLive x = true := isLive_iff_node?.mpr ⟨n, hn⟩
    have hp₁ := h₁.heeds.placed hwf h.place hlive
    have hbusy₁ := h₁.heeds.still h.busy hlive
    have hripe : t₁.Ripe τ p := by
      refine ⟨h₁.stemmed, h₁.heeds.led hwf h.led, fun b q c _ hq horigin hb => ?_⟩
      by_cases hbx : b = x
      · subst hbx
        cases placed_inj hwf₁ hp₁ hq
        cases (hfilled.states hlive).symm.trans hb
        rw [h₁.heeds.seed hwf]
        exact hcount _ (.origin horigin)
      · exact h₁.heeds.stocked hwf h.stocked hbx hq horigin hb
    refine (linkElements_proceeds hinit hripe hp₁).mono fun r t₂ h₂ => ?_
    refine ⟨h₁.seq hwf h₂.mono, fun hlive₂ => ?_, fun hlive₂ hw => ?_⟩
    · exact (h₂.heeds.kept not_false (.inl hbusy₁) hlive₂).trans (hfilled.states hlive)
    · exact hfilled.watches hlive (h₂.heeds.unheard not_false hbusy₁ hlive₂ hw)

section

variable {run : Task → TreeM Unit} {r : Except TreeError Unit}

/-- An initialization gives its group the count that it stems from. -/
theorem initBody_proceeds (hinit : Inherits τ (fun id => run (.init id)))
    (hvisit : InheritsBelow τ (fun id => run (.visit id))) (h : t.Fillable τ x p) :
    wp (initBody run x) (fun r t' => Proceeds τ (· = x) Nowhere t r t' ∧
      (r = .ok () → t'.isLive x = true → t'.Endowed τ x p)) t := by
  have hwf := h.wellFormed
  obtain ⟨n, g, hn, hk, hphase⟩ := id h.busy
  have hruleAt := h.models.ruleAt h.place hn hk
  -- Once the count is known, what the group watches has it.
  have hrest : ∀ {t₁ : Tree} {count : Nat}, Proceeds τ (· = x) Nowhere t (.ok count : Except TreeError Nat) t₁ →
      (∀ z, τ.Stems p z → count = τ.ownCount t.seed z ∧
        (t₁.isLive x = true → ∀ y, t₁.Watches x y → y ≠ x ∧ t₁.Retains τ y count)) →
      wp (do
        replaceElementsWith (fun id => run (.visit id)) x count
        linkElementsWith (fun id => run (.init id)) x : TreeM Unit)
        (fun r t' => Proceeds τ (· = x) Nowhere t r t' ∧
          (r = .ok () → t'.isLive x = true → t'.Endowed τ x p)) t₁ := by
    intro t₁ count h₁ hown
    have hwf₁ := h₁.stemmed.wellFormed
    cases hch : t₁.children x with
    | error e =>
      rw [wp.bind]
      unfold replaceElementsWith
      simp only [wp.bind, wp.look, hch]
      exact ⟨h₁.fail, fun h => absurd h error_ne_ok⟩
    | ok children =>
      obtain ⟨n₁, hn₁, -⟩ := look_eq_ok.mp hch
      have hlive₁ : t₁.isLive x = true := isLive_iff_node?.mpr ⟨n₁, hn₁⟩
      have hfillable : t₁.Fillable τ x p :=
        ⟨h₁.stemmed, h₁.heeds.led hwf h.led, h₁.heeds.stocked hwf h.stocked, h₁.heeds.placed hwf h.place hlive₁,
          h₁.heeds.still h.busy hlive₁⟩
      refine (fill_proceeds hinit hvisit hfillable fun z hstems => ?_).mono ?_
      · rw [h₁.heeds.seed hwf]
        exact (hown z hstems).1
      rintro r t₂ ⟨h₂, hfilled⟩
      refine ⟨h₁.seq hwf h₂, fun _ hlive₂ z hstems phase c hx => ?_⟩
      cases (hfilled.states hlive₂).symm.trans hx
      rw [h₂.heeds.seed hwf₁, h₁.heeds.seed hwf]
      refine ⟨(hown z hstems).1, fun {y} hy => ?_⟩
      obtain ⟨hyx, hpinned, phase, hstates⟩ := (hown z hstems).2 hlive₁ y (hfilled.watches hlive₂ hy)
      obtain ⟨m, -, hm, -⟩ := hy
      refine ⟨phase, ?_⟩
      rw [h₂.heeds.kept hyx hpinned (isLive_iff_node?.mpr ⟨m, hm⟩), hstates, (hown z hstems).1]
  unfold initBody
  rw [wp.bind]
  cases hunbound : g.rule.isBound with
  | false =>
    have horigin : τ.IsOrigin p := ⟨_, hruleAt, hunbound⟩
    rw [wp_countByRule_unbound hn hk hunbound, provisionalCount_placed hwf h.models h.place hn hk]
    refine hrest (.refl h.toStemmed) fun z hstems => ?_
    cases hstems.eq_of_isOrigin horigin
    refine ⟨rfl, fun _ y hy => ?_⟩
    obtain ⟨q, hsource, -⟩ := h.heard hy h.place
    cases horigin.source.symm.trans hsource
  | true =>
    obtain ⟨path, fields, min, max, hbound⟩ : ∃ path fields min max, g.rule = .bound path fields min max := by
      cases hrule : g.rule with
      | bound path fields min max => exact ⟨path, fields, min, max, rfl⟩
      | fixed count => cases (congrArg Multiplicity.isBound hrule).symm.trans hunbound
      | random min max => cases (congrArg Multiplicity.isBound hrule).symm.trans hunbound
    have hripe : t.Ripe τ p := by
      refine ⟨h.toStemmed, h.led, fun b q c _ hq horigin hb => h.stocked (fun hbx => ?_) hq horigin hb⟩
      subst hbx
      cases placed_inj hwf h.place hq
      rw [hbound] at hruleAt
      exact Template.not_isOrigin hruleAt horigin
    refine (countByRule_proceeds hinit hripe h.place h.busy hn hk hbound).mono ?_
    rintro (e | count) t₁ ⟨h₁, hown⟩
    · exact ⟨h₁.fail, fun h => absurd h error_ne_ok⟩
    · exact hrest h₁ (hown count rfl)

/-- The group has another phase, and nothing else has changed. -/
structure Turns (x : NodeId) (t t' : Tree) : Prop where
  alike : t.Alike t'
  states : ∀ y, y ≠ x → t'.states y = t.states y
  watches : ∀ {w y}, t'.Watches w y ↔ t.Watches w y

namespace Turns

theorem refl (x : NodeId) (t : Tree) : Turns x t t := ⟨(Like.refl t).level.alike, fun _ _ => rfl, Iff.rfl⟩

theorem setPhase (x : NodeId) (phase : Phase) (t : Tree) : Turns x t (t.modifyGroup x ({ · with phase })) :=
  ⟨.of_modifyGroup fun _ => rfl, fun _ hy => states_setPhase_ne phase hy, watches_setPhase phase⟩

variable (h : Turns x t t')

include h

theorem evolves : Evolves (fun _ => True) t t' := .of_alike h.alike fun _ _ _ _ _ _ => trivial

theorem busy (hy : y ≠ x) : t'.Busy y ↔ t.Busy y := by rw [busy_iff, h.states y hy, ← busy_iff]

theorem blank (hy : y ≠ x) : t'.Blank y ↔ t.Blank y := by rw [Blank, h.states y hy, Blank]

theorem pinned (hy : y ≠ x) (hpinned : t.Pinned τ y) : t'.Pinned τ y := by
  refine hpinned.imp (h.busy hy).mpr ?_
  rintro ⟨hserved, q, z, hq, hstems⟩
  refine ⟨?_, q, z, (h.alike.placed q).trans hq, hstems⟩
  rwa [served_iff, h.states y hy, ← served_iff]

theorem prompt (hprompt : t.Prompt τ) (hblank : ¬ t'.Blank x) (hstale : ∀ {c}, t'.states x ≠ some (.stale, c)) :
    t'.Prompt τ where
  watchers := by
    intro w y hw
    by_cases hwx : w = x
    · exact hwx ▸ hblank
    · rw [h.blank hwx]
      exact hprompt.watchers (h.watches.mp hw)
  stale := by
    intro p z y c hstems hp
    by_cases hyx : y = x
    · exact hyx ▸ hstale
    · rw [h.alike.placed] at hp
      rw [h.states y hyx]
      exact hprompt.stale hstems hp

end Turns

/-- What holds of the other groups while a group is on its way holds of all before and after. -/
theorem Proceeds.turns {t₃ : Tree} (hpending : t.Pending x) (hidle : ¬ t.Busy x)
    (h₁ : Turns x t t₁) (hbusy : t₁.Busy x) (h₂ : Proceeds τ (· = x) Nowhere t₁ r t₂) (h₃ : Turns x t₂ t₃)
    (hstemmed : t₃.Stemmed τ) (hidle₃ : ¬ t₃.Busy x) (hdone : r = .ok () → t₃.Served x) :
    Proceeds τ Nowhere (· = x) t r t₃ := by
  have hother : ∀ {y}, t.Pinned τ y → y ≠ x := by
    rintro y (hy | ⟨hserved, -⟩) rfl
    · exact hidle hy
    · obtain ⟨c, hc⟩ := served_iff.mp hserved
      obtain ⟨phase, d, hd, hphase⟩ := pending_iff.mp hpending
      cases hc.symm.trans hd
      exact hphase rfl
  have hlive : ∀ {y}, t₃.isLive y = true → t₂.isLive y = true := fun hy => h₃.alike.live ▸ hy
  refine ⟨hstemmed, ⟨h₁.evolves.trans (h₂.heeds.evolves.trans h₃.evolves), fun {y} hy => ?busy,
    fun {y} hy hy₃ => ?still, fun {y} _ hpinned hy₃ => ?kept, fun {w y} _ hw hw₃ hy => ?unheard⟩,
    fun _ hok => ⟨fun {y} hy => ?blank, fun hprompt => ?prompt⟩⟩
  case busy =>
    have hyx : y ≠ x := fun hyx => hidle₃ (hyx ▸ hy)
    exact (h₁.busy hyx).mp (h₂.heeds.busy ((h₃.busy hyx).mp hy))
  case still =>
    have hyx := hother (.inl hy)
    exact (h₃.busy hyx).mpr (h₂.heeds.still ((h₁.busy hyx).mpr hy) (hlive hy₃))
  case kept =>
    have hyx := hother hpinned
    rw [h₃.states y hyx, ← h₁.states y hyx]
    exact h₂.heeds.kept hyx (h₁.pinned hyx hpinned) (hlive hy₃)
  case unheard =>
    have hwx := hother (.inl hw)
    exact h₁.watches.mp (h₂.heeds.unheard hwx ((h₁.busy hwx).mpr hw) (hlive hw₃) (h₃.watches.mp hy))
  all_goals
    obtain ⟨c, hc⟩ := served_iff.mp (hdone hok)
  case blank =>
    have hyx : y ≠ x := fun hyx => not_blank hc nofun (hyx ▸ hy)
    exact ⟨(h₁.blank hyx).mp ((h₂.clears () hok).blank ((h₃.blank hyx).mp hy)).1, hyx⟩
  case prompt =>
    obtain ⟨c₁, hc₁⟩ := busy_iff.mp hbusy
    have hprompt₁ : t₁.Prompt τ :=
      h₁.prompt hprompt (not_blank hc₁ nofun) fun h => by cases hc₁.symm.trans h
    exact h₃.prompt ((h₂.clears () hok).prompt hprompt₁) (not_blank hc nofun) fun h => by cases hc.symm.trans h

theorem initStep_proceeds (hinit : Inherits τ (fun id => run (.init id)))
    (hvisit : InheritsBelow τ (fun id => run (.visit id))) : Inherits τ (initStep run) := by
  intro t p x h hp hpending hidle
  have hwf := h.wellFormed
  obtain ⟨phase, c, hx, -⟩ := pending_iff.mp hpending
  have h₁ := Turns.setPhase x .initializing t
  have hx₁ := states_setPhase .initializing hx
  have hfillable : (t.modifyGroup x ({ · with phase := .initializing })).Fillable τ x p := by
    refine ⟨h.toStemmed.setPhase nofun, fun b q hq hb => ?_, fun b q c hbx hq horigin hb => ?_,
      (h₁.alike.placed p).trans hp, busy_iff.mpr ⟨c, hx₁⟩⟩
    · rw [h₁.alike.placed] at hq
      by_cases hbx : b = x
      · cases placed_inj hwf hp (hbx ▸ hq)
        exact .refl
      · exact h.led hq ((h₁.busy hbx).mp hb)
    · rw [h₁.alike.placed] at hq
      rw [h₁.states b hbx] at hb
      rw [h₁.alike.seed]
      exact h.stocked not_false hq horigin hb
  have hbusy₁ : (t.modifyGroup x ({ · with phase := .initializing })).Busy x := hfillable.busy
  refine wp_initStep (fun hnone _ => ?_) fun n hn => (initBody_proceeds hinit hvisit hfillable).mono ?_
  · obtain ⟨n, -, hn, -⟩ := states_eq_some.mp hx
    cases hnone.symm.trans hn
  rintro r t₂ ⟨h₂, hendowed⟩
  refine ⟨fun hnone e => ⟨?_, fun h => absurd h error_ne_ok⟩, fun n₂ hn₂ => ?_⟩
  · refine .turns hpending hidle h₁ hbusy₁ h₂.fail (.refl x t₂) h₂.stemmed ?_
      (fun h => absurd h error_ne_ok)
    rintro ⟨m, -, hm, -⟩
    cases hnone.symm.trans hm
  have hlive₂ : t₂.isLive x = true := isLive_iff_node?.mpr ⟨n₂, hn₂⟩
  have hp₂ := h₂.heeds.placed hfillable.wellFormed hfillable.place hlive₂
  obtain ⟨c₂, hc₂⟩ := busy_iff.mp (h₂.heeds.still hbusy₁ hlive₂)
  have hc₃ := states_setPhase (phaseAfter r) hc₂
  have hserved : r = .ok () → (t₂.modifyGroup x ({ · with phase := phaseAfter r })).Served x := by
    rintro rfl
    exact served_iff.mpr ⟨c₂, hc₃⟩
  refine ⟨.turns hpending hidle h₁ hbusy₁ h₂ (.setPhase x _ t₂) ?_ ?_ hserved, hserved⟩
  · refine h₂.stemmed.setPhase fun hready q z c old hq hold hstems => ?_
    have hok : r = .ok () := by
      cases r with
      | ok _ => rfl
      | error e => cases hready
    cases placed_inj h₂.stemmed.wellFormed hp₂ hq
    exact hendowed hok hlive₂ hstems hold
  · cases r with
    | ok _ => exact not_busy hc₃ nofun
    | error e => exact not_busy hc₃ nofun

-- ---------------------------------------------------------------------------
-- Tasks
-- ---------------------------------------------------------------------------

/-- A visit touches a node before those below it. -/
theorem visitStep_proceeds (hinit : Inherits τ (fun id => run (.init id)))
    (hvisit : InheritsBelow τ (fun id => run (.visit id))) : InheritsBelow τ (visitStep run) := by
  intro t x h hripe
  have hwf := h.wellFormed
  unfold visitStep
  cases hn : t.node? x with
  | none =>
    obtain ⟨e, he⟩ := node_eq_error.mpr hn
    have hgroup : t.isGroup x = .error e := by rw [isGroup, look, he]; rfl
    exact (wp.look_error hgroup).mpr ⟨.of_error h, fun h => absurd h error_ne_ok⟩
  | some n =>
  obtain ⟨p, hp⟩ := exists_position hwf hn
  have hlive : t.isLive x = true := isLive_iff_node?.mpr ⟨n, hn⟩
  -- From where the node itself has been touched, the others are.
  have hrest : ∀ {t₁}, Proceeds τ Nowhere (· = x) t (.ok () : Except TreeError Unit) t₁ → t₁.isLive x = true →
      wp (do
        for child in ← TreeM.look (·.children x) do
          run (.visit child) : TreeM Unit)
        (fun r t' => Proceeds τ Nowhere (t.Spans x) t r t' ∧ (r = .ok () → t.isLive x = true)) t₁ := by
    intro t₁ h₁ hlive₁
    have hwf₁ := h₁.stemmed.wellFormed
    obtain ⟨n₁, hn₁⟩ := isLive_iff_node?.mp hlive₁
    have hp₁ := h₁.heeds.placed hwf hp hlive₁
    rw [wp.look_ok (a := n₁.children) (by rw [children, look_of_node? hn₁]), wp.bind]
    refine (visitAll_proceeds hvisit h₁.stemmed (fun r i => ?_) hp₁ hn₁).mono ?_
    · have hr := (hripe hp (r ++ [i])).heeds h₁.heeds h₁.stemmed
      rwa [List.append_assoc] at hr
    intro r t₂ h₂
    have hall : Proceeds τ Nowhere (t.Spans x) t r t₂ := by
      have htrans := h₁.trans hwf h₂
      refine ⟨htrans.stemmed, htrans.heeds, fun a ha => (htrans.clears a ha).mono ?_⟩
      rintro y hblank ⟨q, r, hq, hy⟩
      cases placed_inj hwf hp hq
      rcases List.eq_nil_or_concat r with rfl | ⟨r, i, rfl⟩
      · exact .inl (Option.some.inj (hy.symm.trans hp))
      · obtain ⟨c, hc⟩ := ((h₂.clears a ha).blank hblank).1
        rw [List.concat_eq_append, List.append_assoc] at hy
        exact .inr ⟨r, i, h₁.heeds.placed hwf hy (live_of_states hc)⟩
    cases r with
    | error e => exact ⟨hall.fail, fun _ => hlive⟩
    | ok _ => exact ⟨hall.ok id, fun _ => hlive⟩
  rw [wp.look_ok (a := n.kind.isRepeated) (by rw [isGroup, look_of_node? hn])]
  cases hgroup : n.kind.isRepeated with
  | false =>
    refine hrest ⟨h, .refl .., fun _ _ => (Clears.refl τ t).mono ?_⟩ hlive
    rintro y ⟨c, hc⟩ rfl
    obtain ⟨m, g, hm, hk, -⟩ := states_eq_some.mp hc
    cases hn.symm.trans hm
    cases hgroup.symm.trans (NodeKind.isRepeated_iff.mpr ⟨g, hk⟩)
  | true =>
    rw [if_pos rfl, wp.bind]
    refine (touchWith_proceeds hinit (hripe hp []) hp).mono ?_
    rintro (e | _) t₁ ⟨h₁, hlive₁⟩
    · exact ⟨h₁.fail, fun _ => hlive⟩
    · exact hrest h₁ (hlive₁ rfl)

end

/-- Whatever is initialized, groups keep the counts that they stem from. -/
theorem runTask_proceeds (depth : Nat) : Inherits τ (fun id => runTask depth (.init id)) ∧
    InheritsBelow τ (fun id => runTask depth (.visit id)) := by
  induction depth with
  | zero =>
    exact ⟨fun _ _ _ h _ _ _ => ⟨.of_error h.toStemmed, fun h => absurd h error_ne_ok⟩,
      fun _ _ h _ => ⟨.of_error h, fun h => absurd h error_ne_ok⟩⟩
  | succ depth ih => exact ⟨initStep_proceeds ih.1 ih.2, visitStep_proceeds ih.1 ih.2⟩

end Tree

end FormatFuzz
