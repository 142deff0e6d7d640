-- SUMMARY: Groups keep track of the groups that they follow when those are given another count.
import FormatFuzz.Proofs.Counts

/-!
# Tracking

When a group is given another count, the groups that watch it go stale, and are renewed when they are
asked for their own. Groups that watch these hear of it then, and not before. So a group that is ready
has the count of the group that it follows, but that one need not be up to date itself (`Tree.Tracks`).
This is kept by all operations as long as no groups follow each other in a circle.

Once a group has got a count, all groups that it reaches get the count when they are asked one after
the other along the way (`Tree.Reaches.counts_follow`).
-/

namespace FormatFuzz

open TreeM
open Relation (ReflTransGen TransGen)

namespace Tree

variable {τ : Template} {t₀ t t₁ t₂ t' : Tree} {id x y z : NodeId} {n : Node} {g : Group} {c d : Nat}
  {stack : List NodeId} {init : NodeId → TreeM Unit}

/-- The groups on the stack are being initialized, and no others. A group that is ready watches the
group that it follows, and has as many elements. -/
structure Tracks (τ : Template) (t₀ : Tree) (stack : List NodeId) (t : Tree) : Prop
    extends t₀.Settling τ t where
  busy : ∀ {x}, x ∈ stack ↔ ∃ c, t.states x = some (.initializing, c)
  current : ∀ {x y c}, t.states x = some (.ready, c) → t₀.Ties τ x y →
    (∃ phase, t.states y = some (phase, c)) ∧ t.Watches x y

/-- The group `x` has been initialized. -/
structure Renewed (τ : Template) (t₀ : Tree) (stack : List NodeId) (x : NodeId) (t t' : Tree) : Prop
    extends t₀.Tracks τ stack t' where
  kept : ∀ {y}, y ∈ stack → t'.states y = t.states y
  watches : ∀ {a b}, t.Watches a b → t'.Watches a b
  /-- Groups that follow none have nothing to hear of. -/
  free : ∀ {y c}, (∀ z, ¬ t₀.Ties τ y z) → y ≠ x → t.states y = some (.ready, c) →
    t'.states y = some (.ready, c)
  ready : ∃ c, t'.states x = some (.ready, c) ∧ ∀ y, t₀.Ties τ x y →
    t'.states y = some (.ready, c) ∧ ∀ d, t.states y = some (.ready, d) → d = c

/-- Initialization succeeds while the groups on the stack are on the way, if these lead to the group. -/
def Renews (τ : Template) (t₀ : Tree) (stack : List NodeId) (init : NodeId → TreeM Unit) : Prop :=
  ∀ t x, t₀.Tracks τ stack t → x ∉ stack → t.states x ≠ none →
    (∀ z ∈ stack, TransGen (t₀.Ties τ) z x) →
      wp (init x) (fun r t' => r = .ok () ∧ t₀.Renewed τ stack x t t') t

/-- The group `x`, which is being initialized, has asked for its count. -/
structure Sourced (τ : Template) (t₀ : Tree) (stack : List NodeId) (x : NodeId) (c : Nat) (t : Tree)
    (d : Nat) (t' : Tree) : Prop extends t₀.Tracks τ (x :: stack) t' where
  self : t'.states x = some (.initializing, c)
  kept : ∀ {y}, y ∈ stack → t'.states y = t.states y
  watches : ∀ {a b}, t.Watches a b → t'.Watches a b
  free : ∀ {y c}, (∀ z, ¬ t₀.Ties τ y z) → y ≠ x → t.states y = some (.ready, c) →
    t'.states y = some (.ready, c)
  source : ∀ {y}, t₀.Ties τ x y → t'.states y = some (.ready, d) ∧ t'.Watches x y ∧
    ∀ e, t.states y = some (.ready, e) → e = d

section

variable (hstart : t₀.Startable τ) (hacyclic : ∀ x, ¬ TransGen (t₀.Ties τ) x x)

-- ---------------------------------------------------------------------------
-- Single steps
-- ---------------------------------------------------------------------------

theorem Tracks.of_same (h : t₀.Tracks τ stack t) (h' : t₀.Settling τ t')
    (hstates : t'.states = t.states) (hwatches : ∀ {a b}, t.Watches a b → t'.Watches a b) :
    t₀.Tracks τ stack t' where
  toSettling := h'
  busy := by rw [hstates]; exact h.busy
  current := by
    rw [hstates]
    intro x y c hx hties
    exact (h.current hx hties).imp_right hwatches

/-- A group is entered. -/
theorem Tracks.enter {phase : Phase} (h : t₀.Tracks τ stack t) (h' : t₀.Settling τ t')
    (hx : t.states x = some (phase, c)) (hx' : t'.states x = some (.initializing, c))
    (hother : ∀ y, y ≠ x → t'.states y = t.states y)
    (hwatches : ∀ {a b}, t'.Watches a b ↔ t.Watches a b) : t₀.Tracks τ (x :: stack) t' where
  toSettling := h'
  busy := by
    intro y
    by_cases hy : y = x
    · subst hy
      exact iff_of_true List.mem_cons_self ⟨c, hx'⟩
    · rw [List.mem_cons, or_iff_right hy, h.busy, hother y hy]
  current := by
    intro a b d ha hties
    have hax : a ≠ x := by
      rintro rfl
      cases hx'.symm.trans ha
    rw [hother a hax] at ha
    obtain ⟨⟨phase, hb⟩, hw⟩ := h.current ha hties
    refine ⟨?_, hwatches.mpr hw⟩
    by_cases hbx : b = x
    · subst hbx
      cases hx.symm.trans hb
      exact ⟨_, hx'⟩
    · exact ⟨phase, (hother b hbx).trans hb⟩

include hacyclic

/-- A group gets its elements. Those that watch it are stale then, unless they have as many. -/
theorem Sourced.leave (h : t₀.Sourced τ stack x c t d t₂) (h' : t₀.Settling τ t')
    (hx : x ∉ stack) (hrefills : Refills (t₀.Ties τ) x c d t₂ t') :
    t₀.Renewed τ stack x t t' := by
  have hsame : ∀ {y}, y ≠ x → (∀ e, t₂.states y ≠ some (.ready, e)) ∨ ¬ t₀.Ties τ y x →
      t'.states y = t₂.states y := by
    intro y hy hor
    refine (hrefills.marks.other hy).resolve_right ?_
    rintro ⟨hties, e, he, -⟩
    rcases hor with hne | hfree
    · exact hne e he
    · exact hfree hties
  have hsource : ∀ {y}, t₀.Ties τ x y → t'.states y = some (.ready, d) := by
    intro y hties
    have hyx : y ≠ x := by
      rintro rfl
      exact hacyclic y (.single hties)
    have hback : ¬ t₀.Ties τ y x := fun hback => hacyclic x (.tail (.single hties) hback)
    rw [hsame hyx (.inr hback)]
    exact (h.source hties).1
  have hkept : ∀ {y}, y ∈ stack → t'.states y = t.states y := by
    intro y hy
    have hyx : y ≠ x := fun he => hx (he ▸ hy)
    rw [hsame hyx (.inl fun e he => ?_), h.kept hy]
    obtain ⟨e', he'⟩ := h.busy.mp (List.mem_cons_of_mem x hy)
    cases he.symm.trans he'
  refine ⟨⟨h', ?_, ?_⟩, hkept, fun hw => hrefills.watches.mpr (h.watches hw), ?_, d,
    hrefills.marks.self, fun y hties => ⟨hsource hties, (h.source hties).2.2⟩⟩
  case refine_1 =>
    intro y
    by_cases hyx : y = x
    · subst hyx
      refine iff_of_false hx ?_
      rintro ⟨e, he⟩
      cases hrefills.marks.self.symm.trans he
    · have hmem : y ∈ stack ↔ y ∈ x :: stack := by rw [List.mem_cons, or_iff_right hyx]
      rw [hmem, h.busy]
      rcases hrefills.marks.other hyx with heq | ⟨-, e, he, he'⟩
      · rw [heq]
      · rw [he, he']
        refine iff_of_false ?_ ?_ <;> rintro ⟨_, h⟩ <;> cases h
  case refine_2 =>
    intro a b e ha hties
    by_cases hax : a = x
    · subst hax
      cases hrefills.marks.self.symm.trans ha
      exact ⟨⟨.ready, hsource hties⟩, hrefills.watches.mpr (h.source hties).2.1⟩
    · have ha₂ : t₂.states a = some (.ready, e) := by
        rcases hrefills.marks.other hax with heq | ⟨-, k, -, hstale⟩
        · exact heq.symm.trans ha
        · cases hstale.symm.trans ha
      obtain ⟨⟨phase, hb⟩, hw⟩ := h.current ha₂ hties
      refine ⟨?_, hrefills.watches.mpr hw⟩
      by_cases hbx : b = x
      · subst hbx
        cases h.self.symm.trans hb
        rcases hrefills.told with ⟨rfl, -⟩ | ⟨-, htold⟩
        · exact ⟨.ready, hrefills.marks.self⟩
        · exact absurd ha (htold hw hax)
      · rcases hrefills.marks.other hbx with heq | ⟨-, k, hk, hk'⟩
        · exact ⟨phase, heq.trans hb⟩
        · cases hb.symm.trans hk
          exact ⟨.stale, hk'⟩
  case refine_3 =>
    intro y e hfree hyx hy
    rw [hsame hyx (.inr (hfree x))]
    exact h.free hfree hyx hy

-- ---------------------------------------------------------------------------
-- Initialization
-- ---------------------------------------------------------------------------

include hstart

/-- A group that has been entered asks for its count. Those on the stack lead to it, so that none of
them is asked. -/
theorem countByRule_sourced (hinits : t₀.Renews τ (x :: stack) init) (hmem : x ∉ stack)
    (hchain : ∀ z ∈ stack, TransGen (t₀.Ties τ) z x) (h : t₀.Tracks τ (x :: stack) t₁)
    (hx : t₁.states x = some (.initializing, c)) (hother : ∀ y, y ≠ x → t₁.states y = t.states y)
    (hwatches : ∀ {a b}, t₁.Watches a b ↔ t.Watches a b) :
    wp (countByRuleWith init x) (fun r t₂ => ∃ d, r = .ok d ∧ t₀.Sourced τ stack x c t d t₂) t₁ := by
  have hkept : ∀ {y}, y ∈ stack → t₁.states y = t.states y :=
    fun hy => hother _ fun he => hmem (he ▸ hy)
  refine countByRule_rule hstart h.toSettling hx (fun hnone => ?_)
    fun y phase e t₂ hties hy h₂ hsame hwatched hmono => ?_
  · exact ⟨_, rfl, h, hx, hkept, hwatches.mpr, fun _ hyx hy => (hother _ hyx).trans hy,
      fun hties => absurd hties (hnone _)⟩
  · have htracks : t₀.Tracks τ (x :: stack) t₂ := h.of_same h₂ hsame hmono
    have hother₂ : ∀ z, z ≠ x → t₂.states z = t.states z := fun z hz => hsame ▸ hother z hz
    have hchain' : ∀ z ∈ x :: stack, TransGen (t₀.Ties τ) z y := by
      intro z hz
      rcases List.mem_cons.mp hz with rfl | hz
      · exact .single hties
      · exact (hchain z hz).tail hties
    have hfar : y ∉ x :: stack := fun hy => hacyclic y (hchain' y hy)
    have hyx : y ≠ x := fun he => hfar (he ▸ List.mem_cons_self)
    have hunique : ∀ {z}, t₀.Ties τ x z → z = y := fun hz => ties_rightUnique hstart.wellFormed hz hties
    rw [← hsame] at hx hy
    have hinit : t₂.states y = some (.uninit, e) ∨ t₂.states y = some (.stale, e) →
        wp (countWith init y) (fun r t' => ∃ d, r = .ok d ∧ t₀.Sourced τ stack x c t d t') t₂ := by
      intro hpending
      have hunready : ∀ k, t₂.states y ≠ some (.ready, k) := by
        intro k hk
        rcases hpending with hp | hp <;> cases hp.symm.trans hk
      have hgroup : t₂.states y ≠ none := by
        rw [hy]
        exact Option.some_ne_none _
      have hrenews := hinits t₂ y htracks hfar hgroup hchain'
      refine (countWith_init (P := fun _ t' => t₀.Renewed τ (x :: stack) y t₂ t') hpending
        (hrenews.mono ?_)).mono ?_
      · rintro _ t' ⟨rfl, hrenewed⟩
        obtain ⟨d, hd, -⟩ := hrenewed.ready
        exact ⟨rfl, d, hd, hrenewed⟩
      · rintro _ t' ⟨d, rfl, hd, hrenewed⟩
        refine ⟨d, rfl, hrenewed.toTracks, (hrenewed.kept List.mem_cons_self).trans hx,
          fun hz => ?_, fun hw => ?_, fun {z k} hfree hzx hz => ?_, fun hz => ?_⟩
        · rw [hrenewed.kept (List.mem_cons_of_mem x hz), hsame, hkept hz]
        · exact hrenewed.watches (hmono (hwatches.mpr hw))
        · rw [← hother₂ z hzx] at hz
          exact hrenewed.free hfree (fun he => hunready k (he ▸ hz)) hz
        · cases hunique hz
          refine ⟨hd, hrenewed.watches hwatched, fun k hk => ?_⟩
          rw [← hother₂ y hyx] at hk
          exact absurd hk (hunready k)
    cases phase with
    | uninit => exact hinit (.inl hy)
    | stale => exact hinit (.inr hy)
    | initializing => exact absurd (htracks.busy.mpr ⟨e, hy⟩) hfar
    | ready =>
      refine (countWith_ready hy).mono ?_
      rintro _ t₂ ⟨rfl, rfl⟩
      refine ⟨e, rfl, htracks, hx, fun hz => hsame ▸ hkept hz, fun hw => hmono (hwatches.mpr hw),
        fun {z k} _ hzx hz => (hother₂ z hzx).trans hz, fun hz => ?_⟩
      cases hunique hz
      refine ⟨hy, hwatched, fun k hk => ?_⟩
      rw [← hother₂ y hyx, hy] at hk
      cases hk
      rfl

/-- Initialization succeeds, and leaves all groups in track with those that they follow. -/
theorem runTask_renews (depth : Nat) (hdepth : (t₀.without stack).weight + 1 ≤ depth) :
    t₀.Renews τ stack fun id => runTask depth (.init id) := by
  induction depth generalizing stack with
  | zero => exact absurd hdepth (Nat.not_succ_le_zero _)
  | succ depth ih =>
    intro t x h hstack hgroup hchain
    obtain ⟨⟨phase, c⟩, hx⟩ := Option.ne_none_iff_exists'.mp hgroup
    have hgroup₀ : t₀.states x ≠ none := by rwa [Ne, ← h.groups]
    obtain ⟨⟨phase₀, c₀⟩, hx₀⟩ := Option.ne_none_iff_exists'.mp hgroup₀
    obtain ⟨n₀, -, hn₀, -⟩ := states_eq_some.mp hx₀
    have hlighter : (t₀.without (x :: stack)).weight + n₀.weight = (t₀.without stack).weight :=
      total_without Node.weight hn₀ hstack
    have hvisit := visit_elements hstart hn₀ hgroup₀ depth (by omega)
    dsimp only
    rw [runTask]
    refine (initStep_settles hstart (P := t₀.Sourced τ stack x c t) h.toSettling hx
      (fun t₁ h₁ hx₁ hother hwatches => ?_) hvisit).mono ?_
    · have hinits : t₀.Renews τ (x :: stack) fun id => runTask depth (.init id) := by
        have hpositive := n₀.one_le_weight
        exact ih (by omega)
      refine (countByRule_sourced hstart hacyclic hinits hstack hchain
        (h.enter h₁ hx hx₁ hother hwatches) hx₁ hother hwatches).mono ?_
      rintro _ t₂ ⟨d, rfl, hsourced⟩
      exact ⟨d, rfl, hsourced.toSettling, hsourced.self, hsourced⟩
    · rintro _ t' ⟨rfl, h', d, t₂, hsourced, hrefills⟩
      exact ⟨rfl, hsourced.leave hacyclic h' hstack hrefills⟩

-- ---------------------------------------------------------------------------
-- Operations on groups
-- ---------------------------------------------------------------------------

omit hacyclic in
theorem room (h : t₀.Settling τ t) : (t₀.without []).weight + 1 ≤ nestingReserve + 2 * t.weight := by
  have hreserve : 1 ≤ nestingReserve := by decide
  have hweight := h.weight_le hstart
  rw [without, List.foldr_nil]
  omega

/-- Nothing is being initialized, groups that are ready are on track, and pinned groups have the counts
that they have been given. -/
structure Holds (τ : Template) (t₀ : Tree) (pins : NodeId → Nat → Prop) (t : Tree) : Prop
    extends t₀.Tracks τ [] t where
  pinned : ∀ {x c}, pins x c → (∀ y, ¬ t₀.Ties τ x y) ∧ t.states x = some (.ready, c)

namespace Holds

variable {pins : NodeId → Nat → Prop}

omit hstart hacyclic in
theorem coarse : Coarse (t₀.Holds τ pins) := by
  intro t t' hev hstates hwatches h
  have hsettling := Settling.coarse t t' hev hstates hwatches h.toSettling
  refine ⟨h.toTracks.of_same hsettling hstates (hwatches _ _).mpr, ?_⟩
  rw [hstates]
  exact h.pinned

theorem renew (h : t₀.Holds τ pins t)
    (hx : t.states x = some (.uninit, c) ∨ t.states x = some (.stale, c)) :
    wp (Tree.init x) (fun r t' => r = .ok () ∧ ∃ d, t'.states x = some (.ready, d) ∧
      t₀.Holds τ pins t' ∧ ∀ y e, t₀.Ties τ x y → t.states y = some (.ready, e) → e = d) t := by
  have hunready : ∀ k, t.states x ≠ some (.ready, k) := by
    intro k hk
    rcases hx with hx | hx <;> cases hx.symm.trans hk
  have hgroup : t.states x ≠ none := by
    rcases hx with hx | hx <;> simp [hx]
  unfold Tree.init perform
  rw [wp.bind, wp.get]
  refine (runTask_renews hstart hacyclic _ (room hstart h.toSettling) t x h.toTracks List.not_mem_nil
    hgroup fun _ hz => absurd hz List.not_mem_nil).mono ?_
  rintro _ t' ⟨rfl, h'⟩
  obtain ⟨d, hd, hsource⟩ := h'.ready
  refine ⟨rfl, d, hd, ⟨h'.toTracks, fun {y k} hpin => ?_⟩, fun y e hties => (hsource y hties).2 e⟩
  obtain ⟨hfree, hy⟩ := h.pinned hpin
  exact ⟨hfree, h'.free hfree (fun he => hunready k (he ▸ hy)) hy⟩

theorem touch (h : t₀.Holds τ pins t) : wp (Tree.touch x) (fun r t' => t₀.Holds τ pins t' ∧
    (t.states x ≠ none → r = .ok () ∧ ∃ c, t'.states x = some (.ready, c))) t := by
  unfold Tree.touch touchWith
  rw [wp.bind, wp.look]
  cases hg : t.group x with
  | error e => exact ⟨h, fun hx => absurd (states_of_group_error hg) hx⟩
  | ok g =>
    obtain ⟨n, hn, hk⟩ := group_eq_ok.mp hg
    have hx := states_of_node? hn hk
    have hinit : t.states x = some (.uninit, n.children.length) ∨
        t.states x = some (.stale, n.children.length) → wp (Tree.init x) (fun r t' =>
          t₀.Holds τ pins t' ∧
            (t.states x ≠ none → r = .ok () ∧ ∃ c, t'.states x = some (.ready, c))) t := by
      intro hpending
      refine (h.renew hstart hacyclic hpending).mono ?_
      rintro _ t' ⟨rfl, c, hc, h', -⟩
      exact ⟨h', fun _ => ⟨rfl, c, hc⟩⟩
    dsimp only
    cases hphase : g.phase with
    | uninit => exact hinit (.inl (hphase ▸ hx))
    | stale => exact hinit (.inr (hphase ▸ hx))
    | initializing => exact absurd (h.busy.mpr ⟨_, hphase ▸ hx⟩) List.not_mem_nil
    | ready => exact ⟨h, fun _ => ⟨rfl, _, hphase ▸ hx⟩⟩

/-- A group that follows one that is ready has the count of that one. -/
theorem count (h : t₀.Holds τ pins t) : wp (Tree.count x) (fun r t' => t₀.Holds τ pins t' ∧
    (t.states x ≠ none → ∃ c, r = .ok c ∧ t'.states x = some (.ready, c) ∧
      ∀ y e, t₀.Ties τ x y → t.states y = some (.ready, e) → e = c)) t := by
  cases hx : t.states x with
  | none =>
    unfold Tree.count countWith
    rw [wp.bind, wp.look]
    cases hg : t.group x with
    | error e => exact ⟨h, fun hne => absurd rfl hne⟩
    | ok g =>
      obtain ⟨n, hn, hk⟩ := group_eq_ok.mp hg
      cases hx.symm.trans (states_of_node? hn hk)
  | some state =>
    obtain ⟨phase, c⟩ := state
    have hinit : t.states x = some (.uninit, c) ∨ t.states x = some (.stale, c) →
        wp (Tree.count x) (fun r t' => t₀.Holds τ pins t' ∧ (some (phase, c) ≠ none →
          ∃ c, r = .ok c ∧ t'.states x = some (.ready, c) ∧
            ∀ y e, t₀.Ties τ x y → t.states y = some (.ready, e) → e = c)) t := by
      intro hpending
      refine (countWith_init hpending (h.renew hstart hacyclic hpending)).mono ?_
      rintro _ t' ⟨d, rfl, hd, h', hsource⟩
      exact ⟨h', fun _ => ⟨d, rfl, hd, hsource⟩⟩
    cases phase with
    | uninit => exact hinit (.inl hx)
    | stale => exact hinit (.inr hx)
    | initializing => exact absurd (h.busy.mpr ⟨c, hx⟩) List.not_mem_nil
    | ready =>
      refine (countWith_ready hx).mono ?_
      rintro _ t' ⟨rfl, rfl⟩
      refine ⟨h, fun _ => ⟨c, rfl, hx, fun y e hties hy => ?_⟩⟩
      obtain ⟨⟨phase, hc⟩, -⟩ := h.current hx hties
      cases hc.symm.trans hy
      rfl

omit hacyclic in
theorem visit (h : t₀.Settling τ t) (hx : t₀.states x ≠ none) (hn : t.node? x = some n)
    (hy : y ∈ n.children) :
    wp (perform (.visit y)) (fun r t' => r = .ok () ∧ t' = t) t := by
  rw [Ne, ← h.groups] at hx
  obtain ⟨⟨phase, c⟩, hstate⟩ := Option.ne_none_iff_exists'.mp hx
  obtain ⟨m, g, hm, hk, -⟩ := states_eq_some.mp hstate
  rw [hn] at hm
  cases hm
  have hwf := h.wellFormed hstart
  have hmodels := h.models hstart
  exact perform_element hwf hmodels hn hk (hmodels.groupless hstart.wired.outer hwf hn hk) hy

omit hstart hacyclic in
/-- Groups that watch one that has got other elements are stale. -/
theorem notified (h : t₀.Holds τ pins t) (h' : t₀.Settling τ t') (hfree : ∀ y, ¬ t₀.Ties τ x y)
    (hpins : ∀ c, ¬ pins x c) (hx : t'.states x = some (.ready, c))
    (hnotified : Notifies (t₀.Ties τ) x t t') : t₀.Holds τ pins t' where
  toSettling := h'
  busy := by
    intro y
    refine iff_of_false List.not_mem_nil ?_
    rintro ⟨d, hy⟩
    by_cases hyx : y = x
    · subst hyx
      cases hx.symm.trans hy
    · rcases hnotified.other hyx with heq | ⟨-, e, -, hstale⟩
      · exact absurd (h.busy.mpr ⟨d, heq.symm.trans hy⟩) List.not_mem_nil
      · cases hstale.symm.trans hy
  current := by
    intro a b d ha hties
    have hax : a ≠ x := fun he => hfree b (he ▸ hties)
    have ha₁ : t.states a = some (.ready, d) := by
      rcases hnotified.other hax with heq | ⟨-, k, -, hstale⟩
      · exact heq.symm.trans ha
      · cases hstale.symm.trans ha
    obtain ⟨⟨phase, hb⟩, hw⟩ := h.current ha₁ hties
    have hbx : b ≠ x := by
      rintro rfl
      exact hnotified.stale hw ha
    refine ⟨?_, hnotified.watches.mpr hw⟩
    rcases hnotified.other hbx with heq | ⟨-, k, hk, hk'⟩
    · exact ⟨phase, heq.trans hb⟩
    · cases hb.symm.trans hk
      exact ⟨.stale, hk'⟩
  pinned := by
    intro y d hpin
    obtain ⟨hfree, hy⟩ := h.pinned hpin
    have hyx : y ≠ x := fun he => hpins d (he ▸ hpin)
    refine ⟨hfree, ?_⟩
    rcases hnotified.other hyx with heq | ⟨hties, -⟩
    · exact heq.trans hy
    · exact absurd hties (hfree x)

/-- A group that follows none gets the count that it is given. -/
theorem resize (h : t₀.Holds τ pins t) (hfree : ∀ y, ¬ t₀.Ties τ x y) (hpins : ∀ c, ¬ pins x c)
    (count : Nat) : wp (Tree.resize x count) (fun r t' => t₀.Holds τ pins t' ∧
      (r = .ok () → t'.states x = some (.ready, count))) t := by
  unfold Tree.resize
  rw [wp.bind]
  cases hx : t.states x with
  | none =>
    unfold Tree.touch touchWith
    rw [wp.bind, wp.look]
    cases hg : t.group x with
    | error e => exact ⟨h, fun hok => absurd hok error_ne_ok⟩
    | ok g =>
      obtain ⟨n, hn, hk⟩ := group_eq_ok.mp hg
      cases hx.symm.trans (states_of_node? hn hk)
  | some state =>
    have hgroup : t.states x ≠ none := by
      rw [hx]
      exact Option.some_ne_none _
    refine (h.touch hstart hacyclic).mono ?_
    rintro r t₁ ⟨h₁, hready⟩
    obtain ⟨rfl, c, hc⟩ := hready hgroup
    have hvisit : ∀ t, t₀.Settling τ t → ∀ n, t.node? x = some n → ∀ e ∈ n.children,
        wp (perform (.visit e)) (fun r t' => r = .ok () ∧ t' = t) t :=
      fun t' h' n hn e he => visit hstart h' (fun hnone => hgroup (h.groups.mpr hnone)) hn he
    dsimp only
    rw [wp.bind]
    refine (replaceElements_settles hstart h₁.toSettling hc (fun _ => hfree x) hvisit count).mono ?_
    rintro _ t₂ ⟨rfl, h₂, hx₂, hreplaced⟩
    refine (linkElements_settles hstart h₂ hx₂).mono ?_
    rintro _ t₃ ⟨rfl, hlevel⟩
    refine ⟨Holds.coarse _ _ hlevel.evolves hlevel.states hlevel.watches ?_, fun _ => hlevel.states ▸ hx₂⟩
    rcases hreplaced with ⟨-, rfl⟩ | ⟨-, hnotified⟩
    · exact h₁
    · exact h₁.notified h₂ hfree hpins hx₂ hnotified

end Holds

-- ---------------------------------------------------------------------------
-- All states
-- ---------------------------------------------------------------------------

omit hstart hacyclic in
/-- Only groups that follow none are given another count, and not the ones that are kept. -/
def Call.Spares (kept : List NodeId) (t : Tree) : Call → Prop
  | .resize x _ => x ∉ kept ∧ ∀ y, ¬ t.Follows x y
  | _ => True

/-- All calls and all fuzz runs hold the groups, whether they succeed or fail. -/
theorem Reaches.holds {pins : NodeId → Nat → Prop} {kept : List NodeId}
    (hpins : ∀ {x c}, pins x c → x ∈ kept) (h : Reaches (fun t c => c.Spares kept t) t t')
    (ht : t₀.Holds τ pins t) : t₀.Holds τ pins t' := by
  refine Holds.coarse.reaches ?_ ?_ ?_ h ht
  · exact fun t id h => (h.touch hstart hacyclic).1
  · exact fun t id h => (h.count hstart hacyclic).1
  · rintro t id n ⟨hkept, hfree⟩ h
    have hfree' : ∀ y, ¬ t₀.Ties τ id y := fun y hties => hfree y ((h.follows_iff hstart).mpr hties)
    exact (h.resize hstart hacyclic hfree' (fun _ hpin => hkept (hpins hpin)) n).1

/-- Groups along a chain that are counted one after the other all have the count that the first
one follows. -/
theorem Holds.counts {pins : NodeId → Nat → Prop} {chain : List NodeId} (h : t₀.Holds τ pins t)
    (hx : t.states x = some (.ready, c))
    (hchain : List.IsChain (fun y z => t₀.Ties τ z y) (x :: chain)) :
    wp (chain.mapM Tree.count) (fun r t' => r = .ok (List.replicate chain.length c) ∧
      t₀.Holds τ pins t') t := by
  induction chain generalizing t x with
  | nil => exact ⟨rfl, h⟩
  | cons z chain ih =>
    obtain ⟨hties, hrest⟩ := List.isChain_cons_cons.mp hchain
    have hgroup : t.states z ≠ none := by
      rw [Ne, h.groups]
      exact hstart.group_of_ties hties
    rw [List.mapM_cons, wp.bind]
    refine (h.count hstart hacyclic).mono ?_
    rintro r t₁ ⟨h₁, hcount⟩
    obtain ⟨d, rfl, hz, hsource⟩ := hcount hgroup
    cases hsource x c hties hx
    dsimp only
    rw [wp.bind]
    refine (ih h₁ hz hrest).mono ?_
    rintro _ t₂ ⟨rfl, h₂⟩
    exact ⟨rfl, h₂⟩

end

/-- In a new tree all groups have the counts of those that they follow. -/
theorem build_tracks {seed : UInt64} (hτ : τ.Wired) (hbuild : build τ seed = .ok t)
    (hacyclic : ∀ x, ¬ TransGen t.Follows x x) :
    ∃ t₀ : Tree, t₀.Startable τ ∧ (∀ x, ¬ TransGen (t₀.Ties τ) x x) ∧ t₀.Tracks τ [] t := by
  obtain ⟨t₀, hstart, hcalm, hweight, hbuild'⟩ := exists_startable hτ seed
  have hrun := (hbuild' t).mp hbuild
  obtain ⟨-, hcalm', -⟩ :=
    (visitRoot_completes hstart hweight (completes_calm hstart) hcalm).of_run hrun
  have hfollows : t.Follows = t₀.Ties τ := by
    funext x y
    exact propext (hcalm'.follows_iff hstart)
  rw [hfollows] at hacyclic
  have hcompletes : t₀.Completes τ fun t => t₀.Calm τ t ∧ t₀.Tracks τ [] t := by
    constructor
    case settling => exact fun h => h.1.toSettling
    case idle => exact fun h => (completes_calm hstart).idle h.1
    case init =>
      intro depth t x phase c hdepth h hx hphase
      have hgroup : t.states x ≠ none := by
        rw [hx]
        exact Option.some_ne_none _
      have hrenews := runTask_renews hstart hacyclic depth hdepth t x h.2 List.not_mem_nil hgroup
        fun _ hz => absurd hz List.not_mem_nil
      refine (((completes_calm hstart).init hdepth h.1 hx hphase).and hrenews).mono ?_
      rintro _ t' ⟨⟨rfl, h', hprogress, hready⟩, -, hrenewed⟩
      exact ⟨rfl, ⟨h', hrenewed.toTracks⟩, hprogress, hready⟩
  have hnew : t₀.Tracks τ [] t₀ := by
    refine ⟨hcalm.toSettling, ?_, fun hx => ?_⟩
    · intro x
      refine iff_of_false List.not_mem_nil ?_
      rintro ⟨c, hc⟩
      cases (hstart.untouched hc).1
    · cases (hstart.untouched hx).1
  obtain ⟨-, ⟨-, htracks⟩, -⟩ :=
    (visitRoot_completes hstart hweight hcompletes ⟨hcalm, hnew⟩).of_run hrun
  exact ⟨t₀, hstart, hacyclic, htracks⟩

/-- Which group follows which is settled when the tree is built. -/
theorem Reaches.follows_eq {seed : UInt64} {kept : List NodeId} (hτ : τ.Wired)
    (hbuild : build τ seed = .ok t) (hacyclic : ∀ x, ¬ TransGen t.Follows x x)
    (h : Reaches (fun t c => c.Spares kept t) t t') : t'.Follows = t.Follows := by
  obtain ⟨t₀, hstart, hties, htracks⟩ := build_tracks hτ hbuild hacyclic
  have hholds : t₀.Holds τ (fun _ _ => False) t := ⟨htracks, False.elim⟩
  have hholds' := h.holds hstart hties False.elim hholds
  funext x y
  exact propext ((hholds'.follows_iff hstart).trans (hholds.follows_iff hstart).symm)

/-- When a group has got a count, all groups that follow it, directly or through others, get this
count too if they are counted one after the other along the way. -/
theorem Reaches.counts_follow {seed : UInt64} {a : NodeId} {chain : List NodeId} (hτ : τ.Wired)
    (hbuild : build τ seed = .ok t) (hacyclic : ∀ x, ¬ TransGen t.Follows x x)
    (h₁ : Reaches (fun t c => c.Spares [] t) t t₁) (hfree : ∀ y, ¬ t₁.Follows a y)
    (hresize : (resize a c).run t₁ = (.ok (), t₂))
    (h₂ : Reaches (fun t c => c.Spares [a] t) t₂ t')
    (hchain : List.IsChain (fun y x => t'.Follows x y) (a :: chain)) :
    ((chain.mapM count).run t').1 = .ok (List.replicate chain.length c) := by
  obtain ⟨t₀, hstart, hties, htracks⟩ := build_tracks hτ hbuild hacyclic
  have hholds : t₀.Holds τ (fun _ _ => False) t := ⟨htracks, False.elim⟩
  have hholds₁ := h₁.holds hstart hties False.elim hholds
  have hfree' : ∀ y, ¬ t₀.Ties τ a y := fun y hy => hfree y ((hholds₁.follows_iff hstart).mpr hy)
  obtain ⟨hholds₂, hcount⟩ :=
    (hholds₁.resize hstart hties hfree' (fun _ h => h) c).of_run hresize
  have hpinned : t₀.Holds τ (fun x d => x = a ∧ d = c) t₂ := by
    refine ⟨hholds₂.toTracks, ?_⟩
    rintro _ _ ⟨rfl, rfl⟩
    exact ⟨hfree', hcount rfl⟩
  have hholds' := h₂.holds hstart hties (fun h => List.mem_singleton.mpr h.1) hpinned
  have hchain' : List.IsChain (fun y x => t₀.Ties τ x y) (a :: chain) :=
    hchain.imp fun _ _ h => (hholds'.follows_iff hstart).mp h
  exact (hholds'.counts hstart hties (hholds'.pinned ⟨rfl, rfl⟩).2 hchain').1

/-- A group, one that shows its elements, and one that follows that one. -/
def relayed : Template :=
  .composite { name := "record" } [
    .group "source" (.boolean "flag") (.fixed 2),
    .group "copy" (.boolean "flag") (.bound "source" [("", "")] 0 9),
    .group "echo" (.boolean "flag") (.bound "copy" [] 0 9)]

/-- A group does not hear of a new count before the one that it follows has been asked. -/
theorem resize_unheard : ((build relayed 7).bind fun t =>
    ((do resize ⟨1⟩ 3; count ⟨3⟩ : TreeM Nat).run t).1).toOption = some 2 := by
  decide +kernel

private theorem flat_relayed : relayed.Flat := ⟨_, _, rfl, by simp [Template.group, Template.boolean]⟩

private theorem wired_relayed : relayed.Wired := by
  refine ⟨flat_relayed.outer, ?_, ?_⟩
  · intro p h element path fields min max name hpart
    obtain ⟨i, rfl, hi⟩ := flat_relayed.partAt hpart
    rcases i with _ | _ | _ | i <;> cases hi
    · exact ⟨by decide +kernel, [0], by decide +kernel, rfl⟩
    · exact ⟨by decide +kernel, [1], by decide +kernel, rfl⟩
  · intro p h element path fields min max name pair hpart hpair
    obtain ⟨i, rfl, hi⟩ := flat_relayed.partAt hpart
    rcases i with _ | _ | _ | i <;> cases hi
    · cases List.mem_singleton.mp hpair
      exact ⟨by decide +kernel, fun i => ⟨[i, 1], rfl⟩⟩
    · cases hpair

private theorem source_relayed {p q : Position} (h : relayed.source p = some q) :
    p = [1] ∧ q = [0] ∨ p = [2] ∧ q = [1] := by
  have hp := h
  unfold Template.source at h
  split at h
  · rename_i hpart
    obtain ⟨i, rfl, hi⟩ := flat_relayed.partAt hpart
    have hone : relayed.source [1] = some [0] := by decide +kernel
    have htwo : relayed.source [2] = some [1] := by decide +kernel
    rcases i with _ | _ | _ | i <;> cases hi
    · exact .inl ⟨rfl, Option.some.inj (hp.symm.trans hone)⟩
    · exact .inr ⟨rfl, Option.some.inj (hp.symm.trans htwo)⟩
  · cases h

theorem Reaches.counts_follow_relayed :
    ∃ t t₁, build relayed 7 = .ok t ∧ (resize ⟨1⟩ 3).run t = (.ok (), t₁) ∧
      (([⟨2⟩, ⟨3⟩].mapM count).run t₁).1 = .ok [3, 3] := by
  have hplaces : (build relayed 7).toOption.any (fun t => t.placed [0] = some ⟨1⟩ ∧
      t.placed [1] = some ⟨2⟩ ∧ t.placed [2] = some ⟨3⟩ ∧ ((resize ⟨1⟩ 3).run t).1.isOk) = true := by
    decide +kernel
  obtain ⟨t, hbuild, hplaces⟩ := exists_build hplaces
  obtain ⟨h₀, h₁, h₂, hok⟩ := of_decide_eq_true hplaces
  rcases hrun : (resize ⟨1⟩ 3).run t with ⟨_ | _, t₁⟩
  case error =>
    rw [hrun] at hok
    cases hok
  have hC : Permits fun _ => True := ⟨fun _ => trivial, fun _ _ _ => trivial⟩
  have hwf := (build_wellFormed hC hbuild).1
  have hfollows : t.Follows = t.Ties relayed := build_follows wired_relayed hbuild
  have hacyclic : ∀ x, ¬ TransGen t.Follows x x := by
    rw [hfollows]
    refine fun x => acyclic_of_rank hwf (fun p => p.headD 0) fun p q h => ?_
    rcases source_relayed h with ⟨rfl, rfl⟩ | ⟨rfl, rfl⟩ <;> decide
  have hfree : ∀ y, ¬ t.Follows ⟨1⟩ y := by
    rw [hfollows]
    rintro y ⟨p, q, hp, hq, -⟩
    cases placed_inj hwf h₀ hp
    rcases source_relayed hq with ⟨hp, -⟩ | ⟨hp, -⟩ <;> cases hp
  have hchain : List.IsChain (fun y x => t.Follows x y) [⟨1⟩, ⟨2⟩, ⟨3⟩] := by
    rw [hfollows]
    refine .cons_cons ⟨[1], [0], h₁, by decide +kernel, h₀⟩ ?_
    exact .cons_cons ⟨[2], [1], h₂, by decide +kernel, h₁⟩ (.singleton _)
  have hresized : Reaches (fun t c => c.Spares [] t) t t₁ := by
    have hcall : (Call.resize ⟨1⟩ 3).run t = t₁ := congrArg Prod.snd hrun
    exact hcall ▸ .call (.resize ⟨1⟩ 3) (.refl t) ⟨List.not_mem_nil, hfree⟩
  rw [← hresized.follows_eq wired_relayed hbuild hacyclic] at hchain
  exact ⟨t, t₁, hbuild, hrun,
    Reaches.counts_follow wired_relayed hbuild hacyclic (.refl t) hfree hrun (.refl t₁) hchain⟩

end Tree

end FormatFuzz
