-- SUMMARY: What the initialization of a group does to the states of all groups.
import FormatFuzz.Proofs.Ties

/-!
# Initialization

Initializing a group of a wired template takes its count from where its rule says, gives it as many
elements, and makes groups stale that watch it if the count is a new one (`Tree.initStep_settles`).
Nothing else happens to groups on the way, because there are none in elements.
-/

namespace FormatFuzz

open TreeM

namespace Tree

variable {τ σ : Template} {t₀ t t' : Tree} {id x y : NodeId} {n : Node} {g : Group} {p : Position}
  {c d : Nat} {init : NodeId → TreeM Unit}

section

variable (hstart : t₀.Startable τ)

include hstart

-- ---------------------------------------------------------------------------
-- Counts
-- ---------------------------------------------------------------------------

omit hstart in
theorem countWith_ready (hy : t.states y = some (.ready, d)) :
    wp (countWith init y) (fun r t' => r = .ok d ∧ t' = t) t := by
  obtain ⟨n, g, hn, hk, hphase, hlength⟩ := states_eq_some.mp hy
  unfold countWith
  simp only [wp.bind, wp.look, group_eq_ok.mpr ⟨n, hn, hk⟩, hphase, children, look_of_node? hn,
    wp.pure, hlength, and_self]

theorem countWith_busy (h : t₀.Settling τ t) (hy : t.states y = some (.initializing, c)) :
    wp (countWith init y) (fun r t' => r = .ok (t₀.provision y) ∧ t' = t) t := by
  obtain ⟨n, g, hn, hk, hphase, -⟩ := states_eq_some.mp hy
  unfold countWith
  simp only [wp.bind, wp.look, group_eq_ok.mpr ⟨n, hn, hk⟩, hphase, h.provisionalCount hstart hy,
    and_self]

omit hstart in
/-- A group without its elements is initialized before it is counted. -/
theorem countWith_init {P : Nat → Tree → Prop}
    (hy : t.states y = some (.uninit, c) ∨ t.states y = some (.stale, c))
    (hinit : wp (init y) (fun r t' => r = .ok () ∧
      ∃ d, t'.states y = some (.ready, d) ∧ P d t') t) :
    wp (countWith init y) (fun r t' => ∃ d, r = .ok d ∧ t'.states y = some (.ready, d) ∧ P d t') t := by
  have hrest : wp (do
      init y
      return (← TreeM.look (·.children y)).length : TreeM Nat)
      (fun r t' => ∃ d, r = .ok d ∧ t'.states y = some (.ready, d) ∧ P d t') t := by
    rw [wp.bind]
    refine hinit.mono ?_
    rintro _ t' ⟨rfl, d, hd, hP⟩
    obtain ⟨n, g, hn, -, -, hlength⟩ := states_eq_some.mp hd
    simp only [wp.bind, wp.look, children, look_of_node? hn, wp.pure, hlength]
    exact ⟨d, rfl, hd, hP⟩
  unfold countWith
  rcases hy with hy | hy <;>
  · obtain ⟨n, g, hn, hk, hphase, -⟩ := states_eq_some.mp hy
    rw [wp.bind, wp.look, group_eq_ok.mpr ⟨n, hn, hk⟩]
    dsimp only
    rw [hphase]
    exact hrest

/-- A group that follows another one enters itself as a watcher there and asks it for its count; other
groups know their count. -/
theorem countByRule_rule {Q : Except TreeError Nat → Tree → Prop} (h : t₀.Settling τ t)
    {phase : Phase} (hid : t.states id = some (phase, c))
    (hown : (∀ y, ¬ t₀.Ties τ id y) → Q (.ok (t₀.provision id)) t)
    (hties : ∀ y phase d t₁, t₀.Ties τ id y → t.states y = some (phase, d) → t₀.Settling τ t₁ →
      t₁.states = t.states → t₁.Watches id y → (∀ {a b}, t.Watches a b → t₁.Watches a b) →
        wp (countWith init y) Q t₁) : wp (countByRuleWith init id) Q t := by
  obtain ⟨n, g, hn, hk, -, -⟩ := states_eq_some.mp hid
  have hprovision := h.provisionalCount hstart hid
  have hfree := h.free_of_rule hstart hn hk
  unfold provisionalCount at hprovision
  rw [group_eq_ok.mpr ⟨n, hn, hk⟩, ok_bind] at hprovision
  unfold countByRuleWith
  simp only [wp.bind, wp.look, group_eq_ok.mpr ⟨n, hn, hk⟩]
  cases hrule : g.rule with
  | fixed count =>
    rw [hrule] at hprovision
    cases hprovision
    exact hown (hfree (by rw [hrule]; exact fun _ _ _ _ => Multiplicity.noConfusion))
  | random min max =>
    rw [hrule] at hprovision
    simp only [wp.look, hprovision]
    exact hown (hfree (by rw [hrule]; exact fun _ _ _ _ => Multiplicity.noConfusion))
  | bound path fields min max =>
    obtain ⟨y, ⟨phase, d⟩, hy, hstate, hsource⟩ := h.source hstart init hn hk hrule
    simp only [wp.bind]
    refine hsource.mono ?_
    rintro _ t' ⟨rfl, rfl⟩
    simp only [wp.modify]
    have hgroup : t'.states y ≠ none := by
      rw [hstate]
      exact Option.some_ne_none _
    exact hties y phase d _ hy hstate (h.watch hy) (states_watch id)
      (watches_watch.mpr (.inr ⟨rfl, rfl, hgroup⟩)) fun hw => watches_watch.mpr (.inl hw)

-- ---------------------------------------------------------------------------
-- Elements
-- ---------------------------------------------------------------------------

omit hstart in
/-- Notifying watchers of a group makes those of them stale that are ready. -/
theorem notify_settles (h : t₀.Settling τ t) {watchers : List NodeId}
    (hwatchers : ∀ w ∈ watchers, t₀.Ties τ w id) :
    wp (notify watchers) (fun r t' => r = .ok ⟨⟩ ∧ t₀.Settling τ t' ∧
      (∀ {y}, t'.states y = t.states y ∨
        t₀.Ties τ y id ∧ ∃ d, t.states y = some (.ready, d) ∧ t'.states y = some (.stale, d)) ∧
      (∀ {x y}, t'.Watches x y ↔ t.Watches x y) ∧
      ∀ w ∈ watchers, ∀ e, t'.states w ≠ some (.ready, e)) t := by
  unfold notify
  rw [wp.bind]
  refine wp.forIn (fun rest s => t₀.Settling τ s ∧
      (∀ {y}, s.states y = t.states y ∨
        t₀.Ties τ y id ∧ ∃ d, t.states y = some (.ready, d) ∧ s.states y = some (.stale, d)) ∧
      (∀ {x y}, s.Watches x y ↔ t.Watches x y) ∧
      ∃ done, watchers = done ++ rest ∧ ∀ w ∈ done, ∀ e, s.states w ≠ some (.ready, e))
    ⟨h, .inl rfl, Iff.rfl, [], rfl, fun w hw => by cases hw⟩ ?_ ?_
  · rintro s ⟨hs, hstates, hwatches, done, hdone, hstale⟩
    rw [List.append_nil] at hdone
    exact ⟨rfl, hs, hstates, hwatches, hdone ▸ hstale⟩
  · rintro w rest s ⟨hs, hstates, hwatches, done, hdone, hstale⟩
    have hnext : watchers = (done ++ [w]) ++ rest := by rw [hdone, List.append_assoc]; rfl
    have hw : t₀.Ties τ w id := hwatchers w (by rw [hdone]; simp)
    rw [wp.bind, wp.get]
    dsimp only
    split
    · simp only [wp.bind, wp.modify, wp.pure]
      have hlike : (s.markStale w).Like ((s.markStale w).invalidate w) := .of_invalidate
      refine ⟨hs.markStale.of_like hlike, fun {y} => ?_, fun {x y} => ?_, done ++ [w], hnext,
        fun v hv e => ?_⟩
      · rw [hlike.states]
        rcases states_markStale s w y with heq | ⟨rfl, d, hd, hold⟩
        · rw [heq]
          exact hstates
        · rcases hstates with heq | ⟨-, e, -, hold'⟩
          · exact .inr ⟨hw, d, heq ▸ hd, hold⟩
          · cases hd.symm.trans hold'
      · rw [hlike.watches, watches_markStale, hwatches]
      · rw [hlike.states]
        rcases List.mem_append.mp hv with hv | hv
        · intro hready
          rcases states_markStale s w v with heq | ⟨-, d, -, hold⟩
          · exact hstale v hv e (heq ▸ hready)
          · cases hold.symm.trans hready
        · cases List.mem_singleton.mp hv
          exact states_markStale_ne
    · rename_i hdead
      refine ⟨hs, hstates, hwatches, done ++ [w], hnext, fun v hv e hready => ?_⟩
      rcases List.mem_append.mp hv with hv | hv
      · exact hstale v hv e hready
      · cases List.mem_singleton.mp hv
        obtain ⟨n, -, hn, -⟩ := states_eq_some.mp hready
        exact hdead (isLive_iff_node?.mpr ⟨n, hn⟩)

/-- The group `x` has got new elements, and groups that follow it have been told. -/
structure Notifies (F : NodeId → NodeId → Prop) (x : NodeId) (t t' : Tree) : Prop where
  other : ∀ {y}, y ≠ x → t'.states y = t.states y ∨
    F y x ∧ ∃ d, t.states y = some (.ready, d) ∧ t'.states y = some (.stale, d)
  watches : ∀ {a b}, t'.Watches a b ↔ t.Watches a b
  stale : ∀ {w e}, t.Watches w x → t'.states w ≠ some (.ready, e)

/-- Replacing the elements of a group gives it the count, and makes groups stale that watch it. -/
theorem replaceElements_settles {visit : NodeId → TreeM Unit} (h : t₀.Settling τ t) {phase : Phase}
    (hid : t.states id = some (phase, c)) (hself : phase = .ready → ¬ t₀.Ties τ id id)
    (hvisit : ∀ t, t₀.Settling τ t → ∀ n, t.node? id = some n → ∀ e ∈ n.children,
      wp (visit e) (fun r t' => r = .ok () ∧ t' = t) t) (count : Nat) :
    wp (replaceElementsWith visit id count) (fun r t' => r = .ok () ∧ t₀.Settling τ t' ∧
      t'.states id = some (phase, count) ∧
      (count = c ∧ t' = t ∨ count ≠ c ∧ Notifies (t₀.Ties τ) id t t')) t := by
  obtain ⟨n, g, hn, hk, hphase, hlength⟩ := states_eq_some.mp hid
  have hwf := h.wellFormed hstart
  have hm := h.models hstart
  unfold replaceElementsWith
  simp only [wp.bind, wp.look, children, look_of_node? hn]
  split
  · rename_i hcount
    rw [hlength] at hcount
    exact ⟨rfl, h, hcount ▸ hid, .inl ⟨hcount.symm, rfl⟩⟩
  · rename_i hne
    simp only [wp.bind, wp.look, group_eq_ok.mpr ⟨n, hn, hk⟩]
    refine (swapElements_spec (C := fun _ => True) (fun _ => trivial) hwf hn g.element count).mono ?_
    rintro _ t₂ ⟨elements, rfl, hcount, hswap⟩
    have hev := hswap.evolves hn hk rfl
    obtain ⟨n₂, hn₂, -, hch₂⟩ := hswap.exchanged hn
    have hm₂ := hm.evolve hwf τ.cellsIn_true hev
    have hnone : g.element.Groupless := hm.groupless hstart.wired.outer hwf hn hk
    have hstates : ∀ {x}, t₂.states x = if x = id then some (g.phase, elements.length)
        else t.states x := hswap.states hwf hm hm₂ hn hk hnone
    have hwatches : ∀ {x y}, t₂.Watches x y ↔ t.Watches x y :=
      hswap.watches hwf hm hm₂ hn hk hnone
    have h₂ : t₀.Settling τ t₂ := by
      refine h.step hev (fun {x} => ?_) fun hw => .inr (hwatches.mp hw)
      rw [hstates]
      split
      · rename_i hx
        subst hx
        rw [hid]
        exact iff_of_false (Option.some_ne_none _) (Option.some_ne_none _)
      · exact Iff.rfl
    refine (wp.forIn_idle fun e he => hvisit t₂ h₂ n₂ hn₂ e (hch₂ ▸ he)).mono ?_
    rintro _ t₂ ⟨rfl, rfl⟩
    simp only [wp.modify]
    have hlike : t₂.Like (t₂.invalidate id) := .of_invalidate
    have hid₂ : (t₂.invalidate id).states id = some (phase, count) := by
      rw [hlike.states, hstates, if_pos rfl, hphase, hcount]
    have hwatchers : ∀ w ∈ g.watchers, t₀.Ties τ w id :=
      fun w hw => h.watched ((watches_iff hn hk).mpr hw)
    refine (notify_settles (h₂.of_like hlike) hwatchers).mono ?_
    rintro _ t₃ ⟨rfl, h₃, hmarks, hkept, hstale⟩
    refine ⟨rfl, h₃, ?_, .inr ⟨fun hc => hne (hlength.trans hc.symm), fun {y} hy => ?_, ?_,
      fun {w e} hw => ?_⟩⟩
    · rcases hmarks with heq | ⟨hties, d, hd, -⟩
      · exact heq.trans hid₂
      · cases hid₂.symm.trans hd
        exact absurd hties (hself rfl)
    · have hsame : (t₂.invalidate id).states y = t.states y := by
        rw [hlike.states, hstates, if_neg hy]
      exact hsame ▸ hmarks
    · exact hkept.trans (hlike.watches.trans hwatches)
    · exact hstale w ((watches_iff hn hk).mp hw) e

omit hstart in
/-- Linking the fields of an element changes cells only. -/
theorem linkElement_level (hwf : t.WellFormed) (hm : t.Models (fun _ => True) τ τ.name t.root)
    {fields : List (String × String)} {source element : NodeId} {i : Nat}
    (helement : t.placed (i :: p) = some element) (hfields : ∀ pair ∈ fields,
      (∀ step ∈ (Path.parse pair.1).steps, step.Direct) ∧ ∃ q, τ.follow (i :: p) pair.1 = some q) :
    wp (linkElementWith init source element i fields) (fun r t' => r = .ok () ∧ t.Level t') t := by
  refine wp.linkElementWith (fun rest s => rest ⊆ fields ∧ t.Level s) ⟨fun _ hx => hx, .refl t⟩
    (fun s hs => ⟨rfl, hs.2⟩) fun own field rest s ⟨hsub, hs⟩ => ?_
  have hwf' := hs.alike.wellFormed hwf
  have hm' := hm.evolve hwf τ.cellsIn_true hs.evolves
  have helement' : s.placed (i :: p) = some element := (hs.alike.placed _).trans helement
  have hfound : wp (if own.isEmpty then Pure.pure element else findWith init element own)
      (fun r s' => s' = s ∧ ∃ target, r = .ok target ∧ ∃ q, s.placed q = some target) s := by
    split
    · exact ⟨rfl, element, rfl, _, helement'⟩
    · obtain ⟨hdirect, q, hq⟩ := hfields (own, field) (hsub List.mem_cons_self)
      refine (findWith_direct hwf' hm' helement' hdirect hq).mono ?_
      rintro _ _ ⟨rfl, target, rfl, htarget⟩
      exact ⟨rfl, target, rfl, q, htarget⟩
  refine hfound.mono ?_
  rintro _ s' ⟨rfl, target, rfl, q, hq⟩
  obtain ⟨m, hm⟩ := live_of_placed hwf' hq
  dsimp only
  rw [node_eq_ok.mpr hm]
  exact ⟨fun _ hx => hsub (List.mem_cons_of_mem _ hx), hs.trans (.trans .of_putCell Like.of_invalidate.level)⟩

/-- Linking the fields of all elements of a group changes cells only. -/
theorem linkElements_settles (h : t₀.Settling τ t) {phase : Phase}
    (hid : t.states id = some (phase, c)) :
    wp (linkElementsWith init id) (fun r t' => r = .ok () ∧ t.Level t') t := by
  obtain ⟨n, g, hn, hk, -, -⟩ := states_eq_some.mp hid
  have hwf := h.wellFormed hstart
  have hm := h.models hstart
  unfold linkElementsWith
  rw [wp.look_ok (group_eq_ok.mpr ⟨n, hn, hk⟩)]
  split
  case h_2 => exact ⟨rfl, .refl t⟩
  rename_i path fields min max hrule
  split
  · exact ⟨rfl, .refl t⟩
  obtain ⟨y, -, -, -, hsource⟩ := h.source hstart init hn hk hrule
  rw [wp.bind]
  refine hsource.mono ?_
  rintro _ t ⟨rfl, rfl⟩
  obtain ⟨p, hp⟩ := exists_position hwf hn
  obtain ⟨header, name, hpart⟩ := hm.rule hp hn hk
  rw [hrule] at hpart
  simp only [wp.bind, wp.look, children, look_of_node? hn]
  refine wp.forIn (fun rest s => rest ⊆ n.children.zipIdx ∧ t.Level s) ⟨fun _ hx => hx, .refl t⟩
    (fun s hs => ⟨rfl, hs.2⟩) ?_
  rintro ⟨element, i⟩ rest s ⟨hsub, hs⟩
  have helement : t.placed (i :: p) = some element :=
    placed_cons.mpr ⟨id, n, hp, hn, List.mk_mem_zipIdx_iff_getElem?.mp (hsub List.mem_cons_self)⟩
  rw [wp.bind]
  refine (linkElement_level (hs.alike.wellFormed hwf) (hm.evolve hwf τ.cellsIn_true hs.evolves)
    ((hs.alike.placed _).trans helement) fun pair hpair => ?_).mono ?_
  · obtain ⟨hdirect, hfollow⟩ := hstart.wired.pairs hpart hpair
    exact ⟨hdirect, hfollow i⟩
  · rintro _ s' ⟨rfl, hs'⟩
    exact ⟨fun _ hx => hsub (List.mem_cons_of_mem _ hx), hs.trans hs'⟩

-- ---------------------------------------------------------------------------
-- Initialization
-- ---------------------------------------------------------------------------

/-- The group `x` is ready with `d` elements, after `c` before. Groups that watch it have been told
unless these are as many. -/
structure Refills (F : NodeId → NodeId → Prop) (x : NodeId) (c d : Nat) (t t' : Tree) : Prop where
  marks : Marks F x d t.states t'.states
  watches : ∀ {a b}, t'.Watches a b ↔ t.Watches a b
  told : (d = c ∧ ∀ y, y ≠ x → t'.states y = t.states y) ∨
    d ≠ c ∧ ∀ {w e}, t.Watches w x → w ≠ x → t'.states w ≠ some (.ready, e)

/-- Initializing a group takes its count from where its rule says, and gives it its elements. -/
theorem initStep_settles {run : Task → TreeM Unit} {P : Nat → Tree → Prop} (h : t₀.Settling τ t)
    {phase : Phase} (hx : t.states x = some (phase, c))
    (hcount : ∀ t₁, t₀.Settling τ t₁ → t₁.states x = some (.initializing, c) →
      (∀ y, y ≠ x → t₁.states y = t.states y) → (∀ {a b}, t₁.Watches a b ↔ t.Watches a b) →
        wp (countByRuleWith (fun id => run (.init id)) x) (fun r t₂ => ∃ d, r = .ok d ∧
          t₀.Settling τ t₂ ∧ t₂.states x = some (.initializing, c) ∧ P d t₂) t₁)
    (hvisit : ∀ t, t₀.Settling τ t → ∀ n, t.node? x = some n → ∀ e ∈ n.children,
      wp (run (.visit e)) (fun r t' => r = .ok () ∧ t' = t) t) :
    wp (initStep run x) (fun r t' => r = .ok () ∧ t₀.Settling τ t' ∧
      ∃ d t₂, P d t₂ ∧ Refills (t₀.Ties τ) x c d t₂ t') t := by
  obtain ⟨n, -, hn, -⟩ := states_eq_some.mp hx
  unfold initStep
  simp only [wp.bind, wp.update, wp.outcome, Tree.setPhase, node_eq_ok.mpr hn, ok_bind, pure_eq_ok]
  refine (hcount _ (h.setPhase .initializing) (states_setPhase .initializing hx)
    (fun y hy => states_setPhase_ne .initializing hy) (watches_setPhase .initializing)).mono ?_
  rintro _ t₂ ⟨d, rfl, h₂, hx₂, hP⟩
  refine (replaceElements_settles hstart h₂ hx₂ Phase.noConfusion hvisit d).mono ?_
  rintro _ t₃ ⟨rfl, h₃, hx₃, hreplaced⟩
  refine (linkElements_settles hstart h₃ hx₃).mono ?_
  rintro _ t₄ ⟨rfl, hlevel⟩
  have hx₄ : t₄.states x = some (.initializing, d) := hlevel.states ▸ hx₃
  have h₄ : t₀.Settling τ t₄ := Settling.coarse _ _ hlevel.evolves hlevel.states hlevel.watches h₃
  obtain ⟨n₄, -, hn₄, -⟩ := states_eq_some.mp hx₄
  simp only [wp.update, node_eq_ok.mpr hn₄, ok_bind]
  have hother : ∀ {y}, y ≠ x → (t₄.modifyGroup x ({ · with phase := .ready })).states y =
      t₃.states y := fun hy => (states_setPhase_ne .ready hy).trans (congrFun hlevel.states _)
  refine ⟨trivial, h₄.setPhase .ready, d, t₂, hP, ⟨states_setPhase .ready hx₄, fun {y} hy => ?_⟩,
    (watches_setPhase .ready).trans ((hlevel.watches _ _).trans ?_), ?_⟩
  · rw [hother hy]
    rcases hreplaced with ⟨-, rfl⟩ | ⟨-, hnotified⟩
    · exact .inl rfl
    · exact hnotified.other hy
  · rcases hreplaced with ⟨-, rfl⟩ | ⟨-, hnotified⟩
    · exact Iff.rfl
    · exact hnotified.watches
  · rcases hreplaced with ⟨hd, rfl⟩ | ⟨hne, hnotified⟩
    · exact .inl ⟨hd, fun y hy => hother hy⟩
    · refine .inr ⟨hne, fun hw hwx => ?_⟩
      rw [hother hwx]
      exact hnotified.stale hw

/-- The elements of a group can be visited wherever there is room for the group. -/
theorem visit_elements {n₀ : Node} (hn₀ : t₀.node? x = some n₀) (hx : t₀.states x ≠ none)
    (depth : Nat) (hdepth : n₀.weight ≤ depth + 1) (t : Tree) (h : t₀.Settling τ t) (n : Node)
    (hn : t.node? x = some n) (e : NodeId) (he : e ∈ n.children) :
    wp (runTask depth (.visit e)) (fun r t' => r = .ok () ∧ t' = t) t := by
  rw [Ne, ← h.groups] at hx
  obtain ⟨⟨phase, c⟩, hstate⟩ := Option.ne_none_iff_exists'.mp hx
  obtain ⟨m, g, hm, hk, -⟩ := states_eq_some.mp hstate
  rw [hn] at hm
  cases hm
  obtain ⟨m₀, g₀, -, hm₀, hk₀, -, -, hsame⟩ := h.placed hstart hstate
  rw [hn₀] at hm₀
  cases hm₀
  unfold Node.weight at hdepth
  rw [hk₀] at hdepth
  dsimp only at hdepth
  have hwf := h.wellFormed hstart
  have hm := h.models hstart
  refine visit_element hwf hm hn hk (hm.groupless hstart.wired.outer hwf hn hk) he ?_
  rw [(hsame n g hn hk).2]
  omega

-- ---------------------------------------------------------------------------
-- Visits
-- ---------------------------------------------------------------------------

omit hstart in
/-- Initializing a group leaves it ready, and keeps what is known of the tree between visits. -/
structure Completes (τ : Template) (t₀ : Tree) (I : Tree → Prop) : Prop where
  settling : ∀ {t}, I t → t₀.Settling τ t
  idle : ∀ {t x c}, I t → t.states x ≠ some (.initializing, c)
  init : ∀ {depth t x phase c}, (t₀.without []).weight + 1 ≤ depth → I t →
    t.states x = some (phase, c) → phase ≠ .ready →
      wp (runTask depth (.init x)) (fun r t' => r = .ok () ∧ I t' ∧ Progress [] t.states t'.states ∧
        ∃ d, t'.states x = some (.ready, d)) t

omit hstart in
/-- The groups at and below a position are ready. -/
def ReadyFrom (t₀ : Tree) (p : Position) (s : States) : Prop :=
  ∀ q y, t₀.placed (q ++ p) = some y → t₀.states y ≠ none → ∃ c, s y = some (.ready, c)

omit hstart in
theorem ReadyFrom.progress {s s' : States} (h : t₀.ReadyFrom p s) (hprogress : Progress [] s s') :
    t₀.ReadyFrom p s' := by
  intro q y hy hgroup
  obtain ⟨c, hc⟩ := h q y hy hgroup
  exact ⟨c, hprogress.ready hc⟩

omit hstart in
/-- What is below a position is the node there, or below one of its children. -/
theorem ReadyFrom.of_children {s : States} {n₀ : Node} (hp : t₀.placed p = some x)
    (hn₀ : t₀.node? x = some n₀) (hx : t₀.states x ≠ none → ∃ c, s x = some (.ready, c))
    (hchildren : ∀ i < n₀.children.length, t₀.ReadyFrom (i :: p) s) : t₀.ReadyFrom p s := by
  have hbelow : ∀ q y, t₀.placed (q ++ p) = some y → q = [] ∧ y = x ∨
      ∃ i q', i < n₀.children.length ∧ t₀.placed (q' ++ i :: p) = some y := by
    intro q
    induction q with
    | nil =>
      intro y hy
      rw [List.nil_append, hp] at hy
      cases hy
      exact .inl ⟨rfl, rfl⟩
    | cons j q ih =>
      intro y hy
      obtain ⟨z, m, hz, hm, hj⟩ := placed_cons.mp hy
      rcases ih z hz with ⟨rfl, rfl⟩ | ⟨i, q', hi, hz'⟩
      · rw [hn₀] at hm
        cases hm
        exact .inr ⟨j, [], (List.getElem?_eq_some_iff.mp hj).1, hy⟩
      · exact .inr ⟨i, j :: q', hi, placed_cons.mpr ⟨z, m, hz', hm, hj⟩⟩
  intro q y hy hgroup
  rcases hbelow q y hy with ⟨-, rfl⟩ | ⟨i, q', hi, hy'⟩
  · exact hx hgroup
  · exact hchildren i hi q' y hy' hgroup

section

variable {I : Tree → Prop} (hI : t₀.Completes τ I)

include hI

omit hstart in
theorem touchWith_completes {depth : Nat} (hdepth : (t₀.without []).weight + 1 ≤ depth) (h : I t)
    {phase : Phase} (hx : t.states x = some (phase, c)) :
    wp (touchWith (fun id => runTask depth (.init id)) x) (fun r t' => r = .ok () ∧ I t' ∧
      Progress [] t.states t'.states ∧ ∃ d, t'.states x = some (.ready, d)) t := by
  obtain ⟨n, g, hn, hk, hphase, -⟩ := states_eq_some.mp hx
  unfold touchWith
  rw [wp.bind, wp.look, group_eq_ok.mpr ⟨n, hn, hk⟩]
  dsimp only
  rw [hphase]
  cases phase with
  | uninit => exact hI.init hdepth h hx Phase.noConfusion
  | stale => exact hI.init hdepth h hx Phase.noConfusion
  | ready => exact ⟨rfl, h, .refl _ _, c, hx⟩
  | initializing => exact absurd hx (hI.idle h)

omit hstart hI in
/-- One child is visited after the other. -/
theorem visitChildren_completes {visit : NodeId → TreeM Unit} {n₀ : Node} (h : I t)
    (hp : t₀.placed p = some x) (hn₀ : t₀.node? x = some n₀)
    (hvisit : ∀ s i c, I s → t₀.placed (i :: p) = some c →
      wp (visit c) (fun r s' => r = .ok () ∧ I s' ∧ Progress [] s.states s'.states ∧
        t₀.ReadyFrom (i :: p) s'.states) s) :
    wp (forIn n₀.children PUnit.unit fun c _ => do
      visit c
      return .yield PUnit.unit : TreeM PUnit) (fun r t' => r = .ok ⟨⟩ ∧ I t' ∧
        Progress [] t.states t'.states ∧
        ∀ i < n₀.children.length, t₀.ReadyFrom (i :: p) t'.states) t := by
  refine wp.forIn (fun rest s => I s ∧ Progress [] t.states s.states ∧
      ∃ done, n₀.children = done ++ rest ∧ ∀ i < done.length, t₀.ReadyFrom (i :: p) s.states)
    ⟨h, .refl _ _, [], rfl, fun i hi => absurd hi (Nat.not_lt_zero i)⟩ ?_ ?_
  · rintro s ⟨hs, hprogress, done, hdone, hready⟩
    rw [List.append_nil] at hdone
    exact ⟨rfl, hs, hprogress, hdone ▸ hready⟩
  · rintro c rest s ⟨hs, hprogress, done, hdone, hready⟩
    have hc : t₀.placed (done.length :: p) = some c :=
      placed_cons.mpr ⟨x, n₀, hp, hn₀, by rw [hdone]; simp⟩
    simp only [wp.bind, wp.pure]
    refine (hvisit s done.length c hs hc).mono ?_
    rintro _ s' ⟨rfl, hs', hprogress', hready'⟩
    refine ⟨hs', hprogress.trans hprogress', done ++ [c], by rw [hdone]; simp, fun i hi => ?_⟩
    rw [List.length_append, List.length_singleton] at hi
    rcases Nat.lt_succ_iff_lt_or_eq.mp hi with hi | rfl
    · exact (hready i hi).progress hprogress'
    · exact hready'

/-- After a visit the groups at and below a node are ready. -/
theorem visit_completes (depth : Nat) (h : I t) (hp : t₀.placed p = some x) {name : String}
    (hpart : τ.partAt p = some (σ, name)) (hdepth : σ.size + t₀.weight + 1 ≤ depth) :
    wp (runTask depth (.visit x)) (fun r t' => r = .ok () ∧ I t' ∧
      Progress [] t.states t'.states ∧ t₀.ReadyFrom p t'.states) t := by
  induction depth generalizing t x p σ name with
  | zero => exact absurd hdepth (Nat.not_succ_le_zero _)
  | succ depth ih =>
    have hsize := σ.one_le_size
    have hsettling := hI.settling h
    obtain ⟨n₀, hn₀⟩ := live_of_placed hstart.wellFormed hp
    obtain ⟨n, hn⟩ := live_of_placed (hsettling.wellFormed hstart) (hsettling.placed_of_start hstart hp)
    rw [runTask, visitStep, wp.bind, wp.look, isGroup, look_of_node? hn]
    dsimp only
    cases hrep : n.kind.isRepeated with
    | true =>
      obtain ⟨g, hk⟩ := NodeKind.isRepeated_iff.mp hrep
      have hroom : (t₀.without []).weight + 1 ≤ depth := by
        rw [without, List.foldr_nil]
        omega
      rw [if_pos rfl, wp.bind]
      refine (touchWith_completes hI hroom h (states_of_node? hn hk)).mono ?_
      rintro _ t₁ ⟨rfl, h₁, hprogress, d, hd⟩
      obtain ⟨n₁, -, hn₁, -⟩ := states_eq_some.mp hd
      have hgroup : t₀.states x ≠ none := by
        rw [Ne, ← (hI.settling h₁).groups, hd]
        exact Option.some_ne_none _
      have hweight : t₀.weight ≤ depth + 1 := by omega
      have hvisit := visit_elements hstart hn₀ hgroup depth ((le_total Node.weight hn₀).trans hweight)
        t₁ (hI.settling h₁) n₁ hn₁
      dsimp only
      simp only [wp.bind, wp.look, children, look_of_node? hn₁]
      refine (wp.forIn_idle hvisit).mono ?_
      rintro _ t₁ ⟨rfl, rfl⟩
      refine ⟨rfl, h₁, hprogress, .of_children hp hn₀ (fun _ => ⟨d, hd⟩) fun i hi => ?_⟩
      rw [hstart.untouched_children hn₀ hgroup] at hi
      cases hi
    | false =>
      have hx : t₀.states x = none := hsettling.groups.mp <| states_eq_none.mpr fun m hm => by
        rw [hn] at hm
        cases hm
        exact hrep
      rw [if_neg Bool.false_ne_true]
      simp only [wp.bind, wp.look, children, look_of_node? hn]
      rw [hsettling.children hstart hn₀ hn (states_eq_none.mp hx n₀ hn₀)]
      refine (visitChildren_completes h hp hn₀ fun s i c hs hc => ?_).mono ?_
      · obtain ⟨σ', name', hpart', -⟩ := hstart.models.placed hc
        have hσ' := hpart'
        rw [Template.partAt, hpart] at hσ'
        have hlt := Template.size_part hσ'
        exact ih hs hc hpart' (by omega)
      · rintro _ t' ⟨rfl, h', hprogress, hready⟩
        exact ⟨rfl, h', hprogress, .of_children hp hn₀ (fun hne => absurd hx hne) hready⟩

end

end

end Tree

end FormatFuzz
