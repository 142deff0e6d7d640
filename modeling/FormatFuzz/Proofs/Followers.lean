-- SUMMARY: What the initialization of a follower makes of it.
import FormatFuzz.Proofs.Couplings
import FormatFuzz.Proofs.Links

/-!
# Followers

A follower that is initialized finds its source and is entered as a watcher there, takes the count over, gets
as many elements, and has the fields of each bound to the element of the source of the same index. In the end
its leaves show the source (`Tree.Coupled.initStep`). On the way the source is initialized if need be, and so
are groups that paths lead through.

The tree may be new, and then a failure is the end of it. Or all other groups have their elements, and then a
failure leaves the follower without its own, and everything else as it was.
-/

namespace FormatFuzz

open TreeM

namespace Tree

variable {τ : Template} {c : Coupling τ} {a b x y id e : NodeId} {t t' t₁ t₂ : Tree} {n : Node} {g : Group}
  {k m depth : Nat} {es : List NodeId}

-- ---------------------------------------------------------------------------
-- Tending
-- ---------------------------------------------------------------------------

/-- No group but the follower is without its elements that had them, and the source is as it was if it was
ready. -/
structure Tends (a b : NodeId) (t t' : Tree) : Prop where
  evolves : Evolves (fun _ => True) t t'
  pending : ∀ {y}, t'.Pending y → y = b ∨ t.Pending y
  source : ∀ {k}, t.states a = some (.ready, k) → t'.states a = some (.ready, k)

namespace Tends

theorem refl : Tends a b t t := ⟨.refl _ t, .inr, fun h => h⟩

theorem trans (h : Tends a b t t₁) (h' : Tends a b t₁ t₂) : Tends a b t t₂ where
  evolves := h.evolves.trans h'.evolves
  pending := fun hy => (h'.pending hy).elim .inl h.pending
  source := fun hk => h'.source (h.source hk)

theorem quiet (h : Tends a b t t') (hquiet : t.Quiet b) : t'.Quiet b :=
  fun _ hy => (h.pending hy).elim (fun he => he) fun hy => hquiet hy

theorem of_level (h : t.Level t') : Tends a b t t' where
  evolves := h.evolves
  pending := fun hy => .inr (by rwa [pending_iff, h.states, ← pending_iff] at hy)
  source := fun hk => by rwa [h.states]

theorem setPhase (hne : a ≠ b) (phase : Phase) : Tends a b t (t.modifyGroup b ({ · with phase })) where
  evolves := .of_modifyGroup fun _ => rfl
  pending := by
    intro y hy
    by_cases hyb : y = b
    · exact .inl hyb
    · rw [pending_iff, states_setPhase_ne phase hyb, ← pending_iff] at hy
      exact .inr hy
  source := fun hk => by rwa [states_setPhase_ne phase hne]

end Tends

theorem Bypasses.tends (h : t.Bypasses c a b t') : Tends a b t t' :=
  ⟨h.evolves, fun hy => .inr (h.pending hy), h.source⟩

-- ---------------------------------------------------------------------------
-- Small changes
-- ---------------------------------------------------------------------------

namespace Joined

variable (h : t.Joined c a b)

include h

theorem level (hlevel : t.Level t') : t'.Joined c a b := by
  refine h.of_alike hlevel.alike (fun hy => h.idle ?_) (fun hy => .inr ?_)
    fun hw => h.watches ((hlevel.watches _ _).mp hw)
  · rwa [busy_iff, hlevel.states, ← busy_iff] at hy
  · rwa [pending_iff, hlevel.states, ← pending_iff] at hy

theorem setPhase (phase : Phase) : (t.modifyGroup b ({ · with phase })).Joined c a b := by
  refine h.of_alike (.of_modifyGroup fun _ => rfl) (fun {y} hy => ?_)
    (Tends.setPhase h.source_ne phase).pending fun hw => h.watches ((watches_setPhase phase).mp hw)
  by_contra hyb
  rw [busy_iff, states_setPhase_ne phase hyb, ← busy_iff] at hy
  exact hyb (h.idle hy)

theorem group (hp : t.placed p = some x) (hrep : (τ.partAt p).any (·.1.isRepeated) = true) :
    ∃ n g, t.node? x = some n ∧ n.kind = .repeated g := by
  obtain ⟨n, hn⟩ := live_of_placed h.wellFormed hp
  obtain ⟨σ, name, hpart, hm⟩ := h.models.placed hp
  rw [hpart, Option.any_some, ← (hm.kind hn).2] at hrep
  obtain ⟨g, hk⟩ := NodeKind.isRepeated_iff.mp hrep
  exact ⟨n, g, hn, hk⟩

/-- The follower has the rule of the template. -/
theorem follower_group : ∃ n g min max, t.node? b = some n ∧ n.kind = .repeated g ∧
    g.rule = .bound c.path c.fields min max := by
  obtain ⟨n, g, hn, hk⟩ := h.group h.follower c.follower_isRepeated
  obtain ⟨header, name, hpart⟩ := h.models.rule h.follower hn hk
  obtain ⟨header', element, min, max, name', hpart'⟩ := c.bound
  rw [hpart, Option.some.injEq, Prod.mk.injEq, Template.repeated.injEq] at hpart'
  exact ⟨n, g, min, max, hn, hk, hpart'.1.2.2⟩

end Joined

theorem Entered.level (h : t.Entered c a b) (hlevel : t.Level t') : t'.Entered c a b where
  toJoined := h.toJoined.level hlevel
  busy := by
    rw [busy_iff, hlevel.states, ← busy_iff]
    exact h.busy

theorem Primed.level (h : t.Primed a b k) (hlevel : t.Level t') : t'.Primed a b k :=
  ⟨by rw [hlevel.states, h.source], (hlevel.watches _ _).mpr h.watched⟩

/-- The follower is entered as a watcher of its source. -/
theorem Entered.watch (h : t.Entered c a b) :
    let t' := t.modifyGroup a fun group => { group with watchers := NodeId.insertInto b group.watchers }
    t'.Entered c a b ∧ Tends a b t t' ∧ t'.Watches b a := by
  intro t'
  have hstates : t'.states = t.states := states_watch b
  have hpending : ∀ {y}, t'.Pending y → t.Pending y := fun hy => by
    rwa [pending_iff, hstates, ← pending_iff] at hy
  refine ⟨⟨h.toJoined.of_alike (.of_modifyGroup fun _ => rfl) (fun hy => h.idle ?_) (fun hy => .inr (hpending hy))
    fun hw => ?_, ?_⟩, ⟨.of_modifyGroup fun _ => rfl, fun hy => .inr (hpending hy), fun hk => by rwa [hstates]⟩,
    watches_watch.mpr (.inr ⟨rfl, rfl, ?_⟩)⟩
  · rwa [busy_iff, hstates, ← busy_iff] at hy
  · rcases watches_watch.mp hw with hw | ⟨rfl, rfl, -⟩
    · exact h.watches hw
    · exact ⟨rfl, rfl⟩
  · rw [busy_iff, hstates, ← busy_iff]
    exact h.busy
  · obtain ⟨n, g, hn, hk⟩ := h.group h.source c.source_isRepeated
    rw [states_of_node? hn hk]
    exact Option.some_ne_none _

-- ---------------------------------------------------------------------------
-- The count
-- ---------------------------------------------------------------------------

/-- The path of the rule leads to the source. -/
theorem Entered.sourceWith (h : t.Entered c a b) (depth : Nat) :
    wp (sourceWith (fun id => runTask depth (.init id)) b c.path) (fun r t' =>
      (∀ x, r = .ok x → x = a ∧ t.Bypasses c a b t') ∧ (t.Quiet b → t' = t)) t := by
  have hstart : t.Bypasses c a b t ∧ (t.Quiet b → t = t) := ⟨.refl, fun _ => rfl⟩
  refine ((h.pathRules depth).sourceWith h.wellFormed h.models h.follower (fun _ _ => trivial) hstart hstart).mono ?_
  rintro (e | source) t' ⟨hok, herror⟩
  · exact ⟨fun _ hx => absurd hx error_ne_ok, herror e rfl⟩
  · obtain ⟨q, hq, hsource, hbypasses, hquiet⟩ := hok source rfl
    cases c.leads.symm.trans hq
    cases hsource.symm.trans (h.placed hbypasses.evolves).2
    refine ⟨fun x hx => ?_, hquiet⟩
    cases hx
    exact ⟨rfl, hbypasses⟩

/-- The source is initialized when it is asked for its count, unless it is ready. -/
theorem Entered.countWith (h : t.Entered c a b) (hw : t.Watches b a) (depth : Nat) :
    wp (countWith (fun id => runTask depth (.init id)) a) (fun r t' =>
      (∀ k, r = .ok k → t.Bypasses c a b t' ∧ t'.Primed a b k) ∧ (t.Quiet b → t' = t)) t := by
  obtain ⟨n, g, hn, hk⟩ := h.group h.source c.source_isRepeated
  have hcoupled : t.Coupled c a b := ⟨h.toJoined, fun hk => absurd (served_iff.mpr ⟨_, hk⟩) h.not_served⟩
  have hinit : t.Pending a → wp (do
      runTask depth (.init a)
      return (← TreeM.look (·.children a)).length : TreeM Nat) (fun r t' =>
        (∀ k, r = .ok k → t.Bypasses c a b t' ∧ t'.Primed a b k) ∧ (t.Quiet b → t' = t)) t := by
    intro hpending
    rw [wp.bind]
    refine (hcoupled.init_bypasses hpending h.source_ne depth).mono fun r t' hr => ?_
    have hloud : t.Quiet b → t' = t := fun hquiet => absurd (hquiet hpending) h.source_ne
    cases r with
    | error e => exact ⟨fun _ hx => absurd hx error_ne_ok, hloud⟩
    | ok _ =>
      obtain ⟨hbypasses, -, hready⟩ := hr rfl
      obtain ⟨n', g', hn', hk'⟩ := (hbypasses.joined h.toJoined).group (h.placed hbypasses.evolves).2 c.source_isRepeated
      simp only [wp.bind, wp.look, children, look_of_node? hn', wp.pure]
      refine ⟨fun k hx => ?_, hloud⟩
      cases hx
      have hphase : g'.phase = .ready := by
        by_contra hne
        exact hready ⟨n', g', hn', hk', hne⟩
      exact ⟨hbypasses, hphase ▸ states_of_node? hn' hk', hbypasses.heard hw⟩
  unfold TreeM.countWith
  rw [wp.look_ok (group_eq_ok.mpr ⟨n, hn, hk⟩)]
  cases hphase : g.phase with
  | uninit => exact hinit ⟨n, g, hn, hk, by simp [hphase]⟩
  | stale => exact hinit ⟨n, g, hn, hk, by simp [hphase]⟩
  | initializing => exact absurd (h.idle ⟨n, g, hn, hk, hphase⟩) h.source_ne
  | ready =>
    simp only [wp.bind, wp.look, children, look_of_node? hn, wp.pure]
    refine ⟨fun k hx => ?_, fun _ => trivial⟩
    cases hx
    exact ⟨.refl, hphase ▸ states_of_node? hn hk, hw⟩

/-- The count of the follower is that of its source. -/
theorem Entered.countByRuleWith (h : t.Entered c a b) (depth : Nat) :
    wp (countByRuleWith (fun id => runTask depth (.init id)) b) (fun r t' =>
      ((∃ k, r = .ok k) ∨ t.Quiet b → t'.Entered c a b ∧ Tends a b t t') ∧
        ∀ k, r = .ok k → t'.Primed a b k) t := by
  obtain ⟨n, g, min, max, hn, hk, hrule⟩ := h.follower_group
  unfold TreeM.countByRuleWith
  rw [wp.look_ok (group_eq_ok.mpr ⟨n, hn, hk⟩), hrule]
  dsimp only
  rw [wp.bind]
  refine (h.sourceWith depth).mono ?_
  rintro (e | source) t₁ ⟨hok, hquiet⟩
  · refine ⟨?_, fun _ hx => absurd hx error_ne_ok⟩
    rintro (⟨k, hx⟩ | hq)
    · exact absurd hx error_ne_ok
    · rw [hquiet hq]
      exact ⟨h, .refl⟩
  · obtain ⟨rfl, hbypasses⟩ := hok source rfl
    obtain ⟨h₂, htends, hw⟩ := (hbypasses.entered h).watch
    simp only [wp.bind, wp.modify]
    have htends := hbypasses.tends.trans htends
    refine (h₂.countWith hw depth).mono fun r t₃ h₃ => ?_
    refine ⟨?_, fun k hx => (h₃.1 k hx).2⟩
    rintro (⟨k, hx⟩ | hq)
    · have hbypasses' := (h₃.1 k hx).1
      exact ⟨hbypasses'.entered h₂, htends.trans hbypasses'.tends⟩
    · rw [h₃.2 (htends.quiet hq)]
      exact ⟨h₂, htends⟩

-- ---------------------------------------------------------------------------
-- Links
-- ---------------------------------------------------------------------------

/-- In a tree that comes from `t`, the follower has the elements `es`, and the leaves in those of `shown` show
the source. -/
structure Fastened (c : Coupling τ) (a b : NodeId) (k : Nat) (es : List NodeId) (t : Tree) (shown : Nat → Prop)
    (t' : Tree) : Prop where
  entered : t'.Entered c a b
  tends : Tends a b t t'
  primed : t'.Primed a b k
  children : ∃ n, t'.node? b = some n ∧ n.children = es
  shows : ∀ {i}, shown i → t'.Shows c a i

namespace Fastened

variable {s s' : Tree} {shown shown' : Nat → Prop} {q : Position} {field : String}

theorem bypasses (h : Fastened c a b k es t shown s) (hbypasses : s.Bypasses c a b s') :
    Fastened c a b k es t shown s' where
  entered := hbypasses.entered h.entered
  tends := h.tends.trans hbypasses.tends
  primed := hbypasses.primed h.primed
  children := by
    obtain ⟨n, hn, hch⟩ := h.children
    have hkept := hbypasses.kept (r := []) h.entered.follower
    rw [hn] at hkept
    obtain ⟨n', hn', hbare⟩ := Option.map_eq_some_iff.mp hkept
    have hchildren := Node.children_of_bare hbare
    exact ⟨n', hn', Eq.trans hchildren hch⟩
  shows := fun hi => hbypasses.shows h.entered.toJoined (h.shows hi)

/-- A node is bound to the element of the source at an index. It may be a leaf that shows the source if it is
the one in the element of the follower at that index. -/
theorem bind (h : Fastened c a b k es t shown s) (hq : s.placed q = some x)
    (hleaf : ∀ {i}, q = c.leaf ++ i :: c.follower → i = m ∧ field = c.sourceField)
    (hshown : ∀ {i}, shown' i → shown i ∨ q = c.leaf ++ i :: c.follower) :
    Fastened c a b k es t shown' ((s.putCell x (.bound (.element a m field))).invalidate x) := by
  have hlike : (s.putCell x (.bound (.element a m field))).Like
      ((s.putCell x (.bound (.element a m field))).invalidate x) := .of_invalidate
  have hlevel := Level.of_putCell.trans hlike.level
  refine ⟨h.entered.level hlevel, h.tends.trans (.of_level hlevel), h.primed.level hlevel, ?_,
    fun {i} hi y n' hy hn' => ?_⟩
  · obtain ⟨n, hn, hch⟩ := h.children
    obtain ⟨n', hn', -, hch'⟩ := hlevel.alike.node? hn
    exact ⟨n', hn', hch'.trans hch⟩
  · rw [hlevel.alike.placed] at hy
    obtain ⟨n₁, hn₁, hbare⟩ := hlike.symm.node? hn'
    have hcell : n₁.cell = n'.cell := Node.cell_of_bare hbare
    rw [← hcell]
    unfold putCell at hn₁
    rw [node?_modify] at hn₁
    split at hn₁
    · rename_i hyx
      subst hyx
      obtain ⟨n₀, -, rfl⟩ := Option.map_eq_some_iff.mp hn₁
      obtain ⟨rfl, rfl⟩ := hleaf (placed_inj h.entered.wellFormed hq hy)
      rfl
    · rename_i hyx
      rcases hshown hi with hi | rfl
      · exact h.shows hi hy hn₁
      · exact absurd (Option.some.inj (hy.symm.trans hq)) hyx

/-- The element of the follower at an index is found there. -/
theorem element (h : Fastened c a b k es t shown s) (he : es[m]? = some e) :
    s.placed (m :: c.follower) = some e := by
  obtain ⟨n, hn, hch⟩ := h.children
  exact placed_cons.mpr ⟨b, n, h.entered.follower, hn, hch ▸ he⟩

/-- A pair of fields is followed. The node that it binds is the leaf in the element if and only if the pair is the
one for the leaf. -/
theorem bindField {j : Nat} {pair : String × String}
    (h : Fastened c a b k es t (fun i => i < m ∨ i = m ∧ c.pair < j) s) (hget : c.fields[j]? = some pair)
    (hfollow : τ.follow (m :: c.follower) pair.1 = some q) (hq : s.placed q = some x) :
    Fastened c a b k es t (fun i => i < m ∨ i = m ∧ c.pair < j + 1)
      ((s.putCell x (.bound (.element a m pair.2))).invalidate x) := by
  refine h.bind hq (fun {i} hi => ?_) fun {i} hi => ?_
  · by_cases hj : j = c.pair
    · rw [hj, c.paired, Option.some.injEq] at hget
      rw [← hget, c.shown m, hi, Option.some.injEq, List.append_cancel_left_eq, List.cons.injEq] at hfollow
      exact ⟨hfollow.1.symm, by rw [← hget]⟩
    · exact absurd (hi ▸ hfollow) (c.apart hj hget m i)
  · by_cases hj : j = c.pair
    · rw [hj, c.paired, Option.some.injEq] at hget
      rw [← hget, c.shown m, Option.some.injEq] at hfollow
      by_cases him : i = m
      · exact .inr (him ▸ hfollow.symm)
      · exact .inl (by omega)
    · exact .inl (by omega)

/-- The fields of an element are bound, and the leaf among them once. -/
theorem linkElement (h : Fastened c a b k es t (· < m) s) (he : es[m]? = some e) (depth : Nat) :
    wp (linkElementWith (fun id => runTask depth (.init id)) a e m c.fields) (fun r s' =>
      (r = .ok ⟨⟩ → Fastened c a b k es t (· < m + 1) s') ∧
        (t.Quiet b → s'.Entered c a b ∧ Tends a b t s')) s := by
  refine wp.linkElementWith (fun rest s => ∃ j, rest = c.fields.drop j ∧
    Fastened c a b k es t (fun i => i < m ∨ i = m ∧ c.pair < j) s) ⟨0, rfl, ?_⟩ ?_ ?_
  · have hshown : ∀ {i}, (i < m ∨ i = m ∧ c.pair < 0) → i < m := fun hi => by omega
    exact ⟨h.entered, h.tends, h.primed, h.children, fun hi => h.shows (hshown hi)⟩
  · rintro s ⟨j, hj, hs⟩
    have hpair := (List.getElem?_eq_some_iff.mp c.paired).1
    have hall := List.drop_eq_nil_iff.mp hj.symm
    refine ⟨fun _ => ⟨hs.entered, hs.tends, hs.primed, hs.children, fun {i} hi => hs.shows ?_⟩,
      fun _ => ⟨hs.entered, hs.tends⟩⟩
    have hi : i < m + 1 := hi
    omega
  · rintro own field rest s ⟨j, hj, hs⟩
    have hget : c.fields[j]? = some (own, field) := by
      rw [← List.head?_drop, ← hj]
      rfl
    have hrest : rest = c.fields.drop (j + 1) := by
      rw [← List.tail_drop, ← hj]
      rfl
    have hplace := hs.element he
    have hfound : wp (if own.isEmpty then Pure.pure e else findWith (fun id => runTask depth (.init id)) e own)
        (fun r s' => (∀ target, r = .ok target → s.Bypasses c a b s' ∧
          ∃ q, τ.follow (m :: c.follower) own = some q ∧ s'.placed q = some target) ∧
          ∀ e, r = .error e → s.Quiet b → s' = s) s := by
      split
      · rename_i hempty
        refine ⟨?_, fun _ he => absurd he.symm error_ne_ok⟩
        rintro _ ⟨⟩
        refine ⟨.refl, _, ?_, hplace⟩
        rw [String.isEmpty_iff.mp hempty]
        rfl
      · have hstart : s.Bypasses c a b s ∧ (s.Quiet b → s = s) := ⟨.refl, fun _ => rfl⟩
        refine ((hs.entered.pathRules depth).find hplace (fun _ _ => trivial) hstart hstart).mono ?_
        rintro r s' ⟨hok, herror⟩
        refine ⟨fun target hr => ?_, herror⟩
        obtain ⟨q, hfollow, hq, hbypasses, -⟩ := hok target hr
        exact ⟨hbypasses, q, hfollow, hq⟩
    refine hfound.mono ?_
    rintro (e | target) s' ⟨hok, herror⟩
    · refine ⟨fun hr => absurd hr error_ne_ok, fun hquiet => ?_⟩
      rw [herror e rfl (hs.tends.quiet hquiet)]
      exact ⟨hs.entered, hs.tends⟩
    · obtain ⟨hbypasses, q, hfollow, hq⟩ := hok target rfl
      have hs' := hs.bypasses hbypasses
      obtain ⟨n, hn⟩ := live_of_placed hs'.entered.wellFormed hq
      dsimp only
      rw [node_eq_ok.mpr hn]
      exact ⟨j + 1, hrest, hs'.bindField hget hfollow hq⟩

/-- When all elements of the follower have been linked, its leaves show the source. -/
theorem shows_all (h : Fastened c a b k es t (· < m) s) (hle : es.length ≤ m) (i : Nat) : s.Shows c a i := by
  intro x n hx hn
  refine h.shows ?_ hx hn
  -- Only the elements of the follower have leaves.
  obtain ⟨y, hy⟩ := placed_suffix (p := i :: c.follower) hx
  obtain ⟨above, l, habove, hl, hi⟩ := placed_cons.mp hy
  cases habove.symm.trans h.entered.follower
  obtain ⟨n', hn', hch⟩ := h.children
  cases hl.symm.trans hn'
  have hlt := (List.getElem?_eq_some_iff.mp hi).1
  rw [hch] at hlt
  exact hlt.trans_le hle

/-- The follower is still being initialized. -/
theorem states (h : Fastened c a b k es t shown s) : s.states b = some (.initializing, es.length) := by
  obtain ⟨l, hl⟩ := busy_iff.mp h.entered.busy
  obtain ⟨n, hn, hch⟩ := h.children
  obtain ⟨n', g, hn', -, -, hcount⟩ := states_eq_some.mp hl
  cases hn.symm.trans hn'
  rw [hl, ← hcount, hch]

end Fastened

/-- The elements of a follower are bound to those of its source, each to the one of the same index. -/
theorem Entered.linkElementsWith (h : t.Entered c a b) (hprimed : t.Primed a b k)
    (hb : t.states b = some (.initializing, k)) (depth : Nat) :
    wp (linkElementsWith (fun id => runTask depth (.init id)) b) (fun r t' =>
      (r = .ok () ∨ t.Quiet b → t'.Entered c a b ∧ Tends a b t t') ∧
        (r = .ok () → t'.Primed a b k ∧ t'.states b = some (.initializing, k) ∧ ∀ i, t'.Shows c a i)) t := by
  obtain ⟨n, g, min, max, hn, hk, hrule⟩ := h.follower_group
  have hfields : c.fields.isEmpty = false := by
    cases hempty : c.fields with
    | nil =>
      have hpaired := c.paired
      rw [hempty] at hpaired
      cases hpaired
    | cons pair rest => rfl
  unfold TreeM.linkElementsWith
  rw [wp.look_ok (group_eq_ok.mpr ⟨n, hn, hk⟩), hrule]
  dsimp only
  rw [hfields, if_neg Bool.false_ne_true, wp.bind]
  refine (h.sourceWith depth).mono ?_
  rintro (e | source) t₁ ⟨hok, hquiet⟩
  · refine ⟨?_, fun hr => absurd hr error_ne_ok⟩
    rintro (hr | hq)
    · exact absurd hr error_ne_ok
    · rw [hquiet hq]
      exact ⟨h, .refl⟩
  obtain ⟨rfl, hbypasses⟩ := hok source rfl
  have h₁ := hbypasses.entered h
  have hb₁ : t₁.states b = some (.initializing, k) := (hbypasses.states h.toJoined).trans hb
  obtain ⟨n₁, g₁, hn₁, hk₁, -, hcount⟩ := states_eq_some.mp hb₁
  dsimp only
  rw [wp.look_ok (a := n₁.children) (by rw [children, look_of_node? hn₁])]
  have hstart : Fastened c source b k n₁.children t (· < 0) t₁ :=
    ⟨h₁, hbypasses.tends, hbypasses.primed hprimed, ⟨n₁, hn₁, rfl⟩, fun hi => absurd hi (Nat.not_lt_zero _)⟩
  rw [wp.bind]
  refine wp.forIn (fun rest s => ∃ m, rest = n₁.children.zipIdx.drop m ∧
    Fastened c source b k n₁.children t (· < m) s) ⟨0, rfl, hstart⟩ ?_ ?_
  · rintro s ⟨m, hm, hs⟩
    have hle : n₁.children.length ≤ m := by
      have hall := List.drop_eq_nil_iff.mp hm.symm
      rwa [List.length_zipIdx] at hall
    exact ⟨fun _ => ⟨hs.entered, hs.tends⟩, fun _ => ⟨hs.primed, hcount ▸ hs.states, hs.shows_all hle⟩⟩
  · rintro pair rest s ⟨m, hm, hs⟩
    have hget : n₁.children.zipIdx[m]? = some pair := by
      rw [← List.head?_drop, ← hm]
      rfl
    rw [List.getElem?_zipIdx] at hget
    obtain ⟨e, he, rfl⟩ := Option.map_eq_some_iff.mp hget
    rw [wp.bind]
    simp only [Nat.zero_add]
    refine (hs.linkElement he depth).mono ?_
    rintro (e | _) s' ⟨hok, hquiet'⟩
    · refine ⟨?_, fun hr => absurd hr error_ne_ok⟩
      rintro (hr | hq)
      · exact absurd hr error_ne_ok
      · exact hquiet' hq
    · refine ⟨m + 1, ?_, hok rfl⟩
      rw [← List.tail_drop, ← hm]
      rfl

-- ---------------------------------------------------------------------------
-- Initialization
-- ---------------------------------------------------------------------------

variable {enough : Prop}

/-- The follower gets as many elements as its source has. -/
theorem Entered.replaceElements {visit : NodeId → TreeM Unit} (h : t.Entered c a b)
    (hprimed : t.Primed a b k) (hvisit : Visits τ c.follower enough visit) :
    wp (replaceElementsWith visit b k) (fun r t' =>
      (r = .ok () → t'.Entered c a b ∧ Tends a b t t' ∧ t'.Primed a b k ∧
        t'.states b = some (.initializing, k)) ∧ (enough → r = .ok ())) t := by
  obtain ⟨n, g, hn, hk⟩ := h.group h.follower c.follower_isRepeated
  have hbusy : g.phase = .initializing := by
    obtain ⟨m, g', hm, hk', hphase⟩ := h.busy
    rw [hn] at hm
    cases hm
    rw [hk] at hk'
    cases hk'
    exact hphase
  have hmuted : t.Muted c.follower b := fun w hw => absurd (h.watches hw).2 h.source_ne.symm
  have hfree := h.freeBelow c.follower_isRepeated
  refine (replaceElements_closes hvisit hfree h.follower hn hk hmuted k).mono ?_
  rintro r t' ⟨hok, henough⟩
  refine ⟨fun hr => ?_, henough⟩
  obtain ⟨hcloses, n', hn', hk', hcount⟩ := hok hr
  have hb : t'.states b = some (.initializing, k) := hbusy ▸ hcount ▸ states_of_node? hn' (hk'.trans hk)
  have ha : t'.states a = t.states a := by
    refine states_congr (hcloses.frame h.source fun hsuffix => ?_)
    exact c.source_ne (c.outer c.follower_isRepeated (.inr rfl) hsuffix).symm
  have hjoined := h.toJoined.closes hcloses
  have hlive := isLive_of_placed hjoined.wellFormed hjoined.source
  exact ⟨⟨hjoined, busy_iff.mpr ⟨k, hb⟩⟩, ⟨hcloses.evolves, fun hy => .inr (hcloses.pending hy), fun hk => by rwa [ha]⟩,
    ⟨ha.trans hprimed.source, hcloses.heard hprimed.watched hlive⟩, hb⟩

/-- If nothing fails, the leaves of the follower show the source. -/
theorem Entered.initBody (h : t.Entered c a b)
    (hvisit : Visits τ c.follower enough fun id => runTask depth (.visit id)) :
    wp (initBody (runTask depth) b) (fun r t' =>
      (r = .ok () ∨ enough ∧ t.Quiet b → t'.Entered c a b ∧ Tends a b t t') ∧
        (r = .ok () → ∃ k, t'.Primed a b k ∧ t'.states b = some (.initializing, k) ∧ ∀ i, t'.Shows c a i)) t := by
  unfold Tree.initBody
  rw [wp.bind]
  refine (h.countByRuleWith depth).mono ?_
  rintro (e | k) t₁ ⟨h₁, hprimed⟩
  · exact ⟨fun hr => h₁ (.inr (hr.resolve_left error_ne_ok).2), fun hr => absurd hr error_ne_ok⟩
  obtain ⟨hentered, htends⟩ := h₁ (.inl ⟨k, rfl⟩)
  dsimp only
  rw [wp.bind]
  refine (hentered.replaceElements (hprimed k rfl) hvisit).mono ?_
  rintro (e | _) t₂ ⟨hok, henough⟩
  · exact ⟨fun hr => absurd (henough (hr.resolve_left error_ne_ok).1) error_ne_ok,
      fun hr => absurd hr error_ne_ok⟩
  obtain ⟨h₂, htends₂, hprimed₂, hb⟩ := hok rfl
  have htends := htends.trans htends₂
  refine (h₂.linkElementsWith hprimed₂ hb depth).mono ?_
  rintro r t₃ ⟨h₃, hdone⟩
  refine ⟨fun hr => ?_, fun hr => ⟨k, hdone hr⟩⟩
  obtain ⟨hentered₃, htends₃⟩ := h₃ (hr.imp id fun hquiet => htends.quiet hquiet.2)
  exact ⟨hentered₃, htends.trans htends₃⟩

/-- When its initialization is over, the follower shows its source, or is not ready. -/
theorem Entered.leave {r : Except TreeError Unit} (h : t.Entered c a b)
    (hdone : r = .ok () → ∃ k, t.Primed a b k ∧ t.states b = some (.initializing, k) ∧ ∀ i, t.Shows c a i) :
    (t.modifyGroup b ({ · with phase := phaseAfter r })).Coupled c a b ∧
      ¬ (t.modifyGroup b ({ · with phase := phaseAfter r })).Busy b := by
  obtain ⟨l, hl⟩ := busy_iff.mp h.busy
  have hb := states_setPhase (phaseAfter r) hl
  refine ⟨⟨h.toJoined.setPhase _, fun {k} hk => ?_⟩, fun hbusy => ?_⟩
  · rw [hb] at hk
    cases r with
    | error e => cases hk
    | ok _ =>
      obtain ⟨k', hprimed, hb', hshows⟩ := hdone rfl
      cases hl.symm.trans hb'
      cases hk
      refine ⟨⟨by rw [states_setPhase_ne _ h.source_ne, hprimed.source],
        (watches_setPhase _).mpr hprimed.watched⟩, fun i x n hx hn => ?_⟩
      have halike : t.Alike (t.modifyGroup b ({ · with phase := phaseAfter (.ok ()) })) :=
        .of_modifyGroup fun _ => rfl
      rw [halike.placed] at hx
      have hxb : x ≠ b := by
        rintro rfl
        have hlength := congrArg List.length (placed_inj h.wellFormed hx h.follower)
        rw [List.length_append, List.length_cons] at hlength
        omega
      exact hshows i hx ((node?_modify_ne _ hxb).symm.trans hn)
  · obtain ⟨k, hk⟩ := busy_iff.mp hbusy
    rw [hb] at hk
    cases r <;> cases hk

/-- Initializing the follower leaves it with elements that show those of its source. -/
theorem Joined.initStep (h : t.Joined c a b)
    (hvisit : Visits τ c.follower enough fun id => runTask depth (.visit id)) :
    wp (initStep (runTask depth) b) (fun r t' =>
      (r = .ok () ∨ enough ∧ t.Quiet b → t'.Coupled c a b ∧ ¬ t'.Busy b ∧ Tends a b t t') ∧
        (r = .ok () → t'.Served b)) t := by
  have hlive : ∀ {s : Tree}, s.Joined c a b → s.node? b ≠ none := by
    intro s hs hnone
    obtain ⟨n, hn⟩ := live_of_placed hs.wellFormed hs.follower
    rw [hn] at hnone
    cases hnone
  refine wp_initStep (fun hnone => absurd hnone (hlive h)) fun n hn => ?_
  obtain ⟨n', g, min, max, hn', hk, -⟩ := h.follower_group
  have hentered : (t.modifyGroup b ({ · with phase := .initializing })).Entered c a b :=
    ⟨h.setPhase .initializing, busy_iff.mpr ⟨_, states_setPhase .initializing (states_of_node? hn' hk)⟩⟩
  have htends : Tends a b t (t.modifyGroup b ({ · with phase := .initializing })) :=
    .setPhase h.source_ne .initializing
  refine (hentered.initBody hvisit).mono ?_
  rintro r t₂ ⟨h₂, hdone⟩
  have hwanted : (r = .ok () ∨ enough ∧ t.Quiet b) → t₂.Entered c a b ∧ Tends a b t t₂ := by
    intro hr
    obtain ⟨hentered₂, htends₂⟩ := h₂ (hr.imp id fun hquiet => ⟨hquiet.1, htends.quiet hquiet.2⟩)
    exact ⟨hentered₂, htends.trans htends₂⟩
  refine ⟨fun hnone e => ⟨fun hr => ?_, fun hr => absurd hr error_ne_ok⟩, fun n₂ hn₂ => ⟨fun hr => ?_, fun hr => ?_⟩⟩
  case refine_1 =>
    have hquiet := hr.resolve_left error_ne_ok
    exact absurd hnone (hlive (hwanted (.inr hquiet)).1.toJoined)
  case refine_2 =>
    obtain ⟨hentered₂, htends₂⟩ := hwanted hr
    obtain ⟨hcoupled, hrested⟩ := hentered₂.leave hdone
    exact ⟨hcoupled, hrested, htends₂.trans (.setPhase h.source_ne _)⟩
  case refine_3 =>
    obtain ⟨hentered₂, -⟩ := hwanted (.inl hr)
    obtain ⟨l, hl⟩ := busy_iff.mp hentered₂.busy
    refine served_iff.mpr ⟨l, ?_⟩
    rw [states_setPhase (phaseAfter r) hl, hr]
    rfl

end Tree

end FormatFuzz
