-- SUMMARY: New trees keep couplings, and so do all calls that leave the bound leaves alone.
import FormatFuzz.Proofs.Followers

/-!
# Upkeep of couplings

When a tree is built, its groups are visited one after the other, and the follower or the source may come first;
in the end both have their elements (`Tree.build_poised`). From then on all groups but the follower have theirs
at all times. The follower goes stale when its source is given another count, and is initialized when it is
touched the next time, which may fail. But whenever it has its elements, they show those of the source
(`Tree.Poised.steps`).
-/

namespace FormatFuzz

open TreeM
open Relation (ReflTransGen)

/-- The call gives no group another count but the source, and writes to all cells but those of the leaf. What
it writes is strict. -/
def Coupling.Allows {τ : Template} (c : Coupling τ) (t : Tree) : Tree.Call → Prop
  | .resize id _ => t.placed c.source = some id
  | .replaceCell id cell => cell.Strict True ∧ ∀ i, t.placed (c.leaf ++ i :: c.follower) ≠ some id
  | _ => True

/-- What an allowed call makes of a tree. -/
def Coupling.Steps {τ : Template} (c : Coupling τ) (t t' : Tree) : Prop :=
  ∃ call : Tree.Call, c.Allows t call ∧ call.run t = t'

namespace Tree

variable {τ : Template} {c : Coupling τ} {a b x y id : NodeId} {t t' t₁ : Tree} {n : Node} {g : Group}
  {p : Position} {depth k : Nat}

-- ---------------------------------------------------------------------------
-- Visits
-- ---------------------------------------------------------------------------

/-- The groups at and below a position have their elements. -/
def ReadyAt (p : Position) (t : Tree) : Prop :=
  ∀ ⦃r y⦄, t.placed (r ++ p) = some y → ¬ t.Pending y

theorem ReadyAt.child (h : t.ReadyAt p) (i : Nat) : t.ReadyAt (i :: p) := by
  intro r y hy
  refine h (r := r ++ [i]) ?_
  rwa [List.append_assoc]

theorem ReadyBelow.readyAt (h : t.ReadyBelow p) (hp : t.placed p = some x) (hx : ¬ t.Pending x) :
    t.ReadyAt p := by
  intro r y hy
  rcases List.eq_nil_or_concat r with rfl | ⟨r, i, rfl⟩
  · cases hp.symm.trans hy
    exact hx
  · rw [List.concat_eq_append, List.append_assoc] at hy
    exact h hy

theorem visitChildren_idle (visit : NodeId → TreeM Unit) (hn : t.node? x = some n)
    (hvisit : ∀ (i : Nat) (y : NodeId), n.children[i]? = some y → wp (visit y) (fun _ t' => t' = t) t) :
    wp (do
      for child in ← TreeM.look (·.children x) do
        visit child : TreeM Unit) (fun _ t' => t' = t) t := by
  rw [wp.look_ok (a := n.children) (by rw [children, look_of_node? hn]), wp.bind]
  refine wp.forIn (fun rest s => s = t ∧ ∀ y ∈ rest, y ∈ n.children) ⟨rfl, fun _ hy => hy⟩
    (fun s hs => hs.1) ?_
  rintro y rest s ⟨rfl, hrest⟩
  obtain ⟨i, hi⟩ := List.mem_iff_getElem?.mp (hrest y List.mem_cons_self)
  rw [wp.bind]
  refine (hvisit i y hi).mono ?_
  rintro (e | _) _ rfl
  · rfl
  · exact ⟨rfl, fun z hz => hrest z (List.mem_cons_of_mem _ hz)⟩

/-- Where all groups have their elements, a visit changes nothing. -/
theorem visit_ready (depth : Nat) (hwf : t.WellFormed) (hp : t.placed p = some x) (hready : t.ReadyAt p) :
    wp (runTask depth (.visit x)) (fun _ t' => t' = t) t := by
  induction depth generalizing x p with
  | zero => rfl
  | succ depth ih =>
    obtain ⟨n, hn⟩ := live_of_placed hwf hp
    have hchildren := visitChildren_idle (fun y => runTask depth (.visit y)) hn fun i y hi =>
      ih (placed_cons.mpr ⟨x, n, hp, hn, hi⟩) (hready.child i)
    rw [runTask, visitStep, wp.look_ok (a := n.kind.isRepeated) (by rw [isGroup, look_of_node? hn])]
    cases n.kind.isRepeated with
    | false => exact hchildren
    | true =>
      rw [if_pos rfl, wp.bind]
      refine (touchWith_idle fun hx => absurd hx (hready (r := []) hp)).mono ?_
      rintro (e | _) _ rfl
      · rfl
      · exact hchildren

/-- The two groups are coupled, and fewer groups than before are without their elements, if any. -/
structure Opens (c : Coupling τ) (a b : NodeId) (t t' : Tree) : Prop where
  coupled : t'.Coupled c a b
  rested : ¬ t'.Busy b
  evolves : Evolves (fun _ => True) t t'
  pending : ∀ {y}, t'.Pending y → t.Pending y

namespace Opens

theorem refl (h : t.Coupled c a b) (hb : ¬ t.Busy b) : t.Opens c a b t :=
  ⟨h, hb, .refl _ t, fun hy => hy⟩

theorem trans (h : t.Opens c a b t₁) (h' : t₁.Opens c a b t') : t.Opens c a b t' :=
  ⟨h'.coupled, h'.rested, h.evolves.trans h'.evolves, fun hy => h.pending (h'.pending hy)⟩

theorem of_bypasses (h : t.Coupled c a b) (hb : ¬ t.Busy b) (hbypasses : t.Bypasses c a b t') :
    t.Opens c a b t' :=
  ⟨hbypasses.coupled h, fun hy => hb (hbypasses.busy hy), hbypasses.evolves, hbypasses.pending⟩

end Opens

/-- A group that is touched in a new tree has its elements then. -/
theorem Coupled.touch_opens (h : t.Coupled c a b) (hb : ¬ t.Busy b) (hn : t.node? x = some n)
    (depth : Nat) :
    wp (touchWith (fun id => runTask depth (.init id)) x) (fun r t' => r = .ok () →
      t.Opens c a b t' ∧ t'.isLive x = true ∧ ¬ t'.Pending x) t := by
  by_cases hx : t.Pending x
  · have hinit : wp (runTask depth (.init x)) (fun r t' => r = .ok () →
        t.Opens c a b t' ∧ t'.isLive x = true ∧ ¬ t'.Pending x) t := by
      by_cases hxb : x = b
      · subst hxb
        cases depth with
        | zero => exact fun hr => absurd hr error_ne_ok
        | succ depth =>
          obtain ⟨header, element, min, max, name, hpart⟩ := c.bound
          have hvisit := visits_runTask depth hpart False.elim
          rw [runTask]
          refine (h.toJoined.initStep hvisit).mono fun r t' hdone hr => ?_
          obtain ⟨hcoupled, hrested, htends⟩ := hdone.1 (.inl hr)
          obtain ⟨m, g, hm, hk, hready⟩ := hdone.2 hr
          have hserved : ¬ t'.Pending x := by
            rintro ⟨m', g', hm', hk', hphase⟩
            rw [hm] at hm'
            cases hm'
            rw [hk] at hk'
            cases hk'
            exact hphase hready
          refine ⟨⟨hcoupled, hrested, htends.evolves, fun {y} hy => ?_⟩,
            isLive_iff_node?.mpr ⟨m, hm⟩, hserved⟩
          exact (htends.pending hy).resolve_left fun he => hserved (he ▸ hy)
      · refine (h.init_bypasses hx hxb depth).mono fun r t' hdone hr => ?_
        obtain ⟨hbypasses, hlive, hserved⟩ := hdone hr
        exact ⟨.of_bypasses h hb hbypasses, hlive, hserved⟩
    obtain ⟨m, g, hm, hk, hready⟩ := hx
    unfold touchWith
    rw [wp.look_ok (group_eq_ok.mpr ⟨m, hm, hk⟩)]
    cases hphase : g.phase with
    | uninit => exact hinit
    | stale => exact hinit
    | initializing =>
      have hbusy : t.Busy x := ⟨m, g, hm, hk, hphase⟩
      exact absurd (h.idle hbusy ▸ hbusy) hb
    | ready => exact absurd hphase hready
  · refine (touchWith_idle fun hx' => absurd hx' hx).mono ?_
    rintro r _ rfl -
    exact ⟨.refl h hb, isLive_iff_node?.mpr ⟨n, hn⟩, hx⟩

/-- After the follower itself there is nothing left to initialize in its elements. The elements of another group
may be visited as well. -/
theorem Coupled.visitElements_opens (h : t.Coupled c a b) (hb : ¬ t.Busy b) (hp : t.placed p = some x)
    (houter : ∀ {q}, q <:+ p → q ≠ p → (τ.partAt q).any (·.1.isRepeated) = false)
    (hrep : (τ.partAt p).any (·.1.isRepeated) = true) (hself : ¬ t.Pending x) (depth : Nat) :
    wp (do
      for child in ← TreeM.look (·.children x) do
        runTask depth (.visit child) : TreeM Unit) (fun r t' => r = .ok () →
          t.Opens c a b t' ∧ t'.ReadyAt p) t := by
  obtain ⟨n, hn⟩ := live_of_placed h.wellFormed hp
  by_cases hxb : x = b
  · subst hxb
    cases placed_inj h.wellFormed hp h.follower
    have hready := h.inner.readyAt hp hself
    refine (visitChildren_idle _ hn fun i y hi => ?_).mono ?_
    · exact visit_ready depth h.wellFormed (placed_cons.mpr ⟨x, n, hp, hn, hi⟩) (hready.child i)
    · rintro r _ rfl -
      exact ⟨.refl h hb, hready⟩
  obtain ⟨σ, name, hpart, -⟩ := h.models.placed hp
  have hvisit := visits_runTask depth hpart False.elim
  have hout : ¬ c.follower <:+ p := by
    intro hsuffix
    have he : c.follower = p := by
      by_contra hne
      have hnone := houter hsuffix hne
      rw [c.follower_isRepeated] at hnone
      cases hnone
    exact hxb (Option.some.inj (hp.symm.trans (he ▸ h.follower)))
  rw [wp.look_ok (a := n.children) (by rw [children, look_of_node? hn]), wp.bind]
  refine (visitAll_closed hvisit (h.freeBelow hrep) hp hn).mono ?_
  rintro (e | _) t' ⟨hok, -⟩
  · exact fun hr => absurd hr error_ne_ok
  rintro -
  obtain ⟨hcloses, ⟨n', hn', hbare⟩, hbelow⟩ := hok rfl
  have hbypasses : t.Bypasses c a b t' := by
    refine .of_closes h.toJoined hp hrep hout (fun he {k} hk => ?_) hcloses
    subst he
    rw [states_congr (by rw [hn, hn', Option.map_some, Option.map_some, hbare])]
    exact hk
  have hopens := Opens.of_bypasses h hb hbypasses
  have hp' := (hcloses.evolves.grows h.wellFormed).placed h.wellFormed hopens.coupled.wellFormed hp
    (isLive_iff_node?.mpr ⟨n', hn'⟩)
  refine ⟨hopens, ReadyBelow.readyAt (fun r i y hy hpending => ?_) hp' fun hx => hself (hopens.pending hx)⟩
  have hbusy := hbelow hy hpending
  exact hb (h.idle hbusy ▸ hbusy)

/-- The fields of a composite outside of all elements are visited. -/
theorem Coupled.visitFields_opens (h : t.Coupled c a b) (hb : ¬ t.Busy b) (hp : t.placed p = some x)
    (houter : ∀ {q}, q <:+ p → q ≠ p → (τ.partAt q).any (·.1.isRepeated) = false)
    (hn : t.node? x = some n) (hk : n.kind.isRepeated = false) {visit : NodeId → TreeM Unit}
    (hvisit : ∀ {t i y}, t.Coupled c a b → ¬ t.Busy b → t.placed (i :: p) = some y →
      wp (visit y) (fun r t' => r = .ok () → t.Opens c a b t' ∧ t'.ReadyAt (i :: p)) t) :
    wp (do
      for child in ← TreeM.look (·.children x) do
        visit child : TreeM Unit) (fun r t' => r = .ok () → t.Opens c a b t' ∧ t'.ReadyAt p) t := by
  have hsame : ∀ {s}, t.Opens c a b s → s.placed p = some x →
      ∃ m, s.node? x = some m ∧ m.children = n.children ∧ m.kind.isRepeated = false := by
    intro s hs hps
    obtain ⟨m, hm⟩ := live_of_placed hs.coupled.wellFormed hps
    obtain ⟨n', hn', hf, hch⟩ := (hs.evolves.grows h.wellFormed).old (lt_size hn) hm
    rw [hn] at hn'
    cases hn'
    refine ⟨m, hm, hch.resolve_right fun hrep => ?_, (Node.isRepeated_of_fixture hf).symm.trans hk⟩
    rw [hk] at hrep
    exact absurd hrep.1 Bool.false_ne_true
  rw [wp.look_ok (a := n.children) (by rw [children, look_of_node? hn]), wp.bind]
  refine wp.forIn (fun rest s => t.Opens c a b s ∧ s.placed p = some x ∧ ∃ done, n.children = done ++ rest ∧
    ∀ i < done.length, s.ReadyAt (i :: p)) ⟨.refl h hb, hp, [], rfl, fun i hi => absurd hi (Nat.not_lt_zero i)⟩
    ?_ ?_
  · rintro s ⟨hs, hps, done, hdone, hready⟩ -
    obtain ⟨m, hm, hch, hrep⟩ := hsame hs hps
    refine ⟨hs, ReadyBelow.readyAt (fun r i y hy => ?_) hps ?_⟩
    · obtain ⟨z, hz⟩ := placed_suffix hy
      obtain ⟨above, l, habove, hl, hi⟩ := placed_cons.mp hz
      cases habove.symm.trans hps
      cases hl.symm.trans hm
      have hlt := (List.getElem?_eq_some_iff.mp hi).1
      rw [hch, hdone, List.append_nil] at hlt
      exact hready i hlt hy
    · rintro ⟨l, g, hl, hlk, -⟩
      cases hl.symm.trans hm
      rw [hlk] at hrep
      cases hrep
  · rintro y rest s ⟨hs, hps, done, hdone, hready⟩
    obtain ⟨m, hm, hch, -⟩ := hsame hs hps
    have hy : s.placed (done.length :: p) = some y := placed_cons.mpr ⟨x, m, hps, hm, by simp [hch, hdone]⟩
    rw [wp.bind]
    refine (hvisit hs.coupled hs.rested hy).mono ?_
    rintro (e | _) s' hvisited
    · exact fun hr => absurd hr error_ne_ok
    obtain ⟨hs', hready'⟩ := hvisited rfl
    have hgrows := hs'.evolves.grows hs.coupled.wellFormed
    have hps' := hgrows.placed_outer hs'.coupled.wellFormed hs.coupled.models hps houter
    refine ⟨hs.trans hs', hps', done ++ [y], by rw [hdone, List.append_assoc]; rfl, fun i hi r z hz hpending => ?_⟩
    rw [List.length_append, List.length_singleton] at hi
    rcases Nat.lt_succ_iff_lt_or_eq.mp hi with hi | rfl
    · have hpending' := hs'.pending hpending
      obtain ⟨l, -, hl, -⟩ := id hpending'
      exact hready i hi (hgrows.placed_back hs.coupled.wellFormed hs'.coupled.wellFormed hl hz) hpending'
    · exact hready' hz hpending

/-- A node outside of all elements is visited. No group is without its elements at or below it then. -/
theorem Coupled.visit_opens (depth : Nat) (h : t.Coupled c a b) (hb : ¬ t.Busy b) (hp : t.placed p = some x)
    (houter : ∀ {q}, q <:+ p → q ≠ p → (τ.partAt q).any (·.1.isRepeated) = false) :
    wp (runTask depth (.visit x)) (fun r t' => r = .ok () → t.Opens c a b t' ∧ t'.ReadyAt p) t := by
  induction depth generalizing t p x with
  | zero => exact fun hr => absurd hr error_ne_ok
  | succ depth ih =>
    obtain ⟨n, hn⟩ := live_of_placed h.wellFormed hp
    obtain ⟨σ, name, hpart, hm⟩ := h.models.placed hp
    have hkind := (hm.kind hn).2
    rw [runTask, visitStep, wp.look_ok (a := n.kind.isRepeated) (by rw [isGroup, look_of_node? hn]), hkind]
    cases hσ : σ.isRepeated with
    | true =>
      have hrep : (τ.partAt p).any (·.1.isRepeated) = true := by rw [hpart, Option.any_some, hσ]
      rw [if_pos rfl, wp.bind]
      refine (h.touch_opens hb hn depth).mono ?_
      rintro (e | _) t₁ htouched
      · exact fun hr => absurd hr error_ne_ok
      obtain ⟨hopens, hlive, hself⟩ := htouched rfl
      have hp₁ := (hopens.evolves.grows h.wellFormed).placed h.wellFormed hopens.coupled.wellFormed hp hlive
      refine (hopens.coupled.visitElements_opens hopens.rested hp₁ houter hrep hself depth).mono ?_
      intro r t' hdone hr
      exact ⟨hopens.trans (hdone hr).1, (hdone hr).2⟩
    | false =>
      refine h.visitFields_opens hb hp houter hn (hkind.trans hσ) fun {s i y} hs hbs hy => ih hs hbs hy ?_
      intro q hq hne
      rcases List.suffix_cons_iff.mp hq with he | hq
      · exact absurd he hne
      · by_cases he : q = p
        · rw [he, hpart, Option.any_some, hσ]
        · exact houter hq he

-- ---------------------------------------------------------------------------
-- Touching and counting
-- ---------------------------------------------------------------------------

/-- The two groups are coupled, and nothing is being initialized. No group but the follower is without its
elements. -/
structure Poised (c : Coupling τ) (a b : NodeId) (t : Tree) : Prop extends t.Coupled c a b where
  quiet : t.Quiet b
  rested : ¬ t.Busy b

namespace Poised

theorem of_like (h : t.Poised c a b) (hlike : t.Like t') : t'.Poised c a b := by
  have hbypasses : t.Bypasses c a b t' := .of_like hlike
  exact ⟨hbypasses.coupled h.toCoupled, hbypasses.quiet h.quiet, fun hb => h.rested (hbypasses.busy hb)⟩

variable (h : t.Poised c a b)

include h

/-- With the follower, all groups have their elements. -/
theorem settled (hb : t.Served b) : t.Settled := by
  refine settled_iff.mpr fun y hy => ?_
  obtain ⟨k, hk⟩ := served_iff.mp hb
  obtain ⟨phase, l, hl, hphase⟩ := pending_iff.mp (h.quiet hy ▸ hy)
  cases hk.symm.trans hl
  exact hphase rfl

/-- The source always has its elements. -/
theorem source_served : ∃ k, t.states a = some (.ready, k) := by
  obtain ⟨n, g, hn, hk⟩ := h.group h.source c.source_isRepeated
  cases hphase : g.phase with
  | ready => exact ⟨_, hphase ▸ states_of_node? hn hk⟩
  | uninit => exact absurd (h.quiet ⟨n, g, hn, hk, by simp [hphase]⟩) h.source_ne
  | initializing => exact absurd (h.quiet ⟨n, g, hn, hk, by simp [hphase]⟩) h.source_ne
  | stale => exact absurd (h.quiet ⟨n, g, hn, hk, by simp [hphase]⟩) h.source_ne

theorem init : wp (Tree.init b) (fun r t' =>
    (t'.Poised c a b ∧ Tends a b t t') ∧ (r = .ok () → t'.Served b)) t := by
  obtain ⟨header, element, min, max, name, hpart⟩ := c.bound
  have hsize := h.models.size_le_weight h.follower hpart rfl
  have hreserve : 0 < nestingReserve := Nat.two_pow_pos 32
  obtain ⟨depth, hdepth⟩ : ∃ depth, nestingReserve + 2 * t.weight = depth + 1 :=
    ⟨nestingReserve + 2 * t.weight - 1, by omega⟩
  unfold Tree.init perform
  rw [wp.bind, wp.get]
  dsimp only
  rw [hdepth, runTask]
  have hvisit := visits_runTask depth hpart fun _ : True => by omega
  refine (h.toJoined.initStep hvisit).mono fun r t' hdone => ?_
  obtain ⟨hcoupled, hrested, htends⟩ := hdone.1 (.inr ⟨trivial, h.quiet⟩)
  exact ⟨⟨⟨hcoupled, htends.quiet h.quiet, hrested⟩, htends⟩, hdone.2⟩

/-- A group that is without its elements is the follower, and is not on the way. -/
theorem of_pending (hn : t.node? x = some n) (hk : n.kind = .repeated g) (hphase : g.phase ≠ .ready) :
    x = b ∧ g.phase ≠ .initializing := by
  have hx := h.quiet ⟨n, g, hn, hk, hphase⟩
  exact ⟨hx, fun hbusy => h.rested (hx ▸ ⟨n, g, hn, hk, hbusy⟩)⟩

theorem touch (x : NodeId) : wp (Tree.touch x) (fun r t' =>
    (t'.Poised c a b ∧ Tends a b t t') ∧ (r = .ok () → x = b → t'.Served b)) t := by
  unfold Tree.touch touchWith
  cases hg : t.group x with
  | error e => exact (wp.look_error hg).mpr ⟨⟨h, .refl⟩, fun hr => absurd hr error_ne_ok⟩
  | ok g =>
    obtain ⟨n, hn, hk⟩ := group_eq_ok.mp hg
    rw [wp.look_ok hg]
    have hinit : g.phase ≠ .ready → wp (Tree.init x) (fun r t' =>
        (t'.Poised c a b ∧ Tends a b t t') ∧ (r = .ok () → x = b → t'.Served b)) t := by
      intro hphase
      obtain ⟨rfl, -⟩ := h.of_pending hn hk hphase
      exact h.init.mono fun r t' hdone => ⟨hdone.1, fun hr _ => hdone.2 hr⟩
    cases hphase : g.phase with
    | uninit => exact hinit (by simp [hphase])
    | stale => exact hinit (by simp [hphase])
    | initializing => exact absurd hphase (h.of_pending hn hk (by simp [hphase])).2
    | ready => exact ⟨⟨h, .refl⟩, fun _ hx => hx ▸ ⟨n, g, hn, hk, hphase⟩⟩

/-- What is counted are the elements that the group has then. -/
theorem count (x : NodeId) : wp (Tree.count x) (fun r t' =>
    (t'.Poised c a b ∧ Tends a b t t') ∧ ∀ k, r = .ok k → t'.states x = some (.ready, k)) t := by
  unfold Tree.count countWith
  cases hg : t.group x with
  | error e => exact (wp.look_error hg).mpr ⟨⟨h, .refl⟩, fun _ hr => absurd hr error_ne_ok⟩
  | ok g =>
    obtain ⟨n, hn, hk⟩ := group_eq_ok.mp hg
    rw [wp.look_ok hg]
    have hinit : g.phase ≠ .ready → wp (do
        Tree.init x
        return (← TreeM.look (·.children x)).length : TreeM Nat) (fun r t' =>
          (t'.Poised c a b ∧ Tends a b t t') ∧ ∀ k, r = .ok k → t'.states x = some (.ready, k)) t := by
      intro hphase
      obtain ⟨rfl, -⟩ := h.of_pending hn hk hphase
      rw [wp.bind]
      refine h.init.mono ?_
      rintro (e | _) t' ⟨hkept, hserved⟩
      · exact ⟨hkept, fun _ hr => absurd hr error_ne_ok⟩
      · obtain ⟨m, g', hm, hk', hready⟩ := hserved rfl
        simp only [wp.bind, wp.look, children, look_of_node? hm, wp.pure]
        refine ⟨hkept, fun k hr => ?_⟩
        cases hr
        exact hready ▸ states_of_node? hm hk'
    cases hphase : g.phase with
    | uninit => exact hinit (by simp [hphase])
    | stale => exact hinit (by simp [hphase])
    | initializing => exact absurd hphase (h.of_pending hn hk (by simp [hphase])).2
    | ready =>
      simp only [wp.bind, wp.look, children, look_of_node? hn, wp.pure]
      refine ⟨⟨h, .refl⟩, fun k hr => ?_⟩
      cases hr
      exact hphase ▸ states_of_node? hn hk

end Poised

-- ---------------------------------------------------------------------------
-- Resizing the source
-- ---------------------------------------------------------------------------

namespace Joined

variable (h : t.Joined c a b)

include h

theorem source_rule (hn : t.node? a = some n) (hk : n.kind = .repeated g) : g.rule.isBound = false := by
  obtain ⟨header, name, hpart⟩ := h.models.rule h.source hn hk
  obtain ⟨σ, name', hpart', -, hunbound⟩ := c.counted
  rw [hpart] at hpart'
  cases hpart'
  cases hrule : g.rule with
  | fixed count => rfl
  | random min max => rfl
  | bound path fields min max =>
    rw [hrule] at hunbound
    exact hunbound.elim

theorem markStale : (t.markStale b).Joined c a b := by
  have halike : t.Alike (t.markStale b) := .of_modifyGroup fun g => by split <;> rfl
  refine h.of_alike halike (fun {y} hy => ?_) (fun {y} hy => ?_)
    fun hw => h.watches (watches_markStale.mp hw)
  · rcases states_markStale t b y with hsame | ⟨hyb, -⟩
    · rw [busy_iff, hsame, ← busy_iff] at hy
      exact h.idle hy
    · exact hyb
  · rcases states_markStale t b y with hsame | ⟨hyb, -⟩
    · rw [pending_iff, hsame, ← pending_iff] at hy
      exact .inr hy
    · exact .inl hyb

end Joined

/-- A follower without its elements shows nothing. -/
theorem Joined.poised (h : t.Joined c a b) (hquiet : t.Quiet b) (hb : ¬ t.Busy b) (hserved : ¬ t.Served b) :
    t.Poised c a b :=
  ⟨⟨h, fun hk => absurd (served_iff.mpr ⟨_, hk⟩) hserved⟩, hquiet, hb⟩

/-- The follower is told that its source has another count, if it has elements. -/
theorem Joined.notify {watchers : List NodeId} (h : t.Joined c a b) (hquiet : t.Quiet b) (hb : ¬ t.Busy b)
    (hwatchers : ∀ w ∈ watchers, w = b) (htold : t.Served b → b ∈ watchers) :
    wp (notify watchers) (fun r t' => r = .ok ⟨⟩ ∧ t'.Poised c a b) t := by
  unfold TreeM.notify
  rw [wp.bind]
  refine wp.forIn (fun rest s => s.Joined c a b ∧ s.Quiet b ∧ ¬ s.Busy b ∧ (∀ w ∈ rest, w = b) ∧
    (s.Served b → b ∈ rest)) ⟨h, hquiet, hb, hwatchers, htold⟩ ?_ ?_
  · rintro s ⟨hs, hquiet, hb, -, htold⟩
    exact ⟨rfl, hs.poised hquiet hb fun hserved => List.not_mem_nil (htold hserved)⟩
  · rintro w rest s ⟨hs, hquiet, hb, hrest, -⟩
    cases hrest w List.mem_cons_self
    obtain ⟨n, hn⟩ := live_of_placed hs.wellFormed hs.follower
    have hlike : (s.markStale b).Like ((s.markStale b).invalidate b) := .of_invalidate
    have hs' := hs.markStale.level hlike.level
    rw [wp.bind, wp.get]
    dsimp only
    rw [if_pos (isLive_iff_node?.mpr ⟨n, hn⟩)]
    simp only [wp.bind, wp.modify, wp.pure]
    refine ⟨hs', fun y hy => ?_, fun hbusy => ?_, fun z hz => hrest z (List.mem_cons_of_mem _ hz),
      fun hserved => ?_⟩
    · rw [pending_iff, hlike.states] at hy
      rcases states_markStale s b y with hsame | ⟨hyb, -⟩
      · rw [hsame, ← pending_iff] at hy
        exact hquiet hy
      · exact hyb
    · obtain ⟨l, hl⟩ := busy_iff.mp hbusy
      rw [hlike.states] at hl
      rcases states_markStale s b b with hsame | ⟨-, l', -, hstale⟩
      · exact hb (busy_iff.mpr ⟨l, hsame ▸ hl⟩)
      · cases hl.symm.trans hstale
    · obtain ⟨l, hl⟩ := served_iff.mp hserved
      rw [hlike.states] at hl
      exact absurd hl states_markStale_ne

theorem Poised.resize (h : t.Poised c a b) (count : Nat) :
    wp (Tree.resize a count) (fun _ t' => t'.Poised c a b) t := by
  obtain ⟨k, hready⟩ := h.source_served
  have hidle : t.Pending a → t.Busy a := fun ha => absurd (h.quiet ha) h.source_ne
  obtain ⟨n, g, hn, hk⟩ := h.group h.source c.source_isRepeated
  have hlink : ∀ {s : Tree}, s.Poised c a b →
      wp (linkElementsWith Tree.init a) (fun _ t' => t'.Poised c a b) s := by
    intro s hs
    refine (linkElements_unbound fun hn hk => hs.source_rule hn hk).mono ?_
    rintro _ _ ⟨rfl, -⟩
    exact hs
  unfold Tree.resize Tree.touch
  rw [wp.bind]
  refine (touchWith_idle hidle).mono ?_
  rintro (e | _) t rfl
  · exact h
  dsimp only
  rw [wp.bind]
  refine replaceElements_visits (visits_perform c.source_isRepeated) (h.freeBelow c.source_isRepeated) h.source hn
    hk (fun _ => hlink h) (fun e s hnot => absurd trivial hnot) fun s n' _ hcloses _ _ _ => ?_
  have hs := h.toJoined.closes hcloses
  have hb : s.states b = t.states b := by
    refine states_congr (hcloses.frame h.follower fun hsuffix => ?_)
    exact c.source_ne (c.outer c.source_isRepeated (.inl rfl) hsuffix)
  refine (hs.notify (fun y hy => h.quiet (hcloses.pending hy)) (fun hbusy => h.rested (hcloses.busy hbusy))
    (fun w hw => (h.watches ⟨n, g, hn, hk, hw⟩).1) fun hserved => ?_).mono ?_
  · rw [served_iff, hb] at hserved
    obtain ⟨l, hl⟩ := hserved
    exact (watches_iff hn hk).mp (h.current hl).1.watched
  · rintro _ t' ⟨rfl, ht'⟩
    exact hlink ht'

-- ---------------------------------------------------------------------------
-- Calls
-- ---------------------------------------------------------------------------

/-- Cells may be written that are not bound. -/
theorem Poised.putCell {cell : Cell} (h : t.Poised c a b)
    (hne : ∀ i, t.placed (c.leaf ++ i :: c.follower) ≠ some id) : (t.putCell id cell).Poised c a b := by
  have hlevel : t.Level (t.putCell id cell) := .of_putCell
  have hpending : ∀ {y}, (t.putCell id cell).Pending y → t.Pending y := fun hy => by
    rwa [pending_iff, hlevel.states, ← pending_iff] at hy
  refine ⟨⟨h.toJoined.level hlevel, fun {k} hk => ?_⟩, fun y hy => h.quiet (hpending hy), fun hbusy => ?_⟩
  · rw [hlevel.states] at hk
    obtain ⟨hprimed, hshows⟩ := h.current hk
    refine ⟨hprimed.level hlevel, fun i x n' hx hn' => ?_⟩
    rw [hlevel.alike.placed] at hx
    have hxid : x ≠ id := fun he => hne i (he ▸ hx)
    unfold Tree.putCell at hn'
    rw [node?_modify_ne _ hxid] at hn'
    exact hshows i hx hn'
  · rw [busy_iff, hlevel.states, ← busy_iff] at hbusy
    exact h.rested hbusy

theorem resolverLaws_poised : ResolverLaws (Upholds (Poised c a b)) :=
  resolverLaws_of_like (fun _ _ hlike h => h.of_like hlike) (fun _ x h => (h.touch x).1.1)
    fun _ x h => (h.count x).1.1

/-- Allowed calls keep a tree poised, whether they succeed or fail. -/
theorem Poised.call (h : t.Poised c a b) (call : Call) (hallowed : c.Allows t call) :
    (call.run t).Poised c a b := by
  have laws := resolverLaws_poised (c := c) (a := a) (b := b)
  suffices hcall : Upholds (Poised c a b) t (call.run t) from hcall h
  refine call.rule laws.scope (fun _ => laws.bytesStep) (fun id k hc h => ?_) (fun id cell t' hc ht' h => ?_)
    (fun id h => h.of_like .of_invalidate) fun h => h.of_like .of_invalidateAll
  · subst hc
    cases h.source.symm.trans hallowed
    exact h.resize k
  · subst hc
    rw [setCell_eq_ok ht']
    have hlike : t.Like (t.invalidate id) := .of_invalidate
    refine (h.of_like hlike).putCell fun i => ?_
    rw [hlike.alike.placed]
    exact hallowed.2 i

theorem Poised.steps (h : t.Poised c a b) (hsteps : ReflTransGen c.Steps t t') : t'.Poised c a b := by
  induction hsteps with
  | refl => exact h
  | tail _ hstep ih =>
    obtain ⟨call, hallowed, rfl⟩ := hstep
    exact ih.call call hallowed

-- ---------------------------------------------------------------------------
-- New trees
-- ---------------------------------------------------------------------------

/-- In a new tree the two groups are coupled, and all groups have their elements. -/
theorem build_poised (c : Coupling τ) {seed : UInt64} (hbuild : build τ seed = .ok t) :
    ∃ a b, t.Poised c a b := by
  obtain ⟨t₀, hwf, hmodels, hnew, -, hrun⟩ := exists_start τ seed
  have hm := hmodels (C := fun _ => True) (fun _ => trivial) τ.cellsIn_true
  obtain ⟨header, element, min, max, name, hpart⟩ := c.bound
  obtain ⟨σ, name', hpart', -⟩ := c.counted
  obtain ⟨b, hb⟩ := hm.exists_placed hpart fun hp hne => c.not_isRepeated (.inl rfl) hp hne
  obtain ⟨a, ha⟩ := hm.exists_placed hpart' fun hp hne => c.not_isRepeated (.inr rfl) hp hne
  have hidle : ∀ {y}, ¬ t₀.Busy y := by
    rintro y ⟨n, g, hn, hk, hphase⟩
    rw [((hnew hn).group hk).1] at hphase
    cases hphase
  have hjoined : t₀.Joined c a b := by
    refine ⟨hwf, hm, hb, ha, ?_, fun hy => absurd hy hidle, fun r i y hy => ?_⟩
    · rintro w y ⟨n, g, hn, hk, hw⟩
      rw [((hnew hn).group hk).2] at hw
      cases hw
    · -- A new group has no elements.
      obtain ⟨z, hz⟩ := placed_suffix hy
      obtain ⟨above, n, habove, hn, hi⟩ := placed_cons.mp hz
      cases habove.symm.trans hb
      obtain ⟨σ, name, hpart, hm⟩ := hm.placed hb
      have hrep : n.kind.isRepeated = true := by
        have hrepeated := c.follower_isRepeated
        rwa [hpart, Option.any_some, ← (hm.kind hn).2] at hrepeated
      rw [(hnew hn).empty hrep] at hi
      cases hi
  have hcoupled : t₀.Coupled c a b := by
    refine ⟨hjoined, fun {k} hk => ?_⟩
    obtain ⟨n, g, hn, hk, hphase, -⟩ := states_eq_some.mp hk
    rw [((hnew hn).group hk).1] at hphase
    cases hphase
  have hvisit := hcoupled.visit_opens (nestingReserve + 2 * t₀.weight) hidle (p := []) rfl fun hq hne =>
    absurd (List.suffix_nil.mp hq) hne
  obtain ⟨hopens, hready⟩ := hvisit.of_run ((hrun t).mp hbuild) rfl
  refine ⟨a, b, hopens.coupled, fun y hy => ?_, hopens.rested⟩
  obtain ⟨n, -, hn, -⟩ := id hy
  obtain ⟨p, hp⟩ := exists_position hopens.coupled.wellFormed hn
  exact absurd hy (hready (r := p) (by rwa [List.append_nil]))

end Tree

end FormatFuzz
