-- SUMMARY: The counts of the groups of a tree, as long as no group is given another one.
import FormatFuzz.Proofs.Following

/-!
# Counts

Building a tree from a wired template succeeds and leaves all groups with their elements. The number
of these is what the rule of the group asks for: a fixed number, one that is drawn, or the count of
the group that it follows. Groups that follow each other in a circle have the count that would have
been drawn for one of them (`Tree.build_counts`).

It stays so as long as no group is given another count (`Tree.Reaches.count_eq_followed`). Templates
with groups in elements are left out: a group that is initialized together with the elements of the
group that it follows is told the wrong count.
-/

namespace FormatFuzz

open TreeM
open Relation (ReflTransGen TransGen)

namespace Tree

variable {τ : Template} {t₀ t : Tree} {x y : NodeId} {n : Node} {g : Group} {c : Nat}

/-- The rule of the group `x` leads to the group `y`. -/
def Follows (t : Tree) (x y : NodeId) : Prop :=
  ∃ n g path fields min max, t.node? x = some n ∧ n.kind = .repeated g ∧
    g.rule = .bound path fields min max ∧ (sourceWith init x path).run t = (.ok y, t)

/-- The group `x` has the count `c`, and this is the one that its rule asks for. -/
structure Counts (t : Tree) (x : NodeId) (rule : Multiplicity) (c : Nat) : Prop where
  count : (count x).run t = (.ok c, t)
  fixed : ∀ number, rule = .fixed number → c = number
  random : ∀ min max, rule = .random min max → t.randomCount x min max = .ok c
  bound : ∀ path fields min max, rule = .bound path fields min max →
    ∃ y, (sourceWith init x path).run t = (.ok y, t) ∧ (Tree.count y).run t = (.ok c, t)
  circle : TransGen t.Follows x x →
    ∃ y, ReflTransGen t.Follows x y ∧ ReflTransGen t.Follows y x ∧ t.provisionalCount y = .ok c

section

variable (hstart : t₀.Startable τ) (h : t₀.Settling τ t)

include hstart

/-- A group that follows another one is a group of the start. -/
theorem Startable.group_of_ties (hties : t₀.Ties τ x y) : t₀.states x ≠ none := by
  obtain ⟨p, q, hp, hq, -⟩ := hties
  intro hnone
  obtain ⟨n, hn⟩ := live_of_placed hstart.wellFormed hp
  obtain ⟨σ, name, hpart, hmodels⟩ := hstart.models.placed hp
  have hσ := (hmodels.kind hn).2.symm.trans (states_eq_none.mp hnone n hn)
  unfold Template.source at hq
  rw [hpart] at hq
  cases σ with
  | leaf h kind => cases hq
  | composite h fields => cases hq
  | repeated h element rule => cases hσ

include h

/-- Which group another one follows is as the template has it. -/
theorem Settling.follows_iff : t.Follows x y ↔ t₀.Ties τ x y := by
  have hsource : ∀ {n g path fields min max}, t.node? x = some n → n.kind = .repeated g →
      g.rule = .bound path fields min max →
        ∃ y, t₀.Ties τ x y ∧ (sourceWith init x path).run t = (.ok y, t) := by
    intro n g path fields min max hn hk hrule
    obtain ⟨y, -, hties, -, hrun⟩ := h.source hstart init hn hk hrule
    exact ⟨y, hties, Prod.ext hrun.2 hrun.1⟩
  constructor
  · rintro ⟨n, g, path, fields, min, max, hn, hk, hrule, hrun⟩
    obtain ⟨z, hties, hrun'⟩ := hsource hn hk hrule
    rw [hrun] at hrun'
    cases hrun'
    exact hties
  · intro hties
    have hgroup := hstart.group_of_ties hties
    rw [Ne, ← h.groups] at hgroup
    obtain ⟨⟨phase, c⟩, hstate⟩ := Option.ne_none_iff_exists'.mp hgroup
    obtain ⟨n, g, hn, hk, -, -⟩ := states_eq_some.mp hstate
    obtain ⟨path, fields, min, max, hrule⟩ := h.rule_of_ties hstart hties hn hk
    obtain ⟨z, hties', hrun⟩ := hsource hn hk hrule
    cases ties_rightUnique hstart.wellFormed hties hties'
    exact ⟨n, g, path, fields, min, max, hn, hk, hrule, hrun⟩

/-- What the template ties stays where it is. -/
theorem Settling.ties_iff : t.Ties τ x y ↔ t₀.Ties τ x y := by
  have hplaced : ∀ {p z σ name}, t.placed p = some z → τ.partAt p = some (σ, name) →
      σ.isRepeated = true → t₀.placed p = some z := by
    intro p z σ name hp hpart hσ
    obtain ⟨σ', name', hpart', hmodels⟩ := (h.models hstart).placed hp
    rw [hpart] at hpart'
    cases hpart'
    obtain ⟨n, hn⟩ := live_of_placed (h.wellFormed hstart) hp
    obtain ⟨g, hk⟩ := NodeKind.isRepeated_iff.mp ((hmodels.kind hn).2.trans hσ)
    obtain ⟨-, -, p', -, -, hp₀, hp', -⟩ := h.placed hstart (states_of_node? hn hk)
    cases placed_inj (h.wellFormed hstart) hp hp'
    exact hp₀
  constructor
  · rintro ⟨p, q, hp, hq, hy⟩
    have hsource := hq
    unfold Template.source at hq
    split at hq
    · rename_i hpart
      obtain ⟨-, q', hq', hgroup⟩ := hstart.wired.bound hpart
      rw [hq] at hq'
      cases hq'
      cases hpart' : τ.partAt q with
      | none =>
        rw [hpart'] at hgroup
        cases hgroup
      | some part =>
        rw [hpart', Option.any_some] at hgroup
        exact ⟨p, q, hplaced hp hpart rfl, hsource, hplaced hy hpart' hgroup⟩
    · cases hq
  · rintro ⟨p, q, hp, hq, hy⟩
    exact ⟨p, q, h.placed_of_start hstart hp, hq, h.placed_of_start hstart hy⟩

omit hstart h in
theorem count_of_ready (hx : t.states x = some (.ready, c)) : (count x).run t = (.ok c, t) := by
  have hrun : wp (countWith init x) (fun r t' => r = .ok c ∧ t' = t) t := countWith_ready hx
  exact Prod.ext hrun.1 hrun.2

omit h in
/-- All groups have their elements when those at and below the root have. -/
theorem Calm.settled (h : t₀.Calm τ t) (hready : t₀.ReadyFrom [] t.states) : t.Settled := by
  intro x n g hn hk
  have hx := states_of_node? hn hk
  obtain ⟨-, -, p, -, -, hp, -, -⟩ := h.placed hstart hx
  obtain ⟨d, hd⟩ := hready p x (by rw [List.append_nil, hp]) (by
    rw [Ne, ← h.groups, hx]
    exact Option.some_ne_none _)
  rw [hx] at hd
  exact congrArg Prod.fst (Option.some.inj hd)

omit h in
/-- When all groups have their elements, their counts are those that their rules ask for. -/
theorem Calm.counts (h : t₀.Calm τ t) (hs : t.Settled) (hn : t.node? x = some n)
    (hk : n.kind = .repeated g) : ∃ c, t.Counts x g.rule c := by
  have hall : ∀ {y phase c}, t.states y = some (phase, c) → phase = .ready := by
    intro y phase c hy
    obtain ⟨m, g', hm, hk', rfl, -⟩ := states_eq_some.mp hy
    exact hs hm hk'
  have hfollows : t.Follows = t₀.Ties τ := by
    funext x y
    exact propext (h.follows_iff hstart)
  have hstate := states_of_node? hn hk
  have hphase := hall hstate
  rw [hphase] at hstate
  have hown : (∀ y, ¬ t₀.Ties τ x y) → t.provisionalCount x = .ok n.children.length := by
    intro hnone
    rw [h.provisionalCount hstart hstate, h.agrees.unbound (.inl hstate) hnone]
  have hfree := h.free_of_rule hstart hn hk
  unfold provisionalCount at hown
  rw [group_eq_ok.mpr ⟨n, hn, hk⟩, ok_bind] at hown
  refine ⟨n.children.length, count_of_ready hstate, ?_, ?_, ?_, ?_⟩
  · intro number hrule
    rw [hrule] at hown hfree
    have hcount := hown (hfree fun _ _ _ _ => Multiplicity.noConfusion)
    cases hcount
    rfl
  · intro min max hrule
    rw [hrule] at hown hfree
    exact hown (hfree fun _ _ _ _ => Multiplicity.noConfusion)
  · intro path fields min max hrule
    obtain ⟨y, -, hties, -, hrun⟩ := h.source hstart init hn hk hrule
    refine ⟨y, Prod.ext hrun.2 hrun.1, count_of_ready ?_⟩
    rcases h.agrees.done (.inl hstate) hties with hy | hy
    · exact hy
    · cases hall hy
  · intro hcircle
    rw [hfollows] at hcircle ⊢
    obtain ⟨y, hpath, hcount⟩ := h.agrees.origin (.inl hstate)
    have hback := reflTransGen_of_circle (ties_rightUnique hstart.wellFormed) hcircle hpath
    obtain ⟨z, hyz, -⟩ := TransGen.head'_iff.mp (TransGen.trans_right hback hcircle)
    have hgroup := hstart.group_of_ties hyz
    rw [Ne, ← h.groups] at hgroup
    obtain ⟨⟨phase, c⟩, hy⟩ := Option.ne_none_iff_exists'.mp hgroup
    exact ⟨y, hpath, hback, by rw [h.provisionalCount hstart hy, hcount]⟩

end

-- ---------------------------------------------------------------------------
-- New trees
-- ---------------------------------------------------------------------------

/-- Building starts with a tree in which no group has been touched. -/
theorem exists_startable (hτ : τ.Wired) (seed : UInt64) :
    ∃ t₀, t₀.Startable τ ∧ t₀.Calm τ t₀ ∧ t₀.weight = τ.size ∧
      ∀ t, build τ seed = .ok t ↔ (perform (.visit t₀.root)).run t₀ = (.ok (), t) := by
  obtain ⟨t₀, hwf, hm, hnew, hweight, hbuild⟩ := exists_start τ seed
  have huntouched : ∀ {x phase c}, t₀.states x = some (phase, c) → phase = .uninit ∧ c = 0 := by
    intro x phase c hx
    obtain ⟨n, g, hn, hk, rfl, rfl⟩ := states_eq_some.mp hx
    have hrep : n.kind.isRepeated = true := NodeKind.isRepeated_iff.mpr ⟨g, hk⟩
    exact ⟨((hnew hn).group hk).1, by rw [(hnew hn).empty hrep, List.length_nil]⟩
  have hdone : ∀ {x c}, ¬ t₀.states.Done x c := by
    rintro x c (hx | hx) <;> cases (huntouched hx).1
  have hmodels := hm (fun _ => trivial) τ.cellsIn_true
  refine ⟨t₀, ⟨hτ, hwf, hmodels, huntouched⟩, ⟨⟨.refl _ t₀, Iff.rfl, fun hw => ?_⟩, ?_⟩, hweight,
    hbuild⟩
  · obtain ⟨n, g, hn, hk, hw⟩ := hw
    rw [((hnew hn).group hk).2] at hw
    cases hw
  · constructor
    case busy =>
      intro x
      refine iff_of_false List.not_mem_nil ?_
      rintro ⟨c, hc⟩
      cases (huntouched hc).1
    case unbound => exact fun hx => absurd hx hdone
    case bound => exact fun hx => absurd hx hdone
    case stale => exact fun hx => absurd (.inr hx) hdone
    case origin => exact fun hx => absurd hx hdone

/-- What is known of a tree between visits is known of it after its root has been visited. -/
theorem visitRoot_completes (hstart : t₀.Startable τ) (hweight : t₀.weight = τ.size)
    {I : Tree → Prop} (hI : t₀.Completes τ I) (h : I t₀) :
    wp (perform (.visit t₀.root))
      (fun r t => r = .ok () ∧ I t ∧ t₀.ReadyFrom [] t.states) t₀ := by
  have hreserve : 1 ≤ nestingReserve := by decide
  have hroot : τ.partAt [] = some (τ, τ.name) := rfl
  unfold perform
  rw [wp.bind, wp.get]
  refine (visit_completes hstart hI (nestingReserve + 2 * t₀.weight) h rfl hroot (by omega)).mono ?_
  rintro _ t ⟨rfl, ht, -, hready⟩
  exact ⟨rfl, ht, hready⟩

theorem exists_calm (hτ : τ.Wired) (seed : UInt64) :
    ∃ t₀ t : Tree, t₀.Startable τ ∧ build τ seed = .ok t ∧ t₀.Calm τ t ∧ t.Settled := by
  obtain ⟨t₀, hstart, hcalm, hweight, hbuild⟩ := exists_startable hτ seed
  obtain ⟨hrun, hcalm', hready⟩ := visitRoot_completes hstart hweight (completes_calm hstart) hcalm
  exact ⟨t₀, _, hstart, (hbuild _).mpr (Prod.ext hrun rfl), hcalm', hcalm'.settled hstart hready⟩

theorem build_calm (hτ : τ.Wired) {seed : UInt64} (hbuild : build τ seed = .ok t) :
    ∃ t₀ : Tree, t₀.Startable τ ∧ t₀.Calm τ t ∧ t.Settled := by
  obtain ⟨t₀, t', hstart, hbuild', h⟩ := exists_calm hτ seed
  cases hbuild.symm.trans hbuild'
  exact ⟨t₀, hstart, h⟩

/-- In a new tree groups follow each other as the template ties them. -/
theorem build_follows (hτ : τ.Wired) {seed : UInt64} (hbuild : build τ seed = .ok t) :
    t.Follows = t.Ties τ := by
  obtain ⟨t₀, hstart, hcalm, -⟩ := build_calm hτ hbuild
  funext x y
  exact propext ((hcalm.follows_iff hstart).trans (hcalm.ties_iff hstart).symm)

/-- A tied template can be built, and then all groups have their elements, as many as their rules
ask for. -/
theorem build_counts (hτ : τ.Tied) (seed : UInt64) :
    ∃ t, build τ seed = .ok t ∧ t.Settled ∧
      ∀ x n g, t.node? x = some n → n.kind = .repeated g → ∃ c, t.Counts x g.rule c := by
  obtain ⟨t₀, t, hstart, hbuild, hcalm, hs⟩ := exists_calm hτ.wired seed
  exact ⟨t, hbuild, hs, fun x n g hn hk => hcalm.counts hstart hs hn hk⟩

/-- Two groups that follow each other, and one that follows the first of them. -/
def mirrored : Template :=
  .composite { name := "pair" } [
    .group "copy" (.boolean "flag") (.bound "left" [] 0 9),
    .group "left" (.boolean "flag") (.bound "right" [] 2 2),
    .group "right" (.boolean "flag") (.bound "left" [] 3 5)]

example : ((build mirrored 7).toOption.map fun t =>
    [1, 2, 3].map fun i => ((count ⟨i⟩).run t).1.toOption) = some [some 2, some 2, some 2] := by
  decide +kernel

private theorem tied_mirrored : mirrored.Tied := by
  have hflat : mirrored.Flat := ⟨_, _, rfl, by simp [Template.group, Template.boolean]⟩
  refine ⟨hflat.outer, ?_⟩
  intro p h element path fields min max name hpart
  obtain ⟨i, rfl, hi⟩ := hflat.partAt hpart
  rcases i with _ | _ | _ | i <;> cases hi
  · exact ⟨rfl, by decide +kernel, [1], by decide +kernel, rfl⟩
  · exact ⟨rfl, by decide +kernel, [2], by decide +kernel, rfl⟩
  · exact ⟨rfl, by decide +kernel, [1], by decide +kernel, rfl⟩

theorem build_counts_mirrored : mirrored.Tied ∧ ∃ t, build mirrored 7 = .ok t ∧ t.Settled ∧
    ∀ x n g, t.node? x = some n → n.kind = .repeated g → ∃ c, t.Counts x g.rule c :=
  ⟨tied_mirrored, build_counts tied_mirrored 7⟩

-- ---------------------------------------------------------------------------
-- Later states
-- ---------------------------------------------------------------------------

theorem coarse_calm : Coarse fun t => t₀.Calm τ t ∧ t.Settled := by
  rintro t t' hev hstates hwatches ⟨hcalm, hs⟩
  have hsettling := Settling.coarse t t' hev hstates hwatches hcalm.toSettling
  refine ⟨⟨hsettling, hstates ▸ hcalm.agrees⟩, fun x n' g' hn' hk' => ?_⟩
  have hx := states_of_node? hn' hk'
  rw [hstates] at hx
  obtain ⟨n, g, hn, hk, hphase, -⟩ := states_eq_some.mp hx
  exact hphase ▸ hs hn hk

/-- As long as no group is given another count, all groups have their elements, and agree. -/
theorem Reaches.calm {seed : UInt64} (hτ : τ.Wired) (hbuild : build τ seed = .ok t)
    (h : Reaches (fun _ c => ∀ id n, c ≠ .resize id n) t t') :
    ∃ t₀ : Tree, t₀.Startable τ ∧ t₀.Calm τ t ∧ t₀.Calm τ t' ∧ t'.Settled := by
  obtain ⟨t₀, hstart, hcalm, hs⟩ := build_calm hτ hbuild
  have htouch : ∀ t id, t₀.Calm τ t ∧ t.Settled →
      t₀.Calm τ ((touch id).run t).2 ∧ ((touch id).run t).2.Settled := by
    intro t id ht
    have hsame : ((touch id).run t).2 = t := touch_settled ht.2 id
    rwa [hsame]
  have hcount : ∀ t id, t₀.Calm τ t ∧ t.Settled →
      t₀.Calm τ ((count id).run t).2 ∧ ((count id).run t).2.Settled := by
    intro t id ht
    have hsame : ((count id).run t).2 = t := (count_settled ht.2 id).1
    rwa [hsame]
  obtain ⟨hcalm', hs'⟩ := coarse_calm.reaches htouch hcount
    (fun t id n hne => absurd rfl (hne id n)) h ⟨hcalm, hs⟩
  exact ⟨t₀, hstart, hcalm, hcalm', hs'⟩

/-- As long as no group is given another count, a group has the count of the one that it follows. -/
theorem Reaches.count_eq_followed {seed : UInt64} (hτ : τ.Wired) (hbuild : build τ seed = .ok t)
    (h : Reaches (fun _ c => ∀ id n, c ≠ .resize id n) t t') (hfollows : t'.Follows x y) :
    ∃ c, (count x).run t' = (.ok c, t') ∧ (count y).run t' = (.ok c, t') := by
  obtain ⟨t₀, hstart, -, hcalm, hs⟩ := h.calm hτ hbuild
  obtain ⟨n, g, path, fields, min, max, hn, hk, hrule, hrun⟩ := hfollows
  obtain ⟨c, hcounts⟩ := hcalm.counts hstart hs hn hk
  obtain ⟨z, hrun', hz⟩ := hcounts.bound path fields min max hrule
  rw [hrun] at hrun'
  cases hrun'
  exact ⟨c, hcounts.count, hz⟩

/-- A group whose elements have groups that follow it. -/
def encircled : Template :=
  .composite { name := "record" } [
    .group "source" (.boolean "flag") (.fixed 2),
    .group "copy" (.composite { name := "part" } [
      .group "inner" (.boolean "flag") (.bound "^.copy" [] 0 9)]) (.bound "source" [] 5 5)]

/-- A group that asks for the count of one that is still working it out is told another one. -/
theorem build_misled : ((build encircled 7).toOption.map fun t =>
    (((count ⟨2⟩).run t).1.toOption,
      ((do count (← find ⟨0⟩ "copy[0].inner") : TreeM Nat).run t).1.toOption)) =
        some (some 2, some 5) := by
  decide +kernel

end Tree

end FormatFuzz
