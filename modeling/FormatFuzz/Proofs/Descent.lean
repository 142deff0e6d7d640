-- SUMMARY: In new trees, and until a group is resized, groups have the counts that they stem from.
import FormatFuzz.Proofs.Counts
import FormatFuzz.Proofs.Inheritance

/-!
# Descent

In a new tree all groups are ready that stem from a group that follows no other one, and have its count. No call
takes this count from a group of the new tree, unless it resizes a group. Groups that come into being later have
the counts that they stem from once they have any.
-/

namespace FormatFuzz

open TreeM
open Relation (ReflTransGen TransGen)

namespace Template.Stems

variable {τ : Template} {p z z' : Position}

theorem unique (h : τ.Stems p z) (h' : τ.Stems p z') : z = z' := by
  induction h with
  | origin h => exact (h'.eq_of_isOrigin h).symm
  | link hsource _ _ ih => exact ih (h'.of_source hsource).1

end Template.Stems

namespace Tree

variable {τ : Template} {t t' t₁ t₀ : Tree} {x y : NodeId} {p q z : Position} {path : String}
  {fields : List (String × String)} {min max c : Nat} {seed : UInt64}

-- ---------------------------------------------------------------------------
-- Operations
-- ---------------------------------------------------------------------------

theorem init_inherits : Inherits τ Tree.init := by
  intro t q y h hq hpending hidle
  unfold Tree.init perform
  rw [wp.bind, wp.get]
  exact (runTask_proceeds _).1 h hq hpending hidle

/-- Where no group is on its way, any may be initialized. -/
theorem Stemmed.ripe (h : t.Stemmed τ) (hidle : ∀ y, ¬ t.Busy y) (p : Position) : t.Ripe τ p :=
  ⟨h, fun _ _ _ hb => absurd hb (hidle _), fun _ _ c _ _ _ hb => absurd (busy_iff.mpr ⟨c, hb⟩) (hidle _)⟩

/-- The groups of the first tree that keep their counts still have them, and no group is on its way. -/
structure Descends (τ : Template) (t₀ t : Tree) : Prop extends t.Stemmed τ where
  heeds : Heeds τ Nowhere t₀ t
  idle : ∀ y, ¬ t.Busy y

namespace Descends

theorem proceeds {α : Type} {r : Except TreeError α} {D : NodeId → Prop} (hwf : t₀.WellFormed) (h : Descends τ t₀ t)
    (h' : Proceeds τ Nowhere D t r t') : Descends τ t₀ t' :=
  ⟨h'.stemmed, h.heeds.trans hwf h'.heeds, fun y hy => h.idle y (h'.heeds.busy hy)⟩

theorem touch (hwf : t₀.WellFormed) (h : Descends τ t₀ t) (id : NodeId) :
    Descends τ t₀ ((Tree.touch id).run t).2 := by
  suffices hwp : wp (Tree.touch id) (fun _ t' => Descends τ t₀ t') t from hwp
  unfold Tree.touch
  cases hg : t.group id with
  | error e =>
    unfold touchWith
    exact (wp.look_error hg).mpr h
  | ok g =>
    obtain ⟨n, hn, -⟩ := group_eq_ok.mp hg
    obtain ⟨p, hp⟩ := exists_position h.wellFormed hn
    exact (touchWith_proceeds init_inherits (h.ripe h.idle p) hp).mono fun _ _ h' => h.proceeds hwf h'.1

theorem count (hwf : t₀.WellFormed) (h : Descends τ t₀ t) (id : NodeId) :
    Descends τ t₀ ((Tree.count id).run t).2 := by
  suffices hwp : wp (Tree.count id) (fun _ t' => Descends τ t₀ t') t from hwp
  unfold Tree.count
  cases hg : t.group id with
  | error e =>
    unfold countWith
    exact (wp.look_error hg).mpr h
  | ok g =>
    obtain ⟨n, hn, -⟩ := group_eq_ok.mp hg
    obtain ⟨p, hp⟩ := exists_position h.wellFormed hn
    exact (countWith_proceeds init_inherits (h.ripe h.idle p) hp).mono fun _ _ h' => h.proceeds hwf h'.1

theorem shallow (hwf : t₀.WellFormed) : Shallow (Descends τ t₀) := fun _ _ hlevel h =>
  h.proceeds (r := (.ok () : Except TreeError Unit)) hwf (.of_level h.toStemmed hlevel)

end Descends

/-- In a new tree all groups have been touched. Those that stem from a group that follows no other one are ready. -/
theorem build_descends (hbuild : build τ seed = .ok t) : t.seed = seed ∧ Descends τ t t ∧
    ∀ {p z x n g}, τ.Stems p z → t.placed p = some x → t.node? x = some n → n.kind = .repeated g → t.Served x := by
  obtain ⟨t₀, hwf, hm, hnew, -, hrun⟩ := exists_start τ seed
  have huninit : ∀ {x phase c}, t₀.states x = some (phase, c) → phase = .uninit := by
    intro x phase c hx
    obtain ⟨n, g, hn, hk, rfl, -⟩ := states_eq_some.mp hx
    exact ((hnew hn).group hk).1
  have hunheard : ∀ {w x}, ¬ t₀.Watches w x := by
    rintro w x ⟨n, g, hn, hk, hw⟩
    rw [((hnew hn).group hk).2] at hw
    cases hw
  have hidle : ∀ y, ¬ t₀.Busy y := by
    intro y hy
    obtain ⟨c, hc⟩ := busy_iff.mp hy
    cases huninit hc
  have hstemmed : t₀.Stemmed τ := by
    refine ⟨hwf, hm (fun _ => trivial) τ.cellsIn_true, fun _ _ hx => ?_, fun hw => absurd hw hunheard,
      fun hw => absurd hw hunheard, fun hw => absurd hw hunheard⟩
    cases huninit hx
  have hprompt : t₀.Prompt τ := by
    refine ⟨fun hw => absurd hw hunheard, fun _ _ hx => ?_⟩
    cases huninit hx
  have hvisit : wp (perform (.visit t₀.root))
      (fun r t' => Proceeds τ Nowhere (t₀.Spans t₀.root) t₀ r t' ∧ (r = .ok () → t₀.isLive t₀.root = true)) t₀ := by
    unfold perform
    rw [wp.bind, wp.get]
    exact (runTask_proceeds _).2 hstemmed fun p _ r => hstemmed.ripe hidle (r ++ p)
  obtain ⟨hproceeds, -⟩ := hvisit.of_run ((hrun t).mp hbuild)
  have hclears := hproceeds.clears () rfl
  have hidle' : ∀ y, ¬ t.Busy y := fun y hy => hidle y (hproceeds.heeds.busy hy)
  refine ⟨build_seed hbuild, ⟨hproceeds.stemmed, .refl τ _ t, hidle'⟩, fun {p z x n g} hstems hp hn hk => ?_⟩
  have hx := states_of_node? hn hk
  cases hphase : g.phase with
  | ready => exact ⟨n, g, hn, hk, hphase⟩
  | initializing => exact absurd ⟨n, g, hn, hk, hphase⟩ (hidle' x)
  | stale =>
    rw [hphase] at hx
    exact absurd hx ((hclears.prompt hprompt).stale hstems hp)
  | uninit =>
    -- A group that was there before the visit is one of those that it has touched.
    obtain ⟨⟨c, hc⟩, hspared⟩ := hclears.blank ⟨_, hphase ▸ hx⟩
    obtain ⟨m, -, hm, -⟩ := states_eq_some.mp hc
    obtain ⟨q, hq⟩ := exists_position hwf hm
    exact absurd ⟨[], q, rfl, (List.append_nil q).symm ▸ hq⟩ hspared

/-- As long as no group is resized, the groups of a new tree keep their counts. -/
theorem Reaches.descends (hbuild : build τ seed = .ok t) (h : Reaches (fun _ c => ∀ id n, c ≠ .resize id n) t t') :
    Descends τ t t' := by
  obtain ⟨-, hdescends, -⟩ := build_descends hbuild
  have hwf := hdescends.wellFormed
  exact (Descends.shallow hwf).reaches (fun t id h => h.touch hwf id) (fun t id h => h.count hwf id)
    (fun t id n hne => absurd rfl (hne id n)) h hdescends

-- ---------------------------------------------------------------------------
-- Counts
-- ---------------------------------------------------------------------------

/-- No call for the count of the group gives another one than `c`. If the group was there in the first tree, it
gives this count at once. -/
structure Gives (t₀ t : Tree) (x : NodeId) (c : Nat) : Prop where
  agrees : ∀ {d t'}, (Tree.count x).run t = (.ok d, t') → d = c
  ready : t₀.isLive x = true → (Tree.count x).run t = (.ok c, t)

theorem Gives.of_run (h : (Tree.count x).run t = (.ok c, t)) : Gives t₀ t x c where
  agrees := by
    intro d t' hrun
    rw [h] at hrun
    cases hrun
    rfl
  ready := fun _ => h

theorem Descends.gives (hbuild : build τ seed = .ok t₀) (h : Descends τ t₀ t) (hstems : τ.Stems p z)
    (hp : t.placed p = some x) (hgroup : t.isGroup x = .ok true) : Gives t₀ t x (τ.ownCount seed z) := by
  obtain ⟨hseed, hdescends, hserved⟩ := build_descends hbuild
  have hwf := hdescends.wellFormed
  have hseed' : t.seed = seed := (h.heeds.seed hwf).trans hseed
  refine ⟨fun {d t'} hrun => ?agrees, fun hlive => ?ready⟩
  case agrees =>
    obtain ⟨-, hcount⟩ := (countWith_proceeds init_inherits (h.ripe h.idle p) hp).of_run hrun
    rw [(hcount d rfl z hstems fun hbusy => absurd hbusy (h.idle x)).1, hseed']
  case ready =>
    obtain ⟨n, hn⟩ := isLive_iff_node?.mp hlive
    obtain ⟨n', hn', hrep⟩ := look_eq_ok.mp hgroup
    obtain ⟨g', hk'⟩ := NodeKind.isRepeated_iff.mp hrep
    obtain ⟨g, hk, -⟩ := Node.rule_of_fixture ((h.heeds.evolves.grows hwf).fixture hn hn').symm hk'
    have hp₀ := h.heeds.placed_back hwf hlive hp
    have hserved₀ := hserved hstems hp₀ hn hk
    obtain ⟨c, hc⟩ := served_iff.mp hserved₀
    have hkept := h.heeds.kept not_false (.inr ⟨hserved₀, p, z, hp₀, hstems⟩) (isLive_iff_node?.mpr ⟨n', hn'⟩)
    rw [hc] at hkept
    rw [count_ready hkept, h.ready hstems hp hkept, hseed']

/-- As long as no group is resized, a group has the count of the one that it follows. This is the own count of the
group that it stems from, if there is such a one; no group is told what another one falls back to. -/
theorem Reaches.count_inherited (hbuild : build τ seed = .ok t)
    (h : Reaches (fun _ c => ∀ id n, c ≠ .resize id n) t t') (hp : t'.placed p = some x)
    (hrule : τ.ruleAt p = some (.bound path fields min max)) (hends : τ.Wired ∨ ∃ z, τ.Stems p z) :
    ∃ c, (∀ z, τ.Stems p z → c = τ.ownCount seed z) ∧ Gives t t' x c ∧
      ∀ y t₁, (sourceWith Tree.init x path).run t' = (.ok y, t₁) → Gives t t₁ y c := by
  have hdescends := h.descends hbuild
  have hwf := hdescends.wellFormed
  obtain ⟨n, g, hn, hk, hrule'⟩ := hdescends.models.exists_group hp hrule
  rcases hends with hwired | ⟨z, hstems⟩
  -- Where no group is in an element they agree, also on circles.
  · obtain ⟨t₀, hstart, -, hcalm, hs⟩ := h.calm hwired hbuild
    obtain ⟨c, hcounts⟩ := hcalm.counts hstart hs hn hk
    obtain ⟨y, hrun, hy⟩ := hcounts.bound path fields min max hrule'
    refine ⟨c, fun z hstems => ?_, .of_run hcounts.count, fun y' t₁ hrun' => ?_⟩
    · have hgroup : t'.isGroup x = .ok true := by rw [isGroup, look_of_node? hn, hk]; rfl
      exact (hdescends.gives hbuild hstems hp hgroup).agrees hcounts.count
    · rw [hrun] at hrun'
      cases hrun'
      exact .of_run hy
  · have hgroup : t'.isGroup x = .ok true := by rw [isGroup, look_of_node? hn, hk]; rfl
    refine ⟨_, fun z' hstems' => congrArg _ (hstems.unique hstems'), hdescends.gives hbuild hstems hp hgroup,
      fun y t₁ hrun => ?_⟩
    obtain ⟨hproceeds, hsource⟩ :=
      (sourceWith_proceeds init_inherits (hdescends.ripe hdescends.idle p) hp hrule).of_run hrun
    obtain ⟨q, hq, hplace⟩ := hsource y rfl
    have hgroup' := (GroupLaws.sourceWith_isGroup x path t').of_run hrun y rfl
    obtain ⟨-, hstart, -⟩ := build_descends hbuild
    exact (hdescends.proceeds hstart.wellFormed hproceeds).gives hbuild (hstems.of_source hq).1 hplace hgroup'

/-- Parts with two groups, of which one follows the group of all parts, and the other one follows the first. -/
def chained : Template :=
  .composite { name := "record" } [
    .group "parts" (.composite { name := "part" } [
      .group "inner" (.boolean "flag") (.bound "^.parts" [] 0 9),
      .group "last" (.boolean "flag") (.bound "inner" [] 5 5)]) (.fixed 2)]

/-- There are no groups in the elements of the first group of a part. -/
private theorem chained_below (r : Position) (i : Nat) : chained.ruleAt (r ++ [i, 0, 0, 0]) = none := by
  have hpart : r = [] ∨ chained.partAt (r ++ [i, 0, 0, 0]) = none := by
    induction r with
    | nil => exact .inl rfl
    | cons j r ih =>
      rcases ih with rfl | hnone
      · exact .inr rfl
      · refine .inr ?_
        rw [List.cons_append, Template.partAt, hnone]
        rfl
  rcases hpart with rfl | hnone
  · rfl
  · rw [Template.ruleAt, hnone]

private theorem chained_bound {q : Position} (hq : q = [0] ∨ [0, 0, 0] <:+ q)
    (hrule : chained.ruleAt q = some (.bound path fields min max)) :
    q = [0, 0, 0] ∧ path = "^.parts" ∧ fields = [] := by
  rcases hq with rfl | ⟨r, rfl⟩
  · cases hrule
  rcases List.eq_nil_or_concat r with rfl | ⟨r, i, rfl⟩
  · cases hrule
    exact ⟨rfl, rfl, rfl⟩
  · rw [List.concat_eq_append, List.append_assoc] at hrule
    cases (chained_below r i).symm.trans hrule

/-- While a group in a part is on its way, no other part is touched: all parts are there already. -/
private theorem chained_rouses {q : Position} (h : TransGen (chained.Rouses [0, 0, 0]) [0, 0, 0] q) :
    q = [0] ∨ [0, 0, 0] <:+ q := by
  have hstep : ∀ {q q'}, (q = [0] ∨ [0, 0, 0] <:+ q) → chained.Rouses [0, 0, 0] q q' →
      q' = [0] ∨ [0, 0, 0] <:+ q' := by
    intro q q' hq hrouses
    cases hrouses with
    | touch htouches =>
      cases htouches with
      | source hsource =>
        obtain ⟨path, fields, min, max, hrule⟩ := Template.exists_rule_of_source hsource
        obtain ⟨rfl, -⟩ := chained_bound hq hrule
        exact .inl (Option.some.inj (hsource.symm.trans (by decide +kernel)))
      | way hrule htouched =>
        obtain ⟨rfl, rfl, -⟩ := chained_bound hq hrule
        have hnone : chained.touched (chained.base [0, 0, 0]) "^.parts" = [] := by decide +kernel
        exact absurd (hnone ▸ htouched) List.not_mem_nil
      | pair hrule hpair =>
        obtain ⟨-, -, rfl⟩ := chained_bound hq hrule
        exact absurd hpair List.not_mem_nil
    | element hrule houtside r i =>
      rcases hq with rfl | hq
      · exact absurd (by decide) (houtside 0)
      · exact .inr (hq.trans ⟨r ++ [i], by rw [List.append_assoc]; rfl⟩)
  induction h with
  | single h => exact hstep (.inr List.suffix_rfl) h
  | tail _ h ih => exact hstep ih h

private theorem stems_chained : chained.Stems [1, 0, 0] [0] := by
  have horigin : chained.IsOrigin [0] := ⟨.fixed 2, by decide +kernel, rfl⟩
  have hback : ¬ TransGen (chained.Rouses [0, 0, 0]) [0, 0, 0] [1, 0, 0] := by
    intro hback
    rcases chained_rouses hback with h | h
    · cases h
    · exact absurd h (by decide)
  exact .link (q := [0, 0, 0]) (by decide +kernel) (fun h => absurd h hback)
    (.link (q := [0]) (by decide +kernel) (fun _ => horigin) (.origin horigin))

theorem Reaches.count_inherited_chained : ∃ t, build chained 7 = .ok t ∧
    let t' := (Call.bytes ⟨0⟩).run t
    t'.placed [1, 0, 0] = some ⟨4⟩ ∧ chained.Stems [1, 0, 0] [0] ∧
      ∃ c, (∀ z, chained.Stems [1, 0, 0] z → c = chained.ownCount 7 z) ∧ Gives t t' ⟨4⟩ c ∧
        ∀ y t₁, (sourceWith Tree.init ⟨4⟩ "inner").run t' = (.ok y, t₁) → Gives t t₁ y c := by
  have hplace : (build chained 7).toOption.any (fun t =>
      ((Call.bytes ⟨0⟩).run t).placed [1, 0, 0] = some ⟨4⟩) = true := by decide +kernel
  obtain ⟨t, hbuild, hplace⟩ := exists_build hplace
  have hplace := of_decide_eq_true hplace
  have hreach : Reaches (fun _ c => ∀ id n, c ≠ .resize id n) t ((Call.bytes ⟨0⟩).run t) :=
    .call (.bytes ⟨0⟩) (.refl t) fun _ _ => Call.noConfusion
  have hrule : chained.ruleAt [1, 0, 0] = some (.bound "inner" [] 5 5) := by decide +kernel
  exact ⟨t, hbuild, hplace, stems_chained,
    Reaches.count_inherited hbuild hreach hplace hrule (.inr ⟨_, stems_chained⟩)⟩

end Tree

end FormatFuzz
