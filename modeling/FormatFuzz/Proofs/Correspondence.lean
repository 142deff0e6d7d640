-- SUMMARY: What the elements of a follower show is what the elements of its source have.
import FormatFuzz.Proofs.Offsets
import FormatFuzz.Proofs.Retries
import FormatFuzz.Proofs.Stacks
import FormatFuzz.Proofs.Survivals
import FormatFuzz.Proofs.Upkeep

/-!
# Correspondence

The elements of a follower are made and discarded at other times than those of its source. But whoever has
found a leaf in one of them has made sure that the follower is up to date, so that the leaf shows the element
of the source with the same index. If it has a value then, that is the value of the field that it shows
(`Tree.elements_correspond`).
-/

namespace FormatFuzz

open TreeM
open Relation (ReflTransGen)

-- ---------------------------------------------------------------------------
-- Templates
-- ---------------------------------------------------------------------------

namespace Template

/-- The output transform of a template is strict. -/
def StrictAction (τ : Template) : Prop := ∀ f, τ.header.action = some f → f.Strict True

end Template

namespace Tree

variable {τ : Template} {c : Coupling τ} {a b x y : NodeId} {t t' t₀ : Tree} {n : Node}
  {p q : Position} {field path path' : String} {i : Nat}

-- ---------------------------------------------------------------------------
-- Values
-- ---------------------------------------------------------------------------

theorem Lighter.of_noteReader {u v : Tree} (h : u.Lighter v) (source reader : NodeId) :
    (u.noteReader source reader).Lighter v where
  like := (Like.of_noteReader source reader).symm.trans h.like
  cached x := by rw [cacheOf_noteReader, h.cached]
  stack := by
    rw [(Rests.of_noteReader source reader).resolving]
    exact h.stack

section

variable (hwf : t.WellFormed) (hm : t.Models (fun _ => True) τ τ.name t.root)
  (hs : t.Settled) (ha : t.placed p = some a)

include hwf hm hs ha

/-- What is bound to an element is led to a field of it. -/
theorem bindingTarget_settled (x : NodeId) (i : Nat) (field : String) :
    wp (Resolver.bindingTarget x (.element a i field)) (fun r t' => ∀ y, r = .ok y →
      t' = t.noteReader a x ∧ ∃ q, τ.follow (i :: p) field = some q ∧ t.placed q = some y) t := by
  have hlike : t.Like (t.noteReader a x) := .of_noteReader a x
  have hfail : ∀ (name : Tree → String) (s : Tree), wp (do
      throw (.bindingUnresolved (name (← get)) s!"{t.nameOrPlace a}[{i}].{field}") : TreeM NodeId) (fun r t' =>
        ∀ y, r = .ok y → t' = t.noteReader a x ∧ ∃ q, τ.follow (i :: p) field = some q ∧ t.placed q = some y)
        s :=
    fun name s y hy => absurd hy error_ne_ok
  obtain ⟨n, hn⟩ := live_of_placed hwf ha
  unfold Resolver.bindingTarget
  simp only [wp.get_bind]
  rw [if_pos (isLive_iff_node?.mpr ⟨n, hn⟩), wp.bind]
  refine (count_settled hs a).mono ?_
  rintro (e | k) s ⟨rfl, -⟩
  · exact fun y hy => absurd hy error_ne_ok
  obtain ⟨n', hn', hbare⟩ := hlike.node? hn
  have hch : n'.children = n.children := Node.children_of_bare hbare
  dsimp only
  rw [wp.bind, wp.modify]
  dsimp only
  rw [wp.look_ok (a := n'.children) (by rw [children, look_of_node? hn']), hch]
  cases hi : n.children[i]? with
  | none => exact hfail (·.nameOrPlace x) _
  | some e =>
    have he : s.placed (i :: p) = some e := placed_cons.mpr ⟨a, n, ha, hn, hi⟩
    dsimp only
    split
    · rename_i hempty
      intro y hy
      cases hy
      refine ⟨rfl, i :: p, ?_, he⟩
      rw [String.isEmpty_iff.mp hempty]
      rfl
    · rw [wp.bind, wp.outcome]
      have he' := (hlike.alike.placed (i :: p)).trans he
      have hm' := hm.evolve hwf τ.cellsIn_true hlike.evolves
      refine (find_leads (hlike.alike.wellFormed hwf) hm' (hs.of_sameKinds hlike.sameKinds) he' field).mono ?_
      rintro (e | target) _ ⟨rfl, hleads⟩
      · exact hfail (·.nameOrPlace x) _
      · intro y hy
        cases hy
        obtain ⟨q, hq, htarget⟩ := hleads _ rfl
        exact ⟨rfl, q, hq, (hlike.alike.placed q).symm.trans htarget⟩

end

/-- The content of a leaf that is bound to a node is asked of that node. -/
theorem leafContent_bound {ask : Resolver} {b : Binding} (hn : t.node? x = some n) (hcell : n.cell = .bound b)
    {Q : Except TreeError Value → Tree → Prop}
    (h : wp (Resolver.bindingTarget x b) (fun r t' => (∀ e, r = .error e → Q (.error e) t') ∧
      ∀ y, r = .ok y → wp (ask (.value y)) Q (t'.noteReader y x)) t) :
    wp (Resolver.leafContent ask x) Q t := by
  unfold Resolver.leafContent Resolver.cellValue
  rw [wp.bind, wp.look_ok (a := n.cell) (by rw [cell, look_of_node? hn]), hcell]
  dsimp only
  rw [wp.bind]
  refine h.mono ?_
  rintro (e | y) t' ⟨herror, hok⟩
  · exact herror e rfl
  dsimp only
  rw [wp.bind, wp.modify]
  dsimp only
  rw [wp.bind]
  refine (hok y rfl).mono ?_
  rintro (e | v) t'' hQ
  · exact hQ
  · exact hQ

/-- A leaf that is bound to a field of an element has no other value than that field. The field is asked for
its value with the leaf on the stack, which can only keep it from having one. -/
theorem value_shown (hwf : t.WellFormed) (hm : t.Models (fun _ => True) τ τ.name t.root) (hfirm : t.Firm)
    (hn : t.node? x = some n) (hleaf : n.kind.isLeaf = true) (hcell : n.cell = .bound (.element a i field))
    (ha : t.placed p = some a) (hq : τ.follow (i :: p) field = some q) (hy : t.placed q = some y) {v : Value}
    (hv : ((value x).run t).1 = .ok v) : ((value y).run t).1 = .ok v := by
  suffices h : wp (value x) (fun r _ => ∀ v, r = .ok v → ((value y).run t).1 = .ok v) t from h v hv
  clear hv v
  refine (Resolver.wp_answerAll (.value x)).mpr ?_
  cases hdepth : Resolver.depthFor t with
  | zero => exact fun v hv => absurd hv error_ne_ok
  | succ depth =>
    suffices h : wp (Resolver.valueStep (Resolver.resolve depth) x)
        (fun r _ => ∀ v, r = .ok v → ((value y).run t).1 = .ok v) t from h
    unfold Resolver.valueStep
    rw [wp.look_ok (a := true) (by rw [isLeaf, look_of_node? hn, hleaf]), if_pos rfl, wp.guarded]
    split
    · exact fun v hv => absurd hv error_ne_ok
    have hlike : t.Like { t with resolving := x :: t.resolving } := ⟨rfl, rfl, rfl, fun _ => rfl⟩
    have hpushed : Lighter { t with resolving := x :: t.resolving } t :=
      ⟨hlike.symm, fun _ => rfl, List.subset_cons_self x t.resolving⟩
    refine leafContent_bound (t := { t with resolving := x :: t.resolving }) hn hcell ?_
    refine (bindingTarget_settled (hlike.alike.wellFormed hwf) (hm.evolve hwf τ.cellsIn_true hlike.evolves)
      (hfirm.settled.of_sameKinds hlike.sameKinds) ((hlike.alike.placed p).trans ha) x i field).mono
        fun r t₁ htarget => ⟨?_, ?_⟩
    · exact fun e _ v hv => absurd hv error_ne_ok
    rintro y' rfl
    obtain ⟨rfl, q', hq', hy'⟩ := htarget y' rfl
    cases hq.symm.trans hq'
    cases hy.symm.trans ((hlike.alike.placed q).symm.trans hy')
    have hlighter := (hpushed.of_noteReader a x).of_noteReader y x
    have hasked := Resolver.lightens_resolve (Nat.le_succ depth) (.value y) _ t
      (hfirm.of_like hlighter.like.symm) hlighter
    refine hasked.mono fun r t₂ hsame v hv => ?_
    refine (Resolver.wp_answerAll (Q := fun r _ => r = .ok v) (.value y)).mpr ?_
    rw [hdepth]
    exact (hsame v hv).mono fun _ _ h => h.1

-- ---------------------------------------------------------------------------
-- Lookups
-- ---------------------------------------------------------------------------

/-- A path that leads into an element of the follower passes the follower, which has its elements then. -/
theorem pathRules_poised : PathRules (fun _ => True) τ Tree.init (fun _ => True)
    (fun t p => t.Poised c a b ∧ ((∃ i, (i :: c.follower) <:+ p) → t.Served b)) fun _ => True where
  wellFormed h := h.1.wellFormed
  models h := h.1.models
  fail _ := trivial
  climb := fun ⟨h, hserved⟩ habove =>
    ⟨h, fun ⟨i, hi⟩ => hserved ⟨i, hi.trans (Template.above_suffix habove)⟩⟩
  descend := by
    rintro t p q name ⟨h, hserved⟩ hdescend
    obtain ⟨⟨j, rfl⟩, hrep⟩ := Template.descend_eq_some hdescend
    refine ⟨h, fun ⟨i, hi⟩ => ?_⟩
    rcases List.suffix_cons_iff.mp hi with he | hi
    · cases he
      rw [c.follower_isRepeated] at hrep
      cases hrep
    · exact hserved ⟨i, hi⟩
  touch := by
    rintro t p id ⟨h, hserved⟩ - hp -
    by_cases hid : id = b
    · subst hid
      cases placed_inj h.wellFormed hp h.follower
      refine (h.touch id).mono fun r t' ⟨⟨h', _⟩, hok⟩ => ⟨fun hr => ?_, fun _ _ => trivial⟩
      exact ⟨⟨h', fun _ => hok hr rfl⟩, h'.follower, fun _ => ⟨h', fun _ => hok hr rfl⟩⟩
    · refine (touchWith_idle fun hpending => absurd (h.quiet hpending) hid).mono ?_
      rintro r _ rfl
      refine ⟨fun _ => ⟨⟨h, hserved⟩, hp, fun j => ⟨h, fun ⟨i, hi⟩ => ?_⟩⟩, fun _ _ => trivial⟩
      rcases List.suffix_cons_iff.mp hi with he | hi
      · cases he
        exact absurd (Option.some.inj (hp.symm.trans h.follower)) hid
      · exact hserved ⟨i, hi⟩

theorem Poised.lookup (h : t.Poised c a b) (path : String) :
    wp (Tree.lookup path) (fun r t' => ∀ x, r = .ok x → ∃ q, τ.follow [] path = some q ∧
      t'.placed q = some x ∧ t'.Poised c a b ∧ ((∃ i, (i :: c.follower) <:+ q) → t'.Served b)) t := by
  have hstart : t.Poised c a b ∧ ((∃ i, (i :: c.follower) <:+ []) → t.Served b) :=
    ⟨h, fun ⟨i, hi⟩ => absurd (List.suffix_nil.mp hi) (List.cons_ne_nil _ _)⟩
  unfold Tree.lookup
  rw [wp.get_bind]
  refine (pathRules_poised.find (p := []) rfl (fun _ _ => trivial) hstart hstart).mono fun r t' hdone x hx => ?_
  obtain ⟨q, hq, hplace, h', hserved⟩ := hdone.1 x hx
  exact ⟨q, hq, hplace, h', hserved⟩

/-- A lookup searches from the root. The two are not compared by evaluation, which takes the search apart. -/
theorem run_lookup (t : Tree) (path : String) : (lookup path).run t = (find t.root path).run t := by
  have h : wp (lookup path) (fun r t' => (r, t') = (find t.root path).run t) t := by
    unfold lookup
    rw [wp.get_bind]
    unfold wp
    rfl
  exact h

/-- Two paths have been looked up, in either order. -/
def Finds (t : Tree) (path path' : String) (x y : NodeId) (t' : Tree) : Prop :=
  (∃ t₁, (lookup path).run t = (.ok x, t₁) ∧ (lookup path').run t₁ = (.ok y, t')) ∨
    ∃ t₁, (lookup path').run t = (.ok y, t₁) ∧ (lookup path).run t₁ = (.ok x, t')

/-- The leaf in the element of the follower at an index, and what it shows. -/
structure Facing (c : Coupling τ) (a b : NodeId) (i : Nat) (x y : NodeId) (t : Tree) : Prop extends
    t.Poised c a b where
  served : t.Served b
  leaf : t.placed (c.leaf ++ i :: c.follower) = some x
  /-- It may be gone if it was looked up before the follower was initialized. -/
  target : t.isLive y = true → ∃ q, τ.follow (i :: c.source) c.sourceField = some q ∧ t.placed q = some y

theorem Poised.facing (h : t.Poised c a b) (hpath : τ.follow [] path = some (c.leaf ++ i :: c.follower))
    (hpath' : τ.follow [] path' = τ.follow (i :: c.source) c.sourceField) (hfinds : t.Finds path path' x y t') :
    t'.Facing c a b i x y := by
  have hinner : ∃ j, (j :: c.follower) <:+ c.leaf ++ i :: c.follower := ⟨i, List.suffix_append _ _⟩
  rcases hfinds with ⟨t₁, hx, hy⟩ | ⟨t₁, hy, hx⟩
  · obtain ⟨q, hq, hleaf, h₁, hserved⟩ := (h.lookup path).of_run hx x rfl
    cases hpath.symm.trans hq
    have hserved := hserved hinner
    obtain ⟨q', hq', htarget, h', -⟩ := (h₁.lookup path').of_run hy y rfl
    have hsame : t' = t₁ := by
      rw [run_lookup] at hy
      exact (find_settled h₁.wellFormed h₁.models (h₁.settled hserved) t₁.root path').of_run hy
    subst hsame
    exact ⟨h₁, hserved, hleaf, fun _ => ⟨q', hpath' ▸ hq', htarget⟩⟩
  · obtain ⟨q', hq', htarget, h₁, -⟩ := (h.lookup path').of_run hy y rfl
    obtain ⟨q, hq, hleaf, h', hserved⟩ := (h₁.lookup path).of_run hx x rfl
    cases hpath.symm.trans hq
    refine ⟨h', hserved hinner, hleaf, fun hlive => ⟨q', hpath' ▸ hq', ?_⟩⟩
    have hev : Evolves (fun _ => True) t₁ t' := by
      rw [run_lookup] at hx
      have hx : (Call.find t₁.root path).run t₁ = t' := congrArg Prod.snd hx
      exact hx ▸ (Call.find t₁.root path).evolves t₁
    exact (hev.grows h₁.wellFormed).placed h₁.wellFormed h'.wellFormed htarget hlive

namespace Facing

variable {u u' : Tree} {v w : Value}

theorem of_like (h : t.Facing c a b i x y) (hlike : t.Like u) : u.Facing c a b i x y where
  toPoised := h.toPoised.of_like hlike
  served := hlike.served.mpr h.served
  leaf := (hlike.alike.placed _).trans h.leaf
  target := by
    intro hlive
    obtain ⟨n', hn'⟩ := isLive_iff_node?.mp hlive
    obtain ⟨n, hn, -⟩ := hlike.symm.node? hn'
    obtain ⟨q, hq, hy⟩ := h.target (isLive_iff_node?.mpr ⟨n, hn⟩)
    exact ⟨q, hq, (hlike.alike.placed q).trans hy⟩

/-- The leaf has no other value than what it shows. -/
theorem shown (h : t.Facing c a b i x y) (hfirm : t.Firm) (hlive : t.isLive y = true)
    (hv : ((value x).run t).1 = .ok v) : ((value y).run t).1 = .ok v := by
  obtain ⟨q, hq, hy⟩ := h.target hlive
  obtain ⟨k, hk⟩ := served_iff.mp h.served
  obtain ⟨n, hn⟩ := live_of_placed h.wellFormed h.leaf
  obtain ⟨header, kind, name, hpart⟩ := c.ends i
  obtain ⟨σ, name', hpart', hm⟩ := h.models.placed h.leaf
  rw [hpart] at hpart'
  cases hpart'
  have hleaf : n.kind.isLeaf = true := by
    obtain ⟨m, hm', -, hkind, -⟩ := hm
    rw [hn] at hm'
    cases hm'
    rw [hkind]
    rfl
  exact value_shown h.wellFormed h.models hfirm hn hleaf ((h.current hk).2 i h.leaf hn) h.source hq hy hv

theorem value_eq (h : t.Facing c a b i x y) (hfirm : t.Firm) (hv : ((value x).run t).1 = .ok v)
    (hw : ((value y).run t).1 = .ok w) : v = w :=
  Except.ok.inj ((h.shown hfirm (isLive_of_value hw) hv).symm.trans hw)

/-- Where questions can be repeated, the values may be asked for at different times. -/
theorem value_eq_later (h : t.Facing c a b i x y) (hfirm : t.Firm) (hsane : t.Sane) (hasked : t.Queried u) :
    (((value x).run t).1 = .ok v → ((value y).run u).1 = .ok w → v = w) ∧
      (((value y).run t).1 = .ok w → ((value x).run u).1 = .ok v → v = w) := by
  have hlike := (hasked.rests hsane.settled).toLike
  have hface := h.of_like hlike
  have hagain : ∀ {v}, ((value y).run t).1 = .ok v → ((value y).run u).1 = .ok v := fun {v} hv =>
    (Resolver.persists_answerAll (.value y) t u ((hasked.founds hsane).eases hsane) v hv).1
  refine ⟨fun hv hw => ?_, fun hw hv => hface.value_eq (hfirm.of_like hlike) hv (hagain hw)⟩
  have hlive : t.isLive y = true := by
    obtain ⟨n', hn'⟩ := isLive_iff_node?.mp (isLive_of_value hw)
    obtain ⟨n, hn, -⟩ := hlike.symm.node? hn'
    exact isLive_iff_node?.mpr ⟨n, hn⟩
  exact Except.ok.inj ((hagain (h.shown hfirm hlive hv)).symm.trans hw)

end Facing

-- ---------------------------------------------------------------------------
-- States
-- ---------------------------------------------------------------------------

/-- Allowed calls leave strict cells. -/
theorem steps_strict (h : ReflTransGen c.Steps t t') : Evolves (Cell.Strict True) t t' := by
  have laws := resolverLaws_evolves (permits_strict True)
  induction h with
  | refl => exact .refl _ t
  | tail _ hstep ih =>
    obtain ⟨call, hallowed, rfl⟩ := hstep
    refine ih.trans (call.rule laws.scope (fun _ => laws.bytesStep) (fun id k _ => ?_)
      (fun id cell t' hc ht' => ?_) (fun id => .of_invalidate) .of_invalidateAll)
    · exact ((groupLaws_evolves (permits_strict True)).resize id k).run _
    · subst hc
      exact evolves_setCell hallowed.1 ht'

theorem steps_reaches (h : ReflTransGen c.Steps t t') : Reaches c.Allows t t' := by
  induction h with
  | refl => exact .refl t
  | tail _ hstep ih =>
    obtain ⟨call, hallowed, rfl⟩ := hstep
    exact .call call ih hallowed

theorem Finds.steps (h : t.Finds path path' x y t') : ReflTransGen c.Steps t t' := by
  have hlookup : ∀ {path : String} {s s' : Tree} {z : NodeId}, (lookup path).run s = (.ok z, s') → c.Steps s s' := by
    intro path s s' z hz
    rw [run_lookup] at hz
    exact ⟨.find s.root path, trivial, congrArg Prod.snd hz⟩
  rcases h with ⟨t₁, hx, hy⟩ | ⟨t₁, hy, hx⟩
  · exact .tail (.single (hlookup hx)) (hlookup hy)
  · exact .tail (.single (hlookup hy)) (hlookup hx)

/-- Strict closures are brittle. -/
theorem Models.firm (hactions : τ.Every Template.StrictAction) (hwf : t.WellFormed)
    (hm : t.Models (Cell.Strict True) τ τ.name t.root) (hs : t.Settled) : t.Firm where
  settled := hs
  cell := fun _ _ hn => (hm.cell hwf hn).brittle
  action := by
    intro id n f hn hf raw
    obtain ⟨p, hp⟩ := exists_position hwf hn
    obtain ⟨σ, name, hpart, hm'⟩ := hm.placed hp
    obtain ⟨m, hm', hbears⟩ := hm'.live
    rw [hn] at hm'
    cases hm'
    have hstrict := (hactions.partAt hpart).self f (hbears.action.symm.trans hf)
    exact (Transform.Strict.run [raw] f hstrict).brittle

-- ---------------------------------------------------------------------------
-- The correspondence
-- ---------------------------------------------------------------------------

/-- One group of a template follows another one, both outside of elements, and one of its pairs binds a leaf.
Whatever reads there have been, whatever cells but those of the leaves have been written, and whatever counts
the source has been given: a count that the follower tells is that of its source. And when a leaf of it has
been found and the field of the source that it shows, if both have values, these are the same. If codecs are
honest, they may also be asked for one after the other. -/
theorem elements_correspond (c : Coupling τ) {seed : UInt64} (hcells : τ.CellsIn (Cell.Strict True))
    (hactions : τ.Every Template.StrictAction) (hbuild : build τ seed = .ok t₀) :
    ∃ a b, ∀ t, ReflTransGen c.Steps t₀ t → t.placed c.source = some a ∧ t.placed c.follower = some b ∧
      (∀ k t', (count b).run t = (.ok k, t') → (count a).run t = (.ok k, t) ∧ (count a).run t' = (.ok k, t')) ∧
      ∀ i path path' x y t' u, τ.follow [] path = some (c.leaf ++ i :: c.follower) →
        τ.follow [] path' = τ.follow (i :: c.source) c.sourceField → t.Finds path path' x y t' → t'.Queried u →
          (∀ v w, ((value x).run u).1 = .ok v → ((value y).run u).1 = .ok w → v = w) ∧
          (τ.Every (Template.Decent True) → ∀ u', u.Queried u' → ∀ v w,
            (((value x).run u).1 = .ok v → ((value y).run u').1 = .ok w → v = w) ∧
            (((value y).run u).1 = .ok w → ((value x).run u').1 = .ok v → v = w)) := by
  obtain ⟨a, b, hpoised⟩ := build_poised c hbuild
  obtain ⟨hwf₀, hm₀⟩ := build_wellFormed (permits_strict True) hbuild
  refine ⟨a, b, fun t hsteps => ?_⟩
  have h := hpoised.steps hsteps
  refine ⟨h.source, h.follower, fun k t' hk => ?_, fun i path path' x y t' u hpath hpath' hfinds hasked => ?_⟩
  · obtain ⟨⟨h', htends⟩, hcounted⟩ := (h.count b).of_run hk
    obtain ⟨hprimed, -⟩ := h'.current (hcounted k rfl)
    obtain ⟨l, hl⟩ := h.source_served
    cases (htends.source hl).symm.trans hprimed.source
    exact ⟨count_ready hl, count_ready hprimed.source⟩
  · have hsteps' : ReflTransGen c.Steps t₀ t' := hsteps.trans hfinds.steps
    have hface := h.facing hpath hpath' hfinds
    have hev := steps_strict hsteps'
    have hm := (hm₀ hcells).evolve hwf₀ hcells hev
    have hs := hface.settled hface.served
    have hlike := (hasked.rests hs).toLike
    have hfirm := (hm.firm hactions hface.wellFormed hs).of_like hlike
    have hface' := hface.of_like hlike
    refine ⟨fun v w hv hw => hface'.value_eq hfirm hv hw, fun hdecent u' hasked' v w => ?_⟩
    have hτ : τ.Reliable (Cell.Strict True) True := ⟨hcells, fun _ hcell => hcell, hdecent⟩
    have hsane : t'.Sane :=
      ⟨hs, hτ.straight ⟨hface.wellFormed, hm, hs⟩, (steps_reaches hsteps').encoded hbuild⟩
    exact hface'.value_eq_later hfirm ((hasked.founds hsane).sane hsane) hasked'

/-- An entry with one flag. -/
def entry : Template := .composite { name := "entry" } [.boolean "flag"]

/-- A group of entries, and one whose entries show the flags of those. -/
def mirroredEntries : Template :=
  .composite { name := "record" } [
    .group "source" entry (.fixed 1),
    .group "copy" entry (.bound "source" [("flag", "flag")] 0 9)]

theorem mirroredEntries_partAt {p : Position} {σ : Template} {name : String}
    (h : mirroredEntries.partAt p = some (σ, name)) :
    p = [] ∧ σ = mirroredEntries ∨ p = [0] ∧ σ = .group "source" entry (.fixed 1) ∨
      p = [1] ∧ σ = .group "copy" entry (.bound "source" [("flag", "flag")] 0 9) ∨
      σ = entry ∨ σ = .boolean "flag" := by
  induction p generalizing σ name with
  | nil =>
    cases h
    exact .inl ⟨rfl, rfl⟩
  | cons i p ih =>
    obtain ⟨⟨above, name'⟩, habove, hi⟩ := Option.bind_eq_some_iff.mp h
    rcases ih habove with ⟨rfl, rfl⟩ | ⟨-, rfl⟩ | ⟨-, rfl⟩ | rfl | rfl
    · cases i with
      | zero =>
        cases hi
        exact .inr (.inl ⟨rfl, rfl⟩)
      | succ i =>
        cases i with
        | zero =>
          cases hi
          exact .inr (.inr (.inl ⟨rfl, rfl⟩))
        | succ i => cases hi
    · cases hi
      exact .inr (.inr (.inr (.inl rfl)))
    · cases hi
      exact .inr (.inr (.inr (.inl rfl)))
    · cases i with
      | zero =>
        cases hi
        exact .inr (.inr (.inr (.inr rfl)))
      | succ i => cases hi
    · cases hi

def mirroredCoupling : Coupling mirroredEntries where
  follower := [1]
  source := [0]
  path := "source"
  fields := [("flag", "flag")]
  pair := 0
  elementField := "flag"
  sourceField := "flag"
  leaf := [0]
  bound := ⟨_, _, _, _, _, rfl⟩
  leads := rfl
  counted := ⟨_, _, rfl, rfl, trivial⟩
  alone := by
    intro p σ name hpart hne
    rcases mirroredEntries_partAt hpart with ⟨-, rfl⟩ | ⟨-, rfl⟩ | ⟨rfl, -⟩ | rfl | rfl
    case inr.inr.inl => exact absurd rfl hne
    all_goals trivial
  outer := by
    intro p q hrep hq hp
    have hlength : q.length = 1 := by rcases hq with rfl | rfl <;> rfl
    cases p with
    | nil => cases hrep
    | cons i p => exact hp.eq_of_length_le (by simp [hlength])
  paired := rfl
  shown := fun _ => rfl
  ends := fun _ => ⟨_, _, _, rfl⟩
  apart := by
    intro j pair' hj hget
    cases j with
    | zero => exact absurd rfl hj
    | succ j => cases hget

/-- The copies go along with three entries, and show the flag that one of these has been given. -/
theorem elements_correspond_mirrored : ∃ t₀ x y t' v w, build mirroredEntries 7 = .ok t₀ ∧
    let t := (Call.replaceCell ⟨12⟩ (.literal (.bool true))).run ((Call.resize ⟨1⟩ 3).run t₀)
    t.Finds "copy[2].flag" "source[2].flag" x y t' ∧ ((value x).run t').1 = .ok v ∧
      ((value y).run t').1 = .ok w ∧ v = w := by
  have hall : (build mirroredEntries 7).toOption.any (fun t₀ =>
      let t := (Call.resize ⟨1⟩ 3).run t₀
      let t' := (Call.replaceCell ⟨12⟩ (.literal (.bool true))).run t
      let found := (lookup "copy[2].flag").run t'
      let found' := (lookup "source[2].flag").run found.2
      t₀.placed [0] = some ⟨1⟩ ∧ t.placed [0, 2, 0] = some ⟨12⟩ ∧
        found.1.toOption.any (fun x => ((value x).run found'.2).1.isOk) ∧
        found'.1.toOption.any fun y => ((value y).run found'.2).1.isOk) = true := by decide +kernel
  obtain ⟨t₀, hbuild, hall⟩ := exists_build hall
  obtain ⟨hsource, htarget, hx, hy⟩ := of_decide_eq_true hall
  have hcells : mirroredEntries.CellsIn (Cell.Strict True) := ⟨trivial, ⟨trivial, trivial, trivial, trivial⟩,
    ⟨trivial, trivial, trivial, trivial⟩, trivial⟩
  have hnone : ∀ f : Transform, none = some f → f.Strict True := fun _ h => by cases h
  have hactions : mirroredEntries.Every Template.StrictAction :=
    ⟨hnone, ⟨hnone, hnone, hnone, trivial⟩, ⟨hnone, hnone, hnone, trivial⟩, trivial⟩
  obtain ⟨a, b, hcorrespond⟩ := elements_correspond mirroredCoupling hcells hactions hbuild
  have hapart : ∀ i, ((Call.resize ⟨1⟩ 3).run t₀).placed ([0] ++ i :: [1]) ≠ some ⟨12⟩ := by
    intro i hi
    have hreach : Reaches (fun _ _ => True) t₀ ((Call.resize ⟨1⟩ 3).run t₀) :=
      .call (.resize ⟨1⟩ 3) (.refl t₀) trivial
    cases placed_inj (hreach.wellFormed hbuild) htarget hi
  have hsteps : ReflTransGen mirroredCoupling.Steps t₀ _ :=
    .tail (.single ⟨.resize ⟨1⟩ 3, hsource, rfl⟩)
      ⟨.replaceCell ⟨12⟩ (.literal (.bool true)), ⟨trivial, hapart⟩, rfl⟩
  obtain ⟨-, -, -, hvalues⟩ := hcorrespond _ hsteps
  refine ⟨t₀, ?_⟩
  dsimp only
  generalize (Call.replaceCell ⟨12⟩ (.literal (.bool true))).run _ = t at hvalues hx hy ⊢
  rcases hfound : (lookup "copy[2].flag").run t with ⟨_ | x, t₁⟩
  case error =>
    rw [hfound] at hx
    cases hx
  rcases hfound' : (lookup "source[2].flag").run t₁ with ⟨_ | y, t'⟩
  case error =>
    rw [hfound] at hy
    dsimp only at hy
    rw [hfound'] at hy
    cases hy
  rw [hfound] at hx hy
  dsimp only at hx hy
  rw [hfound'] at hx hy
  have hfinds : t.Finds "copy[2].flag" "source[2].flag" x y t' := .inl ⟨t₁, hfound, hfound'⟩
  have hok : ∀ {r : Except TreeError Value}, r.isOk = true → ∃ v, r = .ok v := by
    rintro (e | v) h
    · cases h
    · exact ⟨v, rfl⟩
  obtain ⟨v, hv⟩ := hok hx
  obtain ⟨w, hw⟩ := hok hy
  obtain ⟨heq, -⟩ := hvalues 2 _ _ x y t' t' rfl rfl hfinds .refl
  exact ⟨x, y, t', v, w, hbuild, hfinds, hv, hw, heq v w hv hw⟩

end Tree

end FormatFuzz
