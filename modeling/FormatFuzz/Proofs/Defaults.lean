-- SUMMARY: Random values and counts keep to their bounds, and nothing that has been done to a tree changes them.
import FormatFuzz.Proofs.Draws
import FormatFuzz.Proofs.Ownership
import FormatFuzz.Proofs.Portraits

/-!
# Defaults

Every draw starts a generator of its own, from the seed of the tree and the full name of the node. Neither
changes as long as the node is there, and a node that is made again under the same name has the same generator.
So the value of an unset leaf can be told from its kind, its full name and the seed: it is the same in trees
whose histories, and even whose templates, have nothing else in common (`Tree.Reaches.defaults_determined`).

The count of a random group is drawn once, when the group is initialized. What it is afterwards depends on
whether it has been resized.
-/

namespace FormatFuzz

open TreeM

/-- The generator of nodes of a full name. -/
def Tree.Purpose.generator (p : Tree.Purpose) (seed : UInt64) (name : String) : Generator :=
  .ofSeed (seed ^^^ Tree.nameSeed name ^^^ p.salt)

namespace Tree

variable {X : NodeId → Prop} {τ τ' : Template} {t t' t₀ t₀' : Tree} {id : NodeId} {n : Node} {g : Group}
  {kind : LeafKind} {seed : UInt64} {name : String}

theorem generator_eq (hname : t.fullName id = .ok name) (p : Purpose) :
    t.generator id p = .ok (p.generator t.seed name) := by
  rw [generator, hname]
  rfl

theorem Reaches.seed_eq {allowed : Tree → Call → Prop} (hbuild : build τ seed = .ok t₀)
    (h : Reaches allowed t₀ t) : t.seed = seed := by
  have hstart : Reaches allowed t₀ t₀ := .refl t₀
  exact (h.evolves.grows (hstart.wellFormed hbuild)).seed.trans (build_seed hbuild)

-- ---------------------------------------------------------------------------
-- Leaves
-- ---------------------------------------------------------------------------

/-- The node is a leaf of this kind, and its cell is not set. -/
def IsUnset (t : Tree) (id : NodeId) (kind : LeafKind) : Prop :=
  ∃ n, t.node? id = some n ∧ n.kind = .leaf kind ∧ n.cell = .unset

theorem isUnset_placed {p : Position} {header : Header} (hm : t.Models (fun _ => True) τ τ.name t.root)
    (hp : t.placed p = some id) (hpart : τ.partAt p = some (.leaf header kind, name))
    (hcell : (t.node? id).any (·.cell.isUnset) = true) : t.IsUnset id kind := by
  obtain ⟨n, hn, hcell⟩ := (Option.any_eq_true _ _).mp hcell
  obtain ⟨σ, name', hpart', hm⟩ := hm.placed hp
  rw [hpart] at hpart'
  cases hpart'
  obtain ⟨m, hm', -, hkind, -⟩ := hm
  rw [hn] at hm'
  cases hm'
  refine ⟨n, hn, hkind, ?_⟩
  cases h : n.cell with
  | unset => rfl
  | _ =>
    rw [h] at hcell
    cases hcell

/-- Whatever is being resolved, an unset leaf has its random value, and asks nothing for it. -/
theorem leafContent_unset {ask : Resolver} (h : t.IsUnset id kind) (hname : t.fullName id = .ok name) :
    wp (Resolver.leafContent ask id)
      (fun r t' => r = kind.draw (Purpose.defaults.generator t.seed name) ∧ t' = t) t := by
  obtain ⟨n, hn, hk, hcell⟩ := h
  unfold Resolver.leafContent Resolver.cellValue
  rw [wp.bind, wp.look_ok (a := n.cell) (by rw [cell, look_of_node? hn]), hcell]
  simp only [wp.pure]
  unfold Resolver.randomValue
  rw [wp.look_ok (a := n.kind) (look_of_node? hn _), hk]
  dsimp only
  rw [wp.look_ok (generator_eq hname .defaults), wp.lift]
  exact ⟨rfl, rfl⟩

/-- Between calls, the value of an unset leaf can be told from its kind, its full name and the seed. -/
theorem run_value_unset (hidle : t.resolving = []) (h : t.IsUnset id kind) (hname : t.fullName id = .ok name) :
    (value id).run t = (kind.draw (Purpose.defaults.generator t.seed name), t) := by
  suffices hvalue : wp (value id)
      (fun r t' => r = kind.draw (Purpose.defaults.generator t.seed name) ∧ t' = t) t from
    Prod.ext hvalue.1 hvalue.2
  obtain ⟨depth, hdepth⟩ := Resolver.exists_depthFor t
  have ⟨n, hn, hk, _⟩ := h
  refine (Resolver.wp_answerAll (.value id)).mpr ?_
  rw [hdepth]
  show wp (Resolver.valueStep (Resolver.resolve depth) id) _ t
  unfold Resolver.valueStep
  rw [wp.look_ok (a := true) (by rw [isLeaf, look_of_node? hn, hk]; rfl), if_pos rfl, wp.guarded,
    if_neg (by rw [hidle]; exact List.not_mem_nil)]
  have hpushed : IsUnset { t with resolving := id :: t.resolving } id kind := h
  have houtline : outline { t with resolving := id :: t.resolving } = t.outline := rfl
  have hname' := (eq_of_outline (f := (·.fullName id)) (fun _ => fullName_outline) houtline).trans hname
  refine (leafContent_unset hpushed hname').mono ?_
  rintro r _ ⟨rfl, rfl⟩
  exact ⟨rfl, rfl⟩

-- ---------------------------------------------------------------------------
-- Counts
-- ---------------------------------------------------------------------------

/-- The group has been initialized in the new tree or later, and not been resized since. -/
def Unresized (allowed : Tree → Call → Prop) (t₀ t : Tree) (id : NodeId) : Prop :=
  ∃ u, (u = t₀ ∨ Reaches allowed t₀ u ∧ ∀ c, u.states id ≠ some (.ready, c)) ∧
    Reaches (fun _ c => ∀ count, c ≠ .resize id count) u t

/-- A group that is not ready has all to come. -/
theorem Tidy.of_unready (h : t.Tidy fun _ => False) (hunready : ∀ c, t.states id ≠ some (.ready, c)) :
    t.Tidy (· = id) where
  heard := h.heard
  unbound := h.unbound
  ruled := by
    rintro _ n g hn hk - hready rfl
    exact absurd (hready ▸ states_of_node? hn hk) (hunready _)

theorem Unresized.tidy {allowed : Tree → Call → Prop} (hbuild : build τ seed = .ok t₀)
    (h : Unresized allowed t₀ t id) : t.Tidy (· = id) := by
  have hallowed : ∀ (t : Tree) x m, (∀ count, Call.resize x m ≠ .resize id count) → ¬ x = id := by
    rintro t x m hresize rfl
    exact hresize m rfl
  have hstart : Reaches allowed t₀ t₀ := .refl t₀
  obtain ⟨u, rfl | ⟨hu, hunready⟩, hrest⟩ := h
  · exact hrest.keeps_tidy hallowed (hstart.wellFormed hbuild) (build_tidy hbuild)
  · exact hrest.keeps_tidy hallowed (hu.wellFormed hbuild) ((hu.tidy hbuild).of_unready hunready)

/-- The count that a random group has been initialized with is drawn from its range. -/
theorem Tidy.count_drawn (h : t.Tidy (· = id)) (hname : t.fullName id = .ok name) (hn : t.node? id = some n)
    (hk : n.kind = .repeated g) {a b : Nat} (hrule : g.rule = .random a b) (hready : g.phase = .ready) :
    n.children.length = ((Purpose.counts.generator t.seed name).natIn (min a b) (max a b)).1 := by
  have hcount := h.ruled hn hk (by rw [hrule]; rfl) hready rfl
  rw [provisionalCount_fullName hn hk hname, hrule, Multiplicity.countFor, inOrder_eq] at hcount
  exact (Except.ok.inj hcount).symm

-- ---------------------------------------------------------------------------
-- Histories
-- ---------------------------------------------------------------------------

/-- Whatever has been done to a tree, the value of an unset leaf is between the bounds of its field, in whatever
order these are given, and so is the count of a random group since it was initialized until it is resized.
Neither is drawn from an empty range or alphabet. Unset leaves of the same kind and full name have the same
value in all trees of a seed. -/
theorem Reaches.defaults_determined {allowed allowed' : Tree → Call → Prop}
    (hbuild : build τ seed = .ok t₀) (h : Reaches allowed t₀ t)
    (hbuild' : build τ' seed = .ok t₀') (h' : Reaches allowed' t₀' t') :
    (∀ id kind, t.IsUnset id kind → kind.Ranged → ∃ v name, (value id).run t = (.ok v, t) ∧ kind.Bounds v ∧
      t.fullName id = .ok name ∧ kind.draw? (Purpose.defaults.generator seed name) = some (.ok v)) ∧
    (∀ id g a b, Unresized allowed t₀ t id → t.group id = .ok g → g.phase = .ready → g.rule = .random a b →
      a < 2 ^ 64 → b < 2 ^ 64 → ∃ c name, (Tree.count id).run t = (.ok c, t) ∧
        (min a b ≤ c ∧ c ≤ max a b) ∧ t.fullName id = .ok name ∧
        ((Purpose.counts.generator seed name).natIn? (min a b) (max a b)).map (·.1) = some c) ∧
    ∀ id id' kind, t.IsUnset id kind → t'.IsUnset id' kind → t.fullName id = t'.fullName id' →
      ((value id).run t).1 = ((value id').run t').1 := by
  have hwf := h.wellFormed hbuild
  have hidle := (h.unwinds.idle (build_idle hbuild)).resolving
  refine ⟨fun id kind hunset hranged => ?_, fun id g a b hunresized hgroup hready hrule ha hb => ?_,
    fun id id' kind hunset hunset' hnames => ?_⟩
  · have ⟨n, hn, _⟩ := hunset
    obtain ⟨name, hname⟩ := fullName_ok hwf hn
    obtain ⟨v, hv, hbounds⟩ := LeafKind.exists_draw hranged (Purpose.defaults.generator seed name)
    refine ⟨v, name, ?_, hbounds, hname, ?_⟩
    · rw [run_value_unset hidle hunset hname, h.seed_eq hbuild, hv]
    · rw [LeafKind.draw?_eq hranged, hv]
  · obtain ⟨n, hn, hk⟩ := group_eq_ok.mp hgroup
    obtain ⟨name, hname⟩ := fullName_ok hwf hn
    have hdrawn := (hunresized.tidy hbuild).count_drawn hname hn hk hrule hready
    rw [h.seed_eq hbuild] at hdrawn
    have hcounted := (owns_of_ready (h.models hbuild) hwf hn hk hready).counted
    refine ⟨n.children.length, name, hcounted, ?_, hname, ?_⟩
    · rw [hdrawn]
      exact Generator.natIn_mem min_le_max (max_lt ha hb) _
    · rw [Generator.natIn?, if_pos min_le_max, Option.map_some, hdrawn]
  · have ⟨n, hn, _⟩ := hunset
    obtain ⟨name, hname⟩ := fullName_ok hwf hn
    have hidle' := (h'.unwinds.idle (build_idle hbuild')).resolving
    rw [run_value_unset hidle hunset hname, run_value_unset hidle' hunset' (hnames ▸ hname),
      h.seed_eq hbuild, h'.seed_eq hbuild']

/-- Bounds in reverse order, and a text without an alphabet of its own. -/
def jumbled : Template :=
  .composite { name := "record" } [
    .leaf { name := "offset" } (.int { packing := .ofWidth 1 .big false, min := 9, max := 2 }),
    .leaf { name := "title" } (.str { minLength := 5, maxLength := 2, charset := [] }),
    .group "flags" (.boolean "flag") (.random 3 1)]

theorem Reaches.defaults_determined_jumbled : ∃ t₀, build jumbled 7 = .ok t₀ ∧
    let t := (Call.replaceCell ⟨2⟩ (.literal (.int 0))).run ((Call.bytes ⟨0⟩).run t₀)
    (∃ i, (value ⟨1⟩).run t = (.ok (.int i), t) ∧ 2 ≤ i ∧ i ≤ 9) ∧
      (∃ b, (value ⟨2⟩).run t₀ = (.ok (.bytes b), t₀) ∧ (2 ≤ b.length ∧ b.length ≤ 5) ∧ ∀ x ∈ b, x ∈ letters) ∧
      (∃ c, (Tree.count ⟨3⟩).run t = (.ok c, t) ∧ 1 ≤ c ∧ c ≤ 3) ∧
      ((value ⟨1⟩).run t).1 = ((value ⟨1⟩).run t₀).1 := by
  have hplaces : (build jumbled 7).toOption.any (fun t₀ =>
      let t := (Call.replaceCell ⟨2⟩ (.literal (.int 0))).run ((Call.bytes ⟨0⟩).run t₀)
      t₀.placed [0] = some ⟨1⟩ ∧ (t₀.node? ⟨1⟩).any (·.cell.isUnset) = true ∧
        t₀.placed [1] = some ⟨2⟩ ∧ (t₀.node? ⟨2⟩).any (·.cell.isUnset) = true ∧
        t.placed [0] = some ⟨1⟩ ∧ (t.node? ⟨1⟩).any (·.cell.isUnset) = true ∧
        t.fullName ⟨1⟩ = t₀.fullName ⟨1⟩ ∧
        (t.group ⟨3⟩).toOption.any (fun g => g.phase = .ready ∧ g.rule = .random 3 1)) = true := by
    decide +kernel
  obtain ⟨t₀, hbuild, hplaces⟩ := exists_build hplaces
  obtain ⟨hp₁, hcell₁, hp₂, hcell₂, hp, hcell, hname, hgroup⟩ := of_decide_eq_true hplaces
  have hstart : Reaches (fun _ _ => True) t₀ t₀ := .refl t₀
  have hreach : ∀ {allowed : Tree → Call → Prop}, (∀ t, allowed t (.bytes ⟨0⟩)) →
      (∀ t, allowed t (.replaceCell ⟨2⟩ (.literal (.int 0)))) →
      Reaches allowed t₀ ((Call.replaceCell ⟨2⟩ (.literal (.int 0))).run ((Call.bytes ⟨0⟩).run t₀)) :=
    fun hbytes hcell => .call _ (.call _ (.refl t₀) (hbytes _)) (hcell _)
  have h : Reaches (fun _ _ => True) t₀ _ := hreach (fun _ => trivial) fun _ => trivial
  have hm := hstart.models hbuild
  have hoffset₀ := isUnset_placed hm hp₁ rfl hcell₁
  have htitle := isUnset_placed hm hp₂ rfl hcell₂
  have hoffset := isUnset_placed (h.models hbuild) hp rfl hcell
  have hunresized : Unresized (fun _ _ => True) t₀ _ ⟨3⟩ :=
    ⟨t₀, .inl rfl, hreach (fun _ _ => Call.noConfusion) fun _ _ => Call.noConfusion⟩
  obtain ⟨hvalues, hcounts, hsame⟩ := Reaches.defaults_determined hbuild h hbuild hstart
  obtain ⟨htexts, -, -⟩ := Reaches.defaults_determined hbuild hstart hbuild hstart
  refine ⟨t₀, hbuild, ?_, ?_, ?_, hsame ⟨1⟩ ⟨1⟩ _ hoffset hoffset₀ hname⟩
  · obtain ⟨v, -, hv, hbounds, -⟩ := hvalues ⟨1⟩ _ hoffset (by decide)
    cases v with
    | int i => exact ⟨i, hv, hbounds⟩
    | _ => exact hbounds.elim
  · obtain ⟨v, -, hv, hbounds, -⟩ := htexts ⟨2⟩ _ htitle (by decide)
    cases v with
    | bytes b => exact ⟨b, hv, hbounds⟩
    | _ => exact hbounds.elim
  · cases hg : Tree.group _ ⟨3⟩ with
    | error e =>
      rw [hg] at hgroup
      cases hgroup
    | ok g =>
      rw [hg] at hgroup
      obtain ⟨hready, hrule⟩ := of_decide_eq_true hgroup
      obtain ⟨c, -, hc, hbounds, -⟩ := hcounts ⟨3⟩ g 3 1 hunresized hg hready hrule (by decide) (by decide)
      exact ⟨c, hc, hbounds⟩

end Tree

end FormatFuzz
