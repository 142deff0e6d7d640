-- SUMMARY: Templates whose groups follow each other by plain paths, and trees that are made from them.
import FormatFuzz.Proofs.GroupStates

/-!
# Ties

In a wired template no group has groups in its elements, and every bound rule has a path over
fields and enclosing composites to a group (`Template.Wired`). Such a path can be followed at any time,
because no group is touched on the way (`Tree.findWith_direct`). So who follows whom hangs on the
template alone (`Tree.Ties`), and so does which groups there are. A template is tied if its groups link
no fields besides (`Template.Tied`).

A tree is settling when it has come from its start by initializing groups (`Tree.Settling`): then the
groups are those of the start, and are where they were.
-/

namespace FormatFuzz

open TreeM
open Relation (ReflTransGen TransGen)

-- ---------------------------------------------------------------------------
-- Templates
-- ---------------------------------------------------------------------------

/-- The step picks no element. -/
def Step.Direct : Step → Prop
  | .descend _ indices => indices = []
  | _ => True

instance : (step : Step) → Decidable step.Direct
  | .descend _ indices => inferInstanceAs (Decidable (indices = []))
  | .climb => inferInstanceAs (Decidable True)
  | .malformed => inferInstanceAs (Decidable True)

namespace Template

/-- There is no group in the template. -/
def Groupless (τ : Template) : Prop := τ.Every fun σ => σ.isRepeated = false

/-- A group has no groups in its elements. -/
def Outer : Template → Prop
  | .repeated _ element _ => element.Groupless
  | _ => True

/-- All groups are outside of elements, and those that follow another one do so by a path to a group
that picks no elements, and link no fields. -/
structure Tied (τ : Template) : Prop where
  outer : τ.Every Outer
  bound : ∀ {p h element path fields min max name},
    τ.partAt p = some (.repeated h element (.bound path fields min max), name) →
      fields = [] ∧ (∀ step ∈ (Path.parse path).steps, step.Direct) ∧
        ∃ q, τ.follow (τ.base p) path = some q ∧ (τ.partAt q).any (·.1.isRepeated) = true

/-- All groups are outside of elements, and those that follow another one do so by a path to a group
that picks no elements. Neither do the paths by which they link fields, and they lead somewhere. -/
structure Wired (τ : Template) : Prop where
  outer : τ.Every Outer
  bound : ∀ {p h element path fields min max name},
    τ.partAt p = some (.repeated h element (.bound path fields min max), name) →
      (∀ step ∈ (Path.parse path).steps, step.Direct) ∧
        ∃ q, τ.follow (τ.base p) path = some q ∧ (τ.partAt q).any (·.1.isRepeated) = true
  pairs : ∀ {p h element path fields min max name pair},
    τ.partAt p = some (.repeated h element (.bound path fields min max), name) → pair ∈ fields →
      (∀ step ∈ (Path.parse pair.1).steps, step.Direct) ∧ ∀ i, ∃ q, τ.follow (i :: p) pair.1 = some q

theorem Tied.wired {τ : Template} (h : τ.Tied) : τ.Wired where
  outer := h.outer
  bound := fun hpart => (h.bound hpart).2
  pairs := by
    intro p _ _ _ fields _ _ _ pair hpart hpair
    rw [(h.bound hpart).1] at hpair
    cases hpair

/-- Where the group is that the one at a position follows. -/
def source (τ : Template) (p : Position) : Option Position :=
  match τ.partAt p with
  | some (.repeated _ _ (.bound path _ _ _), _) => τ.follow (τ.base p) path
  | _ => none

/-- The template is a record of groups of leaves. -/
def Flat (τ : Template) : Prop :=
  ∃ h fields, τ = .composite h fields ∧
    ∀ σ ∈ fields, ∃ h h' kind rule, σ = .repeated h (.leaf h' kind) rule

theorem Flat.outer {τ : Template} (h : τ.Flat) : τ.Every Outer := by
  obtain ⟨h, fields, rfl, hfields⟩ := h
  refine ⟨trivial, ?_⟩
  induction fields with
  | nil => trivial
  | cons σ rest ih =>
    obtain ⟨h₁, h₂, kind, rule, rfl⟩ := hfields σ List.mem_cons_self
    exact ⟨⟨rfl, trivial⟩, ih fun σ hσ => hfields σ (List.mem_cons_of_mem _ hσ)⟩

/-- The groups of a flat record are its fields. -/
theorem Flat.partAt {τ element : Template} {h : Header} {rule : Multiplicity} {name : String}
    {p : Position} (hflat : τ.Flat) (hpart : τ.partAt p = some (.repeated h element rule, name)) :
    ∃ i, p = [i] ∧ τ.part τ.name i = some (.repeated h element rule, name) := by
  obtain ⟨h₀, fields, rfl, hfields⟩ := hflat
  have hpart' : ∀ p i σ name, (composite h₀ fields).partAt (i :: p) = some (σ, name) →
      p = [] ∧ σ ∈ fields ∨ ∃ h kind, σ = .leaf h kind := by
    intro p
    induction p with
    | nil =>
      intro i σ name hpart
      obtain ⟨field, hi, heq⟩ := Option.map_eq_some_iff.mp hpart
      cases heq
      exact .inl ⟨rfl, List.mem_of_getElem? hi⟩
    | cons j p ih =>
      intro i σ name hpart
      obtain ⟨⟨σ', name'⟩, habove, hpart⟩ := Option.bind_eq_some_iff.mp hpart
      rcases ih j σ' name' habove with ⟨-, hσ'⟩ | ⟨h, kind, rfl⟩
      · obtain ⟨h, h', kind, rule, rfl⟩ := hfields σ' hσ'
        cases hpart
        exact .inr ⟨h', kind, rfl⟩
      · cases hpart
  cases p with
  | nil => cases hpart
  | cons i p =>
    rcases hpart' p i _ name hpart with ⟨rfl, -⟩ | ⟨h, kind, heq⟩
    · exact ⟨i, rfl, hpart⟩
    · cases heq

theorem length_above {τ : Template} {p q : Position} (h : τ.above p = some q) :
    q.length < p.length := by
  induction p with
  | nil => cases h
  | cons i p ih =>
    rw [above] at h
    rw [List.length_cons]
    split at h
    · cases h
      exact Nat.lt_succ_self _
    · exact (ih h).trans (Nat.lt_succ_self _)

end Template

namespace Tree

variable {C : Cell → Prop} {τ σ : Template} {t t' : Tree} {id x y : NodeId} {n : Node}
  {p q : Position}

-- ---------------------------------------------------------------------------
-- Following paths over fields
-- ---------------------------------------------------------------------------

section

variable {init : NodeId → TreeM Unit}

/-- The field of a composite by its name is the child by its name. -/
theorem ModelsAll.find?_of_field {τs : List Template} {ids : List NodeId} {name : String} {i : Nat}
    (h : t.ModelsAll C τs ids) (hi : τs.findIdx? (·.name = name) = some i) :
    ∃ x, ids.find? (fun child => (t.node? child).any (·.name = name)) = some x ∧
      ids[i]? = some x := by
  induction τs generalizing ids i with
  | nil => cases hi
  | cons σ rest ih =>
    obtain ⟨id, ids', rfl, hid, hrest⟩ := h
    obtain ⟨n, hn, hb⟩ := hid.live
    rw [List.findIdx?_cons] at hi
    rw [List.find?_cons, hn, Option.any_some, hb.name]
    by_cases hname : σ.name = name
    · simp only [hname, decide_true] at hi ⊢
      cases hi
      exact ⟨id, rfl, rfl⟩
    · simp only [hname, decide_false] at hi ⊢
      obtain ⟨j, hj, rfl⟩ := Option.map_eq_some_iff.mp hi
      exact ih hrest hj

theorem stepWith_direct (hwf : t.WellFormed) (hm : t.Models C τ τ.name t.root)
    (failure : Tree → TreeError) (hp : t.placed p = some id) {step : Step} (hdirect : step.Direct)
    (hq : τ.followStep p step = some q) :
    wp (TreeM.stepWith init failure id step)
      (fun r t' => t' = t ∧ ∃ x, r = .ok x ∧ t.placed q = some x) t := by
  cases step with
  | malformed => cases hq
  | climb =>
    obtain ⟨base, hbase, hpos⟩ := enclosing_placed hwf hm hp
    have hq' : τ.above p = some q := hq
    rw [Template.base, hq', Option.getD_some] at hpos
    have hne : base ≠ id := by
      rintro rfl
      have hlt := Template.length_above hq'
      rw [placed_inj hwf hpos hp] at hlt
      exact Nat.lt_irrefl _ hlt
    unfold TreeM.stepWith
    simp only [wp.bind, wp.look, hbase, if_neg hne, wp.pure]
    exact ⟨trivial, base, rfl, hpos⟩
  | descend name indices =>
    cases hdirect
    unfold TreeM.stepWith
    dsimp only
    split
    · rename_i hempty
      have hpq : some p = some q := by simpa [Template.followStep, hempty] using hq
      cases hpq
      exact ⟨rfl, id, rfl, hp⟩
    · rename_i hempty
      have hdescend : τ.descend name p = some q := by
        simpa [Template.followStep, hempty] using hq
      obtain ⟨σ, own, hpart, hmodels⟩ := hm.placed hp
      rw [Template.descend, hpart] at hdescend
      cases σ with
      | leaf h kind => cases hdescend
      | repeated h element rule => cases hdescend
      | composite h fields =>
        obtain ⟨i, hi, rfl⟩ := Option.map_eq_some_iff.mp hdescend
        obtain ⟨n, hn, -, -, hch⟩ := hmodels
        obtain ⟨x, hx, hget⟩ := hch.find?_of_field hi
        simp only [wp.bind, wp.look, childNamed, children, look_of_node? hn, ok_bind, pure_eq_ok, hx]
        exact ⟨rfl, x, rfl, placed_cons.mpr ⟨id, n, hp, hn, hget⟩⟩

/-- A path over fields can be followed, and leads where the template says. -/
theorem findWith_direct (hwf : t.WellFormed) (hm : t.Models C τ τ.name t.root)
    (hp : t.placed p = some id) {path : String}
    (hdirect : ∀ step ∈ (Path.parse path).steps, step.Direct) (hq : τ.follow p path = some q) :
    wp (TreeM.findWith init id path)
      (fun r t' => t' = t ∧ ∃ x, r = .ok x ∧ t.placed q = some x) t := by
  unfold Template.follow at hq
  dsimp only at hq
  obtain ⟨start, hstart, hpos⟩ : ∃ start,
      start = (if (Path.parse path).fromRoot then t.root else id) ∧
        t.placed (if (Path.parse path).fromRoot then [] else p) = some start := by
    refine ⟨_, rfl, ?_⟩
    split
    · rfl
    · exact hp
  obtain ⟨n, hn⟩ := live_of_placed hwf hpos
  unfold TreeM.findWith
  simp only [wp.bind, wp.get, wp.look, ← hstart, node_eq_ok.mpr hn]
  refine wp.foldlM (fun rest y s => s = t ∧ (∀ step ∈ rest, step.Direct) ∧ ∃ p',
    t.placed p' = some y ∧ rest.foldlM τ.followStep p' = some q)
    ⟨rfl, hdirect, _, hpos, hq⟩ ?_ ?_
  · rintro y s ⟨rfl, -, p', hp', hfold⟩
    cases hfold
    exact ⟨rfl, y, rfl, hp'⟩
  · rintro step rest y s ⟨rfl, hdirect, p', hp', hfold⟩
    obtain ⟨p'', hstep, hrest⟩ := Option.bind_eq_some_iff.mp hfold
    refine (stepWith_direct hwf hm _ hp' (hdirect step List.mem_cons_self) hstep).mono ?_
    rintro _ s' ⟨rfl, z, rfl, hz⟩
    exact ⟨rfl, fun s hs => hdirect s (List.mem_cons_of_mem _ hs), p'', hz, hrest⟩

end

-- ---------------------------------------------------------------------------
-- Nodes without groups
-- ---------------------------------------------------------------------------

/-- There are no groups at or below the node. -/
def Ungrouped (τ : Template) (t : Tree) (x : NodeId) : Prop :=
  ∃ p σ name, t.placed p = some x ∧ τ.partAt p = some (σ, name) ∧ σ.Groupless

namespace Ungrouped

theorem part {σ' : Template} {name name' : String} {i : Nat} (h : σ.Groupless)
    (hi : σ.part name i = some (σ', name')) : σ'.Groupless := by
  cases σ with
  | leaf h' kind => cases hi
  | composite h' fields =>
    obtain ⟨field, hfield, heq⟩ := Option.map_eq_some_iff.mp hi
    cases heq
    exact Template.EveryField.getElem? h.2 hfield
  | repeated h' element rule => cases h.1

theorem child (hm : t.Models C τ τ.name t.root) (h : t.Ungrouped τ x) (hy : t.Lists x y) :
    t.Ungrouped τ y := by
  obtain ⟨p, σ, name, hp, hpart, hσ⟩ := h
  obtain ⟨n, hn, hc⟩ := hy
  obtain ⟨i, hi⟩ := List.mem_iff_getElem?.mp hc
  have hpy : t.placed (i :: p) = some y := placed_cons.mpr ⟨x, n, hp, hn, hi⟩
  obtain ⟨σ', name', hpart', -⟩ := hm.placed hpy
  have hσ' := hpart'
  rw [Template.partAt, hpart] at hσ'
  exact ⟨i :: p, σ', name', hpy, hpart', part hσ hσ'⟩

theorem below (hm : t.Models C τ τ.name t.root) (h : t.Ungrouped τ x)
    (hpath : ReflTransGen t.Lists x y) : t.Ungrouped τ y := by
  induction hpath with
  | refl => exact h
  | tail _ hstep ih => exact ih.child hm hstep

theorem states (hm : t.Models C τ τ.name t.root) (h : t.Ungrouped τ x) : t.states x = none := by
  obtain ⟨p, σ, name, hp, hpart, hσ⟩ := h
  obtain ⟨σ', name', hpart', hmodels⟩ := hm.placed hp
  rw [hpart] at hpart'
  cases hpart'
  refine states_eq_none.mpr fun n hn => ?_
  rw [(hmodels.kind hn).2]
  exact hσ.self

end Ungrouped

/-- In a template whose groups are outside of elements, a group has no groups in its elements. -/
theorem Models.groupless {g : Group} (hm : t.Models C τ τ.name t.root) (houter : τ.Every Template.Outer)
    (hwf : t.WellFormed) (hn : t.node? id = some n) (hk : n.kind = .repeated g) :
    g.element.Groupless := by
  obtain ⟨p, hp⟩ := exists_position hwf hn
  obtain ⟨h, name, hpart⟩ := hm.rule hp hn hk
  exact (houter.partAt hpart).self

section

variable {g : Group} (hwf : t.WellFormed) (hm : t.Models C τ τ.name t.root) (hn : t.node? id = some n)
  (hk : n.kind = .repeated g) (hnone : g.element.Groupless)

include hwf hm hn hk hnone

/-- What is under a group is part of its elements. -/
theorem ungrouped_of_child (hx : x ∈ n.children) : t.Ungrouped τ x := by
  obtain ⟨p, hp⟩ := exists_position hwf hn
  obtain ⟨h, name, hpart⟩ := hm.rule hp hn hk
  obtain ⟨i, hi⟩ := List.mem_iff_getElem?.mp hx
  refine ⟨i :: p, g.element, s!"{name}[{i}]", placed_cons.mpr ⟨id, n, hp, hn, hi⟩, ?_, hnone⟩
  rw [Template.partAt, hpart]
  rfl

omit hn hk hnone in
/-- Visiting a part without groups changes nothing. -/
theorem visit_ungrouped {p : Position} {name : String} (hp : t.placed p = some x)
    (hpart : τ.partAt p = some (σ, name)) (hσ : σ.Groupless) (depth : Nat) (hdepth : σ.size ≤ depth) :
    wp (runTask depth (.visit x)) (fun r t' => r = .ok () ∧ t' = t) t := by
  induction depth generalizing x p σ name with
  | zero => exact absurd (σ.one_le_size.trans hdepth) (Nat.not_succ_le_zero 0)
  | succ depth ih =>
    obtain ⟨n, hn⟩ := live_of_placed hwf hp
    obtain ⟨σ', name', hpart', hmodels⟩ := hm.placed hp
    rw [hpart] at hpart'
    cases hpart'
    have hrep : n.kind.isRepeated = false := (hmodels.kind hn).2.trans hσ.self
    rw [runTask, visitStep]
    simp only [wp.bind, wp.look, isGroup, look_of_node? hn, hrep, Bool.false_eq_true, if_false,
      children]
    refine (wp.forIn_idle fun e he => ?_).mono ?_
    · obtain ⟨i, hi⟩ := List.mem_iff_getElem?.mp he
      have hpe : t.placed (i :: p) = some e := placed_cons.mpr ⟨x, n, hp, hn, hi⟩
      obtain ⟨σ', name', hpart', -⟩ := hm.placed hpe
      have hσ' := hpart'
      rw [Template.partAt, hpart] at hσ'
      have hsize := Template.size_part hσ'
      exact ih hpe hpart' (Ungrouped.part hσ hσ') (by omega)
    · rintro _ t' ⟨rfl, rfl⟩
      exact ⟨rfl, rfl⟩

/-- Visiting an element without groups changes nothing. -/
theorem visit_element (hx : x ∈ n.children) {depth : Nat} (hdepth : g.element.size ≤ depth) :
    wp (runTask depth (.visit x)) (fun r t' => r = .ok () ∧ t' = t) t := by
  obtain ⟨p, hp⟩ := exists_position hwf hn
  obtain ⟨h, name, hpart⟩ := hm.rule hp hn hk
  obtain ⟨i, hi⟩ := List.mem_iff_getElem?.mp hx
  have hpart' : τ.partAt (i :: p) = some (g.element, s!"{name}[{i}]") := by
    rw [Template.partAt, hpart]
    rfl
  exact visit_ungrouped hwf hm (placed_cons.mpr ⟨id, n, hp, hn, hi⟩) hpart' hnone depth hdepth

/-- There is always room for the visit. -/
theorem perform_element (hx : x ∈ n.children) :
    wp (perform (.visit x)) (fun r t' => r = .ok () ∧ t' = t) t := by
  have hweight := le_total Node.weight hn
  rw [Node.weight, hk] at hweight
  have hroom : g.element.size ≤ nestingReserve + 2 * t.weight := by
    unfold weight
    dsimp only at hweight
    omega
  unfold perform
  rw [wp.bind, wp.get]
  exact visit_element hwf hm hn hk hnone hx hroom

end

/-- Replacing the elements of a group changes the count of this group and nothing else. -/
theorem Swapped.states {element : Template} {elements : List NodeId}
    (h : Swapped C id element elements t t') (hwf : t.WellFormed)
    (hm : t.Models C τ τ.name t.root) (hm' : t'.Models C τ τ.name t'.root)
    {g : Group} (hn : t.node? id = some n) (hk : n.kind = .repeated g) (hnone : g.element.Groupless) :
    t'.states x = if x = id then some (g.phase, elements.length) else t.states x := by
  obtain ⟨n', hn', hkind, hch⟩ := h.exchanged hn
  split
  · rename_i hx
    subst hx
    rw [states_of_node? hn' (hkind.trans hk), hch]
  · rename_i hx
    rcases Nat.lt_or_ge x.index t.nodes.size with hlt | hge
    · by_cases hunder : t.Under id x
      · have hgone := h.gone hunder
        obtain ⟨m, hm₀, c, hc, hpath⟩ := hunder
        rw [hn] at hm₀
        cases hm₀
        rw [((ungrouped_of_child hwf hm hn hk hnone hc).below hm hpath).states hm]
        refine states_eq_none.mpr fun l hl => ?_
        rw [hgone] at hl
        cases hl
      · exact states_congr (h.kept hlt hx hunder)
    · have hold : t.states x = none := states_eq_none.mpr fun l hl =>
        absurd (lt_size hl) (Nat.not_lt.mpr hge)
      rw [hold]
      cases hl : t'.node? x with
      | none =>
        refine states_eq_none.mpr fun l hl' => ?_
        rw [hl] at hl'
        cases hl'
      | some l =>
        obtain ⟨e, he, hpath⟩ := h.below_element hge hl
        have hungrouped := ungrouped_of_child (h.wellFormed hwf) hm' hn' (hkind.trans hk) hnone (hch ▸ he)
        exact (hungrouped.below hm' hpath).states hm'

/-- Replacing the elements of a group leaves all watchers where they are. -/
theorem Swapped.watches {element : Template} {elements : List NodeId}
    (h : Swapped C id element elements t t') (hwf : t.WellFormed)
    (hm : t.Models C τ τ.name t.root) (hm' : t'.Models C τ τ.name t'.root)
    {g : Group} (hn : t.node? id = some n) (hk : n.kind = .repeated g) (hnone : g.element.Groupless) :
    t'.Watches x y ↔ t.Watches x y := by
  constructor
  · rintro ⟨n', g', hn', hk', hx⟩
    rcases h.group_cases hn' hk' with ⟨-, m, hm, hmk⟩ | ⟨-, -, hnone⟩
    · exact ⟨m, g', hm, hmk, hx⟩
    · rw [hnone] at hx
      cases hx
  · rintro ⟨m, g', hm₀, hmk, hx⟩
    have hgroup : t'.states y ≠ none := by
      rw [h.states hwf hm hm' hn hk hnone, states_of_node? hm₀ hmk]
      split <;> exact Option.some_ne_none _
    obtain ⟨⟨phase, c⟩, hstate⟩ := Option.ne_none_iff_exists'.mp hgroup
    obtain ⟨n', g'', hn', hk', -, -⟩ := states_eq_some.mp hstate
    refine ⟨n', g'', hn', hk', ?_⟩
    rcases h.group_cases hn' hk' with ⟨-, l, hl, hlk⟩ | ⟨hge, -, -⟩
    · rw [hm₀] at hl
      cases hl
      rw [hmk] at hlk
      cases hlk
      exact hx
    · exact absurd (lt_size hm₀) (Nat.not_lt.mpr hge)

-- ---------------------------------------------------------------------------
-- Who follows whom
-- ---------------------------------------------------------------------------

/-- The group `x` follows the group `y`, as the template has it. -/
def Ties (τ : Template) (t : Tree) (x y : NodeId) : Prop :=
  ∃ p q, t.placed p = some x ∧ τ.source p = some q ∧ t.placed q = some y

theorem ties_rightUnique (hwf : t.WellFormed) : Relator.RightUnique (t.Ties τ) := by
  rintro x y z ⟨p, q, hp, hq, hy⟩ ⟨p', q', hp', hq', hz⟩
  cases placed_inj hwf hp hp'
  rw [hq] at hq'
  cases hq'
  rw [hy] at hz
  exact Option.some.inj hz

/-- Groups that only follow ones of a lower rank do not follow each other in a circle. -/
theorem acyclic_of_rank (hwf : t.WellFormed) (rank : Position → Nat)
    (h : ∀ p q, τ.source p = some q → rank q < rank p) : ¬ TransGen (t.Ties τ) x x := by
  have hrank : ∀ {y}, TransGen (t.Ties τ) x y →
      ∃ p q, t.placed p = some x ∧ t.placed q = some y ∧ rank q < rank p := by
    intro y hpath
    induction hpath with
    | single hties =>
      obtain ⟨p, q, hp, hq, hy⟩ := hties
      exact ⟨p, q, hp, hy, h p q hq⟩
    | tail _ hties ih =>
      obtain ⟨p, q, hp, hq, hlt⟩ := ih
      obtain ⟨q', r, hq', hr, hz⟩ := hties
      cases placed_inj hwf hq hq'
      exact ⟨p, r, hp, hz, (h q r hr).trans hlt⟩
  intro hcircle
  obtain ⟨p, q, hp, hq, hlt⟩ := hrank hcircle
  cases placed_inj hwf hp hq
  exact Nat.lt_irrefl _ hlt

/-- The count that a group reports while it is working out its own, if it has one. -/
def provision (t : Tree) (id : NodeId) : Nat := (t.provisionalCount id).toOption.getD 0

theorem provisionalCount_eq {g : Group} (hwf : t.WellFormed) (hn : t.node? id = some n)
    (hk : n.kind = .repeated g) : t.provisionalCount id = .ok (t.provision id) := by
  obtain ⟨name, hname⟩ := fullName_ok hwf hn
  have hok : ∃ c, t.provisionalCount id = .ok c := by
    unfold provisionalCount randomCount generator
    rw [group_eq_ok.mpr ⟨n, hn, hk⟩, ok_bind, hname]
    cases g.rule <;> exact ⟨_, rfl⟩
  obtain ⟨c, hc⟩ := hok
  unfold provision
  rw [hc]
  rfl

-- ---------------------------------------------------------------------------
-- Settling trees
-- ---------------------------------------------------------------------------

/-- The tree has come from its start by initializing groups: there are the same groups, and a
watcher of a group follows it. -/
structure Settling (τ : Template) (t₀ t : Tree) : Prop where
  evolves : Evolves (fun _ => True) t₀ t
  groups : ∀ {id}, t.states id = none ↔ t₀.states id = none
  watched : ∀ {x y}, t.Watches x y → t₀.Ties τ x y

/-- A tree that a wired template starts from. -/
structure Startable (τ : Template) (t₀ : Tree) : Prop where
  wired : τ.Wired
  wellFormed : t₀.WellFormed
  models : t₀.Models (fun _ => True) τ τ.name t₀.root
  untouched : ∀ {id phase c}, t₀.states id = some (phase, c) → phase = .uninit ∧ c = 0

theorem Startable.untouched_children {t₀ : Tree} (h : t₀.Startable τ) (hn : t₀.node? x = some n)
    (hx : t₀.states x ≠ none) : n.children = [] := by
  obtain ⟨⟨phase, c⟩, hstate⟩ := Option.ne_none_iff_exists'.mp hx
  obtain ⟨m, -, hm, -, -, hlength⟩ := states_eq_some.mp hstate
  rw [hn] at hm
  cases hm
  exact List.length_eq_zero_iff.mp (hlength.trans (h.untouched hstate).2)

namespace Settling

variable {t₀ : Tree} {g : Group} (hstart : t₀.Startable τ) (h : t₀.Settling τ t)

include h

/-- What a change has to leave alone. -/
theorem step (hev : Evolves (fun _ => True) t t')
    (hgroups : ∀ {id}, t'.states id = none ↔ t.states id = none)
    (hwatched : ∀ {x y}, t'.Watches x y → t₀.Ties τ x y ∨ t.Watches x y) : t₀.Settling τ t' where
  evolves := h.evolves.trans hev
  groups := hgroups.trans h.groups
  watched := fun hw => (hwatched hw).elim (fun hties => hties) h.watched

omit h in
theorem coarse : Coarse (t₀.Settling τ) := fun _ _ hev hstates hwatches h =>
  h.step hev (by rw [hstates]) fun hw => .inr ((hwatches _ _).mp hw)

theorem of_like (hlike : t.Like t') : t₀.Settling τ t' := coarse.of_like hlike h

theorem of_modifyGroup {f : Group → Group} (hf : ∀ g, (f g).still = g.still)
    (hwatched : ∀ {x y}, (t.modifyGroup id f).Watches x y → t₀.Ties τ x y ∨ t.Watches x y) :
    t₀.Settling τ (t.modifyGroup id f) :=
  h.step (.of_modifyGroup hf) states_modifyGroup_eq_none hwatched

theorem setPhase (phase : Phase) : t₀.Settling τ (t.modifyGroup id ({ · with phase })) :=
  h.of_modifyGroup (fun _ => rfl) fun hw => .inr ((watches_setPhase phase).mp hw)

theorem watch (hties : t₀.Ties τ x id) : t₀.Settling τ (t.modifyGroup id fun group =>
    { group with watchers := NodeId.insertInto x group.watchers }) := by
  refine h.of_modifyGroup (fun _ => rfl) fun hw => ?_
  rcases watches_watch.mp hw with hw | ⟨rfl, rfl, -⟩
  · exact .inr hw
  · exact .inl hties

theorem markStale : t₀.Settling τ (t.markStale id) := by
  refine h.of_modifyGroup (fun g => ?_) fun hw => .inr (watches_markStale.mp hw)
  split <;> rfl

include hstart

theorem wellFormed : t.WellFormed := h.evolves.wellFormed hstart.wellFormed

theorem models : t.Models (fun _ => True) τ τ.name t.root :=
  hstart.models.evolve hstart.wellFormed τ.cellsIn_true h.evolves

/-- Nothing is added to nodes other than groups. -/
theorem children {n₀ : Node} (hn₀ : t₀.node? x = some n₀) (hn : t.node? x = some n)
    (hk : n₀.kind.isRepeated = false) : n.children = n₀.children := by
  obtain ⟨m, hm, -, hch | ⟨hrep, -⟩⟩ := (h.evolves.grows hstart.wellFormed).old (lt_size hn₀) hn
  · rw [hn₀] at hm
    cases hm
    exact hch
  · rw [hn₀] at hm
    cases hm
    rw [hk] at hrep
    cases hrep

/-- What is there at the start stays where it is: groups have no elements then. -/
theorem placed_of_start (hp : t₀.placed p = some x) : t.placed p = some x := by
  induction p generalizing x with
  | nil =>
    cases hp
    exact congrArg some (h.evolves.grows hstart.wellFormed).root
  | cons i p ih =>
    obtain ⟨y, n₀, hy, hn₀, hi⟩ := placed_cons.mp hp
    have hgroup : t₀.states y = none := by
      by_contra hgroup
      rw [hstart.untouched_children hn₀ hgroup] at hi
      cases hi
    have hk := states_eq_none.mp hgroup n₀ hn₀
    obtain ⟨n, hn⟩ := live_of_placed (h.wellFormed hstart) (ih hy)
    exact placed_cons.mpr ⟨y, n, ih hy, hn, by rw [h.children hstart hn₀ hn hk, hi]⟩

theorem weight_le : t₀.weight ≤ t.weight := by
  refine total_le_total Node.weight fun x n hn => ?_
  obtain ⟨p, hp⟩ := exists_position hstart.wellFormed hn
  obtain ⟨n', hn'⟩ := live_of_placed (h.wellFormed hstart) (h.placed_of_start hstart hp)
  have hfixture := (h.evolves.grows hstart.wellFormed).fixture hn hn'
  exact ⟨n', hn', (Node.weight_of_fixture hfixture).le⟩

/-- A group is where it was at the start, and has the rule that it had. -/
theorem placed {phase : Phase} {c : Nat} (hid : t.states id = some (phase, c)) :
    ∃ n₀ g₀ p, t₀.node? id = some n₀ ∧ n₀.kind = .repeated g₀ ∧ t₀.placed p = some id ∧
      t.placed p = some id ∧
      ∀ n g, t.node? id = some n → n.kind = .repeated g → g.rule = g₀.rule ∧ g.element = g₀.element := by
  obtain ⟨n, g, hn, hk, -, -⟩ := states_eq_some.mp hid
  have hsome : t₀.states id ≠ none := by
    rw [Ne, ← h.groups, hid]
    exact Option.some_ne_none _
  obtain ⟨⟨phase₀, c₀⟩, hid₀⟩ := Option.ne_none_iff_exists'.mp hsome
  obtain ⟨n₀, g₀, hn₀, hk₀, -, -⟩ := states_eq_some.mp hid₀
  obtain ⟨p, hp₀⟩ := exists_position hstart.wellFormed hn₀
  have hp := (h.evolves.grows hstart.wellFormed).placed hstart.wellFormed (h.wellFormed hstart) hp₀
    (isLive_iff_node?.mpr ⟨n, hn⟩)
  refine ⟨n₀, g₀, p, hn₀, hk₀, hp₀, hp, fun n g hn hk => ?_⟩
  obtain ⟨h₀, name₀, hpart₀⟩ := hstart.models.rule hp₀ hn₀ hk₀
  obtain ⟨h', name, hpart⟩ := (h.models hstart).rule hp hn hk
  rw [hpart₀] at hpart
  injection congrArg Prod.fst (Option.some.inj hpart) with _ helement hrule
  exact ⟨hrule.symm, helement.symm⟩

theorem provisionalCount {phase : Phase} {c : Nat} (hid : t.states id = some (phase, c)) :
    t.provisionalCount id = .ok (t₀.provision id) := by
  obtain ⟨n₀, g₀, p, hn₀, hk₀, -, -, hrule⟩ := h.placed hstart hid
  obtain ⟨n, g, hn, hk, -, -⟩ := states_eq_some.mp hid
  have hgenerator := (h.evolves.grows hstart.wellFormed).generator hstart.wellFormed
    (h.wellFormed hstart) hn₀ hn .counts
  rw [← provisionalCount_eq hstart.wellFormed hn₀ hk₀]
  unfold Tree.provisionalCount randomCount
  rw [group_eq_ok.mpr ⟨n, hn, hk⟩, group_eq_ok.mpr ⟨n₀, hn₀, hk₀⟩, ok_bind, ok_bind, hgenerator,
    (hrule n g hn hk).1]

/-- A group with a bound rule follows another group, and finds it. -/
theorem source (init : NodeId → TreeM Unit) {path : String} {fields : List (String × String)}
    {min max : Nat} (hn : t.node? id = some n) (hk : n.kind = .repeated g)
    (hrule : g.rule = .bound path fields min max) :
    ∃ y state, t₀.Ties τ id y ∧ t.states y = some state ∧
      wp (sourceWith init id path) (fun r t' => t' = t ∧ r = .ok y) t := by
  obtain ⟨n₀, g₀, p, hn₀, hk₀, hp₀, hp, hsame⟩ := h.placed hstart (states_of_node? hn hk)
  have hwf := h.wellFormed hstart
  have hm := h.models hstart
  obtain ⟨h', name, hpart⟩ := hm.rule hp hn hk
  rw [hrule] at hpart
  obtain ⟨hdirect, q, hq, hgroup⟩ := hstart.wired.bound hpart
  obtain ⟨base, hbase, hpos⟩ := enclosing_placed hwf hm hp
  have hfind : wp (findWith init base path) (fun r t' => t' = t ∧ ∃ y, r = .ok y ∧ t.placed q = some y)
      t := findWith_direct hwf hm hpos hdirect hq
  unfold wp at hfind
  rcases hrun : (findWith init base path).run t with ⟨r, t'⟩
  rw [hrun] at hfind
  obtain ⟨ht', y, hr, hy⟩ := hfind
  obtain ⟨m, hm'⟩ := live_of_placed hwf hy
  obtain ⟨σ, own, hpart', hmodels⟩ := hm.placed hy
  rw [hpart', Option.any_some, ← (hmodels.kind hm').2] at hgroup
  obtain ⟨g', hk'⟩ := NodeKind.isRepeated_iff.mp hgroup
  have hy' := states_of_node? hm' hk'
  obtain ⟨-, -, q', -, -, hq₀, hq', -⟩ := h.placed hstart hy'
  cases placed_inj hwf hy hq'
  refine ⟨y, _, ⟨p, q, hp₀, ?_, hq₀⟩, hy', ?_⟩
  · rw [Template.source, hpart]
    exact hq
  · have hfound : wp (findWith init base path) (fun r t' => t' = t ∧ r = .ok y) t := by
      unfold wp
      rw [hrun]
      exact ⟨ht', hr⟩
    unfold sourceWith
    simp only [wp.bind, wp.look, hbase, wp.outcome]
    refine hfound.mono ?_
    rintro _ t' ⟨rfl, rfl⟩
    simp only [wp.bind, wp.look, isGroup, look_of_node? hm', hk', NodeKind.isRepeated, if_true,
      wp.pure, and_self]

/-- A group follows another one if its rule is bound. -/
theorem rule_of_ties (hties : t₀.Ties τ id y) (hn : t.node? id = some n) (hk : n.kind = .repeated g) :
    ∃ path fields min max, g.rule = .bound path fields min max := by
  obtain ⟨-, -, p, -, -, hp₀, hp, -⟩ := h.placed hstart (states_of_node? hn hk)
  obtain ⟨p', q, hp', hq, -⟩ := hties
  cases placed_inj hstart.wellFormed hp₀ hp'
  obtain ⟨h', name, hpart⟩ := (h.models hstart).rule hp hn hk
  rw [Template.source, hpart] at hq
  cases hrule : g.rule with
  | fixed count =>
    rw [hrule] at hq
    cases hq
  | random min max =>
    rw [hrule] at hq
    cases hq
  | bound path fields min max => exact ⟨path, fields, min, max, rfl⟩

/-- Other groups follow none. -/
theorem free_of_rule (hn : t.node? id = some n) (hk : n.kind = .repeated g)
    (hrule : ∀ path fields min max, g.rule ≠ .bound path fields min max) (y : NodeId) :
    ¬ t₀.Ties τ id y := by
  intro hties
  obtain ⟨path, fields, min, max, heq⟩ := h.rule_of_ties hstart hties hn hk
  exact hrule path fields min max heq

end Settling

end Tree

end FormatFuzz
