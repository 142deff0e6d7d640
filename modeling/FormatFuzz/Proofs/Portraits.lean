-- SUMMARY: The elements that a group is given depend on its template, its name and the seed alone.
import FormatFuzz.Proofs.Addresses
import FormatFuzz.Proofs.Regrowth

/-!
# Portraits

The portrait of a subtree is all that there is to see in it except for the places of its nodes
(`Tree.portraits`). What a template and a seed make of it can be told beforehand (`Template.portrait`), because
a count is drawn for the full name of its group, and full names are put together from those of fields
(`Template.namesAt`).

Where no group follows another one and no counter numbers the elements, a group that has been given two
different counts in a row has the elements that can be told beforehand, whatever has been done to the tree
before (`Tree.Reaches.resize_portraits`).
-/

namespace FormatFuzz

open TreeM

-- ---------------------------------------------------------------------------
-- What a template makes
-- ---------------------------------------------------------------------------

/-- A node and those below it, without their places and with nothing that has been read of them. -/
structure Portrait where
  name : String
  kind : NodeKind
  cell : Cell
  action : Option Transform
  hidden : Bool
  fuzz : FieldOptions
  children : List Portrait

/-- The count that a rule asks for by itself in a group of this full name. -/
def Multiplicity.countFor (seed : UInt64) (fullName : String) : Multiplicity → Nat
  | .fixed count => count
  | .random min max | .bound _ _ min max =>
    let (min, max) := inOrder min max
    ((Generator.ofSeed (seed ^^^ Tree.nameSeed fullName ^^^ Tree.Purpose.counts.salt)).natIn min max).1

namespace Template

/-- The names on the way up from a position, nearest first. The root and groups are left out. -/
def namesAt (τ : Template) : Position → List String
  | [] | [_] => []
  | _ :: i :: p =>
    match τ.partAt (i :: p) with
    | some (σ, name) => if σ.isRepeated then τ.namesAt (i :: p) else name :: τ.namesAt (i :: p)
    | none => []

mutual

/-- What becomes of a template, under the given name and below nodes of the names `above`, when its groups get
their elements. -/
def portrait (seed : UInt64) (above : List String) (name : String) : Template → Portrait
  | .leaf h kind => ⟨name, .leaf kind, h.cell, h.action, h.hidden, h.fuzz, []⟩
  | .composite h fields =>
    ⟨name, .composite, h.cell, h.action, h.hidden, h.fuzz, portraits seed (name :: above) fields⟩
  | .repeated h element rule =>
    let count := rule.countFor seed (".".intercalate (name :: above).reverse)
    ⟨name, .repeated { element, rule, phase := .ready }, h.cell, h.action, h.hidden, h.fuzz,
      (List.range count).map fun i => portrait seed above s!"{name}[{i}]" element⟩

def portraits (seed : UInt64) (above : List String) : List Template → List Portrait
  | [] => []
  | field :: rest => portrait seed above field.name field :: portraits seed above rest

end

variable {τ : Template} {p : Position} {i : Nat} {header : Header} {name : String}

theorem portraits_eq_map (seed : UInt64) (above : List String) (fields : List Template) :
    portraits seed above fields = fields.map fun field => field.portrait seed above field.name := by
  induction fields with
  | nil => rfl
  | cons field rest ih => rw [portraits, ih, List.map_cons]

/-- Fields have the name of their composite above them, unless this is the root. -/
theorem namesAt_field {fields : List Template} {j : Nat}
    (h : τ.partAt (j :: p) = some (.composite header fields, name)) :
    τ.namesAt (i :: j :: p) = name :: τ.namesAt (j :: p) := by
  rw [namesAt, h]
  rfl

/-- Elements have above them what their group has. -/
theorem namesAt_element {element : Template} {rule : Multiplicity}
    (h : τ.partAt p = some (.repeated header element rule, name)) : τ.namesAt (i :: p) = τ.namesAt p := by
  cases p with
  | nil => rfl
  | cons j p =>
    rw [namesAt, h]
    rfl

end Template

-- ---------------------------------------------------------------------------
-- What there is to see
-- ---------------------------------------------------------------------------

namespace Tree

/-- The portrait of a node down to the given depth. -/
def portraitFrom (t : Tree) : (depth : Nat) → NodeId → Option Portrait
  | 0, _ => none
  | depth + 1, id => do
    let n ← t.node? id
    let below ← n.children.mapM (portraitFrom t depth)
    return ⟨n.name, n.kind, n.cell, n.action, n.hidden, n.fuzz, below⟩

/-- The portraits of the children of a node. A node's place comes after its parent's, so that the tree is no
deeper than it has places. -/
def portraits (t : Tree) (id : NodeId) : Option (List Portrait) := do
  (← t.node? id).children.mapM (t.portraitFrom t.nodes.size)

variable {τ σ : Template} {t t' t₀ t₁ t₂ : Tree} {id x : NodeId} {n : Node} {g : Group} {p q : Position}
  {name : String} {b : Nat}

/-- The full name of a node is made of the names that the template has on the way to it. -/
theorem fullName_placed (hwf : t.WellFormed) (hm : t.Models (fun _ => True) τ τ.name t.root)
    (hp : t.placed p = some id) (hpart : τ.partAt p = some (σ, name)) :
    t.fullName id = .ok (".".intercalate (name :: τ.namesAt p).reverse) := by
  have habove : ∀ {p : Position} {id n fuel}, p.length ≤ fuel → t.placed p = some id → t.node? id = some n →
      t.namesAbove fuel n.parent = .ok (τ.namesAt p) := by
    intro p
    induction p with
    | nil =>
      intro id n fuel _ hp hn
      cases hp
      obtain ⟨root, hroot, hnone⟩ := hwf.root
      cases hn.symm.trans hroot
      rw [hnone]
      cases fuel <;> rfl
    | cons i p ih =>
      intro id n fuel hfuel hp hn
      obtain ⟨fuel, rfl⟩ : ∃ f, fuel = f + 1 := ⟨fuel - 1, by rw [List.length_cons] at hfuel; omega⟩
      obtain ⟨y, -, hy, -⟩ := placed_cons.mp hp
      obtain ⟨σ, own, hpart, -⟩ := hm.placed hy
      obtain ⟨above, m, hpa, hma, hnames⟩ := Template.Address.exists_above hwf hm hpart hp hn
      rw [hnames]
      cases p with
      | nil =>
        cases hpa
        obtain ⟨root, hroot, hnone⟩ := hwf.root
        cases hma.symm.trans hroot
        rw [hnone]
        rfl
      | cons j p =>
        obtain ⟨grand, l, -, hl, hj⟩ := placed_cons.mp hpa
        rw [ih (Nat.le_of_succ_le_succ hfuel) hpa hma, hwf.parent_of_mem hl (List.mem_of_getElem? hj) hma,
          Template.namesAt, hpart]
        rfl
  obtain ⟨σ', name', hpart', hmodels⟩ := hm.placed hp
  cases hpart.symm.trans hpart'
  obtain ⟨n, hn, hbears⟩ := hmodels.live
  have hfuel : p.length ≤ id.index + 1 := Nat.le_succ_of_le (length_le_index hwf hp)
  rw [fullName, node_eq_ok.mpr hn, ok_bind, habove hfuel hp hn, ok_bind, hbears.name]
  rfl

theorem provisionalCount_fullName (hn : t.node? id = some n) (hk : n.kind = .repeated g)
    (hname : t.fullName id = .ok name) : t.provisionalCount id = .ok (g.rule.countFor t.seed name) := by
  unfold provisionalCount
  rw [group_eq_ok.mpr ⟨n, hn, hk⟩, ok_bind]
  cases g.rule with
  | fixed count => rfl
  | random min max =>
    dsimp only
    rw [randomCount, generator, hname]
    rfl
  | bound path fields min max =>
    dsimp only
    rw [randomCount, generator, hname]
    rfl

theorem mapM_eq_some {α β : Type} {f : α → Option β} {xs : List α} {ys : List β}
    (hlength : xs.length = ys.length)
    (h : ∀ {i : Nat} {x y}, xs[i]? = some x → ys[i]? = some y → f x = some y) : xs.mapM f = some ys := by
  induction xs generalizing ys with
  | nil =>
    cases ys with
    | nil => rfl
    | cons y ys => cases hlength
  | cons x xs ih =>
    cases ys with
    | nil => cases hlength
    | cons y ys =>
      have hrest := ih (Nat.succ.inj hlength) fun {i} => h (i := i + 1)
      rw [List.mapM_cons, h (i := 0) rfl rfl, hrest]
      rfl

theorem mapM_eq_range {α β : Type} {f : α → Option β} {g : Nat → β} {xs : List α}
    (h : ∀ {i : Nat} {x}, xs[i]? = some x → f x = some (g i)) :
    xs.mapM f = some ((List.range xs.length).map g) := by
  refine mapM_eq_some (by rw [List.length_map, List.length_range]) fun {i x y} hx hy => ?_
  rw [List.getElem?_map] at hy
  obtain ⟨j, hj, rfl⟩ := Option.map_eq_some_iff.mp hy
  obtain ⟨hlt, heq⟩ := List.getElem?_eq_some_iff.mp hj
  rw [List.getElem_range] at heq
  exact heq ▸ h hx

theorem portraitFrom_succ {depth : Nat} {below : List Portrait} (hn : t.node? x = some n)
    (hbelow : n.children.mapM (t.portraitFrom depth) = some below) :
    t.portraitFrom (depth + 1) x = some ⟨n.name, n.kind, n.cell, n.action, n.hidden, n.fuzz, below⟩ := by
  rw [portraitFrom, hn, Option.bind_eq_bind, Option.bind_some, hbelow]
  rfl

theorem ModelsAll.length_eq {C : Cell → Prop} {σs : List Template} {ids : List NodeId}
    (h : t.ModelsAll C σs ids) : ids.length = σs.length := by
  induction σs generalizing ids with
  | nil =>
    cases h
    rfl
  | cons σ rest ih =>
    obtain ⟨id, ids', rfl, -, hrest⟩ := h
    rw [List.length_cons, List.length_cons, ih hrest]

/-- A part of a tree that is as the template says has the portrait that can be told beforehand. -/
theorem Faithful.portraitFrom (h : t.Faithful τ b) (hs : t.Settled) {i depth : Nat}
    (hp : t.placed (i :: p) = some x) (hb : b ≤ x.index) (hpart : τ.partAt (i :: p) = some (σ, name))
    (hplain : σ.Every (·.header.counter = none)) (hdepth : t.nodes.size ≤ x.index + depth) :
    t.portraitFrom depth x = some (σ.portrait t.seed (τ.namesAt (i :: p)) name) := by
  induction depth generalizing i p x σ name with
  | zero =>
    obtain ⟨n, hn⟩ := live_of_placed h.wellFormed hp
    exact absurd (lt_size hn) (Nat.not_lt.mpr hdepth)
  | succ depth ih =>
    obtain ⟨n, hn⟩ := live_of_placed h.wellFormed hp
    obtain ⟨σ', name', hpart', hmodels⟩ := h.models.placed hp
    cases hpart.symm.trans hpart'
    have hcell : n.cell = σ.header.cell := (h.suits hb hn).cell hp hpart hplain.self
    -- The children are behind the node, so there is depth enough for them.
    have hchild : ∀ {j c σ' name'}, n.children[j]? = some c → σ.part name j = some (σ', name') →
        σ'.Every (·.header.counter = none) →
          t.portraitFrom depth c = some (σ'.portrait t.seed (τ.namesAt (j :: i :: p)) name') := by
      intro j c σ' name' hj hσ' hplain'
      have hlt := (h.wellFormed.child hn (List.mem_of_getElem? hj)).1
      refine ih (placed_cons.mpr ⟨x, n, hp, hn, hj⟩) (hb.trans hlt.le) ?_ hplain' (by omega)
      rw [Template.partAt, hpart]
      exact hσ'
    cases σ with
    | leaf header kind =>
      obtain ⟨m, hm, hbears, hkind, hnone⟩ := hmodels
      cases hn.symm.trans hm
      have hbelow : n.children.mapM (t.portraitFrom depth) = some [] := by
        rw [hnone]
        rfl
      rw [portraitFrom_succ hn hbelow, hbears.name, hkind, hcell, hbears.action, hbears.hidden, hbears.fuzz]
      rfl
    | composite header fields =>
      obtain ⟨m, hm, hbears, hkind, hfields⟩ := hmodels
      cases hn.symm.trans hm
      have hbelow : n.children.mapM (t.portraitFrom depth) =
          some (Template.portraits t.seed (name :: τ.namesAt (i :: p)) fields) := by
        rw [Template.portraits_eq_map]
        refine mapM_eq_some (by rw [List.length_map, hfields.length_eq]) fun {j c y} hc hy => ?_
        rw [List.getElem?_map] at hy
        obtain ⟨field, hfield, rfl⟩ := Option.map_eq_some_iff.mp hy
        have hpart : (Template.composite header fields).part name j = some (field, field.name) := by
          rw [Template.part, hfield]
          rfl
        have hplain' := Template.everyField_iff.mp hplain.2 field (List.mem_of_getElem? hfield)
        rw [hchild hc hpart hplain', Template.namesAt_field ‹_›]
      rw [portraitFrom_succ hn hbelow, hbears.name, hkind, hcell, hbears.action, hbears.hidden, hbears.fuzz]
      rfl
    | repeated header element rule =>
      obtain ⟨m, g, hm, hbears, hkind, helement, hrule, -⟩ := hmodels
      cases hn.symm.trans hm
      have hready := hs hn hkind
      have hname := fullName_placed h.wellFormed h.models hp hpart
      have hcount := (h.suits hb hn).count (hready ▸ states_of_node? hn hkind)
      rw [provisionalCount_fullName hn hkind hname, hrule] at hcount
      have hlength := Except.ok.inj hcount
      have hgroup : g = { element, rule, phase := .ready } := by
        have hwatchers := h.unwatched hn hkind
        cases g
        subst helement hrule hready hwatchers
        rfl
      have hbelow : n.children.mapM (t.portraitFrom depth) = some ((List.range n.children.length).map
          fun j => element.portrait t.seed (τ.namesAt (i :: p)) s!"{name}[{j}]") := by
        refine mapM_eq_range fun {j c} hc => ?_
        rw [hchild hc rfl hplain.2, Template.namesAt_element hpart]
      rw [portraitFrom_succ hn hbelow, hbears.name, hkind, hgroup, hcell, hbears.action, hbears.hidden,
        hbears.fuzz, ← hlength]
      rfl

-- ---------------------------------------------------------------------------
-- Groups that are given other counts
-- ---------------------------------------------------------------------------

/-- A group is given two counts, one after the other. -/
def resizeTwice (id : NodeId) (first second : Nat) : TreeM Unit := do
  resize id first
  resize id second

section

variable {header : Header} {element : Template} {rule : Multiplicity} {first second : Nat}
  (hpart : τ.partAt p = some (.repeated header element rule, name))
  (hplain : element.Every (·.header.counter = none))

include hpart hplain

/-- New elements have the portraits that can be told beforehand. -/
theorem Faithful.portraits (h : t.Faithful τ b) (hs : t.Settled) (hp : t.placed p = some id)
    (hn : t.node? id = some n) (hnew : ∀ c ∈ n.children, b ≤ c.index) :
    t.portraits id = some ((List.range n.children.length).map fun i =>
      element.portrait t.seed (τ.namesAt p) s!"{name}[{i}]") := by
  rw [Tree.portraits, hn, Option.bind_eq_bind, Option.bind_some]
  refine mapM_eq_range fun {i c} hc => ?_
  have hc' : t.placed (i :: p) = some c := placed_cons.mpr ⟨id, n, hp, hn, hc⟩
  have helement : τ.partAt (i :: p) = some (element, s!"{name}[{i}]") := by
    rw [Template.partAt, hpart]
    rfl
  rw [h.portraitFrom hs hc' (hnew c (List.mem_of_getElem? hc)) helement hplain (Nat.le_add_left _ _),
    Template.namesAt_element hpart]

/-- The second count brings new elements, because it is not the first one. -/
theorem resizeTwice_portraits (hfree : t.Free τ) (hs : t.Settled) (hp : t.placed p = some id)
    (hne : first ≠ second) :
    wp (resizeTwice id first second) (fun r t' => r = .ok () ∧ t'.portraits id =
      some ((List.range second).map fun i => element.portrait t.seed (τ.namesAt p) s!"{name}[{i}]")) t := by
  have hlaws := groupLaws_evolves .any
  have hwf := hfree.wellFormed
  obtain ⟨n, hn⟩ := live_of_placed hwf hp
  obtain ⟨σ, name', hpart', hmodels⟩ := hfree.models.placed hp
  cases hpart.symm.trans hpart'
  obtain ⟨g, hk⟩ := NodeKind.isRepeated_iff.mp (hmodels.kind hn).2
  unfold resizeTwice
  rw [wp.bind]
  refine ((resize_succeeds hfree hs hn hk first).and (hlaws.resize id first t)).mono ?_
  rintro _ t₁ ⟨⟨rfl, hs₁, hw₁, n₁, hn₁, hlength₁⟩, hev₁⟩
  have hfree₁ := hfree.step hev₁.rel hw₁
  have hgrows₁ := hev₁.rel.grows hwf
  have hwf₁ := hfree₁.wellFormed
  have hp₁ := hgrows₁.placed hwf hwf₁ hp (isLive_iff_node?.mpr ⟨n₁, hn₁⟩)
  obtain ⟨g₁, hk₁, -⟩ := Node.rule_of_fixture (hgrows₁.fixture hn hn₁) hk
  have hrespects : Respects τ t₁.nodes.size (resize id second) := resize_faithful (lt_size hn₁) second
  refine (((resize_succeeds hfree₁ hs₁ hn₁ hk₁ second).and (hlaws.resize id second t₁)).and
    (hrespects t₁)).mono ?_
  rintro _ t₂ ⟨⟨⟨rfl, hs₂, hw₂, n₂, hn₂, hlength₂⟩, hev₂⟩, hkept⟩
  have hgrows₂ := hev₂.rel.grows hwf₁
  have h₂ : t₂.Faithful τ t₁.nodes.size := hkept hfree₁.faithful
  have hp₂ := hgrows₂.placed hwf₁ h₂.wellFormed hp₁ (isLive_iff_node?.mpr ⟨n₂, hn₂⟩)
  have hnew : ∀ c ∈ n₂.children, t₁.nodes.size ≤ c.index := by
    obtain ⟨m, hm, -, hsame | ⟨-, hnew⟩⟩ := hgrows₂.old (lt_size hn₁) hn₂
    · cases hn₁.symm.trans hm
      exact absurd (hlength₁.symm.trans ((congrArg List.length hsame).symm.trans hlength₂)) hne
    · exact hnew
  refine ⟨rfl, ?_⟩
  rw [h₂.portraits hpart hplain hs₂ hp₂ hn₂ hnew, hlength₂, hgrows₂.seed, hgrows₁.seed]

end

theorem build_seed {seed : UInt64} (h : build τ seed = .ok t) : t.seed = seed := by
  obtain ⟨hs, -⟩ := instantiate_sprouts (C := fun _ => True) (fun _ => trivial) τ none none (empty seed)
  obtain ⟨hwf, -⟩ := instantiate_wellFormed (C := fun _ => True) (fun _ => trivial) τ seed
  obtain ⟨root, t₀, hmade, hvisit⟩ := build_eq_ok.mp h
  rw [hmade] at hs hwf
  have hevolves : Evolves (fun _ => True) _ t := ((groupLaws_evolves .any).perform (.visit root) _).of_run hvisit
  exact (hevolves.grows hwf).seed.trans hs.seed

/-- What is not a group is given no count. -/
theorem resizeTwice_group {first second : Nat} (h : (resizeTwice id first second).run t = (.ok (), t')) :
    ∃ g, t.group id = .ok g := by
  cases hg : t.group id with
  | ok g => exact ⟨g, rfl⟩
  | error e =>
    have hfail : wp (resizeTwice id first second) (fun r _ => r ≠ .ok ()) t := by
      unfold resizeTwice resize touch touchWith
      rw [wp.bind, wp.bind, wp.look_error hg]
      exact error_ne_ok
    exact absurd rfl (hfail.of_run h)

/-- Without bound groups, and without counters in the elements of a group of the new tree: whatever is done to the
tree, if the group is given two different counts after that, then the subtrees of its elements look as they do
when it is given the same two counts in the new tree. The first count makes no difference. -/
theorem Reaches.resize_portraits {allowed : Tree → Call → Prop} {seed : UInt64} {header : Header}
    {element : Template} {rule : Multiplicity} {first second : Nat} (hunbound : τ.Every Template.Unbound)
    (hbuild : build τ seed = .ok t₀) (h : Reaches allowed t₀ t) (hp : t₀.placed p = some id)
    (hpart : τ.partAt p = some (.repeated header element rule, name))
    (hplain : element.Every (·.header.counter = none)) (hne : first ≠ second)
    (hok : (resizeTwice id first second).run t = (.ok (), t₂)) :
    ∃ u₂, (resizeTwice id first second).run t₀ = (.ok (), u₂) ∧ t₂.portraits id = u₂.portraits id ∧
      t₂.portraits id =
        some ((List.range second).map fun i => element.portrait seed (τ.namesAt p) s!"{name}[{i}]") := by
  have hbegin : Reaches allowed t₀ t₀ := .refl t₀
  obtain ⟨hfree₀, hs₀⟩ := hbegin.free hunbound hbuild
  obtain ⟨hfree, hs⟩ := h.free hunbound hbuild
  have hgrows := h.evolves.grows hfree₀.wellFormed
  obtain ⟨g, hg⟩ := resizeTwice_group hok
  obtain ⟨n, hn, -⟩ := group_eq_ok.mp hg
  have hp' := hgrows.placed hfree₀.wellFormed hfree.wellFormed hp (isLive_iff_node?.mpr ⟨n, hn⟩)
  obtain ⟨-, hportraits⟩ := (resizeTwice_portraits hpart hplain hfree hs hp' hne).of_run hok
  have hstart := resizeTwice_portraits hpart hplain hfree₀ hs₀ hp hne
  rcases hrun : (resizeTwice id first second).run t₀ with ⟨r, u₂⟩
  obtain ⟨rfl, hportraits₀⟩ := hstart.of_run hrun
  rw [hgrows.seed] at hportraits
  refine ⟨u₂, rfl, hportraits.trans hportraits₀.symm, ?_⟩
  rw [hportraits, build_seed hbuild]

/-- Boxes of items, as many as is drawn for each. -/
def shelf : Template :=
  .composite { name := "shelf" } [
    .group "boxes" (.composite { name := "box" } [
      .boolean "open", .group "items" (.boolean "item") (.random 1 3)]) (.fixed 2)]

/-- A box is opened, and then all are taken away for one new box, and that one for three. -/
theorem Reaches.resize_portraits_shelf : ∃ t₀ t₂ u₂, build shelf 7 = .ok t₀ ∧
    (resizeTwice ⟨1⟩ 1 3).run ((Call.replaceCell ⟨3⟩ (.literal (.bool true))).run t₀) = (.ok (), t₂) ∧
    (resizeTwice ⟨1⟩ 1 3).run t₀ = (.ok (), u₂) ∧ t₂.portraits ⟨1⟩ = u₂.portraits ⟨1⟩ := by
  have hruns : (build shelf 7).toOption.any (fun t₀ =>
      t₀.placed [0] = some ⟨1⟩ ∧ t₀.name ⟨3⟩ = .ok "open" ∧ ((resizeTwice ⟨1⟩ 1 3).run
        ((Call.replaceCell ⟨3⟩ (.literal (.bool true))).run t₀)).1.isOk = true) = true := by
    decide +kernel
  obtain ⟨t₀, hbuild, hruns⟩ := exists_build hruns
  obtain ⟨hp, -, hok⟩ := of_decide_eq_true hruns
  rcases hrun : (resizeTwice ⟨1⟩ 1 3).run
      ((Call.replaceCell ⟨3⟩ (.literal (.bool true))).run t₀) with ⟨_ | _, t₂⟩
  · rw [hrun] at hok
    cases hok
  have hunbound : shelf.Every Template.Unbound :=
    ⟨trivial, ⟨trivial, trivial, trivial, ⟨trivial, trivial⟩, trivial⟩, trivial⟩
  have hplain : (Template.composite { name := "box" } [
      .boolean "open", .group "items" (.boolean "item") (.random 1 3)]).Every (·.header.counter = none) :=
    ⟨rfl, rfl, ⟨rfl, rfl⟩, trivial⟩
  have hreach : Reaches (fun _ _ => True) t₀ ((Call.replaceCell ⟨3⟩ (.literal (.bool true))).run t₀) :=
    .call (.replaceCell ⟨3⟩ (.literal (.bool true))) (.refl t₀) trivial
  obtain ⟨u₂, hrun₀, hsame, -⟩ :=
    Reaches.resize_portraits hunbound hbuild hreach hp rfl hplain (by decide) hrun
  exact ⟨t₀, t₂, u₂, hbuild, hrun, hrun₀, hsame⟩

end Tree

end FormatFuzz
