-- SUMMARY: Well-formed trees, trees that follow a template, and how a tree may evolve.
import Mathlib.Data.Nat.Basic
import Mathlib.Order.Basic
import Mathlib.Tactic.ByContra
import FormatFuzz.Proofs.Wp
import FormatFuzz.Proofs.Arena

/-!
# Well-formed trees

A tree is well formed when the links between parents and children agree (`Tree.WellFormed`), and
it follows its template when every node is what the template says (`Tree.Models`). Elements of a
group come and go, so an operation keeps a node as it was or puts new elements in the place of a
group's old ones (`Tree.Grows`).

`Evolves` is the relation that every operation on trees keeps, failures included.
-/

namespace FormatFuzz

-- ---------------------------------------------------------------------------
-- Links
-- ---------------------------------------------------------------------------

namespace Tree

/-- Parents and children agree on each other, and the root is the only node without a parent. -/
structure WellFormed (t : Tree) : Prop where
  root : ∃ n, t.node? t.root = some n ∧ n.parent = none
  parent : ∀ {id n}, t.node? id = some n → id ≠ t.root →
    ∃ p m, n.parent = some p ∧ t.node? p = some m ∧ m.children.count id = 1
  child : ∀ {id n c}, t.node? id = some n → c ∈ n.children →
    id.index < c.index ∧ ∃ m, t.node? c = some m ∧ m.parent = some id

namespace WellFormed

variable {t : Tree} {id p c : NodeId} {n m : Node}

theorem eq_root (h : t.WellFormed) (hn : t.node? id = some n) (hp : n.parent = none) :
    id = t.root := by
  by_contra hne
  obtain ⟨p, m, hp', -, -⟩ := h.parent hn hne
  rw [hp] at hp'
  cases hp'

/-- A parent comes before its child, which it lists once. -/
theorem of_parent (h : t.WellFormed) (hn : t.node? id = some n) (hp : n.parent = some p) :
    p.index < id.index ∧ ∃ m, t.node? p = some m ∧ m.children.count id = 1 := by
  have hne : id ≠ t.root := by
    intro he
    obtain ⟨r, hr, hnone⟩ := h.root
    rw [← he, hn] at hr
    cases hr
    rw [hp] at hnone
    cases hnone
  obtain ⟨p', m, hp', hm, hcount⟩ := h.parent hn hne
  rw [hp] at hp'
  cases hp'
  have hmem : id ∈ m.children := List.count_pos_iff.mp (by omega)
  exact ⟨(h.child hm hmem).1, m, hm, hcount⟩

theorem mem_children (h : t.WellFormed) (hn : t.node? id = some n) (hp : n.parent = some p)
    (hm : t.node? p = some m) : id ∈ m.children := by
  obtain ⟨-, m', hm', hcount⟩ := h.of_parent hn hp
  rw [hm] at hm'
  cases hm'
  exact List.count_pos_iff.mp (by omega)

theorem parent_of_mem (h : t.WellFormed) (hn : t.node? id = some n) (hc : c ∈ n.children)
    (hm : t.node? c = some m) : m.parent = some id := by
  obtain ⟨-, m', hm', hp⟩ := h.child hn hc
  rw [hm] at hm'
  cases hm'
  exact hp

theorem nodup_children (h : t.WellFormed) (hn : t.node? id = some n) : n.children.Nodup := by
  rw [List.nodup_iff_count]
  intro c
  by_cases hc : c ∈ n.children
  · obtain ⟨-, m, hm, hp⟩ := h.child hn hc
    obtain ⟨-, n', hn', hcount⟩ := h.of_parent hm hp
    rw [hn] at hn'
    cases hn'
    exact hcount.le
  · rw [List.count_eq_zero_of_not_mem hc]
    exact Nat.zero_le 1

end WellFormed

-- ---------------------------------------------------------------------------
-- Templates
-- ---------------------------------------------------------------------------

end Tree

/-- A node has what the header says, under the given name, and a cell that is allowed. -/
structure Node.Bears (C : Cell → Prop) (n : Node) (h : Header) (name : String) : Prop where
  name : n.name = name
  hidden : n.hidden = h.hidden
  action : n.action = h.action
  fuzz : n.fuzz = h.fuzz
  cell : C n.cell

theorem Node.Bears.of_fixture {C : Cell → Prop} {n n' : Node} {h : Header} {name : String}
    (hn : n.Bears C h name) (hf : n.fixture = n'.fixture) (hc : C n'.cell) :
    n'.Bears C h name where
  name := (name_of_fixture hf).symm.trans hn.name
  hidden := (hidden_of_fixture hf).symm.trans hn.hidden
  action := (action_of_fixture hf).symm.trans hn.action
  fuzz := by
    have hfuzz := congrArg Node.fuzz hf
    exact hfuzz.symm.trans hn.fuzz
  cell := hc

namespace Template

mutual

/-- All cells in a template are allowed ones. -/
def CellsIn (C : Cell → Prop) : Template → Prop
  | .leaf h _ => C h.cell
  | .composite h fields => C h.cell ∧ AllCellsIn C fields
  | .repeated h element _ => C h.cell ∧ CellsIn C element

def AllCellsIn (C : Cell → Prop) : List Template → Prop
  | [] => True
  | τ :: rest => CellsIn C τ ∧ AllCellsIn C rest

end

end Template

namespace Tree

mutual

/-- The node is the template's, under the given name, and so are the nodes below it. -/
def Models (C : Cell → Prop) (t : Tree) : Template → String → NodeId → Prop
  | .leaf h kind, name, id =>
    ∃ n, t.node? id = some n ∧ n.Bears C h name ∧ n.kind = .leaf kind ∧ n.children = []
  | .composite h fields, name, id =>
    ∃ n, t.node? id = some n ∧ n.Bears C h name ∧ n.kind = .composite ∧
      ModelsAll C t fields n.children
  | .repeated h element rule, name, id =>
    ∃ n g, t.node? id = some n ∧ n.Bears C h name ∧ n.kind = .repeated g ∧ g.element = element ∧
      g.rule = rule ∧ ∀ (i : Nat) (c : NodeId), n.children[i]? = some c → Models C t element s!"{name}[{i}]" c

/-- The nodes are the templates', in order. -/
def ModelsAll (C : Cell → Prop) (t : Tree) : List Template → List NodeId → Prop
  | [], ids => ids = []
  | τ :: rest, ids => ∃ id ids', ids = id :: ids' ∧ Models C t τ τ.name id ∧ ModelsAll C t rest ids'

end

variable {C : Cell → Prop} {t t' : Tree}

theorem Models.live {τ : Template} {name : String} {id : NodeId} (h : t.Models C τ name id) :
    ∃ n, t.node? id = some n ∧ n.Bears C τ.header name := by
  cases τ with
  | leaf h' kind =>
    obtain ⟨n, hn, hb, -, -⟩ := h
    exact ⟨n, hn, hb⟩
  | composite h' fields =>
    obtain ⟨n, hn, hb, -, -⟩ := h
    exact ⟨n, hn, hb⟩
  | repeated h' element rule =>
    obtain ⟨n, g, hn, hb, -, -, -, -⟩ := h
    exact ⟨n, hn, hb⟩

mutual

/-- A tree that has allowed cells only has them when more are allowed. -/
theorem Models.mono {C' : Cell → Prop} (hC : ∀ c, C c → C' c) : (τ : Template) → (name : String) →
    (id : NodeId) → t.Models C τ name id → t.Models C' τ name id
  | .leaf _ _, _, _, ⟨n, hn, hb, hk, hch⟩ => ⟨n, hn, { hb with cell := hC _ hb.cell }, hk, hch⟩
  | .composite _ fields, _, _, ⟨n, hn, hb, hk, hch⟩ =>
    ⟨n, hn, { hb with cell := hC _ hb.cell }, hk, ModelsAll.mono hC fields n.children hch⟩
  | .repeated _ element _, _, _, ⟨n, g, hn, hb, hk, he, hr, hch⟩ =>
    ⟨n, g, hn, { hb with cell := hC _ hb.cell }, hk, he, hr,
      fun i c hc => Models.mono hC element _ c (hch i c hc)⟩

theorem ModelsAll.mono {C' : Cell → Prop} (hC : ∀ c, C c → C' c) : (τs : List Template) →
    (ids : List NodeId) → t.ModelsAll C τs ids → t.ModelsAll C' τs ids
  | [], _, h => h
  | τ :: rest, _, ⟨id, ids', hids, hid, hrest⟩ =>
    ⟨id, ids', hids, Models.mono hC τ τ.name id hid, ModelsAll.mono hC rest ids' hrest⟩

end

/-- What has to be known of a node for its template to be kept: its fixture is the same and its
cell allowed, and its children are the same or, in a group, follow the template of its
elements. -/
def Carries (C : Cell → Prop) (t t' : Tree) (P : NodeId → Prop) (id : NodeId) : Prop :=
  ∀ n, t.node? id = some n → ∃ n', t'.node? id = some n' ∧ n.fixture = n'.fixture ∧
    (C n.cell → C n'.cell) ∧
    (n'.children = n.children ∧ (∀ c ∈ n.children, P c) ∨
      ∃ g, n.kind = .repeated g ∧ (g.element.CellsIn C →
        ∀ (i : Nat) (c : NodeId), n'.children[i]? = some c → t'.Models C g.element s!"{n.name}[{i}]" c))

mutual

theorem Models.transfer {P : NodeId → Prop} (hP : ∀ id, P id → t.Carries C t' P id) :
    (τ : Template) → (name : String) → (id : NodeId) → τ.CellsIn C → P id →
      t.Models C τ name id → t'.Models C τ name id
  | .leaf h kind, name, id, _, hid, ⟨n, hn, hb, hk, hch⟩ => by
    obtain ⟨n', hn', hf, hcell, hcase⟩ := hP id hid n hn
    refine ⟨n', hn', hb.of_fixture hf (hcell hb.cell), ?_, ?_⟩
    · rw [← NodeKind.still_eq_leaf, ← Node.still_of_fixture hf, hk]
      rfl
    · rcases hcase with ⟨hsame, -⟩ | ⟨g, hg, -⟩
      · rw [hsame, hch]
      · rw [hk] at hg
        cases hg
  | .composite h fields, name, id, hcells, hid, ⟨n, hn, hb, hk, hch⟩ => by
    obtain ⟨n', hn', hf, hcell, hcase⟩ := hP id hid n hn
    refine ⟨n', hn', hb.of_fixture hf (hcell hb.cell), ?_, ?_⟩
    · rw [← NodeKind.still_eq_composite, ← Node.still_of_fixture hf, hk]
      rfl
    · rcases hcase with ⟨hsame, hall⟩ | ⟨g, hg, -⟩
      · rw [hsame]
        exact ModelsAll.transfer hP fields n.children hcells.2 hall hch
      · rw [hk] at hg
        cases hg
  | .repeated h element rule, name, id, hcells, hid, ⟨n, g, hn, hb, hk, he, hr, hch⟩ => by
    obtain ⟨n', hn', hf, hcell, hcase⟩ := hP id hid n hn
    have hstill := Node.still_of_fixture hf
    rw [hk] at hstill
    cases hk' : n'.kind with
    | leaf k =>
      rw [hk'] at hstill
      cases hstill
    | composite =>
      rw [hk'] at hstill
      cases hstill
    | repeated g' =>
      rw [hk'] at hstill
      have hgg : g.still = g'.still := by
        simpa [NodeKind.still] using hstill
      have he' : g'.element = element := by
        have h' := congrArg Group.element hgg
        exact h'.symm.trans he
      have hr' : g'.rule = rule := by
        have h' := congrArg Group.rule hgg
        exact h'.symm.trans hr
      refine ⟨n', g', hn', hb.of_fixture hf (hcell hb.cell), hk', he', hr', ?_⟩
      intro i c hc
      rcases hcase with ⟨hsame, hall⟩ | ⟨g₀, hg₀, hnew⟩
      · rw [hsame] at hc
        exact Models.transfer hP element _ c hcells.2 (hall c (List.mem_of_getElem? hc))
          (hch i c hc)
      · rw [hk] at hg₀
        cases hg₀
        rw [← he, ← hb.name]
        exact hnew (he ▸ hcells.2) i c hc

theorem ModelsAll.transfer {P : NodeId → Prop} (hP : ∀ id, P id → t.Carries C t' P id) :
    (τs : List Template) → (ids : List NodeId) → Template.AllCellsIn C τs → (∀ id ∈ ids, P id) →
      t.ModelsAll C τs ids → t'.ModelsAll C τs ids
  | [], _, _, _, h => by
    cases h
    rfl
  | τ :: rest, _, hcells, hids, ⟨id, ids', hcons, hid, hrest⟩ => by
    subst hcons
    refine ⟨id, ids', rfl, ?_, ?_⟩
    · exact Models.transfer hP τ τ.name id hcells.1 (hids id List.mem_cons_self) hid
    · refine ModelsAll.transfer hP rest ids' hcells.2 (fun c hc => ?_) hrest
      exact hids c (List.mem_cons_of_mem _ hc)

end

-- ---------------------------------------------------------------------------
-- Growth
-- ---------------------------------------------------------------------------

/-- Nodes that live on keep their fixture, and their children unless these are the new elements of
a group. Places are never used again. -/
structure Grows (t t' : Tree) : Prop where
  root : t'.root = t.root
  seed : t'.seed = t.seed
  size : t.nodes.size ≤ t'.nodes.size
  old : ∀ {id n'}, id.index < t.nodes.size → t'.node? id = some n' →
    ∃ n, t.node? id = some n ∧ n.fixture = n'.fixture ∧
      (n'.children = n.children ∨
        n.kind.isRepeated = true ∧ ∀ c ∈ n'.children, t.nodes.size ≤ c.index)

namespace Grows

theorem refl (t : Tree) : t.Grows t where
  root := rfl
  seed := rfl
  size := Nat.le_refl _
  old := fun _ hn => ⟨_, hn, rfl, .inl rfl⟩

theorem trans {t₁ t₂ t₃ : Tree} (h : t₁.Grows t₂) (h' : t₂.Grows t₃) : t₁.Grows t₃ where
  root := h'.root.trans h.root
  seed := h'.seed.trans h.seed
  size := h.size.trans h'.size
  old := by
    intro id n₃ hlt hn₃
    obtain ⟨n₂, hn₂, hf', hc'⟩ := h'.old (hlt.trans_le h.size) hn₃
    obtain ⟨n₁, hn₁, hf, hc⟩ := h.old hlt hn₂
    refine ⟨n₁, hn₁, hf.trans hf', ?_⟩
    rcases hc' with hsame | ⟨hrep, hfresh⟩
    · rwa [hsame]
    · refine .inr ⟨(Node.isRepeated_of_fixture hf).trans hrep, fun c hc => ?_⟩
      exact h.size.trans (hfresh c hc)

/-- A place whose node is gone stays empty. -/
theorem dead {id : NodeId} (h : t.Grows t') (hlt : id.index < t.nodes.size)
    (hdead : t.node? id = none) : t'.node? id = none := by
  cases hn : t'.node? id with
  | none => rfl
  | some n' =>
    obtain ⟨n, hn, -, -⟩ := h.old hlt hn
    rw [hdead] at hn
    cases hn

theorem live {id : NodeId} (h : t.Grows t') (hlt : id.index < t.nodes.size)
    (hlive : t'.isLive id = true) : t.isLive id = true := by
  obtain ⟨n', hn'⟩ := isLive_iff_node?.mp hlive
  obtain ⟨n, hn, -, -⟩ := h.old hlt hn'
  exact isLive_iff_node?.mpr ⟨n, hn⟩

end Grows

-- ---------------------------------------------------------------------------
-- Changes that leave the shape alone
-- ---------------------------------------------------------------------------

/-- The trees differ in cells, caches and the states of groups at most. -/
structure Alike (t t' : Tree) : Prop where
  root : t'.root = t.root
  seed : t'.seed = t.seed
  size : t'.nodes.size = t.nodes.size
  nodes : ∀ id, (t'.node? id).map Node.skeleton = (t.node? id).map Node.skeleton

namespace Alike

variable {id : NodeId} {n n' : Node}

theorem refl (t : Tree) : t.Alike t := ⟨rfl, rfl, rfl, fun _ => rfl⟩

theorem symm (h : t.Alike t') : t'.Alike t where
  root := h.root.symm
  seed := h.seed.symm
  size := h.size.symm
  nodes := fun id => (h.nodes id).symm

theorem trans {t'' : Tree} (h : t.Alike t') (h' : t'.Alike t'') : t.Alike t'' where
  root := h'.root.trans h.root
  seed := h'.seed.trans h.seed
  size := h'.size.trans h.size
  nodes := fun id => (h'.nodes id).trans (h.nodes id)

theorem node? (h : t.Alike t') (hn : t.node? id = some n) :
    ∃ n', t'.node? id = some n' ∧ n.fixture = n'.fixture ∧ n'.children = n.children := by
  have hid := h.nodes id
  rw [hn] at hid
  cases hn' : t'.node? id with
  | none =>
    rw [hn'] at hid
    cases hid
  | some n' =>
    rw [hn'] at hid
    obtain ⟨hf, hc⟩ := Node.skeleton_eq_iff.mp (Option.some.inj hid)
    exact ⟨n', rfl, hf.symm, hc⟩

theorem live {x : NodeId} (h : t.Alike t') : t'.isLive x = t.isLive x := by
  have hkept : ∀ {t t' : Tree}, t.Alike t' → t.isLive x = true → t'.isLive x = true := by
    intro t t' h hx
    obtain ⟨n, hn⟩ := isLive_iff_node?.mp hx
    obtain ⟨n', hn', -⟩ := h.node? hn
    exact isLive_iff_node?.mpr ⟨n', hn'⟩
  exact Bool.eq_iff_iff.mpr ⟨hkept h.symm, hkept h⟩

theorem wellFormed (h : t.Alike t') (hwf : t.WellFormed) : t'.WellFormed where
  root := by
    obtain ⟨n, hn, hp⟩ := hwf.root
    obtain ⟨n', hn', hf, -⟩ := h.node? hn
    exact ⟨n', h.root ▸ hn', (Node.parent_of_fixture hf).symm.trans hp⟩
  parent := by
    intro id n' hn' hne
    obtain ⟨n, hn, hf, -⟩ := h.symm.node? hn'
    obtain ⟨p, m, hp, hm, hcount⟩ := hwf.parent hn (h.root ▸ hne)
    obtain ⟨m', hm', -, hc⟩ := h.node? hm
    exact ⟨p, m', (Node.parent_of_fixture hf).trans hp, hm', hc ▸ hcount⟩
  child := by
    intro id n' c hn' hmem
    obtain ⟨n, hn, -, hc⟩ := h.symm.node? hn'
    obtain ⟨hlt, m, hm, hp⟩ := hwf.child hn (hc ▸ hmem)
    obtain ⟨m', hm', hf, -⟩ := h.node? hm
    exact ⟨hlt, m', hm', (Node.parent_of_fixture hf).symm.trans hp⟩

theorem grows (h : t.Alike t') : t.Grows t' where
  root := h.root
  seed := h.seed
  size := h.size.ge
  old := by
    intro id n' _ hn'
    obtain ⟨n, hn, hf, hc⟩ := h.symm.node? hn'
    exact ⟨n, hn, hf.symm, .inl hc.symm⟩

/-- A change of one node that keeps its skeleton. -/
theorem of_modify {f : Node → Node} (hf : ∀ n, t.node? id = some n → (f n).skeleton = n.skeleton) :
    t.Alike (t.modify id f) where
  root := rfl
  seed := rfl
  size := size_modify f
  nodes := by
    intro x
    rw [node?_modify]
    split
    · rename_i hx
      subst hx
      cases hn : t.node? x with
      | none => rfl
      | some n => exact congrArg some (hf n hn)
    · rfl

theorem of_invalidate : t.Alike (t.invalidate id) where
  root := root_invalidate
  seed := seed_invalidate
  size := size_invalidate
  nodes := by
    intro x
    rw [node?_invalidate]
    split
    · cases t.node? x <;> rfl
    · rfl

theorem of_invalidateAll : t.Alike t.invalidateAll where
  root := rfl
  seed := rfl
  size := size_invalidateAll
  nodes := by
    intro x
    rw [node?_invalidateAll]
    cases t.node? x <;> rfl

theorem of_modifyGroup {f : Group → Group} (hf : ∀ g, (f g).still = g.still) :
    t.Alike (t.modifyGroup id f) := by
  refine of_modify fun n _ => ?_
  cases hk : n.kind with
  | leaf k => rfl
  | composite => rfl
  | repeated g =>
    have hstill : ({ n with kind := .repeated (f g) } : Node).kind.still = n.kind.still := by
      rw [hk]
      exact congrArg NodeKind.repeated (hf g)
    unfold Node.skeleton Node.fixture
    rw [hstill]

end Alike

-- ---------------------------------------------------------------------------
-- Evolution
-- ---------------------------------------------------------------------------

/-- Well-formedness is kept, nodes that live on keep what `Grows` says, and whatever followed a
template still does if its cells are allowed and it is still there. -/
structure Evolves (C : Cell → Prop) (t t' : Tree) : Prop where
  wellFormed : t.WellFormed → t'.WellFormed
  grows : t.WellFormed → t.Grows t'
  models : t.WellFormed → ∀ τ name id, τ.CellsIn C → t.Models C τ name id → t'.isLive id = true →
    t'.Models C τ name id

namespace Evolves

theorem refl (C : Cell → Prop) (t : Tree) : Evolves C t t :=
  ⟨fun h => h, fun _ => .refl t, fun _ _ _ _ _ h _ => h⟩

theorem trans {t₁ t₂ t₃ : Tree} (h : Evolves C t₁ t₂) (h' : Evolves C t₂ t₃) :
    Evolves C t₁ t₃ where
  wellFormed := fun hwf => h'.wellFormed (h.wellFormed hwf)
  grows := fun hwf => (h.grows hwf).trans (h'.grows (h.wellFormed hwf))
  models := by
    intro hwf τ name id hcells hmodels hlive
    have hwf₂ := h.wellFormed hwf
    obtain ⟨n, hn, -⟩ := hmodels.live
    have hlive₂ : t₂.isLive id = true :=
      (h'.grows hwf₂).live ((lt_size hn).trans_le (h.grows hwf).size) hlive
    exact h'.models hwf₂ τ name id hcells (h.models hwf τ name id hcells hmodels hlive₂) hlive

instance : IsPreorder Tree (Evolves C) where
  refl := refl C
  trans _ _ _ := trans

theorem of_alike (h : t.Alike t')
    (hcell : ∀ id n n', t.node? id = some n → t'.node? id = some n' → C n.cell → C n'.cell) :
    Evolves C t t' where
  wellFormed := h.wellFormed
  grows := fun _ => h.grows
  models := by
    intro _ τ name id hcells hmodels _
    refine hmodels.transfer (P := fun _ => True) (fun x _ n hn => ?_) τ name id hcells trivial
    obtain ⟨n', hn', hf, hc⟩ := h.node? hn
    exact ⟨n', hn', hf, hcell x n n' hn hn', .inl ⟨hc, fun _ _ => trivial⟩⟩

variable {id : NodeId}

theorem of_modify {f : Node → Node} (hf : ∀ n, t.node? id = some n → (f n).skeleton = n.skeleton)
    (hcell : ∀ n, C n.cell → C (f n).cell) : Evolves C t (t.modify id f) := by
  refine of_alike (.of_modify hf) fun x n n' hn hn' hc => ?_
  rw [node?_modify] at hn'
  split at hn'
  · rename_i hx
    rw [← hx, hn] at hn'
    cases hn'
    exact hcell n hc
  · rw [hn] at hn'
    cases hn'
    exact hc

theorem of_modifyGroup {f : Group → Group} (hf : ∀ g, (f g).still = g.still) :
    Evolves C t (t.modifyGroup id f) := by
  refine of_alike (.of_modifyGroup hf) fun x n n' hn hn' hc => ?_
  unfold modifyGroup at hn'
  rw [node?_modify] at hn'
  split at hn'
  · rename_i hx
    rw [← hx, hn] at hn'
    cases hn'
    dsimp only
    split <;> exact hc
  · rw [hn] at hn'
    cases hn'
    exact hc

theorem of_invalidate : Evolves C t (t.invalidate id) := by
  refine of_alike .of_invalidate fun x n n' hn hn' hc => ?_
  rw [node?_invalidate, hn] at hn'
  split at hn' <;> cases hn' <;> exact hc

theorem of_invalidateAll : Evolves C t t.invalidateAll := by
  refine of_alike .of_invalidateAll fun x n n' hn hn' hc => ?_
  rw [node?_invalidateAll, hn] at hn'
  cases hn'
  exact hc

theorem of_noteReader (source reader : NodeId) : Evolves C t (t.noteReader source reader) := by
  unfold noteReader
  split
  · exact refl C t
  · exact of_modify (fun _ _ => rfl) fun _ hc => hc

theorem of_putCell {cell : Cell} (hcell : C cell) : Evolves C t (t.putCell id cell) :=
  of_modify (fun _ _ => rfl) fun _ _ => hcell

end Evolves

/-- The whole tree follows its template after a change, too. -/
theorem Models.evolve {τ : Template} (h : t.Models C τ τ.name t.root) (hwf : t.WellFormed) (hcells : τ.CellsIn C)
    (hev : Evolves C t t') : t'.Models C τ τ.name t'.root := by
  obtain ⟨n, hn, -⟩ := (hev.wellFormed hwf).root
  have hroot := (hev.grows hwf).root
  rw [hroot] at hn ⊢
  exact hev.models hwf τ _ _ hcells h (isLive_iff_node?.mpr ⟨n, hn⟩)

end Tree

end FormatFuzz
