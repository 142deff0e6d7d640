-- SUMMARY: The nodes that come into being when a template is instantiated.
import Mathlib.Data.List.Nodup
import FormatFuzz.Proofs.WellFormed

/-!
# New nodes

Instantiating a template leaves all nodes as they are and adds new ones behind them, linked among
each other and to the parent that they were asked to have (`Tree.Sprouts`).
-/

namespace FormatFuzz

/-- A node that nothing has happened to since it was made. -/
structure Node.New (n : Node) : Prop where
  cache : n.cache = none
  dependents : n.dependents = []
  kind : n.kind.still = n.kind
  empty : n.kind.isRepeated = true → n.children = []

theorem Node.New.group {n : Node} {g : Group} (h : n.New) (hk : n.kind = .repeated g) :
    g.phase = .uninit ∧ g.watchers = [] := by
  have hkind := h.kind
  rw [hk] at hkind
  rw [← NodeKind.repeated.inj hkind]
  exact ⟨rfl, rfl⟩

namespace Tree

variable {C : Cell → Prop} {t t₁ t₂ : Tree} {parent : Option NodeId} {id : NodeId}

-- ---------------------------------------------------------------------------
-- Single nodes
-- ---------------------------------------------------------------------------

/-- The tree has one more node, at the place `id`. -/
structure Adds (t t' : Tree) (id : NodeId) (n : Node) : Prop where
  root : t'.root = t.root
  seed : t'.seed = t.seed
  place : id.index = t.nodes.size
  size : t'.nodes.size = t.nodes.size + 1
  node? : ∀ x, t'.node? x = if x.index = t.nodes.size then some n else t.node? x

theorem addNode_adds (hlit : ∀ v, C (.literal v)) (t : Tree) (h : Header) (name : Option String)
    (parent : Option NodeId) (kind : NodeKind) (hkind : kind.still = kind) :
    ∃ n, t.Adds (t.addNode h name parent kind).2 (t.addNode h name parent kind).1 n ∧ n.New ∧
      n.parent = parent ∧ n.kind = kind ∧ n.children = [] ∧
      (C h.cell → n.Bears C h (name.getD h.name)) := by
  unfold addNode initialCell
  cases h.counter with
  | none =>
    refine ⟨_, ⟨rfl, rfl, rfl, size_push, fun x => node?_push⟩, ⟨rfl, rfl, hkind, fun _ => rfl⟩, rfl, rfl, rfl, ?_⟩
    exact fun hcell => ⟨rfl, rfl, rfl, rfl, hcell⟩
  | some counter =>
    refine ⟨_, ⟨rfl, rfl, rfl, size_push, fun x => node?_push (t := { t with counters := _ })⟩,
      ⟨rfl, rfl, hkind, fun _ => rfl⟩, rfl, rfl, rfl, ?_⟩
    exact fun _ => ⟨rfl, rfl, rfl, rfl, hlit _⟩

section

variable {h : Header} {c : Counter} {name : Option String} {kind : NodeKind} {n : Node}
  (hn : (t.addNode h name parent kind).2.node? (t.addNode h name parent kind).1 = some n)

include hn

/-- Without a counter a new node has the cell of its template. -/
theorem addNode_plain (hcounter : h.counter = none) :
    n.cell = h.cell ∧ (t.addNode h name parent kind).2.counters = t.counters := by
  unfold addNode initialCell at hn ⊢
  rw [hcounter] at hn ⊢
  have hself := node?_push.trans (if_pos rfl) |>.symm.trans hn
  cases hself
  exact ⟨rfl, rfl⟩

/-- A new node has the next number of its counter, which is moved on. -/
theorem addNode_counted (hcounter : h.counter = some c) :
    n.cell = .literal (.int (c.take t.counters).1) ∧
      (t.addNode h name parent kind).2.counters = (c.take t.counters).2 := by
  unfold addNode initialCell at hn ⊢
  rw [hcounter] at hn ⊢
  have hself := (node?_push (t := { t with counters := (c.take t.counters).2 })).trans (if_pos rfl)
    |>.symm.trans hn
  cases hself
  exact ⟨rfl, rfl⟩

end

-- ---------------------------------------------------------------------------
-- Any number of nodes
-- ---------------------------------------------------------------------------

/-- A new node's links in a tree: `roots` are the new nodes that have no new parent. -/
structure Linked (t t' : Tree) (roots : List NodeId) (x : NodeId) (n : Node) : Prop where
  new : n.New
  parent : x ∈ roots ∨
    ∃ p m, n.parent = some p ∧ t.nodes.size ≤ p.index ∧ t'.node? p = some m ∧
      m.children.count x = 1
  child : ∀ c ∈ n.children, x.index < c.index ∧ ∃ m, t'.node? c = some m ∧ m.parent = some x

/-- All nodes stay as they are, and new ones are added behind them. -/
structure Sprouts (t t' : Tree) (parent : Option NodeId) (roots : List NodeId) : Prop where
  root : t'.root = t.root
  seed : t'.seed = t.seed
  size : t.nodes.size ≤ t'.nodes.size
  old : ∀ {x}, x.index < t.nodes.size → t'.node? x = t.node? x
  fresh : ∀ {x n}, t.nodes.size ≤ x.index → t'.node? x = some n → Linked t t' roots x n
  nodup : roots.Nodup
  roots : ∀ {r}, r ∈ roots → t.nodes.size ≤ r.index ∧ ∃ n, t'.node? r = some n ∧ n.parent = parent

namespace Sprouts

theorem nil (t : Tree) (parent : Option NodeId) : t.Sprouts t parent [] where
  root := rfl
  seed := rfl
  size := Nat.le_refl _
  old := fun _ => rfl
  fresh := fun hge hn => absurd (lt_size hn) (Nat.not_lt.mpr hge)
  nodup := List.nodup_nil
  roots := fun hr => absurd hr List.not_mem_nil

/-- Old nodes are found again. -/
theorem node? {roots : List NodeId} (h : t₁.Sprouts t₂ parent roots) {x : NodeId} {n : Node}
    (hn : t₁.node? x = some n) : t₂.node? x = some n := by
  rw [h.old (lt_size hn), hn]

theorem models {roots : List NodeId} (h : t₁.Sprouts t₂ parent roots) {τ : Template}
    {name : String} (hcells : τ.CellsIn C) (hm : t₁.Models C τ name id) :
    t₂.Models C τ name id := by
  refine hm.transfer (P := fun _ => True) (fun x _ n hn => ?_) τ name id hcells trivial
  exact ⟨n, h.node? hn, rfl, fun hc => hc, .inl ⟨rfl, fun _ _ => trivial⟩⟩

theorem append {r₁ r₂ : List NodeId} (h₁ : t.Sprouts t₁ parent r₁) (h₂ : t₁.Sprouts t₂ parent r₂) :
    t.Sprouts t₂ parent (r₁ ++ r₂) where
  root := h₂.root.trans h₁.root
  seed := h₂.seed.trans h₁.seed
  size := h₁.size.trans h₂.size
  old := fun hlt => (h₂.old (hlt.trans_le h₁.size)).trans (h₁.old hlt)
  fresh := by
    intro x n hge hn
    rcases Nat.lt_or_ge x.index t₁.nodes.size with hlt | hge₁
    · rw [h₂.old hlt] at hn
      obtain ⟨hnew, hparent, hchild⟩ := h₁.fresh hge hn
      refine ⟨hnew, ?_, fun c hc => ?_⟩
      · rcases hparent with hmem | ⟨p, m, hp, hpge, hm, hcount⟩
        · exact .inl (List.mem_append_left _ hmem)
        · exact .inr ⟨p, m, hp, hpge, h₂.node? hm, hcount⟩
      · obtain ⟨hlt', m, hm, hmp⟩ := hchild c hc
        exact ⟨hlt', m, h₂.node? hm, hmp⟩
    · obtain ⟨hnew, hparent, hchild⟩ := h₂.fresh hge₁ hn
      refine ⟨hnew, ?_, hchild⟩
      rcases hparent with hmem | ⟨p, m, hp, hpge, hm, hcount⟩
      · exact .inl (List.mem_append_right _ hmem)
      · exact .inr ⟨p, m, hp, h₁.size.trans hpge, hm, hcount⟩
  nodup := by
    refine List.nodup_append.mpr ⟨h₁.nodup, h₂.nodup, fun a ha b hb hab => ?_⟩
    obtain ⟨-, n, hn, -⟩ := h₁.roots ha
    have hlt := lt_size hn
    have hge := (h₂.roots hb).1
    rw [← hab] at hge
    omega
  roots := by
    intro r hr
    rcases List.mem_append.mp hr with hr | hr
    · obtain ⟨hge, n, hn, hp⟩ := h₁.roots hr
      exact ⟨hge, n, h₂.node? hn, hp⟩
    · obtain ⟨hge, hn⟩ := h₂.roots hr
      exact ⟨h₁.size.trans hge, hn⟩

/-- A node without children. -/
theorem of_adds {n : Node} (h : t.Adds t₁ id n) (hnew : n.New) (hp : n.parent = parent)
    (hc : n.children = []) : t.Sprouts t₁ parent [id] where
  root := h.root
  seed := h.seed
  size := by
    rw [h.size]
    exact Nat.le_succ _
  old := by
    intro x hlt
    rw [h.node?, if_neg hlt.ne]
  fresh := by
    intro x m hge hm
    rw [h.node?] at hm
    split at hm
    · rename_i hx
      cases hm
      have hid : x = id := congrArg NodeId.mk (hx.trans h.place.symm)
      refine ⟨hnew, .inl (by simp [hid]), fun c hmem => ?_⟩
      rw [hc] at hmem
      cases hmem
    · exact absurd (lt_size hm) (Nat.not_lt.mpr hge)
  nodup := List.nodup_singleton id
  roots := by
    intro r hr
    cases List.mem_singleton.mp hr
    exact ⟨h.place.ge, n, by rw [h.node?, if_pos h.place], hp⟩

/-- A node and its children, which are made after it and handed to it at the end. -/
theorem of_parent {n : Node} {ids : List NodeId} (h : t.Adds t₁ id n) (hnew : n.New)
    (hk : n.kind.isRepeated = false) (hp : n.parent = parent) (hs : t₁.Sprouts t₂ (some id) ids) :
    t.Sprouts (t₂.modify id ({ · with children := ids })) parent [id] := by
  have hlt : id.index < t₁.nodes.size := by
    rw [h.size, h.place]
    exact Nat.lt_succ_self _
  have hid : t₂.node? id = some n := hs.node? (by rw [h.node?, if_pos h.place])
  have hself : (t₂.modify id ({ · with children := ids })).node? id =
      some { n with children := ids } := by
    rw [node?_modify_self, hid]
    rfl
  have hbehind : ∀ {x}, t₁.nodes.size ≤ x.index → x ≠ id := by
    intro x hge hx
    rw [hx] at hge
    exact absurd hlt (Nat.not_lt.mpr hge)
  constructor
  case root => exact hs.root.trans h.root
  case seed => exact hs.seed.trans h.seed
  case size =>
    rw [size_modify]
    exact Nat.le_trans (by rw [h.size]; exact Nat.le_succ _) hs.size
  case old =>
    intro x hx
    have hne : x ≠ id := by
      intro he
      rw [he, h.place] at hx
      exact Nat.lt_irrefl _ hx
    rw [node?_modify_ne _ hne, hs.old (by rw [h.size]; exact Nat.lt_succ_of_lt hx), h.node?,
      if_neg hx.ne]
  case fresh =>
    intro x m hge hm
    by_cases hx : x = id
    · subst hx
      rw [hself] at hm
      cases hm
      have hempty : n.kind.isRepeated = true → ids = [] := fun hrep => by
        rw [hk] at hrep
        cases hrep
      refine ⟨⟨hnew.cache, hnew.dependents, hnew.kind, hempty⟩, .inl List.mem_cons_self,
        fun c hc => ?_⟩
      obtain ⟨hcge, m, hm, hmp⟩ := hs.roots hc
      exact ⟨hlt.trans_le hcge, m, by rw [node?_modify_ne _ (hbehind hcge), hm], hmp⟩
    · rw [node?_modify_ne _ hx] at hm
      have hge₁ : t₁.nodes.size ≤ x.index := by
        have hne : x.index ≠ t.nodes.size := fun he => hx (congrArg NodeId.mk (he.trans h.place.symm))
        rw [h.size]
        omega
      obtain ⟨hnew', hparent, hchild⟩ := hs.fresh hge₁ hm
      refine ⟨hnew', .inr ?_, fun c hc => ?_⟩
      · rcases hparent with hmem | ⟨p, m', hp', hpge, hm', hcount⟩
        · obtain ⟨-, m', hm', hp'⟩ := hs.roots hmem
          rw [hm] at hm'
          cases hm'
          refine ⟨id, _, hp', h.place.ge, hself, ?_⟩
          exact List.count_eq_one_of_mem hs.nodup hmem
        · refine ⟨p, m', hp', Nat.le_trans ?_ hpge, by rw [node?_modify_ne _ (hbehind hpge), hm'],
            hcount⟩
          rw [h.size]
          exact Nat.le_succ _
      · obtain ⟨hcx, m', hm', hp'⟩ := hchild c hc
        have hcge := hge₁.trans hcx.le
        exact ⟨hcx, m', by rw [node?_modify_ne _ (hbehind hcge), hm'], hp'⟩
  case nodup => exact List.nodup_singleton id
  case roots =>
    intro r hr
    cases List.mem_singleton.mp hr
    exact ⟨h.place.ge, _, hself, hp⟩

end Sprouts

-- ---------------------------------------------------------------------------
-- Templates
-- ---------------------------------------------------------------------------

/-- New nodes and what is below them are not touched by a change of a node in front of them. -/
private theorem carries_behind {ids : List NodeId} {f : Node → Node}
    (hs : t₁.Sprouts t₂ parent ids) (hlt : id.index < t₁.nodes.size) {x : NodeId}
    (hx : t₁.nodes.size ≤ x.index) :
    t₂.Carries C (t₂.modify id f) (fun x => t₁.nodes.size ≤ x.index) x := by
  intro n hn
  have hne : x ≠ id := by
    intro he
    rw [he] at hx
    exact absurd hlt (Nat.not_lt.mpr hx)
  refine ⟨n, by rw [node?_modify_ne _ hne, hn], rfl, fun hc => hc, .inl ⟨rfl, fun c hc => ?_⟩⟩
  exact hx.trans ((hs.fresh hx hn).child c hc).1.le

theorem Sprouts.models_behind {ids : List NodeId} {f : Node → Node} {τ : Template} {name : String}
    {x : NodeId} (hs : t₁.Sprouts t₂ parent ids) (hlt : id.index < t₁.nodes.size)
    (hcells : τ.CellsIn C) (hx : x ∈ ids) (h : t₂.Models C τ name x) :
    (t₂.modify id f).Models C τ name x :=
  h.transfer (fun _ hy => carries_behind hs hlt hy) τ name x hcells (hs.roots hx).1

theorem Sprouts.modelsAll_behind {ids : List NodeId} {f : Node → Node} {τs : List Template}
    (hs : t₁.Sprouts t₂ parent ids) (hlt : id.index < t₁.nodes.size)
    (hcells : Template.AllCellsIn C τs) (h : t₂.ModelsAll C τs ids) :
    (t₂.modify id f).ModelsAll C τs ids :=
  h.transfer (fun _ hy => carries_behind hs hlt hy) τs ids hcells fun _ hx => (hs.roots hx).1

theorem instantiate_composite (h : Header) (fields : List Template) (name : Option String) :
    instantiate (.composite h fields) name parent t =
      let added := t.addNode h name parent .composite
      let made := instantiateAll fields added.1 added.2
      (added.1, made.2.modify added.1 ({ · with children := made.1 })) := by
  rw [instantiate]

mutual

theorem instantiate_sprouts (hlit : ∀ v, C (.literal v)) :
    (τ : Template) → (name : Option String) → (parent : Option NodeId) → (t : Tree) →
      t.Sprouts (instantiate τ name parent t).2 parent [(instantiate τ name parent t).1] ∧
        (τ.CellsIn C → (instantiate τ name parent t).2.Models C τ (name.getD τ.name)
          (instantiate τ name parent t).1)
  | .leaf h kind, name, parent, t => by
    obtain ⟨n, hadds, hnew, hp, hk, hc, hb⟩ :=
      addNode_adds hlit t h name parent (.leaf kind) rfl
    refine ⟨.of_adds hadds hnew hp hc, fun hcells => ⟨n, ?_, hb hcells, hk, hc⟩⟩
    exact (hadds.node? _).trans (if_pos hadds.place)
  | .composite h fields, name, parent, t => by
    obtain ⟨n, hadds, hnew, hp, hk, hc, hb⟩ :=
      addNode_adds hlit t h name parent .composite rfl
    obtain ⟨hs, hm⟩ := instantiateAll_sprouts hlit fields (t.addNode h name parent .composite).1
      (t.addNode h name parent .composite).2
    rw [instantiate_composite]
    dsimp only
    generalize instantiateAll fields _ _ = made at hs hm ⊢
    obtain ⟨ids, t₂⟩ := made
    have hrep : n.kind.isRepeated = false := by rw [hk]; rfl
    refine ⟨.of_parent hadds hnew hrep hp hs, fun hcells => ⟨{ n with children := ids }, ?_, ?_, hk, ?_⟩⟩
    · have hid := hs.node? ((hadds.node? _).trans (if_pos hadds.place))
      exact (node?_modify_self _).trans (congrArg (Option.map _) hid)
    · obtain ⟨hname, hhidden, haction, hfuzz, hcell⟩ := hb hcells.1
      exact ⟨hname, hhidden, haction, hfuzz, hcell⟩
    · refine hs.modelsAll_behind ?_ hcells.2 (hm hcells.2)
      rw [hadds.size, hadds.place]
      exact Nat.lt_succ_self _
  | .repeated h element rule, name, parent, t => by
    obtain ⟨n, hadds, hnew, hp, hk, hc, hb⟩ :=
      addNode_adds hlit t h name parent (.repeated { element, rule }) rfl
    refine ⟨.of_adds hadds hnew hp hc,
      fun hcells => ⟨n, _, ?_, hb hcells.1, hk, rfl, rfl, fun i c hi => ?_⟩⟩
    · exact (hadds.node? _).trans (if_pos hadds.place)
    · rw [hc] at hi
      cases hi

theorem instantiateAll_sprouts (hlit : ∀ v, C (.literal v)) :
    (τs : List Template) → (parent : NodeId) → (t : Tree) →
      t.Sprouts (instantiateAll τs parent t).2 (some parent) (instantiateAll τs parent t).1 ∧
        (Template.AllCellsIn C τs →
          (instantiateAll τs parent t).2.ModelsAll C τs (instantiateAll τs parent t).1)
  | [], parent, t => ⟨.nil t _, fun _ => rfl⟩
  | τ :: rest, parent, t => by
    obtain ⟨hs, hm⟩ := instantiate_sprouts hlit τ none (some parent) t
    obtain ⟨hs', hm'⟩ := instantiateAll_sprouts hlit rest parent
      (instantiate τ none (some parent) t).2
    refine ⟨hs.append hs', fun hcells => ⟨_, _, rfl, ?_, hm' hcells.2⟩⟩
    exact hs'.models hcells.1 (hm hcells.1)

end

-- ---------------------------------------------------------------------------
-- Weights
-- ---------------------------------------------------------------------------

theorem total_addNode (f : Node → Nat) (t : Tree) (h : Header) (name : Option String)
    (parent : Option NodeId) {kind : NodeKind} {w : Nat} (hf : ∀ n : Node, n.kind = kind → f n = w) :
    (t.addNode h name parent kind).2.total f = t.total f + w := by
  unfold addNode initialCell
  cases h.counter with
  | none => exact (total_push f rfl).trans (congrArg _ (hf _ rfl))
  | some counter =>
    exact (total_push (t := { t with counters := _ }) f rfl).trans (congrArg _ (hf _ rfl))

theorem weight_setChildren (t : Tree) (id : NodeId) (ids : List NodeId) :
    (t.modify id ({ · with children := ids })).weight = t.weight := by
  refine total_congr Node.weight (size_modify _) fun x => ?_
  rw [node?_modify]
  split
  · rename_i hx
    subst hx
    rw [Option.map_map]
    rfl
  · rfl

mutual

/-- A new tree weighs as much as its template. -/
theorem weight_instantiate : (τ : Template) → (name : Option String) → (parent : Option NodeId) →
    (t : Tree) → (instantiate τ name parent t).2.weight = t.weight + τ.size
  | .leaf h kind, name, parent, t =>
    total_addNode _ t h name parent fun n hk => by rw [Node.weight, hk, Template.size]
  | .composite h fields, name, parent, t => by
    rw [instantiate_composite]
    dsimp only
    rw [weight_setChildren, weight_instantiateAll, Template.size, ← Nat.add_assoc]
    refine congrArg (· + _) (total_addNode _ t h name parent fun n hk => ?_)
    rw [Node.weight, hk]
  | .repeated h element rule, name, parent, t =>
    total_addNode _ t h name parent fun n hk => by rw [Node.weight, hk, Template.size]

theorem weight_instantiateAll : (τs : List Template) → (parent : NodeId) → (t : Tree) →
    (instantiateAll τs parent t).2.weight = t.weight + Template.sizes τs
  | [], parent, t => rfl
  | τ :: rest, parent, t => by
    have hrest := weight_instantiateAll rest parent (instantiate τ none (some parent) t).2
    rw [weight_instantiate, Nat.add_assoc] at hrest
    exact hrest

end

end Tree

end FormatFuzz
