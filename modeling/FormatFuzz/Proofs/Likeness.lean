-- SUMMARY: Trees that look the same: trees that differ in caches only, and trees that have grown elsewhere.
import FormatFuzz.Proofs.Meaning

/-!
# Likeness

Looking up from a node comes upon nodes that live on and do not change. So two trees of which one
has grown from the other look the same from all nodes that have kept their cells and children
(`Tree.Same.of_grows`). Resolution changes caches, readers and the stack only, and that is not
looked at at all (`Tree.Like`).
-/

namespace FormatFuzz.Tree

open Relation (ReflTransGen)

variable {C : Cell → Prop} {τ : Template} {t t' : Tree} {F : NodeId → Prop} {id x : NodeId}
  {n n' : Node}

-- ---------------------------------------------------------------------------
-- Looking up
-- ---------------------------------------------------------------------------

section

variable (h : t.Grows t') (hwf : t.WellFormed) (hwf' : t'.WellFormed)

include h

theorem Grows.fixture (hn : t.node? x = some n) (hn' : t'.node? x = some n') :
    n.fixture = n'.fixture := by
  obtain ⟨m, hm, hf, -⟩ := h.old (lt_size hn) hn'
  rw [hn] at hm
  cases hm
  exact hf

include hwf hwf'

theorem Grows.parent (hn : t.node? x = some n) (hn' : t'.node? x = some n') {p : NodeId}
    (hp : n.parent = some p) : ∃ m m', t.node? p = some m ∧ t'.node? p = some m' := by
  obtain ⟨-, m, hm, -⟩ := hwf.of_parent hn hp
  obtain ⟨-, m', hm', -⟩ :=
    hwf'.of_parent hn' ((Node.parent_of_fixture (h.fixture hn hn')).symm.trans hp)
  exact ⟨m, m', hm, hm'⟩

theorem Grows.namesAbove (fuel : Nat) {parent : Option NodeId}
    (hlive : ∀ p, parent = some p → ∃ m m', t.node? p = some m ∧ t'.node? p = some m') :
    t'.namesAbove fuel parent = t.namesAbove fuel parent := by
  induction fuel generalizing parent with
  | zero => cases parent <;> rfl
  | succ fuel ih =>
    cases parent with
    | none => rfl
    | some p =>
      obtain ⟨m, m', hm, hm'⟩ := hlive p rfl
      have hf := h.fixture hm hm'
      rw [Tree.namesAbove, Tree.namesAbove, node_eq_ok.mpr hm, node_eq_ok.mpr hm', ok_bind, ok_bind,
        Node.parent_of_fixture hf, Node.name_of_fixture hf, Node.isRepeated_of_fixture hf, ih]
      exact fun q hq => h.parent hwf hwf' hm hm' ((Node.parent_of_fixture hf).trans hq)

theorem Grows.fullName (hn : t.node? x = some n) (hn' : t'.node? x = some n') :
    t'.fullName x = t.fullName x := by
  have hf := h.fixture hn hn'
  rw [Tree.fullName, Tree.fullName, node_eq_ok.mpr hn, node_eq_ok.mpr hn', ok_bind, ok_bind,
    Node.parent_of_fixture hf, Node.name_of_fixture hf, h.namesAbove hwf hwf']
  exact fun p hp => h.parent hwf hwf' hn hn' ((Node.parent_of_fixture hf).trans hp)

theorem Grows.generator (hn : t.node? x = some n) (hn' : t'.node? x = some n') (p : Purpose) :
    t'.generator x p = t.generator x p := by
  rw [Tree.generator, Tree.generator, h.fullName hwf hwf' hn hn', h.seed]

theorem Grows.climbsTo (a : NodeId) (fuel : Nat) (hn : t.node? x = some n)
    (hn' : t'.node? x = some n') : t'.climbsTo a fuel x = t.climbsTo a fuel x := by
  induction fuel generalizing x n n' with
  | zero => rfl
  | succ fuel ih =>
    have hp := Node.parent_of_fixture (h.fixture hn hn')
    rw [Tree.climbsTo, Tree.climbsTo, hn, hn', Option.bind_some, Option.bind_some, ← hp]
    cases hparent : n.parent with
    | none => rfl
    | some p =>
      obtain ⟨m, m', hm, hm'⟩ := h.parent hwf hwf' hn hn' hparent
      dsimp only
      rw [ih hm hm']

/-- A node that is there before and after is below another one if it was before. -/
theorem Grows.path_iff (a : NodeId) (hn : t.node? x = some n) (hn' : t'.node? x = some n') :
    ReflTransGen t'.Lists a x ↔ ReflTransGen t.Lists a x := by
  rw [← contains_iff hwf' hn', ← contains_iff hwf hn]
  unfold contains
  rw [h.climbsTo hwf hwf' a x.index hn hn']

end

theorem isHidden_eq (h : t.Grows t') (hn : t.node? x = some n) (hn' : t'.node? x = some n') :
    t'.isHidden x = t.isHidden x := by
  unfold isHidden
  rw [look_of_node? hn, look_of_node? hn', Node.hidden_of_fixture (h.fixture hn hn')]

private theorem filterM_congr {α : Type} {p q : α → Except TreeError Bool} {xs : List α}
    (h : ∀ x ∈ xs, p x = q x) : xs.filterM p = xs.filterM q := by
  have haux : ∀ acc, xs.filterAuxM p acc = xs.filterAuxM q acc := by
    induction xs with
    | nil => exact fun _ => rfl
    | cons x rest ih =>
      intro acc
      rw [List.filterAuxM, List.filterAuxM, h x List.mem_cons_self]
      exact congrArg _ (funext fun b => ih (fun y hy => h y (List.mem_cons_of_mem _ hy)) _)
  unfold List.filterM
  rw [haux]

/-- Trees that have grown from each other look the same from nodes that have kept their cells and
their children. -/
theorem Same.of_grows (h : t.Grows t') (hwf : t.WellFormed) (hwf' : t'.WellFormed)
    (hF : ∀ x, F x → ∃ n n', t.node? x = some n ∧ t'.node? x = some n' ∧ n'.cell = n.cell ∧
      n'.children = n.children) : Same F t t' := by
  have hchild : ∀ {x n c}, F x → t.node? x = some n → c ∈ n.children →
      ∃ m m', t.node? c = some m ∧ t'.node? c = some m' := by
    intro x n c hx hn hc
    obtain ⟨m, m', hm, hm', -, hch⟩ := hF x hx
    rw [hn] at hm
    cases hm
    obtain ⟨-, l, hl, -⟩ := hwf.child hn hc
    obtain ⟨-, l', hl', -⟩ := hwf'.child hm' (hch ▸ hc)
    exact ⟨l, l', hl, hl'⟩
  constructor
  case root => exact h.root
  case node =>
    intro x n hx hn
    obtain ⟨m, m', hm, hm', hcell, hch⟩ := hF x hx
    rw [hn] at hm
    cases hm
    exact ⟨m', hm', h.fixture hn hm', hcell, hch⟩
  case placed =>
    intro p x hx hp
    obtain ⟨-, m', -, hm', -, -⟩ := hF x hx
    exact h.placed hwf hwf' hp (isLive_iff_node?.mpr ⟨m', hm'⟩)
  case child =>
    intro p x n c hx hn hc
    obtain ⟨m, m', hm, hm'⟩ := hchild hx hn hc
    refine ⟨isHidden_eq h hm hm', fun hp => ?_⟩
    exact h.placed hwf hwf' hp (isLive_iff_node?.mpr ⟨m', hm'⟩)
  case generator =>
    intro x p hx
    obtain ⟨m, m', hm, hm', -, -⟩ := hF x hx
    exact h.generator hwf hwf' hm hm' p
  case shown =>
    intro x hx
    obtain ⟨m, m', hm, hm', -, hch⟩ := hF x hx
    unfold shownChildren Tree.children
    rw [look_of_node? hm, look_of_node? hm', ok_bind, ok_bind, hch]
    refine filterM_congr fun c hc => ?_
    obtain ⟨l, l', hl, hl'⟩ := hchild hx hm hc
    rw [isHidden_eq h hl hl']
  case contains =>
    intro a x hx
    obtain ⟨m, m', hm, hm', -, -⟩ := hF x hx
    exact h.climbsTo hwf hwf' a x.index hm hm'

-- ---------------------------------------------------------------------------
-- Trees that differ in caches only
-- ---------------------------------------------------------------------------

/-- Every node was there before, and groups have not changed their state. -/
def SameKinds (t t' : Tree) : Prop :=
  ∀ ⦃id n'⦄, t'.node? id = some n' → ∃ n, t.node? id = some n ∧ n.kind = n'.kind

theorem Settled.of_sameKinds (hs : t.Settled) (h : t.SameKinds t') : t'.Settled := by
  intro id n' g hn' hk
  obtain ⟨n, hn, hkind⟩ := h hn'
  exact hs hn (hkind.trans hk)

/-- The trees differ in caches, readers, the stack and counters at most. -/
structure Like (t t' : Tree) : Prop where
  root : t'.root = t.root
  seed : t'.seed = t.seed
  size : t'.nodes.size = t.nodes.size
  nodes : ∀ id, (t'.node? id).map Node.bare = (t.node? id).map Node.bare

namespace Like

theorem refl (t : Tree) : t.Like t := ⟨rfl, rfl, rfl, fun _ => rfl⟩

theorem symm (h : t.Like t') : t'.Like t where
  root := h.root.symm
  seed := h.seed.symm
  size := h.size.symm
  nodes := fun id => (h.nodes id).symm

theorem trans {t₁ t₂ t₃ : Tree} (h : t₁.Like t₂) (h' : t₂.Like t₃) : t₁.Like t₃ where
  root := h'.root.trans h.root
  seed := h'.seed.trans h.seed
  size := h'.size.trans h.size
  nodes := fun id => (h'.nodes id).trans (h.nodes id)

theorem node? (h : t.Like t') (hn : t.node? id = some n) :
    ∃ n', t'.node? id = some n' ∧ n'.bare = n.bare := by
  have hid := h.nodes id
  rw [hn] at hid
  exact Option.map_eq_some_iff.mp hid

theorem alike (h : t.Like t') : t.Alike t' where
  root := h.root
  seed := h.seed
  size := h.size
  nodes := by
    intro id
    have hid := congrArg (Option.map Node.skeleton) (h.nodes id)
    rwa [Option.map_map, Option.map_map] at hid

theorem of_modify {f : Node → Node} (hf : ∀ n, (f n).bare = n.bare) : t.Like (t.modify id f) where
  root := rfl
  seed := rfl
  size := size_modify f
  nodes := by
    intro x
    rw [node?_modify]
    split
    · rename_i hx
      subst hx
      rw [Option.map_map]
      exact congrArg (Option.map · _) (funext hf)
    · rfl

theorem of_noteReader (source reader : NodeId) : t.Like (t.noteReader source reader) := by
  unfold noteReader
  split
  · exact refl t
  · exact of_modify fun _ => rfl

theorem of_invalidate : t.Like (t.invalidate id) where
  root := root_invalidate
  seed := seed_invalidate
  size := size_invalidate
  nodes := by
    intro x
    rw [node?_invalidate]
    split
    · rw [Option.map_map]
      rfl
    · rfl

theorem of_invalidateAll : t.Like t.invalidateAll where
  root := rfl
  seed := rfl
  size := size_invalidateAll
  nodes := by
    intro x
    rw [node?_invalidateAll, Option.map_map]
    rfl

theorem evolves (h : t.Like t') : Evolves C t t' := by
  refine .of_alike h.alike fun id n n' hn hn' hc => ?_
  obtain ⟨m, hm, hbare⟩ := h.node? hn
  rw [hn'] at hm
  cases hm
  have hcell := Node.cell_of_bare hbare
  exact hcell.symm ▸ hc

theorem same (h : t.Like t') (hwf : t.WellFormed) : Same (fun x => t.isLive x = true) t t' := by
  refine .of_grows h.alike.grows hwf (h.alike.wellFormed hwf) fun x hx => ?_
  obtain ⟨n, hn⟩ := isLive_iff_node?.mp hx
  obtain ⟨n', hn', hbare⟩ := h.node? hn
  have hcell := Node.cell_of_bare hbare
  have hch := Node.children_of_bare hbare
  exact ⟨n, n', hn, hn', hcell, hch⟩

theorem sameKinds (h : t.Like t') : t.SameKinds t' := by
  intro id n' hn'
  obtain ⟨n, hn, hbare⟩ := h.symm.node? hn'
  have hkind := Node.kind_of_bare hbare
  exact ⟨n, hn, hkind⟩

end Like

/-- The tree follows its template, and all its groups have their elements. -/
structure Steady (C : Cell → Prop) (τ : Template) (t : Tree) : Prop where
  wellFormed : t.WellFormed
  models : t.Models C τ τ.name t.root
  settled : t.Settled

theorem Steady.like (h : t.Steady C τ) (hcells : τ.CellsIn C) (hlike : t.Like t') :
    t'.Steady C τ where
  wellFormed := hlike.alike.wellFormed h.wellFormed
  models := by
    obtain ⟨n, hn, -⟩ := h.models.live
    obtain ⟨n', hn', -⟩ := hlike.node? hn
    rw [hlike.root]
    exact hlike.evolves.models h.wellFormed τ _ _ hcells h.models (isLive_iff_node?.mpr ⟨n', hn'⟩)
  settled := h.settled.of_sameKinds hlike.sameKinds

end FormatFuzz.Tree
