-- SUMMARY: What happens to a tree when the elements of a group are replaced.
import Mathlib.Logic.Relation
import FormatFuzz.Proofs.Sprouts

/-!
# Replacing elements

The old elements of a group are discarded with everything below them (`Tree.Sheds`), and new ones
are made (`Tree.Sprouts`). `Tree.Swapped` puts the two together, and `swapElements_evolves` says
that the tree is well formed again when the group has its new elements. In between it is not.
-/

namespace FormatFuzz

open Relation (ReflTransGen)

namespace Tree

variable {C : Cell → Prop} {t t₁ t₂ : Tree} {id x : NodeId} {n : Node}

-- ---------------------------------------------------------------------------
-- Below
-- ---------------------------------------------------------------------------

/-- A node and one of its children. -/
def Lists (t : Tree) (parent child : NodeId) : Prop :=
  ∃ n, t.node? parent = some n ∧ child ∈ n.children

/-- One of the roots, or below one. -/
def Below (t : Tree) (roots : List NodeId) (x : NodeId) : Prop :=
  ∃ r ∈ roots, ReflTransGen t.Lists r x

namespace Below

variable {roots : List NodeId}

theorem tail {c : NodeId} (h : t.Below roots x) (hc : t.Lists x c) : t.Below roots c := by
  obtain ⟨r, hr, hpath⟩ := h
  exact ⟨r, hr, hpath.tail hc⟩

theorem cases (h : t.Below roots x) : x ∈ roots ∨ ∃ p, t.Below roots p ∧ t.Lists p x := by
  obtain ⟨r, hr, hpath⟩ := h
  rcases hpath.cases_tail with heq | ⟨p, hp, hpx⟩
  · exact .inl (heq ▸ hr)
  · exact .inr ⟨p, ⟨r, hr, hp⟩, hpx⟩

theorem mono {roots' : List NodeId} (h : t.Below roots x) (hsub : ∀ r ∈ roots, t.Below roots' r) :
    t.Below roots' x := by
  obtain ⟨r, hr, hpath⟩ := h
  obtain ⟨r', hr', hpath'⟩ := hsub r hr
  exact ⟨r', hr', hpath'.trans hpath⟩

/-- Below means behind. -/
theorem le (hwf : t.WellFormed) (h : ReflTransGen t.Lists id x) : id.index ≤ x.index := by
  induction h with
  | refl => exact Nat.le_refl _
  | tail _ hstep ih =>
    obtain ⟨n, hn, hc⟩ := hstep
    exact ih.trans (hwf.child hn hc).1.le

end Below

-- ---------------------------------------------------------------------------
-- Discarding
-- ---------------------------------------------------------------------------

/-- Some nodes are gone, and the others differ in caches at most. -/
structure Sheds (D : NodeId → Prop) (t t' : Tree) : Prop where
  root : t'.root = t.root
  seed : t'.seed = t.seed
  size : t'.nodes.size = t.nodes.size
  gone : ∀ {x}, D x → t'.node? x = none
  kept : ∀ {x}, ¬ D x → (t'.node? x).map Node.bare = (t.node? x).map Node.bare

namespace Sheds

variable {D D' : NodeId → Prop}

theorem refl (t : Tree) (hD : ∀ x, D x → t.node? x = none) : Sheds D t t where
  root := rfl
  seed := rfl
  size := rfl
  gone := fun {x} h => hD x h
  kept := fun _ => rfl

theorem trans (h : Sheds D t t₁) (h' : Sheds D' t₁ t₂) :
    Sheds (fun x => D x ∨ D' x) t t₂ where
  root := h'.root.trans h.root
  seed := h'.seed.trans h.seed
  size := h'.size.trans h.size
  gone := by
    intro x hx
    by_cases hD' : D' x
    · exact h'.gone hD'
    · have hkept := h'.kept hD'
      rw [h.gone (hx.resolve_right hD')] at hkept
      exact Option.map_eq_none_iff.mp hkept
  kept := fun hx => (h'.kept fun hD' => hx (.inr hD')).trans (h.kept fun hD => hx (.inl hD))

theorem dead (h : Sheds D t t₁) (hx : t.node? x = none) : t₁.node? x = none := by
  by_cases hD : D x
  · exact h.gone hD
  · have hkept := h.kept hD
    rw [hx] at hkept
    exact Option.map_eq_none_iff.mp hkept

/-- Nodes that had been gone before may be counted in. -/
theorem congr (h : Sheds D t t₁) (hD : ∀ x, D x → D' x)
    (hD' : ∀ x, D' x → D x ∨ t.node? x = none) : Sheds D' t t₁ where
  root := h.root
  seed := h.seed
  size := h.size
  gone := fun hx => (hD' _ hx).elim h.gone h.dead
  kept := fun hx => h.kept fun hx' => hx (hD _ hx')

/-- A node that is there afterwards was there before. -/
theorem node? {n' : Node} (h : Sheds D t t₁) (hn : t₁.node? x = some n') :
    ¬ D x ∧ ∃ n, t.node? x = some n ∧ n.bare = n'.bare := by
  have hD : ¬ D x := by
    intro hx
    rw [h.gone hx] at hn
    cases hn
  have hkept := h.kept hD
  rw [hn] at hkept
  obtain ⟨n, hn', hbare⟩ := Option.map_eq_some_iff.mp hkept.symm
  exact ⟨hD, n, hn', hbare⟩

theorem node?_of_not (h : Sheds D t t₁) (hx : ¬ D x) (hn : t.node? x = some n) :
    ∃ n', t₁.node? x = some n' ∧ n'.bare = n.bare := by
  have hkept := h.kept hx
  rw [hn] at hkept
  exact Option.map_eq_some_iff.mp hkept

theorem of_invalidate : Sheds (fun _ => False) t (t.invalidate id) where
  root := root_invalidate
  seed := seed_invalidate
  size := size_invalidate
  gone := False.elim
  kept := by
    intro x _
    rw [node?_invalidate]
    split
    · cases t.node? x <;> rfl
    · rfl

theorem of_remove : Sheds (· = id) t (t.remove id) where
  root := rfl
  seed := rfl
  size := size_remove
  gone := by
    intro x hx
    rw [node?_remove, if_pos hx]
  kept := by
    intro x hx
    rw [node?_remove, if_neg hx]

theorem lists (h : Sheds D t t₁) {p c : NodeId} : t₁.Lists p c ↔ ¬ D p ∧ t.Lists p c := by
  constructor
  · rintro ⟨n', hn', hc⟩
    obtain ⟨hD, n, hn, hbare⟩ := h.node? hn'
    have hch := Node.children_of_bare hbare
    exact ⟨hD, n, hn, hch ▸ hc⟩
  · rintro ⟨hD, n, hn, hc⟩
    obtain ⟨n', hn', hbare⟩ := h.node?_of_not hD hn
    have hch := Node.children_of_bare hbare
    exact ⟨n', hn', hch ▸ hc⟩

/-- What is below a node is found from there, or it is below one that is gone. -/
theorem below_or (h : Sheds D t t₁) {roots : List NodeId} (hb : t.Below roots x) :
    t₁.Below roots x ∨ ∃ d, D d ∧ ReflTransGen t.Lists d x := by
  obtain ⟨r, hr, hpath⟩ := hb
  suffices hsuff : ReflTransGen t₁.Lists r x ∨ ∃ d, D d ∧ ReflTransGen t.Lists d x from
    hsuff.imp_left fun hpath' => ⟨r, hr, hpath'⟩
  clear hr
  induction hpath with
  | refl => exact .inl .refl
  | @tail y z hry hyz ih =>
    rcases ih with hpath' | ⟨d, hd, hdy⟩
    · by_cases hD : D y
      · exact .inr ⟨y, hD, .single hyz⟩
      · exact .inl (hpath'.tail (h.lists.mpr ⟨hD, hyz⟩))
    · exact .inr ⟨d, hd, hdy.tail hyz⟩

theorem below_of (h : Sheds D t t₁) {roots : List NodeId} (hb : t₁.Below roots x) :
    t.Below roots x := by
  obtain ⟨r, hr, hpath⟩ := hb
  exact ⟨r, hr, ReflTransGen.mono (fun _ _ hstep => (h.lists.mp hstep).2) _ _ hpath⟩

/-- Discarding below more roots, one after the other. -/
theorem append {r₁ r₂ : List NodeId} (h : Sheds (t.Below r₁) t t₁)
    (h' : Sheds (t₁.Below r₂) t₁ t₂) : Sheds (t.Below (r₁ ++ r₂)) t t₂ := by
  refine (h.trans h').congr (fun x => ?_) fun x => ?_
  · rintro (hx | hx)
    · exact hx.mono fun r hr => ⟨r, List.mem_append_left _ hr, .refl⟩
    · exact (h.below_of hx).mono fun r hr => ⟨r, List.mem_append_right _ hr, .refl⟩
  · rintro ⟨r, hr, hpath⟩
    rcases List.mem_append.mp hr with hr | hr
    · exact .inl (.inl ⟨r, hr, hpath⟩)
    · rcases h.below_or ⟨r, hr, hpath⟩ with hx | ⟨d, ⟨r', hr', hd⟩, hdx⟩
      · exact .inl (.inr hx)
      · exact .inl (.inl ⟨r', hr', hd.trans hdx⟩)

end Sheds

/-- A walk that comes through a removed node can start at the last of its children on it. -/
private theorem walk_cases {a : NodeId} (hs : Sheds (· = id) t t₁) (hn : t.node? id = some n)
    (hpath : ReflTransGen t.Lists a x) :
    x = id ∨ ReflTransGen t₁.Lists a x ∨ t₁.Below n.children x := by
  induction hpath using ReflTransGen.head_induction_on with
  | refl => exact .inr (.inl .refl)
  | @head a b hab _ ih =>
    rcases ih with hx | hbx | hx
    · exact .inl hx
    · by_cases ha : a = id
      · subst ha
        obtain ⟨m, hm, hb⟩ := hab
        rw [hn] at hm
        cases hm
        exact .inr (.inr ⟨b, hb, hbx⟩)
      · exact .inr (.inl (.head (hs.lists.mpr ⟨ha, hab⟩) hbx))
    · exact .inr (.inr hx)

private theorem below_cons {pending : List NodeId} (hs : Sheds (· = id) t t₁)
    (hn : t.node? id = some n) :
    t.Below (id :: pending) x ↔ x = id ∨ t₁.Below (n.children.reverse ++ pending) x := by
  have hchildren : ∀ r ∈ n.children, r ∈ n.children.reverse ++ pending := fun r hr =>
    List.mem_append_left _ (List.mem_reverse.mpr hr)
  constructor
  · rintro ⟨r, hr, hpath⟩
    rcases walk_cases hs hn hpath with hx | hpath' | ⟨c, hc, hcx⟩
    · exact .inl hx
    · rcases List.mem_cons.mp hr with hrid | hr
      · rcases hpath'.cases_head with hx | ⟨c, hc, -⟩
        · exact .inl (hx.symm.trans hrid)
        · exact absurd hrid (hs.lists.mp hc).1
      · exact .inr ⟨r, List.mem_append_right _ hr, hpath'⟩
    · exact .inr ⟨c, hchildren c hc, hcx⟩
  · rintro (hx | hx)
    · exact ⟨id, List.mem_cons_self, hx ▸ .refl⟩
    · refine (hs.below_of hx).mono fun r hr => ?_
      rcases List.mem_append.mp hr with hr | hr
      · exact ⟨id, List.mem_cons_self, .single ⟨n, hn, List.mem_reverse.mp hr⟩⟩
      · exact ⟨r, List.mem_cons_of_mem _ hr, .refl⟩

theorem total_children_invalidate (t : Tree) (id : NodeId) :
    (t.invalidate id).total (·.children.length) = t.total (·.children.length) := by
  refine total_congr _ size_invalidate fun x => ?_
  rw [node?_invalidate]
  split
  · cases t.node? x <;> rfl
  · rfl

theorem discardFrom_sheds (fuel : Nat) (pending : List NodeId) (t : Tree)
    (hfuel : pending.length + t.total (·.children.length) ≤ fuel) :
    Sheds (t.Below pending) t (discardFrom fuel pending t) := by
  induction fuel generalizing pending t with
  | zero =>
    cases pending with
    | nil => exact .refl t fun x ⟨r, hr, _⟩ => absurd hr List.not_mem_nil
    | cons id rest => simp at hfuel
  | succ fuel ih =>
    cases pending with
    | nil => exact .refl t fun x ⟨r, hr, _⟩ => absurd hr List.not_mem_nil
    | cons id rest =>
      rw [List.length_cons, ← total_children_invalidate t id] at hfuel
      have hclear : Sheds (fun _ => False) t (t.invalidate id) := .of_invalidate
      rw [discardFrom]
      cases hn : (t.invalidate id).node? id with
      | none =>
        have hdead : t.node? id = none := by
          have hkept := hclear.kept (x := id) fun h => h
          rw [hn] at hkept
          exact Option.map_eq_none_iff.mp hkept.symm
        refine (hclear.trans (ih rest (t.invalidate id) (by omega))).congr (fun x => ?_) fun x => ?_
        · rintro (hx | hx)
          · exact hx.elim
          · exact (hclear.below_of hx).mono fun r hr => ⟨r, List.mem_cons_of_mem _ hr, .refl⟩
        · rintro ⟨r, hr, hpath⟩
          rcases List.mem_cons.mp hr with hid | hr
          · rcases hpath.cases_head with hx | ⟨c, ⟨m, hm, -⟩, -⟩
            · exact .inr (by rw [← hx, hid, hdead])
            · rw [hid, hdead] at hm
              cases hm
          · rcases hclear.below_or ⟨r, hr, hpath⟩ with hx | ⟨d, hd, -⟩
            · exact .inl (.inr hx)
            · exact hd.elim
      | some n =>
        obtain ⟨-, n₀, hn₀, hbare⟩ := hclear.node? hn
        have hch : n₀.children = n.children := Node.children_of_bare hbare
        have hstep : Sheds (· = id) t ((t.invalidate id).remove id) :=
          (hclear.trans .of_remove).congr (fun x hx => hx.resolve_left fun h => h) fun x hx =>
            .inl (.inr hx)
        have htotal := total_remove (·.children.length) hn
        have hrest := ih (n.children.reverse ++ rest) ((t.invalidate id).remove id) (by
          rw [List.length_append, List.length_reverse]
          omega)
        rw [← hch] at hrest
        change Sheds _ t (discardFrom fuel (n.children.reverse ++ rest) _)
        rw [← hch]
        exact (hstep.trans hrest).congr (fun x hx => (below_cons hstep hn₀).mpr hx)
          fun x hx => .inl ((below_cons hstep hn₀).mp hx)

theorem discard_sheds (t : Tree) (id : NodeId) : Sheds (t.Below [id]) t (t.discard id) := by
  refine discardFrom_sheds t.discardLimit [id] t ?_
  rw [List.length_singleton, Nat.add_comm]
  exact Nat.le_refl _

-- ---------------------------------------------------------------------------
-- Replacing
-- ---------------------------------------------------------------------------

/-- Below a node, the node itself left out. -/
def Under (t : Tree) (id x : NodeId) : Prop :=
  ∃ n, t.node? id = some n ∧ t.Below n.children x

namespace Under

theorem tail {c : NodeId} (h : t.Under id x) (hc : t.Lists x c) : t.Under id c := by
  obtain ⟨n, hn, hb⟩ := h
  exact ⟨n, hn, hb.tail hc⟩

/-- Whatever is under a node has its parent there, or is one of the node's children. -/
theorem parent (hwf : t.WellFormed) (h : t.Under id x) :
    ∃ m p, t.node? x = some m ∧ m.parent = some p ∧ (p = id ∨ t.Under id p) := by
  obtain ⟨n, hn, hb⟩ := h
  rcases hb.cases with hx | ⟨p, hp, n', hn', hx⟩
  · obtain ⟨-, m, hm, hmp⟩ := hwf.child hn hx
    exact ⟨m, id, hm, hmp, .inl rfl⟩
  · obtain ⟨-, m, hm, hmp⟩ := hwf.child hn' hx
    exact ⟨m, p, hm, hmp, .inr ⟨n, hn, hp⟩⟩

theorem lt (hwf : t.WellFormed) (h : t.Under id x) : id.index < x.index := by
  obtain ⟨n, hn, r, hr, hpath⟩ := h
  exact (hwf.child hn hr).1.trans_le (Below.le hwf hpath)

theorem not_self (hwf : t.WellFormed) : ¬ t.Under id id := fun h => Nat.lt_irrefl _ (h.lt hwf)

theorem live (hwf : t.WellFormed) (h : t.Under id x) : ∃ m, t.node? x = some m := by
  obtain ⟨m, -, hm, -, -⟩ := h.parent hwf
  exact ⟨m, hm⟩

end Under

/-- The group `id` has new elements in the place of its old ones, and everything else is as it
was, except for caches. -/
structure Swapped (C : Cell → Prop) (id : NodeId) (element : Template) (elements : List NodeId)
    (t t' : Tree) : Prop where
  root : t'.root = t.root
  seed : t'.seed = t.seed
  size : t.nodes.size ≤ t'.nodes.size
  self : ∃ n n', t.node? id = some n ∧ t'.node? id = some n' ∧
    n'.bare = { n.bare with children := elements }
  gone : ∀ {x}, t.Under id x → t'.node? x = none
  kept : ∀ {x}, x.index < t.nodes.size → x ≠ id → ¬ t.Under id x →
    (t'.node? x).map Node.bare = (t.node? x).map Node.bare
  fresh : ∀ {x n}, t.nodes.size ≤ x.index → t'.node? x = some n → Linked t t' elements x n
  nodup : elements.Nodup
  roots : ∀ {r}, r ∈ elements →
    t.nodes.size ≤ r.index ∧ ∃ n, t'.node? r = some n ∧ n.parent = some id
  models : element.CellsIn C → ∀ {n}, t.node? id = some n →
    ∀ (i : Nat) (c : NodeId), elements[i]? = some c → t'.Models C element s!"{n.name}[{i}]" c

/-- An emptied group no longer leads to its old elements, but nothing below them leads back to it
either. -/
private theorem below_emptied (hwf : t.WellFormed) (hn : t.node? id = some n) :
    (t.modify id ({ · with children := [] })).Below n.children x ↔ t.Under id x := by
  have hself : (t.modify id ({ · with children := [] })).node? id =
      some { n with children := [] } := by
    rw [node?_modify_self, hn]
    rfl
  constructor
  · rintro ⟨r, hr, hpath⟩
    refine ⟨n, hn, r, hr, ReflTransGen.mono (fun a b => ?_) _ _ hpath⟩
    rintro ⟨m, hm, hb⟩
    by_cases ha : a = id
    · rw [ha, hself] at hm
      cases hm
      cases hb
    · exact ⟨m, by rwa [node?_modify_ne _ ha] at hm, hb⟩
  · rintro ⟨m, hm, r, hr, hpath⟩
    rw [hn] at hm
    cases hm
    refine ⟨r, hr, ?_⟩
    induction hpath with
    | refl => exact .refl
    | @tail y z hry hyz ih =>
      obtain ⟨m, hm, hz⟩ := hyz
      have hlt := (hwf.child hn hr).1.trans_le (Below.le hwf hry)
      have hy : y ≠ id := fun he => Nat.lt_irrefl _ (he ▸ hlt)
      exact ih.tail ⟨m, by rwa [node?_modify_ne _ hy], hz⟩

namespace Swapped

variable {element : Template} {elements : List NodeId} {t' : Tree}

/-- The steps of a replacement. -/
theorem of_steps {t₃ : Tree} (hwf : t.WellFormed) (hn : t.node? id = some n)
    (hsheds : Sheds ((t.modify id ({ · with children := [] })).Below n.children)
      (t.modify id ({ · with children := [] })) t₂)
    (hs : t₂.Sprouts t₃ (some id) elements)
    (hm : element.CellsIn C → ∀ (i : Nat) (c : NodeId), elements[i]? = some c →
      t₃.Models C element s!"{n.name}[{i}]" c) :
    Swapped C id element elements t (t₃.modify id ({ · with children := elements })) := by
  have hsize : t₂.nodes.size = t.nodes.size := hsheds.size.trans (size_modify _)
  have hlt : id.index < t₂.nodes.size := by
    rw [hsize]
    exact lt_size hn
  have hbehind : ∀ {y}, t₂.nodes.size ≤ y.index → y ≠ id := by
    intro y hge hy
    rw [hy] at hge
    exact absurd hlt (Nat.not_lt.mpr hge)
  have hid : ∃ n₂, t₂.node? id = some n₂ ∧ n₂.bare = { n.bare with children := [] } := by
    refine hsheds.node?_of_not (n := { n with children := [] }) ?_ ?_
    · exact fun hb => Under.not_self hwf ((below_emptied hwf hn).mp hb)
    · rw [node?_modify_self, hn]
      rfl
  obtain ⟨n₂, hn₂, hbare⟩ := hid
  constructor
  case root => exact hs.root.trans hsheds.root
  case seed => exact hs.seed.trans hsheds.seed
  case size =>
    rw [size_modify, ← hsize]
    exact hs.size
  case self =>
    refine ⟨n, { n₂ with children := elements }, hn, ?_, ?_⟩
    · rw [node?_modify_self, hs.node? hn₂]
      rfl
    · have h := congrArg (fun m : Node => { m with children := elements }) hbare
      exact h
  case gone =>
    intro y hy
    have hne : y ≠ id := fun he => Under.not_self hwf (he ▸ hy)
    obtain ⟨m, hm⟩ := hy.live hwf
    rw [node?_modify_ne _ hne, hs.old (by rw [hsize]; exact lt_size hm)]
    exact hsheds.gone ((below_emptied hwf hn).mpr hy)
  case kept =>
    intro y hy hne hnot
    rw [node?_modify_ne _ hne, hs.old (by rw [hsize]; exact hy),
      hsheds.kept fun hb => hnot ((below_emptied hwf hn).mp hb), node?_modify_ne _ hne]
  case fresh =>
    intro y m hge hm
    rw [← hsize] at hge
    rw [node?_modify_ne _ (hbehind hge)] at hm
    obtain ⟨hnew, hparent, hchild⟩ := hs.fresh hge hm
    refine ⟨hnew, ?_, fun c hc => ?_⟩
    · rcases hparent with hy | ⟨p, l, hp, hpge, hl, hcount⟩
      · exact .inl hy
      · exact .inr ⟨p, l, hp, hsize ▸ hpge, by rw [node?_modify_ne _ (hbehind hpge), hl], hcount⟩
    · obtain ⟨hyc, l, hl, hlp⟩ := hchild c hc
      exact ⟨hyc, l, by rw [node?_modify_ne _ (hbehind (hge.trans hyc.le)), hl], hlp⟩
  case nodup => exact hs.nodup
  case roots =>
    intro r hr
    obtain ⟨hge, m, hm, hp⟩ := hs.roots hr
    exact ⟨hsize ▸ hge, m, by rw [node?_modify_ne _ (hbehind hge), hm], hp⟩
  case models =>
    intro hcells m hm' i c hc
    rw [hn] at hm'
    cases hm'
    exact hs.models_behind hlt hcells (List.mem_of_getElem? hc) (hm hcells i c hc)

/-- The group has the new elements and is otherwise as it was. -/
theorem exchanged (h : Swapped C id element elements t t') (hn : t.node? id = some n) :
    ∃ n', t'.node? id = some n' ∧ n'.kind = n.kind ∧ n'.children = elements := by
  obtain ⟨m, n', hm, hn', hbare⟩ := h.self
  rw [hn] at hm
  cases hm
  have hkind := congrArg Node.kind hbare
  have hch := congrArg Node.children hbare
  exact ⟨n', hn', hkind, hch⟩

/-- A node that was there before and is there afterwards. -/
theorem old (h : Swapped C id element elements t t') {n' : Node} (hlt : x.index < t.nodes.size)
    (hn' : t'.node? x = some n') :
    ¬ t.Under id x ∧ ∃ n, t.node? x = some n ∧ n.fixture = n'.fixture ∧ n.cell = n'.cell ∧
      (x = id ∧ n'.children = elements ∨ x ≠ id ∧ n'.children = n.children) := by
  have hnot : ¬ t.Under id x := by
    intro hx
    rw [h.gone hx] at hn'
    cases hn'
  refine ⟨hnot, ?_⟩
  by_cases hx : x = id
  · obtain ⟨n, m, hn, hm, hbare⟩ := h.self
    rw [← hx, hn'] at hm
    cases hm
    have hf := congrArg Node.fixture hbare
    have hcell := congrArg Node.cell hbare
    have hch := congrArg Node.children hbare
    exact ⟨n, hx ▸ hn, hf.symm, hcell.symm, .inl ⟨hx, hch⟩⟩
  · have hkept := h.kept hlt hx hnot
    rw [hn'] at hkept
    obtain ⟨n, hn, hbare⟩ := Option.map_eq_some_iff.mp hkept.symm
    have hf := congrArg Node.fixture hbare
    have hcell := Node.cell_of_bare hbare
    have hch := Node.children_of_bare hbare
    exact ⟨n, hn, hf, hcell, .inr ⟨hx, hch.symm⟩⟩

theorem old_of_not (h : Swapped C id element elements t t') (hn : t.node? x = some n)
    (hnot : ¬ t.Under id x) :
    ∃ n', t'.node? x = some n' ∧ n.fixture = n'.fixture ∧ (x ≠ id → n'.children = n.children) := by
  by_cases hx : x = id
  · obtain ⟨m, n', hm, hn', hbare⟩ := h.self
    rw [← hx, hn] at hm
    cases hm
    have hf := congrArg Node.fixture hbare
    exact ⟨n', hx ▸ hn', hf.symm, fun hne => absurd hx hne⟩
  · have hkept := h.kept (lt_size hn) hx hnot
    rw [hn] at hkept
    obtain ⟨n', hn', hbare⟩ := Option.map_eq_some_iff.mp hkept
    have hf := congrArg Node.fixture hbare
    have hch := Node.children_of_bare hbare
    exact ⟨n', hn', hf.symm, fun _ => hch⟩

theorem wellFormed (h : Swapped C id element elements t t') (hwf : t.WellFormed) :
    t'.WellFormed := by
  obtain ⟨g, -, hg, -⟩ := h.self
  obtain ⟨g', hg', -, helements⟩ := h.exchanged hg
  constructor
  case root =>
    obtain ⟨n, hn, hp⟩ := hwf.root
    have hnot : ¬ t.Under id t.root := by
      intro hx
      obtain ⟨m, p, hm, hmp, -⟩ := hx.parent hwf
      rw [hn] at hm
      cases hm
      rw [hp] at hmp
      cases hmp
    obtain ⟨n', hn', hf, -⟩ := h.old_of_not hn hnot
    exact ⟨n', h.root ▸ hn', (Node.parent_of_fixture hf).symm.trans hp⟩
  case parent =>
    intro x n' hn' hne
    rw [h.root] at hne
    rcases Nat.lt_or_ge x.index t.nodes.size with hlt | hge
    · obtain ⟨hnot, n, hn, hf, -, -⟩ := h.old hlt hn'
      obtain ⟨p, m, hp, hm, hcount⟩ := hwf.parent hn hne
      have hmem : x ∈ m.children := hwf.mem_children hn hp hm
      have hpid : p ≠ id := by
        intro he
        exact hnot ⟨m, he ▸ hm, x, hmem, .refl⟩
      have hpnot : ¬ t.Under id p := fun hup => hnot (hup.tail ⟨m, hm, hmem⟩)
      obtain ⟨m', hm', -, hch⟩ := h.old_of_not hm hpnot
      exact ⟨p, m', (Node.parent_of_fixture hf).symm.trans hp, hm', hch hpid ▸ hcount⟩
    · rcases (h.fresh hge hn').parent with hx | ⟨p, m, hp, -, hm, hcount⟩
      · obtain ⟨-, m, hm, hp⟩ := h.roots hx
        rw [hn'] at hm
        cases hm
        exact ⟨id, g', hp, hg', helements ▸ List.count_eq_one_of_mem h.nodup hx⟩
      · exact ⟨p, m, hp, hm, hcount⟩
  case child =>
    intro x n' c hn' hc
    rcases Nat.lt_or_ge x.index t.nodes.size with hlt | hge
    · obtain ⟨hnot, n, hn, -, -, ⟨hx, hch⟩ | ⟨hx, hch⟩⟩ := h.old hlt hn'
      · rw [hch] at hc
        obtain ⟨hge, m, hm, hp⟩ := h.roots hc
        exact ⟨hlt.trans_le hge, m, hm, hx ▸ hp⟩
      · rw [hch] at hc
        obtain ⟨hlt', m, hm, hp⟩ := hwf.child hn hc
        have hcnot : ¬ t.Under id c := by
          intro hcu
          obtain ⟨m', p, hm', hp', hcase⟩ := hcu.parent hwf
          rw [hm] at hm'
          cases hm'
          rw [hp] at hp'
          cases hp'
          exact hcase.elim hx hnot
        obtain ⟨m', hm', hf, -⟩ := h.old_of_not hm hcnot
        exact ⟨hlt', m', hm', (Node.parent_of_fixture hf).symm.trans hp⟩
    · exact (h.fresh hge hn').child c hc

theorem evolves (h : Swapped C id element elements t t') {g : Group} (hn : t.node? id = some n)
    (hk : n.kind = .repeated g) (hg : g.element = element) : Evolves C t t' where
  wellFormed := h.wellFormed
  grows := by
    intro _
    refine ⟨h.root, h.seed, h.size, fun {x n'} hlt hn' => ?_⟩
    obtain ⟨-, m, hm, hf, -, ⟨hx, hch⟩ | ⟨-, hch⟩⟩ := h.old hlt hn'
    · rw [hx, hn] at hm
      cases hm
      refine ⟨n, hx ▸ hn, hf, .inr ⟨NodeKind.isRepeated_iff.mpr ⟨g, hk⟩, fun c hc => ?_⟩⟩
      exact (h.roots (hch ▸ hc)).1
    · exact ⟨m, hm, hf, .inl hch⟩
  models := by
    intro hwf τ name y hcells hmodels hlive
    have hwf' := h.wellFormed hwf
    refine hmodels.transfer (P := fun y => t'.isLive y = true) (fun x hx m hm => ?_)
      τ name y hcells hlive
    obtain ⟨m', hm'⟩ := isLive_iff_node?.mp hx
    obtain ⟨-, m₀, hm₀, hf, hcell, hcase⟩ := h.old (lt_size hm) hm'
    rw [hm] at hm₀
    cases hm₀
    refine ⟨m', hm', hf, fun hc => hcell ▸ hc, ?_⟩
    rcases hcase with ⟨hxid, hch⟩ | ⟨-, hch⟩
    · rw [hxid, hn] at hm
      cases hm
      refine .inr ⟨g, hk, fun hcells i c hc => ?_⟩
      rw [hg] at hcells ⊢
      exact h.models hcells hn i c (hch ▸ hc)
    · refine .inl ⟨hch, fun c hc => ?_⟩
      obtain ⟨-, l, hl, -⟩ := hwf'.child hm' (hch ▸ hc)
      exact isLive_iff_node?.mpr ⟨l, hl⟩

end Swapped

end Tree

-- ---------------------------------------------------------------------------
-- Operations
-- ---------------------------------------------------------------------------

namespace TreeM

open FormatFuzz.Tree

variable {C : Cell → Prop} {t : Tree} {id : NodeId} {n : Node} {element : Template}

theorem discardAll_spec (old : List NodeId) (t : Tree) :
    wp (forIn old PUnit.unit fun child _ => do
      modify (·.discard child)
      return .yield PUnit.unit : TreeM PUnit)
      (fun r t' => r = .ok PUnit.unit ∧ Sheds (t.Below old) t t') t := by
  refine wp.forIn (fun rest s => ∃ done, old = done ++ rest ∧ Sheds (t.Below done) t s)
    ⟨[], rfl, .refl t fun x ⟨r, hr, _⟩ => absurd hr List.not_mem_nil⟩ ?_ ?_
  · rintro s ⟨done, hold, hs⟩
    rw [List.append_nil] at hold
    exact ⟨rfl, hold ▸ hs⟩
  · rintro child rest s ⟨done, hold, hs⟩
    simp only [wp.bind, wp.modify, wp.pure]
    refine ⟨done ++ [child], by simp [hold], hs.append (discard_sheds s child)⟩

theorem makeElements_spec (hlit : ∀ v, C (.literal v)) (element : Template) (name : String)
    (id : NodeId) (count index : Nat) (t : Tree) :
    wp (makeElements element name id count index) (fun r t' => ∃ elements, r = .ok elements ∧
      elements.length = count ∧ t.Sprouts t' (some id) elements ∧
      (element.CellsIn C → ∀ (i : Nat) (c : NodeId), elements[i]? = some c →
        t'.Models C element s!"{name}[{index + i}]" c)) t := by
  induction count generalizing index t with
  | zero => exact ⟨[], rfl, rfl, .nil t _, fun _ i c hc => by cases hc⟩
  | succ count ih =>
    rw [makeElements]
    simp only [wp.bind, wp.get, wp.set]
    obtain ⟨hs, hm⟩ := instantiate_sprouts hlit element (some s!"{name}[{index}]") (some id) t
    refine (ih (index + 1) _).mono ?_
    rintro r t' ⟨rest, rfl, hlength, hs', hm'⟩
    refine ⟨_ :: rest, rfl, congrArg Nat.succ hlength, hs.append hs', fun hcells i c hc => ?_⟩
    cases i with
    | zero =>
      cases hc
      exact hs'.models hcells (hm hcells)
    | succ i =>
      have hi := hm' hcells i c hc
      rwa [Nat.add_right_comm] at hi

/-- New elements are found below the group that they were made for. -/
theorem swapElements_spec (hlit : ∀ v, C (.literal v)) (hwf : t.WellFormed)
    (hn : t.node? id = some n) (element : Template) (count : Nat) :
    wp (swapElements id element n.children count) (fun r t' => ∃ elements, r = .ok elements ∧
      elements.length = count ∧ Swapped C id element elements t t') t := by
  unfold swapElements
  simp only [wp.bind, wp.modify]
  refine (discardAll_spec n.children _).mono ?_
  rintro _ t₂ ⟨rfl, hsheds⟩
  have hid : ∃ n₂, t₂.node? id = some n₂ ∧ n₂.bare = { n.bare with children := [] } := by
    refine hsheds.node?_of_not (n := { n with children := [] }) ?_ ?_
    · exact fun hb => Under.not_self hwf ((below_emptied hwf hn).mp hb)
    · rw [node?_modify_self, hn]
      rfl
  obtain ⟨n₂, hn₂, hbare⟩ := hid
  have hname : n₂.name = n.name := by
    have h := congrArg Node.name hbare
    exact h
  simp only [wp.look, Tree.name, look_of_node? hn₂]
  refine (makeElements_spec hlit element n₂.name id count 0 t₂).mono ?_
  rintro _ t₃ ⟨elements, rfl, hlength, hs, hm⟩
  simp only [wp.update, node_eq_ok.mpr (hs.node? hn₂), ok_bind, pure_eq_ok, wp.pure]
  refine ⟨elements, rfl, hlength, .of_steps hwf hn hsheds hs fun hcells i c hc => ?_⟩
  have hi := hm hcells i c hc
  rwa [hname, Nat.zero_add] at hi

end TreeM

end FormatFuzz
