-- SUMMARY: What is bound to elements is bound to those of the group that its own group follows, or of one that is gone.
import FormatFuzz.Proofs.Links
import FormatFuzz.Proofs.Tidiness

/-!
# Moorings

A group that follows another one by pairs of fields binds what is in its elements to this group, by its identifier. If
the group followed is in an element of a third one, it goes when that one gets other elements, and nobody tells the
follower, which keeps what it has bound (`Tree.resize_strands`).

Other than this no binding goes astray. In all states, what is bound to an element is bound by a pair of a rule: to the
element with the index of its own, and to the group that the path of the rule leads to, unless the group that it was
bound to is gone. And a group does not go before what is bound to it, if it is in no element that this is not in
(`Tree.Reaches.bound_to_source`).
-/

namespace FormatFuzz

open TreeM

/-- The group, the index and the field of the element that the cell is bound to. -/
def Cell.element? : Cell → Option (NodeId × Nat × String)
  | .bound (.element group i field) => some (group, i, field)
  | _ => none

theorem Cell.element?_eq_some {cell : Cell} {group : NodeId} {i : Nat} {field : String} :
    cell.element? = some (group, i, field) ↔ cell = .bound (.element group i field) := by
  constructor
  · intro h
    unfold element? at h
    split at h <;> cases h
    rfl
  · rintro rfl
    rfl

/-- The cell is bound to no element. -/
def Cell.Unlinked (cell : Cell) : Prop := cell.element? = none

theorem Cell.unlinked_literal (v : Value) : (Cell.literal v).Unlinked := rfl

namespace Template

variable {C : Cell → Prop}

/-- The first position is in no other elements than the second one. -/
def Shares (τ : Template) (q r : Position) : Prop :=
  ∀ ⦃i p⦄, i :: p <:+ q → (τ.partAt p).any (·.1.isRepeated) = true → i :: p <:+ r

/-- The group at `q` does not go before what a pair binds to its elements: it is outside of all elements, or in no
other elements than what is bound. -/
def Outlasts (τ : Template) (q p : Position) (i : Nat) (own : String) (r : Position) : Prop :=
  τ.Shares q [] ∨ τ.Shares q (i :: p) ∧ τ.Inner p i own r

theorem AllCellsIn.getElem? {fields : List Template} {i : Nat} {field : Template} (h : AllCellsIn C fields)
    (hi : fields[i]? = some field) : field.CellsIn C := by
  induction fields generalizing i with
  | nil => cases hi
  | cons first rest ih =>
    cases i with
    | zero =>
      cases hi
      exact h.1
    | succ i => exact ih h.2 hi

theorem CellsIn.partAt {τ σ : Template} {p : Position} {name : String} (h : τ.CellsIn C)
    (hpart : τ.partAt p = some (σ, name)) : σ.CellsIn C := by
  induction p generalizing σ name with
  | nil =>
    cases hpart
    exact h
  | cons i p ih =>
    obtain ⟨⟨above, name'⟩, habove, hi⟩ := Option.bind_eq_some_iff.mp hpart
    have hcells := ih habove
    cases above with
    | leaf header kind => cases hi
    | composite header fields =>
      obtain ⟨field, hfield, heq⟩ := Option.map_eq_some_iff.mp hi
      cases heq
      exact hcells.2.getElem? hfield
    | repeated header element rule =>
      cases hi
      exact hcells.2

end Template

namespace Tree

variable {τ : Template} {t t' : Tree} {id x s : NodeId} {n : Node} {p q r : Position} {cell : Cell} {i : Nat}
  {own field : String}

-- ---------------------------------------------------------------------------
-- Bindings that are as the template says
-- ---------------------------------------------------------------------------

/-- A pair of the rule of the group at `p` has bound what is at `r` to a group that was at `q`, where the group is
that this one follows. -/
structure Moors (τ : Template) (t : Tree) (r : Position) (s : NodeId) (i : Nat) (field : String) (p q : Position)
    (own : String) : Prop where
  binds : τ.Binds p i (own, field) r
  source : τ.source p = some q
  group : ∃ rule, τ.ruleAt q = some rule
  old : s.index < t.nodes.size
  place : t.isLive s = true → t.placed q = some s
  stays : τ.Outlasts q p i own r → t.isLive s = true

/-- If the cell at the position is bound to an element, then as the template says. -/
def CellMoored (τ : Template) (t : Tree) (r : Position) (cell : Cell) : Prop :=
  ∀ ⦃s i field⦄, cell = .bound (.element s i field) → ∃ p q own, Moors τ t r s i field p q own

/-- All cells are bound as the template says. -/
structure Moored (τ : Template) (t : Tree) : Prop where
  wellFormed : t.WellFormed
  models : t.Models (fun _ => True) τ τ.name t.root
  cells : ∀ {r x n}, t.placed r = some x → t.node? x = some n → CellMoored τ t r n.cell

/-- A group stays while the element does that is in all elements that the group is in. -/
theorem placed_of_outlasts (houtlasts : τ.Outlasts q p i own r) (hwf : t.WellFormed)
    (hm : t.Models (fun _ => True) τ τ.name t.root) (hev : Evolves (fun _ => True) t t')
    (hq : t.placed q = some s)
    (helement : τ.Inner p i own r → ∃ e, t.placed (i :: p) = some e ∧ t'.placed (i :: p) = some e) :
    t'.placed q = some s := by
  have hwf' := hev.wellFormed hwf
  refine (hev.grows hwf).placed_along hwf' hm hq fun hsuffix hrep => ?_
  rcases houtlasts with houter | ⟨hshares, hinner⟩
  · exact absurd (houter hsuffix hrep).length_le (by simp)
  · obtain ⟨e, he, he'⟩ := helement hinner
    obtain ⟨w, hw⟩ := hshares hsuffix hrep
    rw [← hw] at he he'
    obtain ⟨above, habove⟩ := placed_suffix he
    rw [habove]
    exact (hev.grows hwf).placed_above hwf hwf' he (isLive_of_placed hwf' he') habove

/-- A binding is as the template says for as long as what is bound is there. -/
theorem Moors.evolve (h : Moors τ t r s i field p q own) (hwf : t.WellFormed)
    (hm : t.Models (fun _ => True) τ τ.name t.root) (hev : Evolves (fun _ => True) t t')
    (hr : t.placed r = some x) (hlive : t'.isLive x = true) : Moors τ t' r s i field p q own where
  binds := h.binds
  source := h.source
  group := h.group
  old := h.old.trans_le (hev.grows hwf).size
  place := fun hlive => (hev.grows hwf).placed hwf (hev.wellFormed hwf) (h.place ((hev.grows hwf).live h.old hlive)) hlive
  stays := by
    intro houtlasts
    have hwf' := hev.wellFormed hwf
    have helement : τ.Inner p i own r → ∃ e, t.placed (i :: p) = some e ∧ t'.placed (i :: p) = some e := by
      rintro ⟨⟨w, rfl⟩, -⟩
      obtain ⟨e, he⟩ := placed_suffix hr
      exact ⟨e, he, (hev.grows hwf).placed_above hwf hwf' hr hlive he⟩
    exact isLive_of_placed hwf'
      (placed_of_outlasts houtlasts hwf hm hev (h.place (h.stays houtlasts)) helement)

theorem CellMoored.of_unlinked (h : cell.Unlinked) : CellMoored τ t r cell := by
  rintro s i field rfl
  cases h

theorem CellMoored.evolve (h : CellMoored τ t r cell) (hwf : t.WellFormed)
    (hm : t.Models (fun _ => True) τ τ.name t.root) (hev : Evolves (fun _ => True) t t')
    (hr : t.placed r = some x) (hlive : t'.isLive x = true) : CellMoored τ t' r cell := by
  intro s i field hcell
  obtain ⟨p, q, own, hmoors⟩ := h hcell
  exact ⟨p, q, own, hmoors.evolve hwf hm hev hr hlive⟩

namespace Moored

/-- Cells may be kept, and others that are bound as the template says may come. -/
theorem step (h : t.Moored τ) (hev : Evolves (fun _ => True) t t')
    (hcells : ∀ {r x n'}, t'.placed r = some x → t'.node? x = some n' →
      (∃ n, t.node? x = some n ∧ n'.cell = n.cell) ∨ CellMoored τ t' r n'.cell) : t'.Moored τ where
  wellFormed := hev.wellFormed h.wellFormed
  models := h.models.evolve h.wellFormed τ.cellsIn_true hev
  cells := by
    intro r x n' hr hn'
    rcases hcells hr hn' with ⟨n, hn, hcell⟩ | hmoored
    · have hr' := (hev.grows h.wellFormed).placed_back h.wellFormed (hev.wellFormed h.wellFormed) hn hr
      rw [hcell]
      exact (h.cells hr' hn).evolve h.wellFormed h.models hev hr' (isLive_iff_node?.mpr ⟨n', hn'⟩)
    · exact hmoored

theorem of_like (h : t.Moored τ) (hlike : t.Like t') : t'.Moored τ := by
  refine h.step hlike.evolves fun _ hn' => .inl ?_
  obtain ⟨n, hn, hbare⟩ := hlike.symm.node? hn'
  exact ⟨n, hn, (Node.cell_of_bare hbare).symm⟩

theorem modifyGroup (h : t.Moored τ) {f : Group → Group} (hf : ∀ g, (f g).still = g.still) :
    (t.modifyGroup id f).Moored τ := by
  refine h.step (.of_modifyGroup hf) fun _ hn' => .inl ?_
  obtain ⟨n, hn, -⟩ := node?_modifyGroup hn'
  exact ⟨n, hn, cell_modifyGroup hn hn'⟩

theorem putCell (h : t.Moored τ) (hcell : ∀ {r}, t.placed r = some id → CellMoored τ t r cell) :
    (t.putCell id cell).Moored τ := by
  have halike : t.Alike (t.putCell id cell) := .of_modify fun _ _ => rfl
  have hev : Evolves (fun _ => True) t (t.putCell id cell) := .of_alike halike fun _ _ _ _ _ _ => trivial
  refine h.step hev fun {r x n'} hr hn' => ?_
  have hlive := isLive_iff_node?.mpr ⟨n', hn'⟩
  rw [halike.placed] at hr
  rw [Tree.putCell, node?_modify] at hn'
  split at hn'
  · rename_i hx
    obtain ⟨n, -, rfl⟩ := Option.map_eq_some_iff.mp hn'
    exact .inr ((hcell (hx ▸ hr)).evolve h.wellFormed h.models hev hr hlive)
  · exact .inl ⟨n', hn', rfl⟩

theorem setCell (h : t.Moored τ) (hcell : cell.Unlinked) (ht' : t.setCell id cell = .ok t') : t'.Moored τ := by
  rw [setCell_eq_ok ht']
  exact (h.of_like .of_invalidate).putCell fun _ => .of_unlinked hcell

end Moored

/-- New elements are bound to none if the template has no such cells. -/
theorem Swapped.unlinked {element : Template} {elements : List NodeId} (hcells : element.CellsIn Cell.Unlinked)
    (hswap : Swapped Cell.Unlinked id element elements t t') (hge : t.nodes.size ≤ x.index)
    (hn : t'.node? x = some n) : n.cell.Unlinked := by
  obtain ⟨e, he, hpath⟩ := hswap.below_element hge hn
  obtain ⟨i, hi⟩ := List.mem_iff_getElem?.mp he
  obtain ⟨m, -, hm, -⟩ := hswap.self
  exact (hswap.models hcells hm i e hi).cell_below hpath hn

theorem Moored.swapped {elements : List NodeId} {g : Group} (h : t.Moored τ) (hcells : τ.CellsIn Cell.Unlinked)
    (hn : t.node? id = some n) (hk : n.kind = .repeated g)
    (hev : Evolves (fun _ => True) t t') (hswap : Swapped Cell.Unlinked id g.element elements t t') : t'.Moored τ := by
  obtain ⟨p, hp⟩ := exists_position h.wellFormed hn
  obtain ⟨header, name, hpart⟩ := h.models.rule hp hn hk
  refine h.step hev fun {r x n'} hr hn' => ?_
  rcases Nat.lt_or_ge x.index t.nodes.size with hlt | hge
  · obtain ⟨-, m, hm, -, hcell, -⟩ := hswap.old hlt hn'
    exact .inl ⟨m, hm, hcell.symm⟩
  · exact .inr (.of_unlinked (hswap.unlinked (hcells.partAt hpart).2 hge hn'))

-- ---------------------------------------------------------------------------
-- Operations
-- ---------------------------------------------------------------------------

/-- A tree with all bindings as the template says keeps them so while it evolves. -/
def Secures (τ : Template) (t t' : Tree) : Prop := t.Moored τ → Evolves (fun _ => True) t t' ∧ t'.Moored τ

instance : IsPreorder Tree (Secures τ) where
  refl t := fun h => ⟨.refl _ t, h⟩
  trans _ _ _ h h' := fun hm =>
    have ⟨hev, h₂⟩ := h hm
    have ⟨hev', h₃⟩ := h' h₂
    ⟨hev.trans hev', h₃⟩

theorem Secures.preserves {α : Type} {act : TreeM α}
    (h : ∀ t, t.Moored τ → wp act (fun _ t' => Evolves (fun _ => True) t t' ∧ t'.Moored τ) t) :
    Preserves (Secures τ) (Secures τ) act :=
  .of_run fun t ht => h t ht

theorem Secures.of_like (h : t.Like t') : Secures τ t t' := fun hm => ⟨h.evolves, hm.of_like h⟩

theorem Secures.modifyGroup {f : Group → Group} (hf : ∀ g, (f g).still = g.still) :
    Secures τ t (t.modifyGroup id f) := fun hm => ⟨.of_modifyGroup hf, hm.modifyGroup hf⟩

theorem swapLaws_secures (hcells : τ.CellsIn Cell.Unlinked) :
    SwapLaws (Secures τ) (fun _ => Secures τ) (Secures τ) where
  stale t id := by
    have hstale : Secures τ t (t.markStale id) := .modifyGroup fun g => by split <;> rfl
    exact trans_of (Secures τ) hstale (.of_like .of_invalidate)
  swap t id n g count hn hk := by
    suffices hwp : t.Moored τ → wp (swapElements id g.element n.children count)
        (fun _ t' => Evolves (fun _ => True) t t' ∧ t'.Moored τ) t by
      unfold wp at hwp ⊢
      generalize (swapElements id g.element n.children count).run t = out at hwp
      obtain ⟨_ | _, t'⟩ := out <;> exact hwp
    intro h
    have hwf := h.wellFormed
    refine ((swapElements_spec (C := fun _ => True) (fun _ => trivial) hwf hn g.element count).and
      (swapElements_spec Cell.unlinked_literal hwf hn g.element count)).mono ?_
    rintro _ t' ⟨⟨elements, -, -, hswap⟩, ⟨elements', -, -, hswap'⟩⟩
    have hev := hswap.evolves hn hk rfl
    exact ⟨hev, h.swapped hcells hn hk hev hswap'⟩
  swapped h h' := trans_of (Secures τ) h h'
  settle h := trans_of (Secures τ) h (.of_like .of_invalidate)
  spoil h h' := trans_of (Secures τ) h h'

section

variable {init : NodeId → TreeM Unit} (hinit : ∀ x, Preserves (Secures τ) (Secures τ) (init x))
  (hlive : ∀ x t, wp (init x) (fun r t' => r = .ok () → t'.isLive x = true) t)

include hlive

/-- A group is still there after it has been touched. -/
theorem touchWith_live (id : NodeId) (t : Tree) :
    wp (touchWith init id) (fun r t' => r = .ok () → t'.isLive id = true) t := by
  unfold touchWith
  cases hg : t.group id with
  | error e => exact (wp.look_error hg).mpr fun h => absurd h error_ne_ok
  | ok g =>
    obtain ⟨n, hn, -⟩ := group_eq_ok.mp hg
    rw [wp.look_ok hg]
    cases g.phase with
    | uninit => exact hlive id t
    | stale => exact hlive id t
    | initializing => exact fun _ => isLive_iff_node?.mpr ⟨n, hn⟩
    | ready => exact fun _ => isLive_iff_node?.mpr ⟨n, hn⟩

include hinit

/-- Groups on the way are touched in a tree that keeps its bindings. -/
theorem Moored.linkRules (p : Position) : LinkRules τ init p (Moored τ) (Evolves fun _ => True)
    (fun s u => Evolves (fun _ => True) s u ∧ u.Moored τ) where
  paths := by
    intro s _
    constructor
    case wellFormed => exact fun h => h.1.wellFormed
    case models => exact fun h => h.1.models
    case fail => exact fun h => ⟨h.2, h.1⟩
    case climb => exact fun h _ => h
    case descend => exact fun h _ => h
    case touch =>
      rintro t q id ⟨ht, hst⟩ - hq -
      refine ((GroupLaws.touchWith hinit id t).and (touchWith_live hlive id t)).mono ?_
      rintro (e | _) t' ⟨h', hlive'⟩
      · obtain ⟨hev, ht'⟩ := h' ht
        exact ⟨fun h => absurd h error_ne_ok, fun _ _ => ⟨hst.trans hev, ht'⟩⟩
      · obtain ⟨hev, ht'⟩ := h' ht
        have hq' := (hev.grows ht.wellFormed).placed ht.wellFormed ht'.wellFormed hq (hlive' rfl)
        exact ⟨fun _ => ⟨⟨ht', hst.trans hev⟩, hq', fun _ => ⟨ht', hst.trans hev⟩⟩, fun _ h => absurd h.symm error_ne_ok⟩
  evolves := id
  refl := fun _ => .refl _ _
  trans := fun _ h h' => h.trans h'
  left := fun _ h h' => ⟨h.trans h'.1, h'.2⟩
  bind := by
    intro s u source target i own field q r hs hq hgroup hsu hu hr hsource hbinds helement u'
    obtain ⟨n, hn, hrep⟩ := look_eq_ok.mp hgroup
    obtain ⟨g, hk⟩ := NodeKind.isRepeated_iff.mp hrep
    have hgrows := hsu.grows hs.wellFormed
    have hmoors : Moors τ u r source i field p q own :=
      { binds := hbinds
        source := hsource
        group := ⟨g.rule, hs.models.ruleAt hq hn hk⟩
        old := (lt_size hn).trans_le hgrows.size
        place := hgrows.placed hs.wellFormed hu.wellFormed hq
        stays := fun houtlasts => isLive_of_placed hu.wellFormed
          (placed_of_outlasts houtlasts hs.wellFormed hs.models hsu hq helement) }
    have hput : (u.putCell target (.bound (.element source i field))).Moored τ := by
      refine hu.putCell fun hr' => ?_
      cases placed_inj hu.wellFormed hr hr'
      rintro _ _ _ ⟨⟩
      exact ⟨p, q, own, hmoors⟩
    exact ⟨hput.of_like .of_invalidate, .trans (.of_putCell trivial) .of_invalidate⟩

theorem linkElements_secures (id : NodeId) : Preserves (Secures τ) (Secures τ) (linkElementsWith init id) := by
  refine Secures.preserves fun t h => ?_
  cases hn : t.node? id with
  | none =>
    obtain ⟨e, he⟩ := node_eq_error.mpr hn
    have hg : t.group id = .error e := by rw [Tree.group, he]; rfl
    unfold linkElementsWith
    exact (wp.look_error hg).mpr ⟨.refl _ t, h⟩
  | some n =>
    obtain ⟨p, hp⟩ := exists_position h.wellFormed hn
    refine ((Moored.linkRules hinit hlive p).linkElementsWith h hp).mono ?_
    rintro (e | _) t' h'
    · exact h'
    · exact ⟨h'.2, h'.1⟩

end

/-- A group is still there after it has been initialized. -/
theorem runTask_live (depth : Nat) (x : NodeId) (t : Tree) :
    wp (runTask depth (.init x)) (fun r t' => r = .ok () → t'.isLive x = true) t := by
  cases depth with
  | zero => exact fun h => absurd h error_ne_ok
  | succ depth =>
    refine wp_initStep (fun _ _ h => absurd h error_ne_ok) fun n hn => ?_
    refine ⟨fun _ _ h => absurd h error_ne_ok, fun n' hn' _ => ?_⟩
    have halike : ∀ {s : Tree} {phase}, s.Alike (s.modifyGroup x ({ · with phase })) := .of_modifyGroup fun _ => rfl
    exact halike.live.trans (isLive_iff_node?.mpr ⟨n', hn'⟩)

theorem runTask_secures (hcells : τ.CellsIn Cell.Unlinked) (depth : Nat) :
    (∀ x, Preserves (Secures τ) (Secures τ) (runTask depth (.visit x))) ∧
      ∀ x, Preserves (Secures τ) (Secures τ) (runTask depth (.init x)) := by
  induction depth with
  | zero => exact ⟨fun _ => .throw, fun _ => .throw⟩
  | succ depth ih =>
    obtain ⟨hvisit, hinit⟩ := ih
    have htouch := GroupLaws.touchWith hinit
    refine ⟨fun x => GroupLaws.visitStep (htouch x) hvisit, fun x => ?_⟩
    refine GroupLaws.initStep (fun t phase => .modifyGroup fun _ => rfl) ?_ ?_ ?_
    · exact GroupLaws.countByRuleWith htouch (GroupLaws.countWith hinit) fun t source => .modifyGroup fun _ => rfl
    · exact GroupLaws.replaceElementsWith (swapLaws_secures hcells) hvisit x
    · exact linkElements_secures hinit (runTask_live depth) x

theorem init_secures (hcells : τ.CellsIn Cell.Unlinked) (id : NodeId) :
    Preserves (Secures τ) (Secures τ) (Tree.init id) :=
  .bind .get fun _ => (runTask_secures hcells _).2 id

theorem touch_secures (hcells : τ.CellsIn Cell.Unlinked) (id : NodeId) :
    Preserves (Secures τ) (Secures τ) (touch id) :=
  GroupLaws.touchWith (init_secures hcells) id

theorem count_secures (hcells : τ.CellsIn Cell.Unlinked) (id : NodeId) :
    Preserves (Secures τ) (Secures τ) (Tree.count id) :=
  GroupLaws.countWith (init_secures hcells) id

theorem init_live (x : NodeId) (t : Tree) : wp (Tree.init x) (fun r t' => r = .ok () → t'.isLive x = true) t := by
  unfold Tree.init perform
  rw [wp.bind, wp.get]
  exact runTask_live _ x t

theorem resize_secures (hcells : τ.CellsIn Cell.Unlinked) (id : NodeId) (count : Nat) :
    Preserves (Secures τ) (Secures τ) (resize id count) := by
  refine .bind (touch_secures hcells id) fun _ => .bind ?_ fun _ =>
    linkElements_secures (init_secures hcells) init_live id
  have hvisit : ∀ x, Preserves (Secures τ) (Secures τ) (perform (.visit x)) :=
    fun x => .bind .get fun _ => (runTask_secures hcells _).1 x
  exact GroupLaws.replaceElementsWith (swapLaws_secures hcells) hvisit id count

-- ---------------------------------------------------------------------------
-- All states
-- ---------------------------------------------------------------------------

/-- The cells that fields had when they were selected are bound as the template says. -/
def Kept (τ : Template) (targets : List Target) (t : Tree) : Prop :=
  ∀ x ∈ targets, x.id.index < t.nodes.size ∧ ∀ r, t.placed r = some x.id → CellMoored τ t r x.saved

theorem Kept.evolve {targets : List Target} (h : Kept τ targets t) (ht : t.Moored τ)
    (hev : Evolves (fun _ => True) t t') : Kept τ targets t' := by
  intro x hx
  obtain ⟨hold, hmoored⟩ := h x hx
  have hwf := ht.wellFormed
  refine ⟨hold.trans_le (hev.grows hwf).size, fun r hr => ?_⟩
  obtain ⟨n', hn'⟩ := live_of_placed (hev.wellFormed hwf) hr
  obtain ⟨n, hn, -⟩ := (hev.grows hwf).old hold hn'
  have hr' := (hev.grows hwf).placed_back hwf (hev.wellFormed hwf) hn hr
  exact (hmoored r hr').evolve hwf ht.models hev hr' (isLive_iff_node?.mpr ⟨n', hn'⟩)

theorem Moored.restore {targets : List Target} (h : t.Moored τ) (hkept : Kept τ targets t) :
    (Campaign.restore targets t).Moored τ := by
  unfold Campaign.restore
  refine of_like ?_ .of_invalidateAll
  induction targets generalizing t with
  | nil => exact h
  | cons x rest ih =>
    have hput := h.putCell fun {r} hr => (hkept x List.mem_cons_self).2 r hr
    have hrest : Kept τ rest t := fun y hy => hkept y (List.mem_cons_of_mem _ hy)
    exact ih hput (hrest.evolve h (.of_putCell trivial))

/-- All calls and all fuzz runs keep bindings as the template says, as long as no cell is bound by hand. -/
theorem Reaches.moored (hcells : τ.CellsIn Cell.Unlinked) (h : Reaches (fun _ c => c.Writes Cell.Unlinked) t t')
    (ht : t.Moored τ) : t'.Moored τ := by
  have htouch := touch_secures hcells
  have laws : ResolverLaws (Upholds (Moored τ)) :=
    resolverLaws_of_like (fun _ _ hlike h => h.of_like hlike) (fun t id ht => ((htouch id).run t ht).2)
      fun t id ht => ((count_secures hcells id).run t ht).2
  refine h.upholds (Q := fun targets t => t.Moored τ ∧ Kept τ targets t) ?_ ?_ ?_ ?_ ht
  · intro t c hwrites ht
    have hcall : Upholds (Moored τ) t (c.run t) := by
      refine c.rule laws.scope (fun _ => laws.bytesStep)
        (fun id n _ ht => ((resize_secures hcells id n).run t ht).2) ?_ ?_ ?_
      · rintro id cell t' rfl ht' h
        exact h.setCell hwrites ht'
      · exact fun id h => h.of_like .of_invalidate
      · exact fun h => h.of_like .of_invalidateAll
    exact hcall ht
  · intro t c ht
    refine (c.targets_saved t).mono ?_
    rintro r t' ⟨htouches, hsaved⟩
    obtain ⟨-, ht'⟩ := htouches.keeps htouch ht
    refine ⟨ht', fun targets hr => ⟨ht', fun x hx => ?_⟩⟩
    -- The cell of a field was saved in a tree on the way.
    obtain ⟨v, n, hv, hv', hn, -, hcell⟩ := hsaved targets hr x hx
    obtain ⟨-, hmoored⟩ := hv.keeps htouch ht
    obtain ⟨hev, -⟩ := hv'.keeps htouch hmoored
    have hkept : Kept τ [x] v := by
      rintro y hy
      cases List.mem_singleton.mp hy
      exact ⟨lt_size hn, fun r hr => hcell ▸ hmoored.cells hr hn⟩
    exact hkept.evolve hmoored hev x List.mem_cons_self
  · exact fun t t' id v ht' h => h.setCell (Cell.unlinked_literal v) ht'
  · exact fun targets t t' hkept hev ht' => ht'.restore (hkept.2.evolve hkept.1 hev)

theorem build_moored {seed : UInt64} (hcells : τ.CellsIn Cell.Unlinked) (hbuild : build τ seed = .ok t) :
    t.Moored τ := by
  obtain ⟨t₀, hwf, hm, -, -, hrun⟩ := exists_start τ seed
  have hmodels := hm Cell.unlinked_literal hcells
  have ht₀ : t₀.Moored τ :=
    ⟨hwf, hm (fun _ => trivial) τ.cellsIn_true, fun _ hn => .of_unlinked (hmodels.cell hwf hn)⟩
  have hvisit : Preserves (Secures τ) (Secures τ) (perform (.visit t₀.root)) :=
    .bind .get fun _ => (runTask_secures hcells _).1 t₀.root
  exact ((hvisit t₀).of_run ((hrun t).mp hbuild) ht₀).2

/-- What is bound to an element is bound by a pair of a rule, to the group that the one with this rule follows: if it
is not gone, that group is where the path of the rule leads, and it is gone only if it was in an element that what is
bound is not in. -/
theorem Reaches.bound_to_source {seed : UInt64} (hcells : τ.CellsIn Cell.Unlinked) (hbuild : build τ seed = .ok t)
    (h : Reaches (fun _ c => c.Writes Cell.Unlinked) t t') (hn : t'.node? x = some n)
    (hcell : n.cell = .bound (.element s i field)) :
    ∃ p q own r, t'.placed r = some x ∧ τ.Binds p i (own, field) r ∧ τ.source p = some q ∧
      (t'.isLive s = true → t'.placed q = some s ∧ t'.isGroup s = .ok true) ∧
      (τ.Outlasts q p i own r → t'.isLive s = true) ∧
      ∀ {g path fields min max y t₁}, t'.placed p = some g → τ.ruleAt p = some (.bound path fields min max) →
        (sourceWith Tree.init g path).run t' = (.ok y, t₁) →
          (t₁.isLive s = true → y = s) ∧ (τ.Outlasts q p i own r → t₁.isLive x = true → y = s) := by
  have hmoored := h.moored hcells (build_moored hcells hbuild)
  have hwf := hmoored.wellFormed
  obtain ⟨r, hr⟩ := exists_position hwf hn
  obtain ⟨p, q, own, hmoors⟩ := hmoored.cells hr hn hcell
  refine ⟨p, q, own, r, hr, hmoors.binds, hmoors.source, fun hlive => ⟨hmoors.place hlive, ?_⟩, hmoors.stays, ?_⟩
  · obtain ⟨rule, hrule⟩ := hmoors.group
    obtain ⟨m, g, hm, hk, -⟩ := hmoored.models.exists_group (hmoors.place hlive) hrule
    rw [isGroup, look_of_node? hm, hk]
    rfl
  · intro g path fields min max y t₁ hg hrule hrun
    have rules := (Moored.linkRules (init_secures hcells) init_live p).paths hmoored
    have hstart := And.intro hmoored (Evolves.refl (fun _ => True) t')
    obtain ⟨q', hq', hplace, -, hev⟩ := ((rules.sourceWith hwf hmoored.models hg (fun _ hz => .way hrule hz) hstart
      hstart).of_run hrun).1 y rfl
    rw [← Template.source_of_rule hrule, hmoors.source] at hq'
    cases hq'
    have hsame : t₁.placed q = some s → y = s := fun hs => Option.some.inj (hplace.symm.trans hs)
    refine ⟨fun hlive => hsame ((hev.grows hwf).placed hwf (hev.wellFormed hwf)
      (hmoors.place ((hev.grows hwf).live hmoors.old hlive)) hlive), fun houtlasts hlive => hsame ?_⟩
    have hmoors' := hmoors.evolve hwf hmoored.models hev hr hlive
    exact hmoors'.place (hmoors'.stays houtlasts)

/-- Parts with a group whose elements show those of another group of the same part. -/
def lodged : Template :=
  .composite { name := "record" } [
    .group "parts" (.composite { name := "part" } [
      .group "source" (.boolean "flag") (.fixed 1),
      .group "copy" (.boolean "flag") (.bound "source" [("", "")] 0 9)]) (.fixed 1)]

theorem Reaches.bound_to_source_lodged : ∃ t n, build lodged 7 = .ok t ∧
    let t' := (Call.resize ⟨1⟩ 2).run t
    t'.node? ⟨16⟩ = some n ∧ n.cell = .bound (.element ⟨11⟩ 0 "") ∧
      ∃ p q own r, t'.placed r = some ⟨16⟩ ∧ lodged.Binds p 0 (own, "") r ∧ lodged.source p = some q ∧
        (t'.isLive ⟨11⟩ = true → t'.placed q = some ⟨11⟩ ∧ t'.isGroup ⟨11⟩ = .ok true) ∧
        (lodged.Outlasts q p 0 own r → t'.isLive ⟨11⟩ = true) := by
  have hcell : (build lodged 7).toOption.any (fun t =>
      (((Call.resize ⟨1⟩ 2).run t).node? ⟨16⟩).any fun n => n.cell.element? = some (⟨11⟩, 0, "")) = true := by
    decide +kernel
  obtain ⟨t, hbuild, hcell⟩ := exists_build hcell
  obtain ⟨n, hn, helement⟩ := (Option.any_eq_true _ _).mp hcell
  have hcell := Cell.element?_eq_some.mp (of_decide_eq_true helement)
  have hcells : lodged.CellsIn Cell.Unlinked := ⟨rfl, ⟨rfl, rfl, ⟨rfl, rfl⟩, ⟨rfl, rfl⟩, trivial⟩, trivial⟩
  have hreach : Reaches (fun _ c => c.Writes Cell.Unlinked) t ((Call.resize ⟨1⟩ 2).run t) :=
    .call (.resize ⟨1⟩ 2) (.refl t) trivial
  obtain ⟨p, q, own, r, hr, hbinds, hsource, hplace, hstays, -⟩ := Reaches.bound_to_source hcells hbuild hreach hn hcell
  exact ⟨t, n, hbuild, hn, hcell, p, q, own, r, hr, hbinds, hsource, hplace, hstays⟩

/-- A group whose elements show those of a group in an element of a third one. -/
def stranded : Template :=
  .composite { name := "record" } [
    .group "outer" (.composite { name := "part" } [
      .group "source" (.boolean "flag") (.fixed 1)]) (.fixed 1),
    .group "copy" (.boolean "flag") (.bound "outer[0].source" [("", "")] 0 9)]

/-- When the group in the element goes, what is bound to it stays so, although there is another
group in its place. -/
theorem resize_strands : ((build stranded 7).toOption.map fun t =>
    let t := (Call.resize ⟨1⟩ 2).run t
    let source : TreeM Bool := do
      let id ← find ⟨0⟩ "outer[0].source"
      TreeM.look (·.isGroup id)
    let shown : TreeM Value := do value (← find ⟨0⟩ "copy[0]")
    (((count ⟨2⟩).run t).1.toOption, (source.run t).1.toOption, (shown.run t).1.isOk)) =
      some (some 1, some true, false) := by
  decide +kernel

end Tree

end FormatFuzz
