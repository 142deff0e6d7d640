-- SUMMARY: Groups get their elements and stay ready, in trees in which no group follows another one.
import FormatFuzz.Proofs.Likeness
import FormatFuzz.Proofs.Reachable

/-!
# Readiness

In a tree without bound groups, visiting a node makes all groups at and below it ready
(`Tree.visit_closes`), and there is always enough depth for it. So a new tree is settled, and it
stays settled when a group is given another count (`Tree.resize_settled`).

Groups that are being initialized are left out of account, because a visit passes them by.
-/

namespace FormatFuzz

open TreeM
open Relation (ReflTransGen)

-- ---------------------------------------------------------------------------
-- Templates
-- ---------------------------------------------------------------------------

namespace Template

mutual

theorem cellsIn_true : (τ : Template) → τ.CellsIn fun _ => True
  | .leaf _ _ => trivial
  | .composite _ fields => ⟨trivial, allCellsIn_true fields⟩
  | .repeated _ element _ => ⟨trivial, cellsIn_true element⟩

theorem allCellsIn_true : (τs : List Template) → AllCellsIn (fun _ => True) τs
  | [] => trivial
  | τ :: rest => ⟨cellsIn_true τ, allCellsIn_true rest⟩

end

mutual

theorem CellsIn.mono {C C' : Cell → Prop} (h : ∀ c, C c → C' c) :
    (τ : Template) → τ.CellsIn C → τ.CellsIn C'
  | .leaf _ _, hτ => h _ hτ
  | .composite _ fields, hτ => ⟨h _ hτ.1, AllCellsIn.mono h fields hτ.2⟩
  | .repeated _ element _, hτ => ⟨h _ hτ.1, CellsIn.mono h element hτ.2⟩

theorem AllCellsIn.mono {C C' : Cell → Prop} (h : ∀ c, C c → C' c) :
    (τs : List Template) → AllCellsIn C τs → AllCellsIn C' τs
  | [], _ => trivial
  | τ :: rest, hτs => ⟨CellsIn.mono h τ hτs.1, AllCellsIn.mono h rest hτs.2⟩

end

theorem one_le_size (τ : Template) : 1 ≤ τ.size := by
  cases τ with
  | leaf h kind => exact Nat.le_refl 1
  | composite h fields => exact Nat.le_add_right 1 _
  | repeated h element rule => exact Nat.le_add_right 1 _

theorem size_le_sizes {τs : List Template} {τ : Template} (h : τ ∈ τs) : τ.size ≤ sizes τs := by
  induction τs with
  | nil => cases h
  | cons σ rest ih =>
    rw [sizes]
    rcases List.mem_cons.mp h with rfl | h
    · exact Nat.le_add_right _ _
    · exact (ih h).trans (Nat.le_add_left _ _)

theorem size_part {σ σ' : Template} {name name' : String} {i : Nat}
    (h : σ.part name i = some (σ', name')) : σ'.size < σ.size := by
  cases σ with
  | leaf h' kind => cases h
  | composite h' fields =>
    obtain ⟨field, hfield, heq⟩ := Option.map_eq_some_iff.mp h
    cases heq
    have hle := size_le_sizes (List.mem_of_getElem? hfield)
    rw [size]
    omega
  | repeated h' element rule =>
    cases h
    rw [size]
    omega

end Template

namespace Tree

variable {τ : Template} {t t' t₁ t₂ : Tree} {x y id : NodeId} {n : Node}

-- ---------------------------------------------------------------------------
-- Phases
-- ---------------------------------------------------------------------------

/-- A group that is being initialized. -/
def Busy (t : Tree) (id : NodeId) : Prop :=
  ∃ n g, t.node? id = some n ∧ n.kind = .repeated g ∧ g.phase = .initializing

/-- A group without its elements. -/
def Pending (t : Tree) (id : NodeId) : Prop :=
  ∃ n g, t.node? id = some n ∧ n.kind = .repeated g ∧ g.phase ≠ .ready

theorem settled_iff : t.Settled ↔ ∀ id, ¬ t.Pending id := by
  constructor
  · rintro h id ⟨n, g, hn, hk, hphase⟩
    exact hphase (h hn hk)
  · intro h id n g hn hk
    by_contra hphase
    exact h id ⟨n, g, hn, hk, hphase⟩

/-- A group that has its elements. -/
def Served (t : Tree) (id : NodeId) : Prop :=
  ∃ n g, t.node? id = some n ∧ n.kind = .repeated g ∧ g.phase = .ready

/-- The group `x` is to be told when the group `y` changes its count. -/
def Watches (t : Tree) (x y : NodeId) : Prop :=
  ∃ n g, t.node? y = some n ∧ n.kind = .repeated g ∧ x ∈ g.watchers

/-- No group has been entered as a watcher. -/
def Unwatched (t : Tree) : Prop :=
  ∀ ⦃id n g⦄, t.node? id = some n → n.kind = .repeated g → g.watchers = []

theorem Unwatched.of_sameKinds (hw : t.Unwatched) (h : t.SameKinds t') : t'.Unwatched := by
  intro id n' g hn' hk
  obtain ⟨n, hn, hkind⟩ := h hn'
  exact hw hn (hkind.trans hk)

theorem Unwatched.of_watches (hw : t.Unwatched) (h : ∀ {x y}, t'.Watches x y → t.Watches x y) :
    t'.Unwatched := by
  intro id n' g' hn' hk'
  refine List.eq_nil_iff_forall_not_mem.mpr fun w hmem => ?_
  obtain ⟨n, g, hn, hk, hmem⟩ := h ⟨n', g', hn', hk', hmem⟩
  rw [hw hn hk] at hmem
  cases hmem

/-- The tree follows a template in which no group follows another one. -/
structure Free (τ : Template) (t : Tree) : Prop where
  unbound : τ.Every Template.Unbound
  wellFormed : t.WellFormed
  models : t.Models (fun _ => True) τ τ.name t.root
  unwatched : t.Unwatched

/-- The watchers of the group are outside of the part at a position, and nothing happens to them when they are
told. -/
def Muted (p : Position) (t : Tree) (x : NodeId) : Prop :=
  ∀ ⦃w⦄, t.Watches w x → w.index < t.nodes.size ∧ ¬ t.Served w ∧ ∀ q, t.placed q = some w → ¬ p <:+ q

/-- The groups at the positions of `D`, which are in the part at a position, follow no others and are muted. -/
structure FreeIn (τ : Template) (p : Position) (D : Position → Prop) (t : Tree) : Prop where
  wellFormed : t.WellFormed
  models : t.Models (fun _ => True) τ τ.name t.root
  unbound : ∀ {q σ name}, D q → τ.partAt q = some (σ, name) → σ.Unbound
  muted : ∀ {q x}, D q → t.placed q = some x → t.Muted p x

/-- All groups in the part at a position follow no others and are muted. -/
abbrev FreeAt (τ : Template) (p : Position) (t : Tree) : Prop :=
  t.FreeIn τ p (p <:+ ·)

/-- The groups strictly below a position follow no others and are muted. -/
abbrev FreeBelow (τ : Template) (p : Position) (t : Tree) : Prop :=
  t.FreeIn τ p fun q => ∃ i, (i :: p) <:+ q

/-- What is outside of the part at a position is as it was, and no group has lost its elements. -/
structure Closes (p : Position) (t t' : Tree) : Prop where
  evolves : Evolves (fun _ => True) t t'
  frame : ∀ {q y}, t.placed q = some y → ¬ p <:+ q →
    (t'.node? y).map Node.bare = (t.node? y).map Node.bare
  busy : ∀ {y}, t'.Busy y → t.Busy y
  pending : ∀ {y}, t'.Pending y → t.Pending y
  watches : ∀ {w y}, t'.Watches w y → t.Watches w y
  heard : ∀ {w y}, t.Watches w y → t'.isLive y = true → t'.Watches w y

/-- The groups strictly below a position have their elements. -/
def ReadyBelow (p : Position) (t : Tree) : Prop :=
  ∀ ⦃r i y⦄, t.placed (r ++ i :: p) = some y → ¬ t.Pending y

theorem not_suffix_of_cons {i : Nat} {p q : Position} (h : ¬ p <:+ q) : ¬ (i :: p) <:+ q :=
  fun hcons => h ((List.suffix_cons i p).trans hcons)

theorem not_cons_suffix (i : Nat) (p : Position) : ¬ (i :: p) <:+ p :=
  fun h => absurd h.length_le (by simp)

namespace Closes

variable {p q : Position}

theorem refl (p : Position) (t : Tree) : Closes p t t :=
  ⟨.refl _ t, fun _ _ => rfl, fun h => h, fun h => h, fun h => h, fun h _ => h⟩

theorem node? (h : Closes p t t') (hn : t.node? y = some n) (hq : t.placed q = some y) (hout : ¬ p <:+ q) :
    ∃ n', t'.node? y = some n' ∧ n'.bare = n.bare := by
  have hframe := h.frame hq hout
  rw [hn] at hframe
  exact Option.map_eq_some_iff.mp hframe

theorem placed (h : Closes p t t') (hwf : t.WellFormed) (hq : t.placed q = some y) (hout : ¬ p <:+ q) :
    t'.placed q = some y := by
  obtain ⟨n, hn⟩ := live_of_placed hwf hq
  obtain ⟨n', hn', -⟩ := h.node? hn hq hout
  exact (h.evolves.grows hwf).placed hwf (h.evolves.wellFormed hwf) hq (isLive_iff_node?.mpr ⟨n', hn'⟩)

theorem trans (h : Closes p t t₁) (hwf : t.WellFormed) (h' : Closes p t₁ t₂) : Closes p t t₂ where
  evolves := h.evolves.trans h'.evolves
  frame := fun hq hout => (h'.frame (h.placed hwf hq hout) hout).trans (h.frame hq hout)
  busy := fun hy => h.busy (h'.busy hy)
  pending := fun hy => h.pending (h'.pending hy)
  watches := fun hw => h.watches (h'.watches hw)
  heard := by
    intro w y hw hlive
    refine h'.heard (h.heard hw ?_) hlive
    obtain ⟨n, -, hn, -⟩ := hw
    obtain ⟨n₂, hn₂⟩ := isLive_iff_node?.mp hlive
    have hlt := (lt_size hn).trans_le (h.evolves.grows hwf).size
    obtain ⟨n₁, hn₁, -⟩ := (h'.evolves.grows (h.evolves.wellFormed hwf)).old hlt hn₂
    exact isLive_iff_node?.mpr ⟨n₁, hn₁⟩

theorem of_child {i : Nat} (h : Closes (i :: p) t t') : Closes p t t' where
  evolves := h.evolves
  frame := fun hq hout => h.frame hq (not_suffix_of_cons hout)
  busy := h.busy
  pending := h.pending
  watches := h.watches
  heard := h.heard

theorem of_like (h : t.Like t') : Closes p t t' where
  evolves := h.evolves
  frame := fun {_ y} _ _ => h.nodes y
  busy := by
    rintro y ⟨n', g, hn', hk, hphase⟩
    obtain ⟨n, hn, hkind⟩ := h.sameKinds hn'
    exact ⟨n, g, hn, hkind.trans hk, hphase⟩
  pending := by
    rintro y ⟨n', g, hn', hk, hphase⟩
    obtain ⟨n, hn, hkind⟩ := h.sameKinds hn'
    exact ⟨n, g, hn, hkind.trans hk, hphase⟩
  watches := by
    rintro w y ⟨n', g, hn', hk, hw⟩
    obtain ⟨n, hn, hkind⟩ := h.sameKinds hn'
    exact ⟨n, g, hn, hkind.trans hk, hw⟩
  heard := by
    rintro w y ⟨n, g, hn, hk, hw⟩ -
    obtain ⟨n', hn', hkind⟩ := h.symm.sameKinds hn
    exact ⟨n', g, hn', hkind.trans hk, hw⟩

theorem readyBelow (h : Closes p t t') (hwf : t.WellFormed) (hready : t.ReadyBelow q) :
    t'.ReadyBelow q := by
  intro r i y hy hpending
  obtain ⟨m, -, hm, -⟩ := h.pending hpending
  have hback := (h.evolves.grows hwf).placed_back hwf (h.evolves.wellFormed hwf) hm hy
  exact hready hback (h.pending hpending)

end Closes

theorem node?_modifyGroup {f : Group → Group} {n' : Node}
    (h : (t.modifyGroup id f).node? x = some n') :
    ∃ n, t.node? x = some n ∧ (x ≠ id ∧ n' = n ∨ x = id ∧ n'.children = n.children ∧
      ∀ g', n'.kind = .repeated g' → ∃ g, n.kind = .repeated g ∧ g' = f g) := by
  unfold modifyGroup at h
  rw [node?_modify] at h
  split at h
  · rename_i hx
    obtain ⟨n, hn, rfl⟩ := Option.map_eq_some_iff.mp h
    refine ⟨n, hx ▸ hn, .inr ⟨hx, ?_, fun g' hg' => ?_⟩⟩
    · cases n.kind <;> rfl
    · cases hk : n.kind with
      | repeated g =>
        rw [hk] at hg'
        cases hg'
        exact ⟨g, rfl, rfl⟩
      | leaf k =>
        rw [hk] at hg'
        dsimp only at hg'
        rw [hk] at hg'
        cases hg'
      | composite =>
        rw [hk] at hg'
        dsimp only at hg'
        rw [hk] at hg'
        cases hg'
  · rename_i hx
    exact ⟨n', h, .inl ⟨hx, rfl⟩⟩

theorem cell_modifyGroup {f : Group → Group} {n' : Node} (hn : t.node? x = some n)
    (hn' : (t.modifyGroup id f).node? x = some n') : n'.cell = n.cell := by
  unfold modifyGroup at hn'
  rw [node?_modify] at hn'
  split at hn'
  · rename_i hx
    rw [← hx, hn] at hn'
    cases hn'
    dsimp only
    cases n.kind <;> rfl
  · cases hn.symm.trans hn'
    rfl

-- ---------------------------------------------------------------------------
-- Names
-- ---------------------------------------------------------------------------

/-- Every node has a full name. -/
theorem fullName_ok (hwf : t.WellFormed) (hn : t.node? id = some n) :
    ∃ name, t.fullName id = .ok name := by
  have habove : ∀ fuel parent, (∀ p, parent = some p → ∃ m, t.node? p = some m) →
      ∃ names, t.namesAbove fuel parent = .ok names := by
    intro fuel
    induction fuel with
    | zero =>
      intro parent _
      cases parent <;> exact ⟨[], rfl⟩
    | succ fuel ih =>
      intro parent hlive
      cases parent with
      | none => exact ⟨[], rfl⟩
      | some p =>
        obtain ⟨m, hm⟩ := hlive p rfl
        obtain ⟨names, hnames⟩ := ih m.parent fun q hq => by
          obtain ⟨-, l, hl, -⟩ := hwf.of_parent hm hq
          exact ⟨l, hl⟩
        rw [namesAbove, node_eq_ok.mpr hm, ok_bind, hnames]
        split
        · exact ⟨[], rfl⟩
        · exact ⟨_, rfl⟩
  obtain ⟨names, hnames⟩ := habove (id.index + 1) n.parent fun p hp => by
    obtain ⟨-, m, hm, -⟩ := hwf.of_parent hn hp
    exact ⟨m, hm⟩
  unfold fullName
  rw [node_eq_ok.mpr hn, ok_bind, hnames]
  exact ⟨_, rfl⟩

-- ---------------------------------------------------------------------------
-- Groups that follow no others
-- ---------------------------------------------------------------------------

/-- The group at a position has the rule that the template has there. -/
theorem Models.rule {C : Cell → Prop} {p : Position} {g : Group} (hm : t.Models C τ τ.name t.root)
    (hp : t.placed p = some id) (hn : t.node? id = some n) (hk : n.kind = .repeated g) :
    ∃ h name, τ.partAt p = some (.repeated h g.element g.rule, name) := by
  obtain ⟨σ, name, hpart, hmodels⟩ := hm.placed hp
  have hrep := (hmodels.kind hn).2
  rw [hk] at hrep
  cases σ with
  | leaf h kind => cases hrep
  | composite h fields => cases hrep
  | repeated h element rule =>
    obtain ⟨m, g', hm', -, hk', helement, hrule, -⟩ := hmodels
    rw [hn] at hm'
    cases hm'
    rw [hk] at hk'
    cases hk'
    exact ⟨h, name, by rw [helement, hrule, hpart]⟩

theorem Free.step (h : t.Free τ) (hev : Evolves (fun _ => True) t t') (hw : t'.Unwatched) :
    t'.Free τ where
  unbound := h.unbound
  wellFormed := hev.wellFormed h.wellFormed
  models := h.models.evolve h.wellFormed τ.cellsIn_true hev
  unwatched := hw

theorem Free.freeAt (h : t.Free τ) (p : Position) : t.FreeAt τ p where
  wellFormed := h.wellFormed
  models := h.models
  unbound := fun _ hpart => (h.unbound.partAt hpart).self
  muted := by
    rintro q x - - w ⟨n, g, hn, hk, hw⟩
    rw [h.unwatched hn hk] at hw
    cases hw

namespace FreeIn

variable {p : Position} {D : Position → Prop}

/-- A change that enters no watchers, and gives no elements to groups outside of the part. -/
theorem evolve (h : t.FreeIn τ p D) (hev : Evolves (fun _ => True) t t')
    (hwatches : ∀ {w y}, t'.Watches w y → t.Watches w y)
    (hserved : ∀ {w}, w.index < t.nodes.size → (∀ q, t.placed q = some w → ¬ p <:+ q) → t'.Served w →
      t.Served w) : t'.FreeIn τ p D where
  wellFormed := hev.wellFormed h.wellFormed
  models := h.models.evolve h.wellFormed τ.cellsIn_true hev
  unbound := h.unbound
  muted := by
    intro q x hq hx w hw
    have hgrows := hev.grows h.wellFormed
    have hwf' := hev.wellFormed h.wellFormed
    have hw := hwatches hw
    obtain ⟨n, -, hn, -⟩ := id hw
    obtain ⟨hlt, hidle, hout⟩ := h.muted hq (hgrows.placed_back h.wellFormed hwf' hn hx) hw
    refine ⟨hlt.trans_le hgrows.size, fun hw' => hidle (hserved hlt hout hw'), fun q hq => ?_⟩
    obtain ⟨m', hm'⟩ := live_of_placed hwf' hq
    obtain ⟨m, hm, -⟩ := hgrows.old hlt hm'
    exact hout q (hgrows.placed_back h.wellFormed hwf' hm hq)

theorem step (h : t.FreeIn τ p D) (hcloses : Closes p t t') : t'.FreeIn τ p D := by
  refine h.evolve hcloses.evolves hcloses.watches ?_
  rintro w hlt hout ⟨n', g, hn', hk, hready⟩
  obtain ⟨n, hn, -⟩ := (hcloses.evolves.grows h.wellFormed).old hlt hn'
  obtain ⟨q, hq⟩ := exists_position h.wellFormed hn
  obtain ⟨m, hm, hbare⟩ := hcloses.node? hn hq (hout q hq)
  cases hn'.symm.trans hm
  have hkind := Node.kind_of_bare hbare
  exact ⟨n, g, hn, hkind.symm.trans hk, hready⟩

theorem below (h : t.FreeAt τ p) : t.FreeBelow τ p where
  wellFormed := h.wellFormed
  models := h.models
  unbound := fun ⟨i, hq⟩ => h.unbound ((List.suffix_cons i p).trans hq)
  muted := fun ⟨i, hq⟩ => h.muted ((List.suffix_cons i p).trans hq)

theorem child (h : t.FreeBelow τ p) (i : Nat) : t.FreeAt τ (i :: p) where
  wellFormed := h.wellFormed
  models := h.models
  unbound := fun hq => h.unbound ⟨i, hq⟩
  muted := by
    intro q x hq hx w hw
    obtain ⟨hlt, hidle, hout⟩ := h.muted ⟨i, hq⟩ hx hw
    exact ⟨hlt, hidle, fun q hq => not_suffix_of_cons (hout q hq)⟩

theorem rule (h : t.FreeIn τ p D) {q : Position} (hD : D q) (hq : t.placed q = some id)
    (hn : t.node? id = some n) {g : Group} (hk : n.kind = .repeated g) :
    ∀ path fields min max, g.rule ≠ .bound path fields min max := by
  intro path fields min max hrule
  obtain ⟨header, name, hpart⟩ := h.models.rule hq hn hk
  have hunbound := h.unbound hD hpart
  rw [hrule] at hunbound
  exact hunbound

end FreeIn

-- ---------------------------------------------------------------------------
-- Visiting children
-- ---------------------------------------------------------------------------

/-- All groups in the part at a position have their elements, unless they are being initialized. -/
structure Closed (p : Position) (t t' : Tree) : Prop extends Closes p t t' where
  below : ∀ {r y}, t'.placed (r ++ p) = some y → t'.Pending y → t.Busy y

/-- `visit` closes the children of the node at a position, and it does not fail where there is enough depth
for that. -/
def Visits (τ : Template) (p : Position) (enough : Prop) (visit : NodeId → TreeM Unit) : Prop :=
  ∀ t i c, FreeBelow τ p t → t.placed (i :: p) = some c →
    wp (visit c) (fun r t' => (r = .ok () → Closed (i :: p) t t') ∧ (enough → r = .ok ())) t

section

variable {p : Position} {enough : Prop} {visit : NodeId → TreeM Unit}
  (hvisit : Visits τ p enough visit)

include hvisit

theorem visitAll_closed (hfree : t.FreeBelow τ p) (hp : t.placed p = some x) (hn : t.node? x = some n) :
    wp (forIn n.children PUnit.unit fun c _ => do
      visit c
      return .yield PUnit.unit : TreeM PUnit) (fun r t' =>
        (r = .ok ⟨⟩ → Closes p t t' ∧ (∃ n', t'.node? x = some n' ∧ n'.bare = n.bare) ∧
          ∀ {r i y}, t'.placed (r ++ i :: p) = some y → t'.Pending y → t.Busy y) ∧
        (enough → r = .ok ⟨⟩)) t := by
  refine wp.forIn (fun rest s => s.FreeBelow τ p ∧ Closes p t s ∧
      (∃ n', s.node? x = some n' ∧ n'.bare = n.bare) ∧ ∃ done, n.children = done ++ rest ∧
      ∀ i < done.length, ∀ {r y}, s.placed (r ++ i :: p) = some y → s.Pending y → t.Busy y)
    ⟨hfree, .refl p t, ⟨n, hn, rfl⟩, [], rfl, fun i hi => absurd hi (Nat.not_lt_zero i)⟩ ?_ ?_
  · rintro s ⟨-, hcloses, ⟨n', hn', hbare⟩, done, hdone, hbelow⟩
    refine ⟨fun _ => ⟨hcloses, ⟨n', hn', hbare⟩, fun {r i y} hy => ?_⟩, fun _ => rfl⟩
    obtain ⟨c, hc⟩ := placed_suffix hy
    obtain ⟨above, m, habove, hm, hi⟩ := placed_cons.mp hc
    have hwf := hcloses.evolves.wellFormed hfree.wellFormed
    have hp' := (hcloses.evolves.grows hfree.wellFormed).placed hfree.wellFormed hwf hp
      (isLive_iff_node?.mpr ⟨n', hn'⟩)
    cases habove.symm.trans hp'
    cases hn'.symm.trans hm
    have hch : n'.children = n.children := Node.children_of_bare hbare
    have hlt := (List.getElem?_eq_some_iff.mp hi).1
    rw [hch, hdone, List.append_nil] at hlt
    exact hbelow i hlt hy
  · rintro c rest s ⟨hfree', hcloses, ⟨n', hn', hbare⟩, done, hdone, hbelow⟩
    have hwf' := hfree'.wellFormed
    have hch : n'.children = n.children := Node.children_of_bare hbare
    have hp' : s.placed p = some x :=
      (hcloses.evolves.grows hfree.wellFormed).placed hfree.wellFormed hwf' hp
        (isLive_iff_node?.mpr ⟨n', hn'⟩)
    have hc : s.placed (done.length :: p) = some c :=
      placed_cons.mpr ⟨x, n', hp', hn', by simp [hch, hdone]⟩
    rw [wp.bind]
    refine (hvisit s done.length c hfree' hc).mono ?_
    rintro (e | _) s' ⟨hok, henough⟩
    · exact ⟨fun h => absurd h error_ne_ok, fun h => absurd (henough h) error_ne_ok⟩
    · obtain ⟨hcloses', hbelow'⟩ := hok rfl
      have hcloses'' : Closes p s s' := hcloses'.of_child
      obtain ⟨n'', hn'', hbare'⟩ := hcloses'.node? hn' hp' (not_cons_suffix _ p)
      refine ⟨hfree'.step hcloses'', hcloses.trans hfree.wellFormed hcloses'', ⟨n'', hn'', hbare'.trans hbare⟩,
        done ++ [c], by rw [hdone, List.append_assoc]; rfl, fun i hi {r y} hy hpending => ?_⟩
      rw [List.length_append, List.length_singleton] at hi
      rcases Nat.lt_succ_iff_lt_or_eq.mp hi with hi | rfl
      · have hpending' := hcloses'.pending hpending
        obtain ⟨m, -, hm, -⟩ := id hpending'
        have hwf'' := hcloses'.evolves.wellFormed hwf'
        exact hbelow i hi ((hcloses'.evolves.grows hwf').placed_back hwf' hwf'' hm hy) hpending'
      · exact hcloses.busy (hbelow' hy hpending)

end

-- ---------------------------------------------------------------------------
-- Replacing elements
-- ---------------------------------------------------------------------------

section

variable {C : Cell → Prop} {element : Template} {elements : List NodeId}
  (h : Swapped C id element elements t t')

include h

/-- Groups that were there before are as they were, and new ones have not been touched. -/
theorem Swapped.group_cases {n' : Node} {g : Group} (hn' : t'.node? x = some n')
    (hk : n'.kind = .repeated g) :
    (x.index < t.nodes.size ∧ ∃ n, t.node? x = some n ∧ n.kind = .repeated g) ∨
      t.nodes.size ≤ x.index ∧ g.phase = .uninit ∧ g.watchers = [] := by
  rcases Nat.lt_or_ge x.index t.nodes.size with hlt | hge
  · refine .inl ⟨hlt, ?_⟩
    obtain ⟨hnot, -⟩ := h.old hlt hn'
    by_cases hx : x = id
    · obtain ⟨n, -, hn, -⟩ := h.self
      obtain ⟨m, hm, hkind, -⟩ := h.exchanged hn
      rw [← hx, hn'] at hm
      cases hm
      exact ⟨n, hx ▸ hn, hkind.symm.trans hk⟩
    · have hkept := h.kept hlt hx hnot
      rw [hn'] at hkept
      obtain ⟨n, hn, hbare⟩ := Option.map_eq_some_iff.mp hkept.symm
      have hkind := Node.kind_of_bare hbare
      exact ⟨n, hn, hkind.trans hk⟩
  · exact .inr ⟨hge, (h.fresh hge hn').new.group hk⟩

/-- New nodes are at or below the new elements. -/
theorem Swapped.below_element {n' : Node} (hge : t.nodes.size ≤ x.index)
    (hn' : t'.node? x = some n') : ∃ e ∈ elements, ReflTransGen t'.Lists e x := by
  obtain ⟨k, hk⟩ : ∃ k, x.index = k := ⟨_, rfl⟩
  induction k using Nat.strong_induction_on generalizing x n' with
  | _ k ih =>
    obtain ⟨-, hparent, -⟩ := h.fresh hge hn'
    rcases hparent with hx | ⟨p, m, -, hpge, hm, hcount⟩
    · exact ⟨x, hx, .refl⟩
    · have hmem : x ∈ m.children := List.count_pos_iff.mp (by omega)
      obtain ⟨hlt, -⟩ := (h.fresh hpge hm).child x hmem
      obtain ⟨e, he, hpath⟩ := ih p.index (hk ▸ hlt) hpge hm rfl
      exact ⟨e, he, hpath.tail ⟨m, hm, hmem⟩⟩

/-- New nodes are at positions below that of the group. -/
theorem Swapped.placed_fresh {p : Position} (hp : t'.placed p = some id) {n' : Node}
    (hge : t.nodes.size ≤ x.index) (hn' : t'.node? x = some n') : ∃ r i, t'.placed (r ++ i :: p) = some x := by
  obtain ⟨e, he, hpath⟩ := h.below_element hge hn'
  obtain ⟨n, -, hn, -⟩ := h.self
  obtain ⟨m, hm, -, hch⟩ := h.exchanged hn
  obtain ⟨i, hi⟩ := List.mem_iff_getElem?.mp he
  have hplace : t'.placed (i :: p) = some e := placed_cons.mpr ⟨id, m, hp, hm, by rwa [hch]⟩
  obtain ⟨r, hr⟩ := placed_of_path hplace hpath
  exact ⟨r, i, hr⟩

/-- Only new nodes are at positions below that of the group. -/
theorem Swapped.fresh_below {p r : Position} {i : Nat} (hwf' : t'.WellFormed) (hp : t'.placed p = some id)
    (hx : t'.placed (r ++ i :: p) = some x) : t.nodes.size ≤ x.index := by
  obtain ⟨n, -, hn, -⟩ := h.self
  obtain ⟨m, hm, -, hch⟩ := h.exchanged hn
  induction r generalizing x with
  | nil =>
    obtain ⟨above, l, habove, hl, hi⟩ := placed_cons.mp hx
    cases habove.symm.trans hp
    cases hm.symm.trans hl
    exact (h.roots (hch ▸ List.mem_of_getElem? hi)).1
  | cons j r ih =>
    obtain ⟨above, l, habove, hl, hi⟩ := placed_cons.mp hx
    exact (ih habove).trans (hwf'.child hl (List.mem_of_getElem? hi)).1.le

/-- What is outside of the group is as it was. -/
theorem Swapped.frame {p q : Position} (hwf : t.WellFormed) (hp : t.placed p = some id)
    (hq : t.placed q = some y) (hout : ¬ p <:+ q) :
    (t'.node? y).map Node.bare = (t.node? y).map Node.bare := by
  obtain ⟨n, hn⟩ := live_of_placed hwf hq
  refine h.kept (lt_size hn) ?_ ?_
  · rintro rfl
    cases placed_inj hwf hp hq
    exact hout (List.suffix_refl p)
  · rintro ⟨m, hm, c, hc, hpath⟩
    obtain ⟨r, hr⟩ := placed_of_path hp (.head ⟨m, hm, hc⟩ hpath)
    cases placed_inj hwf hr hq
    exact hout (List.suffix_append r p)

theorem Swapped.watches_old {w : NodeId} (hw : t'.Watches w y) : t.Watches w y := by
  obtain ⟨m, g, hm, hk, hw⟩ := hw
  rcases h.group_cases hm hk with ⟨-, l, hl, hlk⟩ | ⟨-, -, hnone⟩
  · exact ⟨l, g, hl, hlk, hw⟩
  · rw [hnone] at hw
    cases hw

/-- Groups that live on have the watchers that they had. -/
theorem Swapped.watches_kept {w : NodeId} (hw : t.Watches w y) (hlive : t'.isLive y = true) :
    t'.Watches w y := by
  obtain ⟨n, g, hn, hk, hw⟩ := hw
  obtain ⟨n', hn'⟩ := isLive_iff_node?.mp hlive
  obtain ⟨hnot, -⟩ := h.old (lt_size hn) hn'
  by_cases hy : y = id
  · obtain ⟨m', hm', hkind, -⟩ := h.exchanged (hy ▸ hn)
    exact ⟨m', g, hy ▸ hm', hkind.trans hk, hw⟩
  · have hkept := h.kept (lt_size hn) hy hnot
    rw [hn] at hkept
    obtain ⟨m', hm', hbare⟩ := Option.map_eq_some_iff.mp hkept
    have hkind := Node.kind_of_bare hbare
    exact ⟨m', g, hm', hkind.trans hk, hw⟩

/-- The groups of the new elements have not been touched, so none of them is being initialized. -/
theorem Swapped.busy_cases (hy : t'.Busy y) : y.index < t.nodes.size ∧ t.Busy y := by
  obtain ⟨m, g, hm, hk, hphase⟩ := hy
  rcases h.group_cases hm hk with ⟨hlt, l, hl, hlk⟩ | ⟨-, huninit, -⟩
  · exact ⟨hlt, l, g, hl, hlk, hphase⟩
  · rw [hphase] at huninit
    cases huninit

/-- When the new elements have been looked after, nothing is left of the exchange but the new nodes. -/
theorem Swapped.closes {p : Position} (hev : Evolves (fun _ => True) t t') (hwf : t.WellFormed)
    (hp : t.placed p = some id) (hcloses : Closes p t' t₁) (hready : t₁.ReadyBelow p) : Closes p t t₁ := by
  have hwf' := hev.wellFormed hwf
  have hwf₁ := hcloses.evolves.wellFormed hwf'
  obtain ⟨-, m, -, hm, -⟩ := h.self
  have hp' := (hev.grows hwf).placed hwf hwf' hp (isLive_iff_node?.mpr ⟨m, hm⟩)
  refine ⟨hev.trans hcloses.evolves, fun {q y} hq hout => ?frame, fun hy => (h.busy_cases (hcloses.busy hy)).2,
    fun {y} hy => ?pending, fun hw => h.watches_old (hcloses.watches hw), fun {w y} hw hlive => ?heard⟩
  case frame =>
    have hframe := h.frame hwf hp hq hout
    obtain ⟨l, hl⟩ := live_of_placed hwf hq
    rw [hl] at hframe
    obtain ⟨l', hl', -⟩ := Option.map_eq_some_iff.mp hframe
    have hq' := (hev.grows hwf).placed hwf hwf' hq (isLive_iff_node?.mpr ⟨l', hl'⟩)
    exact (hcloses.frame hq' hout).trans (h.frame hwf hp hq hout)
  case pending =>
    obtain ⟨l, g, hl, hk, hphase⟩ := hcloses.pending hy
    rcases h.group_cases hl hk with ⟨-, n, hn, hnk⟩ | ⟨hge, -, -⟩
    · exact ⟨n, g, hn, hnk, hphase⟩
    · obtain ⟨r, i, hr⟩ := h.placed_fresh hp' hge hl
      have hlive : t₁.isLive y = true := by
        obtain ⟨l₁, -, hl₁, -⟩ := hy
        exact isLive_iff_node?.mpr ⟨l₁, hl₁⟩
      exact absurd hy (hready ((hcloses.evolves.grows hwf').placed hwf' hwf₁ hr hlive))
  case heard =>
    refine hcloses.heard (h.watches_kept hw ?_) hlive
    obtain ⟨l₁, hl₁⟩ := isLive_iff_node?.mp hlive
    obtain ⟨n, -, hn, -⟩ := hw
    obtain ⟨l', hl', -⟩ := (hcloses.evolves.grows hwf').old ((lt_size hn).trans_le h.size) hl₁
    exact isLive_iff_node?.mpr ⟨l', hl'⟩

end

theorem Swapped.freeIn {element : Template} {elements : List NodeId} {p : Position} {D : Position → Prop}
    {g : Group} (h : Swapped (fun _ => True) id element elements t t') (hfree : t.FreeIn τ p D)
    (hn : t.node? id = some n) (hk : n.kind = .repeated g) (helement : g.element = element) :
    t'.FreeIn τ p D := by
  refine hfree.evolve (h.evolves hn hk helement) h.watches_old ?_
  rintro w hlt - ⟨m, g', hm, hk', hready⟩
  rcases h.group_cases hm hk' with ⟨-, l, hl, hlk⟩ | ⟨hge, -⟩
  · exact ⟨l, g', hl, hlk, hready⟩
  · exact absurd hlt (Nat.not_lt.mpr hge)

/-- A group that has no elements to lose is as it was when it has been told. -/
theorem markStale_like (h : ¬ t.Served id) : t.Like (t.markStale id) := by
  refine ⟨rfl, rfl, size_modify _, fun x => ?_⟩
  unfold markStale modifyGroup
  rw [node?_modify]
  split
  · rename_i hx
    subst hx
    cases hn : t.node? x with
    | none => rfl
    | some n =>
      rw [Option.map_some]
      cases hk : n.kind with
      | leaf kind => rfl
      | composite => rfl
      | repeated g =>
        have hphase : g.phase ≠ .ready := fun hready => h ⟨n, g, hn, hk, hready⟩
        simp [hphase, ← hk]
  · rfl

theorem Like.served (h : t.Like t') : t'.Served x ↔ t.Served x := by
  have hkept : ∀ {t t' : Tree}, t.Like t' → t'.Served x → t.Served x := by
    rintro t t' h ⟨n', g, hn', hk, hready⟩
    obtain ⟨n, hn, hkind⟩ := h.sameKinds hn'
    exact ⟨n, g, hn, hkind.trans hk, hready⟩
  exact ⟨hkept h, hkept h.symm⟩

theorem notify_muted {watchers : List NodeId} (h : ∀ w ∈ watchers, ¬ t.Served w) :
    wp (notify watchers) (fun r t' => r = .ok ⟨⟩ ∧ t.Like t') t := by
  unfold notify
  rw [wp.bind]
  refine wp.forIn (fun rest s => t.Like s ∧ ∀ w ∈ rest, ¬ t.Served w) ⟨.refl t, h⟩
    (fun s hs => ⟨rfl, hs.1⟩) ?_
  rintro w rest s ⟨hlike, hrest⟩
  have hrest' : ∀ w ∈ rest, ¬ t.Served w := fun w hw => hrest w (List.mem_cons_of_mem _ hw)
  rw [wp.bind, wp.get]
  dsimp only
  split
  · simp only [wp.bind, wp.modify, wp.pure]
    have hmark : s.Like (s.markStale w) :=
      markStale_like fun hw => hrest w List.mem_cons_self (hlike.served.mp hw)
    exact ⟨hlike.trans (hmark.trans .of_invalidate), hrest'⟩
  · exact ⟨hlike, hrest'⟩

section

variable {p : Position} {enough : Prop} {visit : NodeId → TreeM Unit} {g : Group}
  (hvisit : Visits τ p enough visit) (hfree : t.FreeBelow τ p) (hp : t.placed p = some id)
  (hn : t.node? id = some n) (hk : n.kind = .repeated g)

include hvisit hfree hp hn hk

/-- When the watchers of a group are told, it has its new elements, and no group in these is without its own. -/
theorem replaceElements_visits {count : Nat} {Q : Except TreeError Unit → Tree → Prop}
    (hsame : n.children.length = count → Q (.ok ()) t) (hfail : ∀ e s, ¬ enough → Q (.error e) s)
    (htell : ∀ s n', n.children.length ≠ count → Closes p t s → s.node? id = some n' → n'.kind = n.kind →
      n'.children.length = count → wp (notify g.watchers) Q s) :
    wp (replaceElementsWith visit id count) Q t := by
  have hwf := hfree.wellFormed
  unfold replaceElementsWith
  simp only [wp.bind, wp.look, children, look_of_node? hn]
  split
  · exact hsame ‹_›
  rename_i hne
  simp only [wp.bind, wp.look, group_eq_ok.mpr ⟨n, hn, hk⟩]
  refine (swapElements_spec (C := fun _ => True) (fun _ => trivial) hwf hn g.element count).mono ?_
  rintro _ t₂ ⟨elements, rfl, hcount, hswap⟩
  have hev := hswap.evolves hn hk rfl
  have hwf₂ := hswap.wellFormed hwf
  obtain ⟨n₂, hn₂, hkind₂, hch⟩ := hswap.exchanged hn
  have hp₂ := (hev.grows hwf).placed hwf hwf₂ hp (isLive_iff_node?.mpr ⟨n₂, hn₂⟩)
  have hfree₂ : t₂.FreeBelow τ p := hswap.freeIn hfree hn hk rfl
  have hloop := visitAll_closed hvisit hfree₂ hp₂ hn₂
  rw [hch] at hloop
  refine hloop.mono ?_
  rintro (e | _) t₃ ⟨hok, henough⟩
  · exact hfail e t₃ fun h => absurd (henough h) error_ne_ok
  obtain ⟨hcloses, ⟨n₃, hn₃, hbare₃⟩, hbelow⟩ := hok rfl
  have hwf₃ := hcloses.evolves.wellFormed hwf₂
  have hkind₃ : n₃.kind = n₂.kind := Node.kind_of_bare hbare₃
  have hch₃ : n₃.children = n₂.children := Node.children_of_bare hbare₃
  have hready₃ : t₃.ReadyBelow p := by
    intro r i y hy hpending
    obtain ⟨m, -, hm, -⟩ := hcloses.pending hpending
    have hy₂ := (hcloses.evolves.grows hwf₂).placed_back hwf₂ hwf₃ hm hy
    obtain ⟨hlt, -⟩ := hswap.busy_cases (hbelow hy hpending)
    exact absurd hlt (Nat.not_lt.mpr (hswap.fresh_below hwf₂ hp₂ hy₂))
  have hclosed : Closes p t t₃ := hswap.closes hev hwf hp hcloses hready₃
  simp only [wp.modify]
  have hlike : t₃.Like (t₃.invalidate id) := .of_invalidate
  obtain ⟨n₄, hn₄, hbare₄⟩ := hlike.node? hn₃
  have hkind₄ : n₄.kind = n₃.kind := Node.kind_of_bare hbare₄
  have hch₄ : n₄.children = n₃.children := Node.children_of_bare hbare₄
  have hcloses₄ : Closes p t₃ (t₃.invalidate id) := .of_like hlike
  exact htell _ n₄ hne (hclosed.trans hwf hcloses₄) hn₄ (by rw [hkind₄, hkind₃, hkind₂])
    (by rw [hch₄, hch₃, hch, hcount])

/-- Replacing the elements of a group leaves no new group without elements. -/
theorem replaceElements_closes (hmuted : t.Muted p id) (count : Nat) :
    wp (replaceElementsWith visit id count) (fun r t' => (r = .ok () → Closes p t t' ∧
      ∃ n', t'.node? id = some n' ∧ n'.kind = n.kind ∧ n'.children.length = count) ∧
        (enough → r = .ok ())) t := by
  have hwf := hfree.wellFormed
  refine replaceElements_visits hvisit hfree hp hn hk (fun hcount => ?_) (fun e s hnot => ?_)
    fun s n' hne hclosed hn' hk' hcount => ?_
  · exact ⟨fun _ => ⟨.refl p t, n, hn, rfl, hcount⟩, fun _ => rfl⟩
  · exact ⟨fun h => absurd h error_ne_ok, fun h => absurd h hnot⟩
  have hidle : ∀ w ∈ g.watchers, ¬ s.Served w := by
    rintro w hw ⟨l₃, g₃, hl₃, hlk₃, hready⟩
    obtain ⟨hlt, hidle, hout⟩ := hmuted ⟨n, g, hn, hk, hw⟩
    obtain ⟨l, hl, -⟩ := (hclosed.evolves.grows hwf).old hlt hl₃
    obtain ⟨q, hq⟩ := exists_position hwf hl
    obtain ⟨l', hl', hbare'⟩ := hclosed.node? hl hq (hout q hq)
    cases hl₃.symm.trans hl'
    have hkind := Node.kind_of_bare hbare'
    exact hidle ⟨l, g₃, hl, hkind.symm.trans hlk₃, hready⟩
  refine (notify_muted hidle).mono ?_
  rintro _ t' ⟨rfl, hlike⟩
  obtain ⟨n'', hn'', hbare⟩ := hlike.node? hn'
  have hcloses : Closes p s t' := .of_like hlike
  refine ⟨fun _ => ⟨hclosed.trans hwf hcloses, n'', hn'', ?_, ?_⟩, fun _ => rfl⟩
  · exact (Node.kind_of_bare hbare).trans hk'
  · exact (congrArg List.length (Node.children_of_bare hbare)).trans hcount

end

-- ---------------------------------------------------------------------------
-- Tasks
-- ---------------------------------------------------------------------------

section

variable {init : NodeId → TreeM Unit} {g : Group} (hn : t.node? id = some n) (hk : n.kind = .repeated g)
  (hrule : ∀ path fields min max, g.rule ≠ .bound path fields min max)

include hn hk hrule

theorem countByRule_free (hwf : t.WellFormed) :
    wp (countByRuleWith init id) (fun r t' => t' = t ∧ ∃ k, r = .ok k) t := by
  unfold countByRuleWith
  simp only [wp.bind, wp.look, group_eq_ok.mpr ⟨n, hn, hk⟩]
  cases hcount : g.rule with
  | fixed count => exact ⟨rfl, count, rfl⟩
  | random min max =>
    obtain ⟨name, hname⟩ := fullName_ok hwf hn
    simp only [wp.look, randomCount, generator, hname]
    exact ⟨trivial, _, rfl⟩
  | bound path fields min max => exact absurd hcount (hrule path fields min max)

theorem linkElements_free : wp (linkElementsWith init id) (fun r t' => t' = t ∧ r = .ok ()) t := by
  unfold linkElementsWith
  simp only [wp.bind, wp.look, group_eq_ok.mpr ⟨n, hn, hk⟩]
  cases hlinks : g.rule with
  | fixed count => exact ⟨rfl, rfl⟩
  | random min max => exact ⟨rfl, rfl⟩
  | bound path fields min max => exact absurd hlinks (hrule path fields min max)

end

theorem node?_modifyGroup_self {f : Group → Group} (hn : t.node? id = some n) {g : Group}
    (hk : n.kind = .repeated g) :
    (t.modifyGroup id f).node? id = some { n with kind := .repeated (f g) } := by
  unfold modifyGroup
  rw [node?_modify_self, hn, Option.map_some, hk]

/-- What a group is after a change of phase. -/
theorem group_setPhase {phase : Phase} {n' : Node} {g' : Group}
    (hn' : (t.modifyGroup id ({ · with phase })).node? x = some n') (hk : n'.kind = .repeated g') :
    (x ≠ id ∧ t.node? x = some n') ∨ x = id ∧ g'.phase = phase ∧
      ∃ n g, t.node? x = some n ∧ n.kind = .repeated g ∧ g.watchers = g'.watchers := by
  obtain ⟨n, hn, ⟨hne, rfl⟩ | ⟨he, -, hgroup⟩⟩ := node?_modifyGroup hn'
  · exact .inl ⟨hne, hn⟩
  · obtain ⟨g, hg, rfl⟩ := hgroup g' hk
    exact .inr ⟨he, rfl, n, g, hn, hg, rfl⟩

theorem watches_setPhase (phase : Phase) :
    (t.modifyGroup id ({ · with phase })).Watches x y ↔ t.Watches x y := by
  constructor
  · rintro ⟨n', g', hn', hk, hw⟩
    rcases group_setPhase hn' hk with ⟨-, hn⟩ | ⟨-, -, n, g, hn, hg, hwatchers⟩
    · exact ⟨n', g', hn, hk, hw⟩
    · exact ⟨n, g, hn, hg, hwatchers ▸ hw⟩
  · rintro ⟨n, g, hn, hk, hw⟩
    by_cases hy : y = id
    · subst hy
      exact ⟨_, _, node?_modifyGroup_self hn hk, rfl, hw⟩
    · exact ⟨n, g, (node?_modify_ne _ hy).trans hn, hk, hw⟩

/-- A group may change its phase if it has no elements to lose afterwards. -/
theorem FreeIn.setPhase {p : Position} {D : Position → Prop} (hfree : t.FreeIn τ p D) {phase : Phase}
    (hphase : phase ≠ .ready) : (t.modifyGroup id ({ · with phase })).FreeIn τ p D := by
  refine hfree.evolve (.of_modifyGroup fun _ => rfl) (watches_setPhase phase).mp ?_
  rintro w - - ⟨n', g', hn', hk, hready⟩
  rcases group_setPhase hn' hk with ⟨-, hn⟩ | ⟨-, hphase', -⟩
  · exact ⟨n', g', hn, hk, hready⟩
  · exact absurd (hphase'.symm.trans hready) hphase

/-- The group at a position has got its elements, unless it is being initialized. -/
structure Touched (p : Position) (x : NodeId) (t t' : Tree) : Prop extends Closes p t t' where
  live : t'.isLive x = true
  self : t'.Pending x → t.Busy x

/-- What is between the beginning and the end of an initialization leaves the group aside. -/
theorem Closes.initialized {p : Position} (hwf : t.WellFormed) (hp : t.placed p = some id)
    (h : Closes p (t.modifyGroup id ({ · with phase := .initializing })) t₁)
    (hn₁ : t₁.node? id = some n) {g : Group} (hk : n.kind = .repeated g) :
    Touched p id t (t₁.modifyGroup id ({ · with phase := .ready })) := by
  have hev : Evolves (fun _ => True) t (t.modifyGroup id ({ · with phase := .initializing })) :=
    .of_modifyGroup fun _ => rfl
  have hev₁ : Evolves (fun _ => True) t₁ (t₁.modifyGroup id ({ · with phase := .ready })) :=
    .of_modifyGroup fun _ => rfl
  refine ⟨⟨hev.trans (h.evolves.trans hev₁), ?frame, ?busy, ?pending, ?watches, ?heard⟩, ?live, ?self⟩
  case frame =>
    intro q y hq hout
    have hne : y ≠ id := by
      rintro rfl
      cases placed_inj hwf hp hq
      exact hout (List.suffix_refl p)
    have hkept : ∀ (t : Tree) (phase : Phase),
        (t.modifyGroup id ({ · with phase })).node? y = t.node? y := fun t phase => node?_modify_ne _ hne
    obtain ⟨m, hm⟩ := live_of_placed hwf hq
    have hq' := (hev.grows hwf).placed hwf (hev.wellFormed hwf) hq
      (isLive_iff_node?.mpr ⟨m, (hkept t .initializing).trans hm⟩)
    rw [hkept, h.frame hq' hout, hkept]
  case busy =>
    rintro y ⟨n', g', hn', hk, hphase⟩
    rcases group_setPhase hn' hk with ⟨hne, hn₁⟩ | ⟨-, hready, -⟩
    · obtain ⟨n, g, hn, hg, hphase⟩ := h.busy ⟨n', g', hn₁, hk, hphase⟩
      rcases group_setPhase hn hg with ⟨-, hn⟩ | ⟨he, -⟩
      · exact ⟨n, g, hn, hg, hphase⟩
      · exact absurd he hne
    · rw [hready] at hphase
      cases hphase
  case pending =>
    rintro y ⟨n', g', hn', hk, hphase⟩
    rcases group_setPhase hn' hk with ⟨hne, hn₁⟩ | ⟨-, hready, -⟩
    · obtain ⟨n, g, hn, hg, hphase⟩ := h.pending ⟨n', g', hn₁, hk, hphase⟩
      rcases group_setPhase hn hg with ⟨-, hn⟩ | ⟨he, -⟩
      · exact ⟨n, g, hn, hg, hphase⟩
      · exact absurd he hne
    · exact absurd hready hphase
  case watches => exact fun hw => (watches_setPhase _).mp (h.watches ((watches_setPhase _).mp hw))
  case heard =>
    intro w y hw hlive
    refine (watches_setPhase _).mpr (h.heard ((watches_setPhase _).mpr hw) ?_)
    obtain ⟨n', hn'⟩ := isLive_iff_node?.mp hlive
    obtain ⟨n, hn, -⟩ := node?_modifyGroup hn'
    exact isLive_iff_node?.mpr ⟨n, hn⟩
  case live => exact isLive_iff_node?.mpr ⟨_, node?_modifyGroup_self hn₁ hk⟩
  case self =>
    rintro ⟨n', g', hn', hk, hphase⟩
    rcases group_setPhase hn' hk with ⟨hne, -⟩ | ⟨-, hready, -⟩
    · exact absurd rfl hne
    · exact absurd hready hphase

/-- Initialization closes a group, and it succeeds if the visits to its elements do. -/
theorem initStep_closes {run : Task → TreeM Unit} {p : Position} {enough : Prop}
    (hvisit : Visits τ p enough fun id => run (.visit id)) (hfree : t.FreeAt τ p)
    (hp : t.placed p = some id) (hn : t.node? id = some n) {g : Group}
    (hk : n.kind = .repeated g) :
    wp (initStep run id) (fun r t' => (r = .ok () → Touched p id t t') ∧ (enough → r = .ok ())) t := by
  have hwf := hfree.wellFormed
  have hfree₁ : (t.modifyGroup id ({ · with phase := .initializing })).FreeAt τ p := hfree.setPhase nofun
  have hev₁ : Evolves (fun _ => True) t (t.modifyGroup id ({ · with phase := .initializing })) :=
    .of_modifyGroup fun _ => rfl
  have hn₁ := node?_modifyGroup_self (f := ({ · with phase := .initializing })) hn hk
  have hp₁ := (hev₁.grows hwf).placed hwf hfree₁.wellFormed hp (isLive_iff_node?.mpr ⟨_, hn₁⟩)
  unfold initStep
  simp only [wp.bind, wp.update, wp.outcome, setPhase, node_eq_ok.mpr hn, ok_bind, pure_eq_ok]
  have hself := List.suffix_refl p
  refine (countByRule_free hn₁ rfl (hfree₁.rule hself hp₁ hn₁ rfl) hfree₁.wellFormed).mono ?_
  rintro _ t₂ ⟨rfl, count, rfl⟩
  refine (replaceElements_closes hvisit hfree₁.below hp₁ hn₁ rfl (hfree₁.muted hself hp₁) count).mono ?_
  rintro (e | _) t₃ ⟨hok, henough⟩
  · have hfail : ∀ {r : Except TreeError Unit} {t' : Tree}, (∃ e, r = .error e) →
        (r = .ok () → Touched p id t t') ∧ (enough → r = .ok ()) := by
      rintro _ t' ⟨e', rfl⟩
      exact ⟨fun h => absurd h error_ne_ok, fun h => absurd (henough h) error_ne_ok⟩
    dsimp only
    split
    · exact hfail ⟨e, rfl⟩
    · exact hfail ⟨_, rfl⟩
  · obtain ⟨hcloses, n₃, hn₃, hk₃, -⟩ := hok rfl
    have hfree₃ := hfree₁.step hcloses
    have hp₃ := (hcloses.evolves.grows hfree₁.wellFormed).placed hfree₁.wellFormed hfree₃.wellFormed hp₁
      (isLive_iff_node?.mpr ⟨n₃, hn₃⟩)
    refine (linkElements_free hn₃ hk₃ (hfree₃.rule hself hp₃ hn₃ hk₃)).mono ?_
    rintro _ t₄ ⟨rfl, rfl⟩
    simp only [wp.update, node_eq_ok.mpr hn₃, ok_bind]
    exact ⟨fun _ => hcloses.initialized hwf hp hn₃ hk₃, fun _ => trivial⟩

-- ---------------------------------------------------------------------------
-- Runs
-- ---------------------------------------------------------------------------

theorem Touched.of_ready {p : Position} (h : ¬ t.Pending x ∨ t.Busy x) (hn : t.node? x = some n) :
    Touched p x t t where
  toCloses := .refl p t
  live := isLive_iff_node?.mpr ⟨n, hn⟩
  self := fun hp => h.resolve_left fun hnot => hnot hp

/-- Touching a group initializes it if need be. -/
theorem touchWith_closes {init : NodeId → TreeM Unit} {p : Position} {enough : Prop}
    (hn : t.node? id = some n) {g : Group} (hk : n.kind = .repeated g)
    (hinit : wp (init id) (fun r t' => (r = .ok () → Touched p id t t') ∧ (enough → r = .ok ())) t) :
    wp (touchWith init id) (fun r t' => (r = .ok () → Touched p id t t') ∧ (enough → r = .ok ())) t := by
  unfold touchWith
  simp only [wp.bind, wp.look, group_eq_ok.mpr ⟨n, hn, hk⟩]
  cases hphase : g.phase with
  | uninit => exact hinit
  | stale => exact hinit
  | initializing => exact ⟨fun _ => .of_ready (.inr ⟨n, g, hn, hk, hphase⟩) hn, fun _ => rfl⟩
  | ready =>
    refine ⟨fun _ => .of_ready (.inl ?_) hn, fun _ => rfl⟩
    rintro ⟨n', g', hn', hk', hphase'⟩
    rw [hn] at hn'
    cases hn'
    rw [hk] at hk'
    cases hk'
    exact hphase' hphase

/-- After a node itself its children are closed. -/
theorem visitRest_closed {p : Position} {enough : Prop} {visit : NodeId → TreeM Unit}
    (hwf : t.WellFormed) (hvisit : Visits τ p enough visit) (hfree : t₁.FreeBelow τ p)
    (hp : t₁.placed p = some x) (ht : Touched p x t t₁) :
    wp (do
      for child in ← TreeM.look (·.children x) do
        visit child : TreeM Unit) (fun r t' => (r = .ok () → Closed p t t') ∧ (enough → r = .ok ())) t₁ := by
  obtain ⟨n, hn⟩ := isLive_iff_node?.mp ht.live
  simp only [wp.bind, wp.look, children, look_of_node? hn]
  refine (visitAll_closed hvisit hfree hp hn).mono ?_
  rintro (e | _) t' ⟨hok, henough⟩
  · exact ⟨fun h => absurd h error_ne_ok, fun h => absurd (henough h) error_ne_ok⟩
  · obtain ⟨hcloses, -, hbelow⟩ := hok rfl
    simp only [wp.pure]
    refine ⟨fun _ => ⟨ht.toCloses.trans hwf hcloses, fun {r y} hy hpending => ?_⟩, fun _ => trivial⟩
    rcases List.eq_nil_or_concat r with rfl | ⟨r, i, rfl⟩
    · obtain ⟨m, -, hm, -⟩ := hcloses.pending hpending
      have hp' := (hcloses.evolves.grows hfree.wellFormed).placed_back hfree.wellFormed
        (hcloses.evolves.wellFormed hfree.wellFormed) hm hy
      cases hp.symm.trans hp'
      exact ht.self (hcloses.pending hpending)
    · rw [List.concat_eq_append, List.append_assoc] at hy
      exact ht.busy (hbelow hy hpending)

/-- Visits that are deep enough for each part below a position are deep enough for all of them. -/
theorem Visits.of_parts {p : Position} {σ : Template} {name : String} {depth : Nat} {enough : Prop}
    {visit : NodeId → TreeM Unit} (hpart : τ.partAt p = some (σ, name))
    (hvisit : ∀ {t : Tree} {i c σ' name'}, t.FreeAt τ (i :: p) → t.placed (i :: p) = some c →
      τ.partAt (i :: p) = some (σ', name') → wp (visit c) (fun r t' =>
        (r = .ok () → Closed (i :: p) t t') ∧ (2 * σ'.size ≤ depth + 1 → r = .ok ())) t)
    (henough : enough → 2 * σ.size ≤ depth + 3) : Visits τ p enough visit := by
  intro t i c hfree hc
  obtain ⟨σ', name', hpart', -⟩ := hfree.models.placed hc
  have hσ' : σ.part name i = some (σ', name') := by
    rw [Template.partAt, hpart] at hpart'
    exact hpart'
  have hsize := Template.size_part hσ'
  refine (hvisit (hfree.child i) hc hpart').mono ?_
  rintro r t' ⟨hok, hdepth⟩
  exact ⟨hok, fun h => hdepth (by have := henough h; omega)⟩

/-- A visit makes the groups at and below a node ready, and it does not fail if the depth allows
for the template of the node. -/
theorem runTask_closes (depth : Nat) {p : Position} {σ : Template} {name : String}
    (hfree : t.FreeAt τ p) (hp : t.placed p = some x) (hpart : τ.partAt p = some (σ, name)) :
    wp (runTask depth (.visit x)) (fun r t' =>
        (r = .ok () → Closed p t t') ∧ (2 * σ.size ≤ depth + 1 → r = .ok ())) t ∧
      (σ.isRepeated = true → wp (runTask depth (.init x)) (fun r t' =>
        (r = .ok () → Touched p x t t') ∧ (2 * σ.size ≤ depth + 2 → r = .ok ())) t) := by
  induction depth generalizing t x p σ name with
  | zero =>
    have hsize := σ.one_le_size
    have hfail : ∀ {P : Prop}, (Except.error .nestingLimit : Except TreeError Unit) = .ok () → P :=
      fun h => absurd h error_ne_ok
    refine ⟨⟨hfail, fun h => by omega⟩, fun hrep => ⟨hfail, fun h => ?_⟩⟩
    cases σ with
    | leaf h' kind => cases hrep
    | composite h' fields => cases hrep
    | repeated h' element rule =>
      have hsize' := element.one_le_size
      rw [Template.size] at h
      omega
  | succ depth ih =>
    have hvisits : ∀ enough : Prop, (enough → 2 * σ.size ≤ depth + 3) →
        Visits τ p enough fun id => runTask depth (.visit id) :=
      fun enough => .of_parts hpart fun hfree hc hpart' => (ih hfree hc hpart').1
    obtain ⟨n, hn⟩ := live_of_placed hfree.wellFormed hp
    obtain ⟨σ₀, name₀, hpart₀, hm⟩ := hfree.models.placed hp
    rw [hpart] at hpart₀
    cases hpart₀
    have hrep : n.kind.isRepeated = σ.isRepeated := (hm.kind hn).2
    refine ⟨?_, fun hσ => ?_⟩
    · have hrest : ∀ {t₁}, Touched p x t t₁ →
          wp (do
            for child in ← TreeM.look (·.children x) do
              runTask depth (.visit child) : TreeM Unit)
            (fun r t' => (r = .ok () → Closed p t t') ∧ (2 * σ.size ≤ depth + 1 + 1 → r = .ok ())) t₁ := by
        intro t₁ ht
        have hfree₁ := hfree.step ht.toCloses
        have hp₁ := (ht.evolves.grows hfree.wellFormed).placed hfree.wellFormed hfree₁.wellFormed hp ht.live
        exact visitRest_closed hfree.wellFormed
          (hvisits (2 * σ.size ≤ depth + 1 + 1) fun h => by omega) hfree₁.below hp₁ ht
      rw [runTask, visitStep, wp.bind, wp.look, isGroup, look_of_node? hn]
      dsimp only
      cases hσ : σ.isRepeated with
      | false =>
        rw [hσ] at hrep
        rw [hrep]
        refine hrest (.of_ready (.inl ?_) hn)
        rintro ⟨n', g, hn', hk, -⟩
        rw [hn] at hn'
        cases hn'
        rw [hk] at hrep
        cases hrep
      | true =>
        rw [hσ] at hrep
        rw [hrep]
        obtain ⟨g, hk⟩ := NodeKind.isRepeated_iff.mp hrep
        rw [if_pos rfl, wp.bind]
        refine (touchWith_closes hn hk ((ih hfree hp hpart).2 hσ)).mono ?_
        rintro (e | _) t₁ ⟨hok, henough⟩
        · exact ⟨fun h => absurd h error_ne_ok, fun h => absurd (henough h) error_ne_ok⟩
        · exact hrest (hok rfl)
    · obtain ⟨g, hk⟩ := NodeKind.isRepeated_iff.mp (hrep.trans hσ)
      exact initStep_closes (hvisits (2 * σ.size ≤ depth + 3) fun h => h) hfree hp hn hk

theorem visits_runTask {p : Position} {σ : Template} {name : String} {enough : Prop} (depth : Nat)
    (hpart : τ.partAt p = some (σ, name)) (henough : enough → 2 * σ.size ≤ depth + 3) :
    Visits τ p enough fun id => runTask depth (.visit id) :=
  .of_parts hpart (fun hfree hc hpart' => (runTask_closes depth hfree hc hpart').1) henough

-- ---------------------------------------------------------------------------
-- Operations
-- ---------------------------------------------------------------------------

/-- A group weighs as much as its template. -/
theorem Models.size_le_weight {C : Cell → Prop} {p : Position} {σ : Template} {name : String}
    (h : t.Models C τ τ.name t.root) (hp : t.placed p = some x) (hpart : τ.partAt p = some (σ, name))
    (hrep : σ.isRepeated = true) : σ.size ≤ t.weight := by
  obtain ⟨σ', name', hpart', hm⟩ := h.placed hp
  rw [hpart] at hpart'
  cases hpart'
  cases σ with
  | leaf h kind => cases hrep
  | composite h fields => cases hrep
  | repeated h element rule =>
    obtain ⟨n, g, hn, -, hk, helement, -⟩ := hm
    have hle := le_total Node.weight hn
    rw [Node.weight, hk] at hle
    dsimp only at hle
    rwa [helement] at hle

/-- The depth of a task always allows for the elements of a group. -/
theorem visits_perform {p : Position} (hrep : (τ.partAt p).any (·.1.isRepeated) = true) :
    Visits τ p True fun id => perform (.visit id) := by
  intro t i c hfree hc
  obtain ⟨x, n, hp, hn, hi⟩ := placed_cons.mp hc
  obtain ⟨σ, name, hpart, -⟩ := hfree.models.placed hp
  rw [hpart, Option.any_some] at hrep
  have hsize := hfree.models.size_le_weight hp hpart hrep
  unfold perform
  rw [wp.bind, wp.get]
  exact visits_runTask _ hpart (fun _ => by omega) t i c hfree hc

section

variable {p : Position} {g : Group} (hfree : t.Free τ) (hs : t.Settled) (hn : t.node? id = some n)
  (hk : n.kind = .repeated g) (count : Nat)

include hfree hn hk

/-- Without bound groups, new elements can always be initialized. -/
theorem replaceElements_succeeds (hp : t.placed p = some id) :
    wp (replaceElementsWith (fun id => perform (.visit id)) id count) (fun r t' => r = .ok () ∧ Closes p t t' ∧
      ∃ n', t'.node? id = some n' ∧ n'.kind = n.kind ∧ n'.children.length = count) t := by
  obtain ⟨σ, name, hpart, hm⟩ := hfree.models.placed hp
  have hrep : (τ.partAt p).any (·.1.isRepeated) = true := by
    rw [hpart, Option.any_some, ← (hm.kind hn).2]
    exact NodeKind.isRepeated_iff.mpr ⟨g, hk⟩
  have hat := hfree.freeAt p
  have hmuted := hat.muted (List.suffix_refl p) hp
  refine (replaceElements_closes (visits_perform hrep) hat.below hp hn hk hmuted count).mono ?_
  rintro r t' ⟨hok, henough⟩
  have hr := henough trivial
  exact ⟨hr, hok hr⟩

include hs

/-- In a settled tree without bound groups, a group can be given another count, and all groups have their
elements afterwards. -/
theorem resize_succeeds : wp (resize id count) (fun r t' => r = .ok () ∧ t'.Settled ∧ t'.Unwatched ∧
    ∃ n', t'.node? id = some n' ∧ n'.children.length = count) t := by
  have hgroup : t.group id = .ok g := group_eq_ok.mpr ⟨n, hn, hk⟩
  unfold resize touch touchWith
  simp only [wp.bind, wp.look, hgroup, hs.group hgroup, wp.pure]
  obtain ⟨p, hp⟩ := exists_position hfree.wellFormed hn
  refine (replaceElements_succeeds hfree hn hk count hp).mono ?_
  rintro _ t₁ ⟨rfl, hcloses, n₁, hn₁, hkind₁, hcount⟩
  have hat := hfree.freeAt p
  have hat₁ := hat.step hcloses
  have hp₁ := (hcloses.evolves.grows hat.wellFormed).placed hat.wellFormed hat₁.wellFormed hp
    (isLive_iff_node?.mpr ⟨n₁, hn₁⟩)
  have hk₁ := hkind₁.trans hk
  refine (linkElements_free hn₁ hk₁ (hat₁.rule (List.suffix_refl p) hp₁ hn₁ hk₁)).mono ?_
  rintro _ t₂ ⟨rfl, rfl⟩
  refine ⟨rfl, settled_iff.mpr fun y hy => ?_, hfree.unwatched.of_watches hcloses.watches, n₁, hn₁, hcount⟩
  exact settled_iff.mp hs y (hcloses.pending hy)

end

/-- In a settled tree without bound groups, giving a group another count succeeds or changes
nothing, and all groups have their elements afterwards. -/
theorem resize_settled (hfree : t.Free τ) (hs : t.Settled) (id : NodeId) (count : Nat) :
    wp (resize id count) (fun r t' => t' = t ∨ r = .ok () ∧ t'.Settled ∧ t'.Unwatched) t := by
  cases hg : t.group id with
  | error e =>
    unfold resize touch touchWith
    rw [wp.bind, wp.look_error hg]
    exact .inl rfl
  | ok g =>
    obtain ⟨n, hn, hk⟩ := group_eq_ok.mp hg
    refine (resize_succeeds hfree hs hn hk count).mono ?_
    rintro r t' ⟨hr, hs', hw', -⟩
    exact .inr ⟨hr, hs', hw'⟩

-- ---------------------------------------------------------------------------
-- New trees
-- ---------------------------------------------------------------------------

/-- A new tree is what a visit makes of a tree in which nothing has happened yet. -/
theorem exists_start (τ : Template) (seed : UInt64) :
    ∃ t₀, t₀.WellFormed ∧
      (∀ {C : Cell → Prop}, (∀ v, C (.literal v)) → τ.CellsIn C → t₀.Models C τ τ.name t₀.root) ∧
      (∀ {x n}, t₀.node? x = some n → n.New) ∧ t₀.weight = τ.size ∧
      ∀ t, build τ seed = .ok t ↔ (perform (.visit t₀.root)).run t₀ = (.ok (), t) := by
  obtain ⟨hwf, -⟩ := instantiate_wellFormed (C := fun _ => True) (fun _ => trivial) τ seed
  have hm := fun (C : Cell → Prop) (hlit : ∀ v, C (.literal v)) =>
    (instantiate_wellFormed hlit τ seed).2
  obtain ⟨hs, -⟩ := instantiate_sprouts (C := fun _ => True) (fun _ => trivial) τ none none
    (empty seed)
  have hweight := weight_instantiate τ none none (empty seed)
  rw [show (empty seed).weight = 0 from rfl, Nat.zero_add] at hweight
  rcases hmade : (empty seed).instantiate τ none none with ⟨root, t₀⟩
  rw [hmade] at hwf hm hs hweight
  refine ⟨{ t₀ with root }, hwf, fun {C} hlit hcells => hm C hlit hcells,
    fun hn => (hs.fresh (Nat.zero_le _) hn).new, hweight, fun t => build_eq_ok.trans ⟨?_, fun hvisit => ?_⟩⟩
  · rintro ⟨_, _, hmade', hvisit⟩
    cases hmade.symm.trans hmade'
    exact hvisit
  · exact ⟨root, t₀, hmade, hvisit⟩

/-- In a new tree without bound groups all groups have their elements. -/
theorem build_settled {seed : UInt64} (hunbound : τ.Every Template.Unbound)
    (h : build τ seed = .ok t) : t.Settled ∧ t.Unwatched := by
  obtain ⟨t₀, hwf, hm, hnew, -, hbuild⟩ := exists_start τ seed
  have hrun := (hbuild t).mp h
  have hfree : t₀.Free τ :=
    ⟨hunbound, hwf, hm (fun _ => trivial) τ.cellsIn_true, fun x n g hn hk => ((hnew hn).group hk).2⟩
  have hclosed := (runTask_closes (nestingReserve + 2 * t₀.weight) (hfree.freeAt []) rfl rfl).1
  obtain ⟨hcloses, hbelow⟩ := (hclosed.of_run hrun).1 rfl
  have hwf' := hcloses.evolves.wellFormed hwf
  refine ⟨settled_iff.mpr fun y hy => ?_, hfree.unwatched.of_watches hcloses.watches⟩
  obtain ⟨n, -, hn, -⟩ := id hy
  obtain ⟨p, hp⟩ := exists_position hwf' hn
  obtain ⟨m, g, hm', hk, hphase⟩ := hbelow (r := p) (by rwa [List.append_nil]) hy
  rw [((hnew hm').group hk).1] at hphase
  cases hphase

/-- The tree follows its template in every state. -/
theorem Reaches.models {allowed : Tree → Call → Prop} {seed : UInt64} {t₀ : Tree}
    (hbuild : build τ seed = .ok t₀) (h : Reaches allowed t₀ t) :
    t.Models (fun _ => True) τ τ.name t.root := by
  obtain ⟨hwf, hm⟩ := build_wellFormed .any hbuild
  exact (hm τ.cellsIn_true).evolve hwf τ.cellsIn_true h.evolves

end Tree

end FormatFuzz
