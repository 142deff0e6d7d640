-- SUMMARY: Caches stay right in all states of a tree without bound groups.
import FormatFuzz.Proofs.Readiness
import FormatFuzz.Proofs.Resolution
import FormatFuzz.Proofs.Uniqueness

/-!
# Coherence

A tree is coherent when every cache holds what its node denotes, and when that hangs only on nodes
that affect it (`Tree.Coherent`). A change that keeps the caches' footprints, in the sense of
`Tree.Keeps`, keeps coherence, and so do reads. In a tree without bound groups, where all groups are
ready all the time, every call and every fuzz run is one or the other. So no cache ever serves bytes
that would come out differently from scratch (`Tree.Reaches.bytes_eq_recomputed`).
-/

namespace FormatFuzz

open TreeM

-- ---------------------------------------------------------------------------
-- Coherent trees
-- ---------------------------------------------------------------------------

namespace Tree

/-- The tree follows its template, and every cache is right as long as the nodes stay as they are
that affect it. -/
structure Coherent (C : Cell → Prop) (τ : Template) (measured : Prop) (t : Tree) : Prop where
  wellFormed : t.WellFormed
  models : t.Models C τ τ.name t.root
  cached : ∀ {x n b}, t.node? x = some n → n.cache = some b →
    Denotes τ measured t (t.Affects · x) (.bytes x) b

variable {C : Cell → Prop} {τ : Template} {measured : Prop} {t t' : Tree} {id x : NodeId} {n : Node}

namespace Coherent

theorem of_uncached (hwf : t.WellFormed) (hm : t.Models C τ τ.name t.root)
    (hnone : ∀ {x n}, t.node? x = some n → n.cache = none) : t.Coherent C τ measured where
  wellFormed := hwf
  models := hm
  cached := by
    intro x n b hn hb
    rw [hnone hn] at hb
    cases hb

theorem sound (h : t.Coherent C τ measured) : Sound τ measured t t :=
  ⟨.refl t, fun hn hb => h.cached hn hb⟩

/-- A cache outlives a change only together with all that its bytes hang on. -/
theorem evolve (h : t.Coherent C τ measured) (hcells : τ.CellsIn C) (hev : Evolves C t t')
    (hkeeps : Keeps (fun _ => False) t t') : t'.Coherent C τ measured where
  wellFormed := hev.wellFormed h.wellFormed
  models := h.models.evolve h.wellFormed hcells hev
  cached := by
    intro x n' b hn' hb
    obtain ⟨⟨n, hn, hb⟩, haffects⟩ := hkeeps.cached hn' hb
    have hsame : Same (t.Affects · x) t t' := by
      refine .of_grows (hev.grows h.wellFormed) h.wellFormed (hev.wellFormed h.wellFormed) ?_
      intro y hy
      obtain ⟨-, m, m', hm, hm', hkept⟩ := haffects hy
      exact ⟨m, m', hm, hm', hkept fun hD => hD⟩
    exact (h.cached hn hb).same hsame fun y hy => (haffects hy).1

/-- Reads leave right caches behind. -/
theorem of_sound (h : t.Coherent C τ measured) (hcells : τ.CellsIn C) (hs : Sound τ measured t t') :
    t'.Coherent C τ measured where
  wellFormed := hs.like.alike.wellFormed h.wellFormed
  models := h.models.evolve h.wellFormed hcells hs.like.evolves
  cached := by
    intro x n' b hn' hb
    have hwf' := hs.like.alike.wellFormed h.wellFormed
    refine (hs.cached hn' hb).same (.of_grows hs.like.alike.grows h.wellFormed hwf' ?_) fun _ hy => hy
    intro y hy
    obtain ⟨m', hm'⟩ := Affects.live hy hn'
    obtain ⟨m, hm, hbare⟩ := hs.node? hm'
    have hcell := Node.cell_of_bare hbare
    have hch := Node.children_of_bare hbare
    exact ⟨m, m', hm, hm', hcell.symm, hch.symm⟩

theorem setCell (h : t.Coherent C τ measured) (hcells : τ.CellsIn C) {cell : Cell} (hcell : C cell)
    (ht' : t.setCell id cell = .ok t') : t'.Coherent C τ measured := by
  have hev := evolves_setCell hcell ht'
  rw [setCell_eq_ok ht'] at hev ⊢
  exact h.evolve hcells hev .of_setCell

theorem invalidateAll (h : t.Coherent C τ measured) (hcells : τ.CellsIn C) :
    t.invalidateAll.Coherent C τ measured := by
  have hlike : t.Like t.invalidateAll := .of_invalidateAll
  refine .of_uncached (hlike.alike.wellFormed h.wellFormed)
    (h.models.evolve h.wellFormed hcells hlike.evolves) fun {x n} hn => ?_
  rw [node?_invalidateAll] at hn
  obtain ⟨m, -, rfl⟩ := Option.map_eq_some_iff.mp hn
  rfl

end Coherent

-- ---------------------------------------------------------------------------
-- Bytes
-- ---------------------------------------------------------------------------

theorem Sound.invalidateAll (h : Sound τ measured t t') : Sound τ measured t t'.invalidateAll := by
  refine ⟨h.like.trans .of_invalidateAll, fun {x n b} hn hb => ?_⟩
  rw [node?_invalidateAll] at hn
  obtain ⟨m, -, rfl⟩ := Option.map_eq_some_iff.mp hn
  cases hb

/-- Whatever has been read of a tree, a node resolves to the same bytes, if it resolves to bytes
at all. -/
theorem Sound.bytes_unique (hsteady : t.Steady C τ) (hτ : τ.Reliable C measured) {t₁ t₂ : Tree}
    (h₁ : Sound τ measured t t₁) (h₂ : Sound τ measured t t₂) {b₁ b₂ : Bytes}
    (hb₁ : ((bytes id).run t₁).1 = .ok b₁) (hb₂ : ((bytes id).run t₂).1 = .ok b₂) : b₁ = b₂ := by
  have hanswer := Reads.answerAll hsteady hτ (.bytes id) trivial
  obtain ⟨-, -, hden₁⟩ := hanswer t₁ h₁
  obtain ⟨-, -, hden₂⟩ := hanswer t₂ h₂
  refine Denotes.unique hsteady.wellFormed (fun hmeasured id n codec hn hk => ?_) (hden₁ b₁ hb₁)
    (hden₂ b₂ hb₂)
  exact hτ.codec hsteady hn hk hmeasured

/-- A node of a coherent tree resolves to the same bytes with caches and without, if it resolves to
bytes at all. -/
theorem Coherent.bytes_eq (h : t.Coherent C τ measured) (hs : t.Settled)
    (hτ : τ.Reliable C measured) {b b' : Bytes} (hb : ((bytes id).run t).1 = .ok b)
    (hb' : ((bytes id).run t.invalidateAll).1 = .ok b') : b = b' :=
  Sound.bytes_unique ⟨h.wellFormed, h.models, hs⟩ hτ h.sound h.sound.invalidateAll hb hb'

/-- An offset is the length of what comes before a node. -/
theorem offset_asks (hwf : t.WellFormed) (hmeasured : measured) {P : Tree → Prop} (h : P t)
    (hask : ∀ r : Request, r.Apt measured t → wp (Resolver.answerAll r) (fun _ t' => P t') t) :
    wp (Tree.offset id) (fun _ t' => P t') t := by
  unfold Tree.offset
  simp only [wp.bind, wp.look]
  cases hn : t.node id with
  | error e => exact h
  | ok n =>
    obtain ⟨p, hp⟩ := exists_position hwf (node_eq_ok.mp hn)
    exact hask (.lengthUpTo t.root id) ⟨hmeasured, below_root hp⟩

-- ---------------------------------------------------------------------------
-- Trees without bound groups
-- ---------------------------------------------------------------------------

/-- The tree is coherent, all groups have their elements, and none is followed by another one. -/
structure Upright (C : Cell → Prop) (τ : Template) (measured : Prop) (t : Tree) : Prop
    extends Coherent C τ measured t where
  settled : t.Settled
  unwatched : t.Unwatched

theorem sameKinds_putCell {cell : Cell} : t.SameKinds (t.putCell id cell) := by
  intro x n' hn'
  unfold putCell at hn'
  rw [node?_modify] at hn'
  split at hn'
  · rename_i hx
    obtain ⟨n, hn, rfl⟩ := Option.map_eq_some_iff.mp hn'
    exact ⟨n, hx ▸ hn, rfl⟩
  · exact ⟨n', hn', rfl⟩

theorem SameKinds.trans {t₁ : Tree} (h : t.SameKinds t₁) (h' : t₁.SameKinds t') : t.SameKinds t' := by
  intro x n' hn'
  obtain ⟨n₁, hn₁, hk'⟩ := h' hn'
  obtain ⟨n, hn, hk⟩ := h hn₁
  exact ⟨n, hn, hk.trans hk'⟩

section

variable (hC : Permits C) (hτ : τ.Reliable C measured) (hunbound : τ.Every Template.Unbound)
  (hmeasured : measured)

namespace Upright

theorem steady (h : t.Upright C τ measured) : t.Steady C τ :=
  ⟨h.wellFormed, h.models, h.settled⟩

include hunbound in
theorem free (h : t.Upright C τ measured) : t.Free τ :=
  ⟨hunbound, h.wellFormed, h.models.mono (fun _ _ => trivial) τ τ.name t.root, h.unwatched⟩

include hτ

theorem of_sound (h : t.Upright C τ measured) (hs : Sound τ measured t t') :
    t'.Upright C τ measured :=
  ⟨h.toCoherent.of_sound hτ.cells hs, h.settled.of_sameKinds hs.like.sameKinds,
    h.unwatched.of_sameKinds hs.like.sameKinds⟩

theorem answerAll (h : t.Upright C τ measured) (r : Request) (hr : r.Apt measured t) :
    wp (Resolver.answerAll r) (fun _ t' => t'.Upright C τ measured) t := by
  refine (Reads.answerAll h.steady hτ r hr t h.toCoherent.sound).mono ?_
  rintro _ t' ⟨hs, -⟩
  exact h.of_sound hτ hs

theorem setCell (h : t.Upright C τ measured) {cell : Cell} (hcell : C cell)
    (ht' : t.setCell id cell = .ok t') : t'.Upright C τ measured := by
  have hcoherent := h.toCoherent.setCell hτ.cells hcell ht'
  rw [setCell_eq_ok ht'] at hcoherent ⊢
  have hlike : t.Like (t.invalidate id) := .of_invalidate
  have hkinds : t.SameKinds ((t.invalidate id).putCell id cell) :=
    hlike.sameKinds.trans sameKinds_putCell
  exact ⟨hcoherent, h.settled.of_sameKinds hkinds, h.unwatched.of_sameKinds hkinds⟩

theorem invalidateAll (h : t.Upright C τ measured) : t.invalidateAll.Upright C τ measured := by
  have hlike : t.Like t.invalidateAll := .of_invalidateAll
  exact ⟨h.toCoherent.invalidateAll hτ.cells, h.settled.of_sameKinds hlike.sameKinds,
    h.unwatched.of_sameKinds hlike.sameKinds⟩

include hC hunbound in
theorem resize (h : t.Upright C τ measured) (id : NodeId) (count : Nat) :
    wp (Tree.resize id count) (fun _ t' => t'.Upright C τ measured) t := by
  have hevolves := (groupLaws_evolves hC).resize id count t
  have hkeeps := groupLaws_keeps.resize id count t
  refine ((resize_settled (h.free hunbound) h.settled id count).and (hevolves.and hkeeps)).mono ?_
  rintro r t' ⟨rfl | ⟨rfl, hs, hw⟩, hev, hkept⟩
  · exact h
  · exact ⟨h.toCoherent.evolve hτ.cells hev hkept, hs, hw⟩

include hC hunbound hmeasured in
/-- All calls that write allowed cells keep a tree upright, whether they succeed or fail. -/
theorem call (h : t.Upright C τ measured) (c : Call) (hwrites : c.Writes C) :
    (c.run t).Upright C τ measured := by
  cases c with
  | find start path =>
    have ht' : (Call.find start path).run t = t :=
      find_settled h.wellFormed h.models h.settled start path
    rwa [ht']
  | bytes id => exact h.answerAll hτ (.bytes id) trivial
  | value id => exact h.answerAll hτ (.value id) trivial
  | byteLength id => exact h.answerAll hτ (.length id) hmeasured
  | offset id => exact offset_asks h.wellFormed hmeasured h fun r hr => h.answerAll hτ r hr
  | count id =>
    have ht' : (Call.count id).run t = t := (count_settled h.settled id).1
    rwa [ht']
  | resize id count => exact h.resize hC hτ hunbound id count
  | replaceCell id cell =>
    suffices hcell : wp (Tree.replaceCell id cell) (fun _ t' => t'.Upright C τ measured) t from hcell
    unfold Tree.replaceCell
    rw [wp.update]
    cases ht' : t.setCell id cell with
    | error e => exact h
    | ok t' => exact h.setCell hτ hwrites ht'
  | invalidate id =>
    have hlike : t.Like (t.invalidate id) := .of_invalidate
    exact ⟨h.toCoherent.evolve hτ.cells .of_invalidate .of_invalidate,
      h.settled.of_sameKinds hlike.sameKinds, h.unwatched.of_sameKinds hlike.sameKinds⟩
  | invalidateAll => exact h.invalidateAll hτ

end Upright

end

-- ---------------------------------------------------------------------------
-- Fuzz runs
-- ---------------------------------------------------------------------------

section

variable (hC : Permits C) (hτ : τ.Reliable C measured) (hunbound : τ.Every Template.Unbound)
  (hmeasured : measured)

theorem Upright.targets (h : t.Upright C τ measured) (c : Campaign) :
    wp c.targets (fun r t' => t' = t ∧
      ∀ targets, r = .ok targets → ∀ x ∈ targets, C x.saved) t := by
  refine (c.targets_settled h.settled).mono ?_
  rintro r t' ⟨ht', hsaved⟩
  refine ⟨ht', fun targets hr x hx => ?_⟩
  obtain ⟨n, hn, hcell⟩ := hsaved targets hr x hx
  exact hcell ▸ h.models.cell h.wellFormed hn

theorem sameKinds_restore (targets : List Target) (t : Tree) :
    t.SameKinds (Campaign.restore targets t) := by
  unfold Campaign.restore
  refine SameKinds.trans ?_ (Like.of_invalidateAll).sameKinds
  induction targets generalizing t with
  | nil => exact (Like.refl t).sameKinds
  | cons x rest ih => exact sameKinds_putCell.trans (ih _)

theorem Upright.restore (h : t.Upright C τ measured) (hcells : τ.CellsIn C) {targets : List Target}
    (hsaved : ∀ x ∈ targets, C x.saved) : (Campaign.restore targets t).Upright C τ measured := by
  have hev := evolves_restore hsaved t
  have hkinds := sameKinds_restore targets t
  refine ⟨.of_uncached (hev.wellFormed h.wellFormed) (h.models.evolve h.wellFormed hcells hev) ?_,
    h.settled.of_sameKinds hkinds, h.unwatched.of_sameKinds hkinds⟩
  intro x n hn
  unfold Campaign.restore at hn
  rw [node?_invalidateAll] at hn
  obtain ⟨m, -, rfl⟩ := Option.map_eq_some_iff.mp hn
  rfl

include hC hτ hunbound hmeasured

/-- All calls and all fuzz runs that write allowed cells keep a tree upright. -/
theorem Reaches.upright (h : Reaches (fun _ c => c.Writes C) t t') (ht : t.Upright C τ measured) :
    t'.Upright C τ measured := by
  refine h.upholds (Q := fun targets _ => ∀ x ∈ targets, C x.saved) ?_ ?_ ?_ ?_ ht
  · exact fun t c hwrites ht => ht.call hC hτ hunbound hmeasured c hwrites
  · intro t c ht
    refine (ht.targets c).mono ?_
    rintro r t' ⟨rfl, hsaved⟩
    exact ⟨ht, hsaved⟩
  · exact fun t t' id v h ht => ht.setCell hτ (hC.literal v) h
  · exact fun targets _ t hsaved _ ht => ht.restore hτ.cells hsaved

end

/-- A new tree has no caches. -/
theorem build_coherent (hC : Permits C) (hcells : τ.CellsIn C) {seed : UInt64}
    (h : build τ seed = .ok t) : t.Coherent C τ measured := by
  obtain ⟨hwf, hm⟩ := build_wellFormed hC h
  obtain ⟨t₀, -, -, hnew, -, hbuild⟩ := exists_start τ seed
  have hrun := (hbuild t).mp h
  refine .of_uncached hwf (hm hcells) fun {x n} hn => ?_
  have hkeeps : Keeps (fun _ => False) t₀ t := (groupLaws_keeps.perform (.visit t₀.root) t₀).of_run hrun
  cases hb : n.cache with
  | none => rfl
  | some b =>
    obtain ⟨⟨m, hm, hcache⟩, -⟩ := hkeeps.cached hn hb
    rw [(hnew hm).cache] at hcache
    cases hcache

theorem build_upright (hC : Permits C) (hcells : τ.CellsIn C) (hunbound : τ.Every Template.Unbound)
    {seed : UInt64} (h : build τ seed = .ok t) : t.Upright C τ measured := by
  obtain ⟨hs, hw⟩ := build_settled hunbound h
  exact ⟨build_coherent hC hcells h, hs, hw⟩

/-- Closures that read through the scope and hand its errors on may be written. -/
theorem permits_strict (measured : Prop) : Permits (Cell.Strict measured) :=
  ⟨fun _ => trivial, fun _ _ _ => trivial⟩

/-- In a tree without bound groups, whatever has been done to it, no cache serves bytes that the
cells no longer produce: the bytes of a node are those that it resolves to after all caches have
been cleared. -/
theorem Reaches.bytes_eq_recomputed {seed : UInt64} {t₀ : Tree} (hunbound : τ.Every Template.Unbound)
    (hcells : τ.CellsIn (Cell.Strict True)) (hdecent : τ.Every (Template.Decent True))
    (hbuild : build τ seed = .ok t₀)
    (h : Reaches (fun _ c => c.Writes (Cell.Strict True)) t₀ t) {id : NodeId} {b b' : Bytes}
    (hb : ((bytes id).run t).1 = .ok b) (hb' : ((bytes id).run t.invalidateAll).1 = .ok b') :
    b = b' := by
  have hC : Permits (Cell.Strict True) := permits_strict True
  have hτ : τ.Reliable (Cell.Strict True) True := ⟨hcells, fun _ hcell => hcell, hdecent⟩
  have ht := h.upright hC hτ hunbound trivial (build_upright hC hcells hunbound hbuild)
  exact ht.toCoherent.bytes_eq ht.settled hτ hb hb'

/-- A group of two flags behind its length. -/
def framed : Template :=
  .composite { name := "frame" } [
    .leaf { name := "size", cell := .deferred do return .ofNat (← Script.length "flags") }
      (.int { packing := .ofWidth 1 .big false }),
    .group "flags" (.boolean "flag") (.fixed 2)]

theorem Reaches.bytes_eq_recomputed_framed :
    ∃ t₀ b b', build framed 7 = .ok t₀ ∧
      let t := (Call.resize ⟨2⟩ 3).run ((Call.bytes ⟨0⟩).run t₀)
      ((bytes ⟨0⟩).run t).1 = .ok b ∧ ((bytes ⟨0⟩).run t.invalidateAll).1 = .ok b' ∧ b = b' := by
  have hok : (do
      let t₀ ← build framed 7
      let t := (Call.resize ⟨2⟩ 3).run ((Call.bytes ⟨0⟩).run t₀)
      let b ← ((bytes ⟨0⟩).run t).1
      let b' ← ((bytes ⟨0⟩).run t.invalidateAll).1
      return (b, b') : Except TreeError (Bytes × Bytes)).isOk = true := by decide +kernel
  cases hbuild : build framed 7 with
  | error e =>
    rw [hbuild] at hok
    cases hok
  | ok t₀ =>
    rw [hbuild, ok_bind] at hok
    dsimp only at hok
    generalize ht : (Call.resize ⟨2⟩ 3).run ((Call.bytes ⟨0⟩).run t₀) = t at hok
    cases hb : ((bytes ⟨0⟩).run t).1 with
    | error e =>
      rw [hb] at hok
      cases hok
    | ok b =>
      cases hb' : ((bytes ⟨0⟩).run t.invalidateAll).1 with
      | error e =>
        rw [hb, hb'] at hok
        cases hok
      | ok b' =>
        have hreach : Reaches (fun _ c => c.Writes (Cell.Strict True)) t₀ t :=
          ht ▸ .call (.resize ⟨2⟩ 3) (.call (.bytes ⟨0⟩) (.refl t₀) trivial) trivial
        refine ⟨t₀, b, b', rfl, ?_⟩
        rw [ht]
        have hunbound : framed.Every Template.Unbound :=
          ⟨trivial, trivial, ⟨trivial, trivial⟩, trivial⟩
        have hsize : (do return .ofNat (← Script.length "flags") : Script Value).Strict True :=
          Script.Strict.bind (.get (q := .length "flags") trivial) fun _ => trivial
        have hcells : framed.CellsIn (Cell.Strict True) :=
          ⟨trivial, hsize, ⟨trivial, trivial⟩, trivial⟩
        have hdecent : framed.Every (Template.Decent True) := by
          have hnone : ∀ f : Transform, none = some f → f.Strict True := fun _ h => by cases h
          exact ⟨⟨hnone, trivial⟩, ⟨hnone, trivial⟩, ⟨⟨hnone, trivial⟩, hnone, trivial⟩, trivial⟩
        exact ⟨hb, hb', Reaches.bytes_eq_recomputed hunbound hcells hdecent hbuild hreach hb hb'⟩

end Tree

end FormatFuzz
