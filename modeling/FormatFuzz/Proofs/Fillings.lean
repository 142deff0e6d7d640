-- SUMMARY: Trees that differ in what is cached, where the new caches hold what lengths are told by.
import FormatFuzz.Proofs.Encodings
import FormatFuzz.Proofs.Resting

/-!
# Fillings

While all groups are ready, questions fill caches and do nothing else that shows (`Tree.Fills`). The
bytes that they cache have the length that the node has without them (`Tree.Tallies`), and nothing is
cached for a node that is on the stack (`Tree.Stores`). So a node whose length is that of its children
is not cached before each of them is (`Tree.Awaits.uncached_of_child`).
-/

namespace FormatFuzz

open TreeM

-- ---------------------------------------------------------------------------
-- Nodes whose answers can be repeated
-- ---------------------------------------------------------------------------

/-- The closure fails once a read of it fails. -/
def Script.Brittle {α : Type} : Script α → Prop
  | .done _ => True
  | .ask _ next => (∀ e, ∃ e', next (.error e) = .done (.error e')) ∧ ∀ r, (next r).Brittle

/-- The closures in the cell are brittle. -/
def Cell.Brittle : Cell → Prop
  | .unset | .literal _ | .bound _ => True
  | .deferred s => s.Brittle
  | .computed f sources => (compute f sources).Brittle

/-- The closures of the node are brittle, and its codec is honest. -/
structure Node.Straight (n : Node) : Prop where
  cell : n.cell.Brittle
  action : ∀ f, n.action = some f → ∀ raw, (f.run [raw]).Brittle
  codec : ∀ codec, n.kind = .leaf (.custom codec) → codec.Honest

namespace Tree

variable {t t' u v : Tree} {id x p : NodeId} {n n' : Node} {b : Bytes}

/-- All nodes are straight. -/
def Straight (t : Tree) : Prop := ∀ ⦃id n⦄, t.node? id = some n → n.Straight

theorem Straight.of_like (h : t.Straight) (hlike : t.Like t') : t'.Straight := by
  intro id n' hn'
  obtain ⟨n, hn, hbare⟩ := hlike.symm.node? hn'
  obtain ⟨hcell, haction, hcodec⟩ := h hn
  have hstraight : n.bare.Straight := ⟨hcell, haction, hcodec⟩
  rw [hbare] at hstraight
  exact ⟨hstraight.cell, hstraight.action, hstraight.codec⟩

-- ---------------------------------------------------------------------------
-- Caches
-- ---------------------------------------------------------------------------

theorem lengthRule_of_bare (h : n'.bare = n.bare) :
    Resolver.lengthRule n' = Resolver.lengthRule n := by
  have hrule := congrArg Resolver.lengthRule h
  exact hrule

/-- The bytes that are cached for a node. -/
def cacheOf (t : Tree) (id : NodeId) : Option Bytes := (t.node? id).bind (·.cache)

theorem cacheOf_of_node? (hn : t.node? id = some n) : t.cacheOf id = n.cache := by
  rw [cacheOf, hn, Option.bind_some]

theorem cacheOf_eq_some : t.cacheOf id = some b ↔ ∃ n, t.node? id = some n ∧ n.cache = some b :=
  Option.bind_eq_some_iff

theorem cacheOf_unread (t : Tree) (id : NodeId) : t.unread.cacheOf id = t.cacheOf id := by
  rw [cacheOf, cacheOf, node?_unread, Option.bind_map]
  rfl

theorem cacheOf_noteReader (source reader : NodeId) :
    (t.noteReader source reader).cacheOf x = t.cacheOf x := by
  rw [← cacheOf_unread, unread_noteReader, cacheOf_unread]

theorem cacheOf_store (hn : t.node? id = some n) :
    (t.modify id ({ · with cache := some b })).cacheOf x = if x = id then some b else t.cacheOf x := by
  rw [cacheOf, node?_modify]
  split
  · rw [hn]
    rfl
  · rfl

/-- A first entry of the cache leaves all other entries in place. -/
theorem kept_store (hn : t.node? id = some n) (hnone : n.cache = none) {b' : Bytes}
    (hb' : t.cacheOf x = some b') : (t.modify id ({ · with cache := some b })).cacheOf x = some b' := by
  rw [cacheOf_store hn, if_neg]
  · exact hb'
  · rintro rfl
    rw [cacheOf_of_node? hn, hnone] at hb'
    cases hb'

theorem new_store (hn : t.node? id = some n) {b' : Bytes} (hx : t.cacheOf x = none)
    (hb' : (t.modify id ({ · with cache := some b })).cacheOf x = some b') : x = id ∧ b' = b := by
  rw [cacheOf_store hn] at hb'
  split at hb'
  · exact ⟨‹_›, (Option.some.inj hb').symm⟩
  · rw [hx] at hb'
    cases hb'

/-- The length of the node can be told of the bytes as well. If it is that of its children, all of them
are cached. -/
def Tallies (t : Tree) (id : NodeId) (n : Node) (b : Bytes) : Prop :=
  match Resolver.lengthRule n with
  | .fixed k => b.length = k
  | .codec codec => ∃ v, codec.encode v = .ok b
  | .encode => True
  | .children => ∃ shown parts, t.shownChildren id = .ok shown ∧
      List.Forall₂ (fun c part => t.cacheOf c = some part) shown parts ∧ b = parts.flatten

theorem Tallies.mono (houtline : t'.outline = t.outline)
    (hkept : ∀ {x b}, t.cacheOf x = some b → t'.cacheOf x = some b) (hbare : n'.bare = n.bare)
    (h : t.Tallies x n b) : t'.Tallies x n' b := by
  unfold Tallies at h ⊢
  rw [lengthRule_of_bare hbare]
  cases hrule : Resolver.lengthRule n with
  | fixed k => rwa [hrule] at h
  | codec codec => rwa [hrule] at h
  | encode => trivial
  | children =>
    rw [hrule] at h
    obtain ⟨shown, parts, hshown, hparts, hb⟩ := h
    have hsame : t'.shownChildren x = t.shownChildren x :=
      eq_of_outline (f := (·.shownChildren x)) (fun _ => shownChildren_outline) houtline
    exact ⟨shown, parts, hsame.trans hshown, hparts.imp fun _ _ => hkept, hb⟩

/-- Questions about the tree can be repeated. -/
structure Sane (t : Tree) : Prop where
  settled : t.Settled
  straight : t.Straight
  encoded : t.Encoded

section

variable (hsane : t.Sane)

include hsane

theorem Sane.brittle_of_deferred {s : Script Value} (hcell : t.cell id = .ok (.deferred s)) :
    s.Brittle := by
  obtain ⟨n, hn, hc⟩ := look_eq_ok.mp hcell
  have hbrittle := (hsane.straight hn).cell
  rwa [hc] at hbrittle

theorem Sane.brittle_of_computed {f : Transform} {sources : List String}
    (hcell : t.cell id = .ok (.computed f sources)) : (Cell.compute f sources).Brittle := by
  obtain ⟨n, hn, hc⟩ := look_eq_ok.mp hcell
  have hbrittle := (hsane.straight hn).cell
  rwa [hc] at hbrittle

theorem Sane.brittle_of_action {f : Transform} (haction : t.look id (·.action) = .ok (some f))
    (raw : Bytes) : (f.run [raw]).Brittle := by
  obtain ⟨n, hn, ha⟩ := look_eq_ok.mp haction
  exact (hsane.straight hn).action f ha raw

end

theorem Rests.shownChildren_eq (h : t.Rests t') (p : NodeId) : t'.shownChildren p = t.shownChildren p :=
  eq_of_outline (f := (·.shownChildren p)) (fun _ => shownChildren_outline) h.outline

/-- The trees differ in caches and readers at most, and everything that was cached still is. -/
structure Fills (t t' : Tree) : Prop extends Rests t t' where
  kept : ∀ {x b}, t.cacheOf x = some b → t'.cacheOf x = some b
  tallies : ∀ {x n b}, t.cacheOf x = none → t'.node? x = some n → n.cache = some b → t'.Tallies x n b

namespace Fills

theorem refl (t : Tree) : t.Fills t where
  toRests := .refl t
  kept := id
  tallies hnone hn hb := by
    rw [cacheOf_of_node? hn, hb] at hnone
    cases hnone

theorem trans (h : t.Fills t') (h' : t'.Fills u) : t.Fills u where
  toRests := h.toRests.trans h'.toRests
  kept hb := h'.kept (h.kept hb)
  tallies {x n b} hnone hn hb := by
    obtain ⟨n', hn', hbare⟩ := h'.symm.node? hn
    cases hb' : n'.cache with
    | none => exact h'.tallies ((cacheOf_of_node? hn').trans hb') hn hb
    | some b' =>
      have hkept := h'.kept ((cacheOf_of_node? hn').trans hb')
      rw [cacheOf_of_node? hn, hb] at hkept
      cases hkept
      exact (h.tallies hnone hn' hb').mono h'.outline h'.kept hbare.symm

theorem sane (h : t.Fills t') (hsane : t.Sane) : t'.Sane where
  settled := h.settled hsane.settled
  straight := hsane.straight.of_like h.toLike
  encoded := by
    intro id n' b codec hn' hb hrule
    obtain ⟨n, hn, hbare⟩ := h.symm.node? hn'
    cases hcache : n.cache with
    | none =>
      have htallies := h.tallies ((cacheOf_of_node? hn).trans hcache) hn' hb
      unfold Tallies at htallies
      rwa [hrule] at htallies
    | some b' =>
      have hkept := h.kept ((cacheOf_of_node? hn).trans hcache)
      rw [cacheOf_of_node? hn', hb] at hkept
      cases hkept
      have hsame : Resolver.lengthRule n = .codec codec :=
        (lengthRule_of_bare hbare).trans hrule
      exact hsane.encoded hn hcache hsame

/-- Nothing more is cached if the trees are looked at with another stack. -/
theorem stack (h : t.Fills t') (f : List NodeId → List NodeId) :
    Fills { t with resolving := f t.resolving } { t' with resolving := f t'.resolving } where
  toRests := h.toRests.stack f
  kept := h.kept
  tallies := h.tallies

end Fills

theorem Twins.cacheOf_eq (h : t.Twins t') : t'.cacheOf x = t.cacheOf x := by
  rw [← cacheOf_unread, h.unread, cacheOf_unread]

theorem Twins.fills (h : t.Twins t') : t.Fills t' where
  root := h.root
  seed := congrArg (·.seed) h.unread
  size := by
    have hsize : t'.unread.nodes.size = t.unread.nodes.size := congrArg (·.nodes.size) h.unread
    rwa [Tree.unread, Tree.unread, Array.size_map, Array.size_map] at hsize
  nodes id := by
    have hnode := congrArg (·.bare.node? id) h.unread
    simpa [bare_unread] using hnode
  counters := congrArg (·.counters) h.unread
  resolving := h.resolving
  kept hb := h.cacheOf_eq.trans hb
  tallies hnone hn hb := by
    rw [← h.cacheOf_eq, cacheOf_of_node? hn, hb] at hnone
    cases hnone

/-- The trees differ in caches and readers at most, and nothing has been cached for the nodes on the
stack. -/
structure Stores (t t' : Tree) : Prop extends Fills t t' where
  apart : ∀ {x b}, t.cacheOf x = none → t'.cacheOf x = some b → x ∉ t.resolving

namespace Stores

theorem refl (t : Tree) : t.Stores t where
  toFills := .refl t
  apart hnone hb := by
    rw [hnone] at hb
    cases hb

theorem trans (h : t.Stores t') (h' : t'.Stores u) : t.Stores u where
  toFills := h.toFills.trans h'.toFills
  apart {x b} hnone hb := by
    cases hb' : t'.cacheOf x with
    | none =>
      rw [← h.resolving]
      exact h'.apart hb' hb
    | some b' => exact h.apart hnone hb'

theorem of_twins (h : t.Twins t') : t.Stores t' where
  toFills := h.fills
  apart hnone hb := by
    rw [h.cacheOf_eq, hnone] at hb
    cases hb

theorem of_noteReader (hs : t.Settled) (source reader : NodeId) :
    t.Stores (t.noteReader source reader) :=
  .of_twins ⟨hs, unread_noteReader source reader⟩

theorem uncached (h : t.Stores t') (hx : x ∈ t.resolving) (hnone : t.cacheOf x = none) :
    t'.cacheOf x = none := by
  cases hb : t'.cacheOf x with
  | none => rfl
  | some b => exact absurd hx (h.apart hnone hb)

/-- What is done with a node on the stack may be looked at without it. -/
theorem pop (h : Stores { t with resolving := id :: t.resolving } t') :
    t.Stores { t' with resolving := t'.resolving.tail } where
  toFills := h.toFills.stack List.tail
  apart hnone hb hmem := h.apart hnone hb (List.mem_cons_of_mem _ hmem)

/-- The bytes of a node may be cached when they have been worked out. -/
theorem of_store (hn : t.node? id = some n) (hnone : n.cache = none) (htallies : t.Tallies id n b)
    (hid : id ∉ t.resolving) : t.Stores (t.modify id ({ · with cache := some b })) := by
  have hrests : t.Rests (t.modify id ({ · with cache := some b })) := .of_store
  refine ⟨⟨hrests, kept_store hn hnone, fun {x m b'} hx hm hb' => ?_⟩,
    fun hx hb' => (new_store hn hx hb').1 ▸ hid⟩
  obtain ⟨rfl, rfl⟩ := new_store hn hx ((cacheOf_of_node? hm).trans hb')
  obtain ⟨n', hn', hbare⟩ := hrests.node? hn
  rw [hm] at hn'
  cases hn'
  exact htallies.mono hrests.outline (kept_store hn hnone) hbare

end Stores

theorem exists_of_forall₂ {α β : Type} {R : α → β → Prop} {xs : List α} {ys : List β}
    (h : List.Forall₂ R xs ys) {x : α} (hx : x ∈ xs) : ∃ y, R x y := by
  induction h with
  | nil => cases hx
  | cons hR _ ih =>
    rcases List.mem_cons.mp hx with rfl | hx
    · exact ⟨_, hR⟩
    · exact ih hx

/-- The node `p` is not cached, and its length is that of its children, one of which is `c`. -/
structure Awaits (t : Tree) (p c : NodeId) : Prop where
  uncached : t.cacheOf p = none
  listed : ∃ n shown, t.node? p = some n ∧ Resolver.lengthRule n = .children ∧
    t.shownChildren p = .ok shown ∧ c ∈ shown

theorem Awaits.mono (h : t.Awaits p x) (hfills : t.Fills t') (hnone : t'.cacheOf p = none) :
    t'.Awaits p x := by
  obtain ⟨-, n, shown, hn, hrule, hshown, hmem⟩ := h
  obtain ⟨n', hn', hbare⟩ := hfills.node? hn
  exact ⟨hnone, n', shown, hn', (lengthRule_of_bare hbare).trans hrule,
    (hfills.shownChildren_eq p).trans hshown, hmem⟩

/-- A node is not cached before its children are. -/
theorem Awaits.uncached_of_child (h : t.Awaits p id) (hfills : t.Fills t') (hid : t'.cacheOf id = none) :
    t'.cacheOf p = none := by
  obtain ⟨hnone, n, shown, hn, hrule, hshown, hmem⟩ := h
  cases hb : t'.cacheOf p with
  | none => rfl
  | some b =>
    obtain ⟨n', hn', hb'⟩ := cacheOf_eq_some.mp hb
    have htallies := hfills.tallies hnone hn' hb'
    obtain ⟨m, hm, hbare⟩ := hfills.node? hn
    rw [hn'] at hm
    cases hm
    have hrule' : Resolver.lengthRule n' = .children := (lengthRule_of_bare hbare).trans hrule
    unfold Tallies at htallies
    rw [hrule'] at htallies
    obtain ⟨shown', parts, hshown', hparts, -⟩ := htallies
    rw [hfills.shownChildren_eq, hshown] at hshown'
    cases hshown'
    obtain ⟨part, hpart⟩ := exists_of_forall₂ hparts hmem
    rw [hid] at hpart
    cases hpart

end Tree

-- ---------------------------------------------------------------------------
-- Bytes of children
-- ---------------------------------------------------------------------------

namespace Resolver

open FormatFuzz.Tree (Rests)

/-- Started where `P` holds, the operation drops no cache, caches the bytes of the node if it comes to any,
and ends where `P` holds. -/
def Caching (P : Tree → Prop) (id : NodeId) (act : TreeM Bytes) : Prop :=
  ∀ t, P t → wp act (fun r t' => (P t' ∧ t.Rests t' ∧ ∀ x b, t.cacheOf x = some b → t'.cacheOf x = some b) ∧
    ∀ b, r = .ok b → t'.cacheOf id = some b) t

variable {P : Tree → Prop} {ask : Resolver} {id : NodeId} {t : Tree} {n : Node}

/-- The bytes of children are cached when the last of them is known. -/
theorem mapM_cached {f : NodeId → TreeM Bytes} (hf : ∀ c, Caching P c (f c)) (shown : List NodeId)
    (ht : P t) : wp (shown.mapM f) (fun r t' => t.Rests t' ∧
      (∀ x b, t.cacheOf x = some b → t'.cacheOf x = some b) ∧ ∀ parts, r = .ok parts →
        List.Forall₂ (fun c part => t'.cacheOf c = some part) shown parts) t := by
  induction shown generalizing t with
  | nil =>
    refine ⟨.refl t, fun _ _ hb => hb, ?_⟩
    rintro _ ⟨⟩
    exact .nil
  | cons c rest ih =>
    rw [List.mapM_cons, wp.bind]
    refine (hf c t ht).mono fun r t₁ h₁ => ?_
    obtain ⟨⟨ht₁, hrests₁, hkept₁⟩, hcached⟩ := h₁
    cases r with
    | error e => exact ⟨hrests₁, hkept₁, by simp⟩
    | ok b =>
      dsimp only
      rw [wp.bind]
      refine (ih ht₁).mono fun r t₂ h₂ => ?_
      obtain ⟨hrests₂, hkept₂, hparts⟩ := h₂
      have hkept : ∀ x b, t.cacheOf x = some b → t₂.cacheOf x = some b :=
        fun x b hb => hkept₂ x b (hkept₁ x b hb)
      cases r with
      | error e => exact ⟨hrests₁.trans hrests₂, hkept, by simp⟩
      | ok bs =>
        refine ⟨hrests₁.trans hrests₂, hkept, ?_⟩
        rintro _ ⟨⟩
        exact .cons (hkept₂ c b (hcached b rfl)) (hparts bs rfl)

theorem wp_cellValue_unset (hcell : t.cell id = .ok .unset)
    {Q : Except TreeError (Option Value) → Tree → Prop} :
    wp (cellValue ask id) Q t ↔ Q (.ok none) t := by
  unfold cellValue
  rw [wp.look_ok hcell]
  exact wp.pure

/-- The bytes of a node other than a leaf, if its cell is not set, are those of its children. -/
theorem rawBytes_branch (hask : ∀ c, Caching P c (ask (.bytes c))) (hs : t.Settled) (ht : P t)
    (hn : t.node? id = some n) (hleaf : n.kind.isLeaf = false) (hcell : n.cell = .unset) :
    wp (rawBytes ask id n.kind) (fun r t' => ∀ b, r = .ok b → ∃ shown parts,
      t'.shownChildren id = .ok shown ∧ List.Forall₂ (fun c part => t'.cacheOf c = some part) shown parts ∧
        b = parts.flatten) t := by
  have hunset : t.cell id = .ok .unset := Tree.look_eq_ok.mpr ⟨n, hn, hcell⟩
  unfold rawBytes
  rw [hleaf, if_neg Bool.false_ne_true]
  dsimp only
  split
  case' isTrue =>
    rw [wp.bind]
    refine (Tree.touch_surveys id t hs).elim fun r hr => (hr t rfl).mono ?_
    rintro (e | _) t ⟨rfl, rfl⟩
    · rintro _ ⟨⟩
    dsimp only
  all_goals
    rw [wp.bind, wp_cellValue_unset hunset]
    dsimp only
    rw [wp.bind, wp.look]
    cases hshown : t.shownChildren id with
    | error e =>
      rintro _ ⟨⟩
    | ok shown =>
      dsimp only
      rw [wp.bind]
      refine (mapM_cached hask shown ht).mono fun r t₁ h₁ => ?_
      obtain ⟨hrests, -, hparts⟩ := h₁
      cases r with
      | error e =>
        rintro _ ⟨⟩
      | ok parts =>
        rintro _ ⟨⟩
        exact ⟨shown, parts, (hrests.shownChildren_eq id).trans hshown, hparts parts rfl, rfl⟩

end Resolver

end FormatFuzz
