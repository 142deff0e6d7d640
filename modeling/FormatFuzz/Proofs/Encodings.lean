-- SUMMARY: What is cached for a leaf with a codec is the encoding of a value.
import FormatFuzz.Proofs.Invalidation
import FormatFuzz.Proofs.Readiness

/-!
# Encodings

The length of a leaf with a codec is told by the codec alone, whatever is cached for the leaf. The two fit
together if the codec is honest, because nothing is ever cached for such a leaf but the encoding of a value
(`Tree.Reaches.encoded`). Bytes get into a cache only where they have been worked out, and all other
changes leave caches alone or drop them.
-/

namespace FormatFuzz

open TreeM

-- ---------------------------------------------------------------------------
-- Leaves
-- ---------------------------------------------------------------------------

theorem Cell.isUnset_iff {cell : Cell} : cell.isUnset = true ↔ cell = .unset := by
  cases cell <;> simp [isUnset]

/-- What is known of a node by the rule for its length. -/
inductive Node.Ruled (n : Node) : Resolver.LengthRule → Prop
  | encode : n.Ruled .encode
  | fixed {kind : LeafKind} {k : Nat} : n.action = none → n.kind = .leaf kind →
      kind.fixedLength? = some k → n.Ruled (.fixed k)
  | codec {codec : Codec} : n.action = none → n.kind = .leaf (.custom codec) → n.Ruled (.codec codec)
  | children : n.action = none → n.kind.isLeaf = false → n.cell = .unset → n.Ruled .children

theorem Node.ruled (n : Node) : n.Ruled (Resolver.lengthRule n) := by
  have hinner : ∀ {kind : NodeKind}, n.action = none → n.kind = kind → kind.isLeaf = false →
      n.Ruled (if n.cell.isUnset then .children else .encode) := by
    intro kind haction hkind hleaf
    cases hcell : n.cell with
    | unset => exact .children haction (hkind ▸ hleaf) hcell
    | literal v => exact .encode
    | deferred s => exact .encode
    | computed f sources => exact .encode
    | bound b => exact .encode
  unfold Resolver.lengthRule
  cases haction : n.action with
  | some f => exact .encode
  | none =>
    cases hkind : n.kind with
    | leaf kind =>
      cases kind with
      | int spec => exact .fixed haction hkind rfl
      | str spec => exact .encode
      | bool => exact .fixed haction hkind rfl
      | custom codec => exact .codec haction hkind
    | composite => exact hinner haction hkind rfl
    | repeated g => exact hinner haction hkind rfl

theorem Node.lengthRule_eq_codec {n : Node} {codec : Codec} : Resolver.lengthRule n = .codec codec ↔
    n.action = none ∧ n.kind = .leaf (.custom codec) := by
  constructor
  · intro hrule
    have hruled := n.ruled
    rw [hrule] at hruled
    cases hruled with
    | codec haction hkind => exact ⟨haction, hkind⟩
  · rintro ⟨haction, hkind⟩
    unfold Resolver.lengthRule
    rw [haction, hkind]
    rfl

theorem Node.lengthRule_eq_children {n : Node} : Resolver.lengthRule n = .children ↔
    n.action = none ∧ n.kind.isLeaf = false ∧ n.cell = .unset := by
  constructor
  · intro hrule
    have hruled := n.ruled
    rw [hrule] at hruled
    cases hruled with
    | children haction hkind hcell => exact ⟨haction, hkind, hcell⟩
  · rintro ⟨haction, hkind, hcell⟩
    unfold Resolver.lengthRule
    rw [haction, hcell]
    cases hk : n.kind with
    | leaf kind =>
      rw [hk] at hkind
      cases hkind
    | composite => rfl
    | repeated g => rfl

/-- A leaf with a codec remains one. -/
theorem Node.lengthRule_codec_of_fixture {n n' : Node} {codec : Codec} (h : n.fixture = n'.fixture) :
    Resolver.lengthRule n = .codec codec ↔ Resolver.lengthRule n' = .codec codec := by
  rw [lengthRule_eq_codec, lengthRule_eq_codec, action_of_fixture h, ← NodeKind.still_eq_leaf,
    still_of_fixture h, NodeKind.still_eq_leaf]

namespace Resolver

variable {ask : Resolver} {id : NodeId} {t : Tree}

/-- The bytes of a leaf before its output transform are the encoding of a value. -/
theorem rawBytes_leaf {kind : LeafKind} (hkept : wp (leafContent ask id) (fun _ t' =>
      ∀ n', t'.node? id = some n' → n'.kind = .leaf kind) t) :
    wp (rawBytes ask id (.leaf kind)) (fun r _ =>
      ∀ b, r = .ok b → ∃ name v, kind.encode name v = .ok b) t := by
  unfold rawBytes
  rw [if_pos (show (NodeKind.leaf kind).isLeaf = true from rfl), wp.bind]
  refine hkept.mono fun r t₁ hkind => ?_
  cases r with
  | error e =>
    rintro _ ⟨⟩
  | ok v =>
    dsimp only
    rw [wp.look]
    intro b hb
    unfold encode at hb
    cases hn : t₁.node id with
    | error e =>
      rw [hn] at hb
      cases hb
    | ok n₁ =>
      rw [hn, ok_bind, hkind n₁ (Tree.node_eq_ok.mp hn)] at hb
      exact ⟨_, v, hb⟩

/-- Without an output transform, the bytes are those from before it. -/
theorem freshBytes_of_rawBytes {n : Node} (hn : t.node? id = some n) {Q : Bytes → Tree → Prop}
    (hkept : wp (rawBytes ask id n.kind) (fun _ t' => ∀ n', t'.node? id = some n' → n'.action = none) t)
    (hraw : wp (rawBytes ask id n.kind) (fun r t' => ∀ b, r = .ok b → Q b t') t) :
    wp (freshBytes ask id) (fun r t' => ∀ b, r = .ok b → Q b t') t := by
  have hkind : t.look id (·.kind) = .ok n.kind := Tree.look_eq_ok.mpr ⟨n, hn, rfl⟩
  unfold freshBytes
  rw [wp.look_ok hkind, wp.bind]
  refine (hkept.and hraw).mono fun r t₁ h₁ => ?_
  cases r with
  | error e =>
    rintro _ ⟨⟩
  | ok raw =>
    dsimp only
    rw [wp.bind, wp.look]
    cases haction : t₁.look id (·.action) with
    | error e =>
      rintro _ ⟨⟩
    | ok action =>
      obtain ⟨n₁, hn₁, rfl⟩ := Tree.look_eq_ok.mp haction
      rw [h₁.1 n₁ hn₁]
      exact h₁.2

-- ---------------------------------------------------------------------------
-- Bytes
-- ---------------------------------------------------------------------------

variable {n : Node}

theorem wp_bytesStep_cached (hn : t.node? id = some n) {b : Bytes} (hb : n.cache = some b)
    {Q : Except TreeError Bytes → Tree → Prop} : wp (bytesStep ask id) Q t ↔ Q (.ok b) t := by
  unfold bytesStep
  rw [wp.look_ok (Tree.node_eq_ok.mpr hn), hb]
  exact wp.pure

theorem wp_bytesStep_fresh (hn : t.node? id = some n) (hnone : n.cache = none)
    {Q : Except TreeError Bytes → Tree → Prop} : wp (bytesStep ask id) Q t ↔ wp (do
      let b ← guarded id (freshBytes ask id)
      TreeM.update fun t => do
        let _ ← t.node id
        return t.modify id ({ · with cache := some b })
      return b) Q t := by
  unfold bytesStep
  rw [wp.look_ok (Tree.node_eq_ok.mpr hn), hnone]

theorem wp_store (hn : t.node? id = some n) {b : Bytes} {Q : Except TreeError Bytes → Tree → Prop} :
    wp (do
      TreeM.update fun t => do
        let _ ← t.node id
        return t.modify id ({ · with cache := some b })
      return b) Q t ↔ Q (.ok b) (t.modify id ({ · with cache := some b })) := by
  rw [wp.bind, wp.update, Tree.node_eq_ok.mpr hn]
  exact Iff.rfl

/-- What is true of the tree stays true when bytes are asked for, if it does when they are worked out and
when they are cached then. -/
theorem wp_bytesStep_of_fresh {P : Tree → Prop} (ht : P t)
    (hfresh : ∀ {n}, t.node? id = some n → n.cache = none → wp (guarded id (freshBytes ask id)) (fun r t' =>
      P t' ∧ ∀ b m, r = .ok b → t'.node? id = some m → P (t'.modify id ({ · with cache := some b }))) t) :
    wp (bytesStep ask id) (fun _ t' => P t') t := by
  cases hnode : t.node id with
  | error e =>
    unfold bytesStep
    rwa [wp.look_error hnode]
  | ok n =>
    have hn : t.node? id = some n := Tree.node_eq_ok.mp hnode
    cases hcache : n.cache with
    | some b => rwa [wp_bytesStep_cached hn hcache]
    | none =>
      rw [wp_bytesStep_fresh hn hcache, wp.bind]
      refine (hfresh hn hcache).mono fun r t₁ h₁ => ?_
      obtain ⟨ht₁, hstored⟩ := h₁
      cases r with
      | error e => exact ht₁
      | ok b =>
        cases hm : t₁.node id with
        | error e =>
          dsimp only
          rw [wp.bind, wp.update, hm]
          exact ht₁
        | ok m =>
          have hlive : t₁.node? id = some m := Tree.node_eq_ok.mp hm
          exact (wp_store hlive).mpr (hstored b m rfl hlive)

end Resolver

-- ---------------------------------------------------------------------------
-- Caches of leaves with a codec
-- ---------------------------------------------------------------------------

namespace Tree

variable {t t' u : Tree} {id : NodeId}

/-- What is cached for a leaf with a codec is the encoding of a value. -/
def Encoded (t : Tree) : Prop := ∀ ⦃id n b codec⦄, t.node? id = some n → n.cache = some b →
  Resolver.lengthRule n = .codec codec → ∃ v, codec.encode v = .ok b

/-- The tree evolves, and what is cached for leaves with a codec stays the encoding of a value. -/
structure Encodes (t t' : Tree) : Prop where
  evolves : Evolves (fun _ => True) t t'
  encoded : t.WellFormed → t.Encoded → t'.Encoded

namespace Encodes

theorem refl (t : Tree) : t.Encodes t := ⟨.refl _ t, fun _ h => h⟩

theorem trans (h : t.Encodes t') (h' : t'.Encodes u) : t.Encodes u where
  evolves := h.evolves.trans h'.evolves
  encoded hwf henc := h'.encoded (h.evolves.wellFormed hwf) (h.encoded hwf henc)

instance : IsPreorder Tree Encodes where
  refl := refl
  trans _ _ _ := trans

theorem fixture (h : t.Encodes t') (hwf : t.WellFormed) {n n' : Node} (hn : t.node? id = some n)
    (hn' : t'.node? id = some n') : n.fixture = n'.fixture := by
  obtain ⟨m, hm, hfixture, -⟩ := (h.evolves.grows hwf).old (lt_size hn) hn'
  rw [hn] at hm
  cases hm
  exact hfixture

/-- Caches may be dropped. -/
theorem of_dropped (hev : Evolves (fun _ => True) t t') (hcached : ∀ {x n' b}, t'.node? x = some n' →
    n'.cache = some b → ∃ n, t.node? x = some n ∧ n.cache = some b) : t.Encodes t' where
  evolves := hev
  encoded hwf henc := by
    intro x n' b codec hn' hb hrule
    obtain ⟨n, hn, hcache⟩ := hcached hn' hb
    obtain ⟨m, hm, hfixture, -⟩ := (hev.grows hwf).old (lt_size hn) hn'
    rw [hn] at hm
    cases hm
    exact henc hn hcache ((Node.lengthRule_codec_of_fixture hfixture).mpr hrule)

theorem of_uncached (hev : Evolves (fun _ => True) t t')
    (hnone : ∀ {x n'}, t'.node? x = some n' → n'.cache = none) : t.Encodes t' :=
  of_dropped hev fun hn' hb => by simp [hnone hn'] at hb

theorem of_keeps {D : NodeId → Prop} (hev : Evolves (fun _ => True) t t') (h : Keeps D t t') :
    t.Encodes t' :=
  of_dropped hev fun hn' hb => (h.cached hn' hb).1

/-- Bytes may be cached that are the encoding of a value if the node is a leaf with a codec. -/
theorem store (h : t.Encodes t') {b : Bytes} (hb : t.WellFormed → ∀ n codec, t'.node? id = some n →
    Resolver.lengthRule n = .codec codec → ∃ v, codec.encode v = .ok b) :
    t.Encodes (t'.modify id ({ · with cache := some b })) where
  evolves := h.evolves.trans (.of_modify (fun _ _ => rfl) fun _ hc => hc)
  encoded hwf henc := by
    intro x n' b' codec hn' hb' hrule
    rw [node?_modify] at hn'
    split at hn'
    · obtain ⟨n, hn, rfl⟩ := Option.map_eq_some_iff.mp hn'
      cases hb'
      exact hb hwf n codec hn hrule
    · exact h.encoded hwf henc hn' hb' hrule

end Encodes

-- ---------------------------------------------------------------------------
-- Operations
-- ---------------------------------------------------------------------------

theorem groupLaws_encodes : GroupLaws Encodes (fun _ => Encodes) Encodes where
  phase t id phase := .of_keeps (D := fun _ => False) ((groupLaws_evolves .any).phase t id phase)
    (.of_modifyGroup _)
  watch t id watcher := .of_keeps (D := fun _ => False)
    ((groupLaws_evolves .any).watch t id watcher) (.of_modifyGroup _)
  stale t id := .of_keeps (D := fun _ => False) ((groupLaws_evolves .any).stale t id)
    (.trans (.of_modifyGroup _) .of_invalidate)
  link s t id source index field _ h := by
    have hput : Keeps (· = id) t (t.putCell id (.bound (.element source index field))) :=
      .of_modify (fun _ => ⟨rfl, rfl⟩) fun _ hne => absurd rfl hne
    exact h.trans (.of_keeps (.trans (.of_putCell trivial) .of_invalidate) hput.invalidate)
  swap t id n g count hn hk := by
    refine (((groupLaws_evolves .any).swap t id n g count hn hk).and
      (swapElements_keeps id g.element n.children count t)).mono ?_
    rintro (e | elements) t' ⟨hev, hkeeps⟩ <;> exact .of_keeps hev hkeeps
  swapped h h' := h.trans h'
  settle h := h.trans (.of_keeps (D := fun _ => False) .of_invalidate .of_invalidate)
  spoil h h' := h.trans h'

theorem encodes_stack (t : Tree) (resolving : List NodeId) : t.Encodes { t with resolving } :=
  ⟨(resolverLaws_evolves .any).stack t resolving, fun _ h => h⟩

theorem encodes_guarded {α : Type} (id : NodeId) {act : TreeM α} (hact : Preserves Encodes Encodes act) :
    Preserves Encodes Encodes (Resolver.guarded id act) := by
  refine .of_run fun t => ?_
  suffices h : wp (Resolver.guarded id act) (fun _ t' => t.Encodes t') t from h
  rw [wp.guarded]
  split
  · exact .refl t
  · refine (hact { t with resolving := id :: t.resolving }).mono fun r u hu => ?_
    exact (encodes_stack t _).trans (hu.rel.trans (encodes_stack u _))

theorem scopeLaws_encodes : ScopeLaws Encodes where
  find := groupLaws_encodes.find
  touch := groupLaws_encodes.touch
  count := groupLaws_encodes.count
  note t source reader := by
    refine .of_dropped (.of_noteReader source reader) fun {x n' b} hn' hb => ?_
    rw [node?_noteReader] at hn'
    split at hn'
    · obtain ⟨n, hn, rfl⟩ := Option.map_eq_some_iff.mp hn'
      exact ⟨n, hn, hb⟩
    · exact ⟨n', hn', hb⟩
  guarded := encodes_guarded

section

variable {ask : Resolver} (hask : ∀ r, Preserves Encodes Encodes (ask r))

include hask

/-- The bytes of a leaf with a codec are the encoding of a value. -/
theorem freshBytes_encoded {n : Node} {codec : Codec} (hwf : t.WellFormed) (hn : t.node? id = some n)
    (hrule : Resolver.lengthRule n = .codec codec) : wp (Resolver.freshBytes ask id) (fun r _ =>
      ∀ b, r = .ok b → ∃ v, codec.encode v = .ok b) t := by
  obtain ⟨haction, hkind⟩ := Node.lengthRule_eq_codec.mp hrule
  have hkept : ∀ {α : Type} {act : TreeM α}, Preserves Encodes Encodes act → wp act (fun _ t' =>
      ∀ n', t'.node? id = some n' → n'.action = none ∧ n'.kind = .leaf (.custom codec)) t := by
    intro α act hact
    refine (hact t).mono fun r t' h n' hn' => ?_
    have hfixture := h.rel.fixture hwf hn hn'
    exact Node.lengthRule_eq_codec.mp ((Node.lengthRule_codec_of_fixture hfixture).mp hrule)
  have hrules := scopeLaws_encodes.readRules
  have hscripts := scopeLaws_encodes.scriptRules hask
  refine Resolver.freshBytes_of_rawBytes hn (Q := fun b _ => ∃ v, codec.encode v = .ok b) ?_ ?_
  · exact (hkept (hrules.rawBytes hask hscripts id n.kind)).mono fun _ _ h n' hn' => (h n' hn').1
  · rw [hkind]
    have hleaf := (hkept (hrules.leafContent hask hscripts id)).mono fun _ _ h n' hn' => (h n' hn').2
    refine (Resolver.rawBytes_leaf hleaf).mono fun r _ h b hb => ?_
    obtain ⟨name, v, hv⟩ := h b hb
    exact ⟨v, hv⟩

theorem encodes_bytesStep (id : NodeId) : Preserves Encodes Encodes (Resolver.bytesStep ask id) := by
  refine .of_run fun t => ?_
  suffices h : wp (Resolver.bytesStep ask id) (fun _ t' => t.Encodes t') t from h
  refine Resolver.wp_bytesStep_of_fresh (.refl t) fun {n} hn _ => ?_
  have hfresh := scopeLaws_encodes.freshBytes hask id
  have hencoded : wp (Resolver.guarded id (Resolver.freshBytes ask id)) (fun r _ => ∀ b codec,
      r = .ok b → t.WellFormed → Resolver.lengthRule n = .codec codec → ∃ v, codec.encode v = .ok b) t := by
    rw [wp.guarded]
    split
    · simp
    · intro b codec hb hwf hrule
      have hpushed := (encodes_stack t (id :: t.resolving)).evolves.wellFormed hwf
      exact freshBytes_encoded hask hpushed hn hrule b hb
  refine ((encodes_guarded id hfresh t).and hencoded).mono fun r t₁ h₁ => ?_
  obtain ⟨h₁, hencoded⟩ := h₁
  have h₁ := h₁.rel
  refine ⟨h₁, fun b _ hb _ => h₁.store fun hwf m codec hm hrule => hencoded b codec hb hwf ?_⟩
  exact (Node.lengthRule_codec_of_fixture (h₁.fixture hwf hn hm)).mpr hrule

end

theorem encodes_setCell {cell : Cell} (h : t.setCell id cell = .ok t') : t.Encodes t' := by
  have hev : Evolves (fun _ => True) t t' := evolves_setCell trivial h
  rw [setCell_eq_ok h] at hev ⊢
  exact .of_keeps (D := fun _ => False) hev .of_setCell

theorem Call.encodes (c : Call) (t : Tree) : t.Encodes (c.run t) := by
  refine c.rule scopeLaws_encodes (fun _ => encodes_bytesStep) (fun id n _ => ?_)
    (fun _ _ _ _ => encodes_setCell) (fun id => ?_) ?_
  · exact (groupLaws_encodes.resize id n).run t
  · exact .of_keeps (D := fun _ => False) .of_invalidate .of_invalidate
  · refine .of_uncached .of_invalidateAll fun {x n} hn => ?_
    rw [node?_invalidateAll] at hn
    obtain ⟨m, -, rfl⟩ := Option.map_eq_some_iff.mp hn
    rfl

theorem Reaches.encodes {allowed : Tree → Call → Prop} (h : Reaches allowed t t') : t.Encodes t' := by
  have htargets : ∀ (c : Campaign) t, wp c.targets (fun _ t' => t.Encodes t') t := fun c t =>
    (c.targets_saved t).mono fun _ _ h => h.1.keeps scopeLaws_encodes.touch
  induction h with
  | refl t => exact .refl t
  | call c _ _ ih => exact ih.trans (c.encodes _)
  | targets c _ ih => exact ih.trans (htargets c _)
  | campaign c sink s _ _ ih hsink =>
    refine ih.trans (c.run_preserves (P := fun _ _ => True) ?_ ?_ ?_ hsink s)
    · exact (htargets c _).mono fun _ _ h => ⟨h, fun _ _ => trivial⟩
    · exact fun _ _ _ _ h => encodes_setCell h
    · refine fun targets _ t _ _ => .of_uncached (evolves_restore (fun _ _ => trivial) t) fun {x n} hn => ?_
      unfold Campaign.restore at hn
      rw [node?_invalidateAll] at hn
      obtain ⟨m, -, rfl⟩ := Option.map_eq_some_iff.mp hn
      rfl

/-- In all states of a tree, whatever fails on the way, nothing is cached for a leaf with a codec but the
encoding of a value. -/
theorem Reaches.encoded {allowed : Tree → Call → Prop} {template : Template} {seed : UInt64} {t₀ : Tree}
    (hbuild : build template seed = .ok t₀) (h : Reaches allowed t₀ t) : t.Encoded := by
  obtain ⟨start, hwf, -, hnew, -, hstart⟩ := exists_start template seed
  have hbuilt : start.Encodes t₀ :=
    (groupLaws_encodes.perform (.visit start.root) start).of_run ((hstart t₀).mp hbuild)
  refine (hbuilt.trans h.encodes).encoded hwf fun id n b codec hn hb _ => ?_
  rw [(hnew hn).cache] at hb
  cases hb

end Tree

end FormatFuzz
