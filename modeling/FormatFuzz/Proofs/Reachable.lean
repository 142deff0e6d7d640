-- SUMMARY: The states that a tree can get into, and what is known of all of them.
import FormatFuzz.Proofs.CampaignLaws
import FormatFuzz.Proofs.Preorder

/-!
# Reachable trees

A tree is built from a template and then changed by calls and fuzz runs in any order, whatever
they end with (`Tree.Reaches`). What calls, and the parts of fuzz runs keep holds in all states
reached this way (`Tree.Reaches.upholds`). All of them are well formed, and identifiers that have died
stay dead in them (`Tree.Reaches.remains_wellFormed`).
-/

namespace FormatFuzz

open TreeM

-- ---------------------------------------------------------------------------
-- Operations evolve the tree
-- ---------------------------------------------------------------------------

/-- Cells that operations write on their own account are allowed. -/
structure Permits (C : Cell → Prop) : Prop where
  literal : ∀ v, C (.literal v)
  element : ∀ group index field, C (.bound (.element group index field))

theorem Permits.any : Permits fun _ => True := ⟨fun _ => trivial, fun _ _ _ => trivial⟩

namespace Tree

variable {C : Cell → Prop}

theorem groupLaws_evolves (hC : Permits C) :
    GroupLaws (Evolves C) (fun _ => Evolves C) (Evolves C) where
  phase t id phase := .of_modifyGroup fun _ => rfl
  watch t id watcher := .of_modifyGroup fun _ => rfl
  stale t id := by
    refine .trans (.of_modifyGroup fun g => ?_) .of_invalidate
    split <;> rfl
  link s t id source index field _ h := h.trans (.trans (.of_putCell (hC.element _ _ _)) .of_invalidate)
  swap t id n g count hn hk := by
    by_cases hwf : t.WellFormed
    · refine (swapElements_spec hC.literal hwf hn g.element count).mono ?_
      rintro _ t' ⟨elements, rfl, -, h⟩
      exact h.evolves hn hk rfl
    · have hvacuous : ∀ t', Evolves C t t' := fun t' =>
        ⟨fun h => absurd h hwf, fun h => absurd h hwf, fun h => absurd h hwf⟩
      unfold wp
      generalize (swapElements id g.element n.children count).run t = out
      obtain ⟨_ | _, t'⟩ := out <;> exact hvacuous t'
  swapped := .trans
  settle h := h.trans .of_invalidate
  spoil := .trans

theorem resolverLaws_evolves (hC : Permits C) : ResolverLaws (Evolves C) where
  find := (groupLaws_evolves hC).find
  touch := (groupLaws_evolves hC).touch
  count := (groupLaws_evolves hC).count
  note t source reader := .of_noteReader source reader
  store t id b := .of_modify (fun _ _ => rfl) fun _ hc => hc
  stack t resolving := by
    refine .of_alike ⟨rfl, rfl, rfl, fun _ => rfl⟩ fun id n n' hn hn' hc => ?_
    have hn'' : t.node? id = some n' := hn'
    rw [hn] at hn''
    cases hn''
    exact hc

theorem setCell_eq_ok {t t' : Tree} {id : NodeId} {cell : Cell} (h : t.setCell id cell = .ok t') :
    t' = (t.invalidate id).putCell id cell := by
  unfold setCell at h
  cases hn : t.node id with
  | error e =>
    rw [hn] at h
    cases h
  | ok n =>
    rw [hn] at h
    cases h
    rfl

theorem evolves_setCell {t t' : Tree} {id : NodeId} {cell : Cell} (hcell : C cell)
    (h : t.setCell id cell = .ok t') : Evolves C t t' := by
  rw [setCell_eq_ok h]
  exact .trans .of_invalidate (.of_putCell hcell)

theorem evolves_restore {targets : List Target} (hsaved : ∀ x ∈ targets, C x.saved) (t : Tree) :
    Evolves C t (Campaign.restore targets t) := by
  unfold Campaign.restore
  refine .trans ?_ .of_invalidateAll
  induction targets generalizing t with
  | nil => exact .refl C t
  | cons x rest ih =>
    have hput : Evolves C t (t.putCell x.id x.saved) := .of_putCell (hsaved x List.mem_cons_self)
    exact hput.trans (ih (fun y hy => hsaved y (List.mem_cons_of_mem _ hy)) _)

/-- What a state keeps, as a relation between states. -/
def Upholds (P : Tree → Prop) (t t' : Tree) : Prop := P t → P t'

instance {P : Tree → Prop} : IsPreorder Tree (Upholds P) where
  refl _ := fun h => h
  trans _ _ _ := fun h h' hP => h' (h hP)

/-- What an evolving tree keeps. -/
def Sustains (P : Tree → Prop) (t t' : Tree) : Prop := Evolves (fun _ => True) t t' ∧ Upholds P t t'

instance {P : Tree → Prop} : IsPreorder Tree (Sustains P) where
  refl t := ⟨.refl _ t, fun h => h⟩
  trans _ _ _ h h' := ⟨h.1.trans h'.1, fun hP => h'.2 (h.2 hP)⟩

theorem Upholds.preserves {α : Type} {P : Tree → Prop} {act : TreeM α}
    (h : ∀ t, P t → wp act (fun _ t' => P t') t) : Preserves (Upholds P) (Upholds P) act :=
  .of_run fun t ht => h t ht

-- ---------------------------------------------------------------------------
-- Calls
-- ---------------------------------------------------------------------------

/-- The calls that can change a tree. Those that only look at it are left out. -/
inductive Call where
  | find (start : NodeId) (path : String)
  | bytes (id : NodeId)
  | value (id : NodeId)
  | byteLength (id : NodeId)
  | offset (id : NodeId)
  | count (id : NodeId)
  | resize (id : NodeId) (count : Nat)
  | replaceCell (id : NodeId) (cell : Cell)
  | invalidate (id : NodeId)
  | invalidateAll

/-- The tree after a call, whether it succeeds or fails. -/
def Call.run : Call → Tree → Tree
  | .find start path, t => ((Tree.find start path).run t).2
  | .bytes id, t => ((Tree.bytes id).run t).2
  | .value id, t => ((Tree.value id).run t).2
  | .byteLength id, t => ((Tree.byteLength id).run t).2
  | .offset id, t => ((Tree.offset id).run t).2
  | .count id, t => ((Tree.count id).run t).2
  | .resize id n, t => ((Tree.resize id n).run t).2
  | .replaceCell id cell, t => ((Tree.replaceCell id cell).run t).2
  | .invalidate id, t => t.invalidate id
  | .invalidateAll, t => t.invalidateAll

/-- If the call writes a cell, it is one of `C`. -/
def Call.Writes (C : Cell → Prop) : Call → Prop
  | .replaceCell _ cell => C cell
  | _ => True

/-- The trees that a tree can become by allowed calls and by fuzz runs. The sink of a run may do
to the tree whatever is allowed otherwise. -/
inductive Reaches (allowed : Tree → Call → Prop) : Tree → Tree → Prop where
  | refl (t : Tree) : Reaches allowed t t
  | call {t t' : Tree} (c : Call) : Reaches allowed t t' → allowed t' c →
      Reaches allowed t (c.run t')
  | targets {t t' : Tree} (c : Campaign) : Reaches allowed t t' →
      Reaches allowed t (c.targets.run t').2
  | campaign {t t' : Tree} {σ : Type} (c : Campaign) (sink : Sink σ) (s : σ) :
      Reaches allowed t t' → (∀ trial s v, Reaches allowed v (sink.accept trial s v).2.2) →
      Reaches allowed t (c.run sink s t').2.2

/-- A call does to the tree what resolution does, unless it resizes a group, writes a cell or clears
caches. -/
theorem Call.rule {R : Tree → Tree → Prop} [IsPreorder Tree R] (laws : ScopeLaws R)
    (hbytes : ∀ ask : Resolver, (∀ r, Preserves R R (ask r)) →
      ∀ id, Preserves R R (Resolver.bytesStep ask id)) (c : Call) {t : Tree}
    (hresize : ∀ id n, c = .resize id n → R t ((Tree.resize id n).run t).2)
    (hwrite : ∀ id cell t', c = .replaceCell id cell → t.setCell id cell = .ok t' → R t t')
    (hinvalidate : ∀ id, R t (t.invalidate id)) (hinvalidateAll : R t t.invalidateAll) :
    R t (c.run t) := by
  cases c with
  | find start path => exact (laws.find start path).run t
  | bytes id => exact (laws.answerAll hbytes (.bytes id)).run t
  | value id => exact (laws.answerAll hbytes (.value id)).run t
  | byteLength id => exact (laws.answerAll hbytes (.length id)).run t
  | offset id => exact (laws.offset hbytes id).run t
  | count id => exact (laws.count id).run t
  | resize id n => exact hresize id n rfl
  | replaceCell id cell =>
    suffices hcell : wp (Tree.replaceCell id cell) (fun _ t' => R t t') t from hcell
    unfold Tree.replaceCell
    rw [wp.update]
    cases ht' : t.setCell id cell with
    | error e => exact refl_of R t
    | ok t' => exact hwrite id cell t' rfl ht'
  | invalidate id => exact hinvalidate id
  | invalidateAll => exact hinvalidateAll

theorem Call.evolves (c : Call) (t : Tree) : Evolves (fun _ => True) t (c.run t) := by
  have laws := resolverLaws_evolves .any
  refine c.rule laws.scope (fun _ => laws.bytesStep) (fun id n _ => ?_) (fun id cell t' _ ht' => ?_)
    (fun id => .of_invalidate) .of_invalidateAll
  · exact ((groupLaws_evolves .any).resize id n).run t
  · exact evolves_setCell trivial ht'

theorem Reaches.evolves {allowed : Tree → Call → Prop} {t t' : Tree} (h : Reaches allowed t t') :
    Evolves (fun _ => True) t t' := by
  have laws := resolverLaws_evolves .any
  induction h with
  | refl t => exact .refl _ t
  | call c _ _ ih => exact ih.trans (c.evolves _)
  | targets c _ ih => exact ih.trans ((laws.campaignTargets c).run _)
  | campaign c sink s _ _ ih hsink =>
    refine ih.trans (c.run_preserves (P := fun _ _ => True) ?_ ?_ ?_ hsink s)
    · refine (laws.campaignTargets c _).mono fun r t' h => ?_
      cases r <;> exact ⟨h, fun _ _ => trivial⟩
    · exact fun t t' id v h => evolves_setCell trivial h
    · exact fun targets _ t _ _ => evolves_restore (fun _ _ => trivial) t

/-- What allowed calls keep, and what fuzz runs keep when they select, assign and restore fields, holds
in all states. `Q` is known of the fields that are selected, in the tree that the selection leaves. -/
theorem Reaches.upholds {allowed : Tree → Call → Prop} {P : Tree → Prop} {Q : List Target → Tree → Prop}
    (hcall : ∀ t c, allowed t c → P t → P (c.run t))
    (hselect : ∀ t (c : Campaign), P t →
      wp c.targets (fun r t' => P t' ∧ ∀ targets, r = .ok targets → Q targets t') t)
    (hassign : ∀ t t' id v, t.setCell id (.literal v) = .ok t' → P t → P t')
    (hrestore : ∀ targets t t', Q targets t → Evolves (fun _ => True) t t' → P t' →
      P (Campaign.restore targets t')) {t t' : Tree}
    (h : Reaches allowed t t') (ht : P t) : P t' := by
  suffices hupholds : Upholds P t t' from hupholds ht
  clear ht
  induction h with
  | refl t => exact fun ht => ht
  | call c _ hallowed ih => exact fun ht => hcall _ c hallowed (ih ht)
  | targets c _ ih => exact fun ht => (hselect _ c (ih ht)).1
  | campaign c sink s _ hreach ih hsink =>
    intro ht
    have laws := resolverLaws_evolves .any
    refine (c.run_preserves (R := Sustains P) (P := Q) ?_ ?_ ?_ ?_ s).2 (ih ht)
    · refine ((hselect _ c (ih ht)).and (laws.campaignTargets c _)).mono ?_
      rintro r t' ⟨⟨ht', hQ⟩, hev⟩
      exact ⟨⟨by cases r <;> exact hev, fun _ => ht'⟩, hQ⟩
    · exact fun t t' id v h => ⟨evolves_setCell trivial h, hassign t t' id v h⟩
    · exact fun targets t t' hQ hR =>
        ⟨evolves_restore (fun _ _ => trivial) t', hrestore targets t t' hQ hR.1⟩
    · exact fun trial s v => ⟨(hreach trial s v).evolves, hsink trial s v⟩

-- ---------------------------------------------------------------------------
-- New trees
-- ---------------------------------------------------------------------------

/-- The tree of a template before any group has been touched. -/
theorem instantiate_wellFormed (hlit : ∀ v, C (.literal v)) (template : Template) (seed : UInt64) :
    let made := (empty seed).instantiate template none none
    { made.2 with root := made.1 }.WellFormed ∧ (template.CellsIn C →
      { made.2 with root := made.1 }.Models C template template.name made.1) := by
  obtain ⟨hs, hm⟩ := instantiate_sprouts hlit template none none (empty seed)
  dsimp only
  generalize (empty seed).instantiate template none none = made at hs hm ⊢
  obtain ⟨root, t⟩ := made
  have hfresh : ∀ {x n}, t.node? x = some n → Linked (empty seed) t [root] x n :=
    fun hn => hs.fresh (Nat.zero_le _) hn
  refine ⟨⟨?_, ?_, ?_⟩, fun hcells => ?_⟩
  · obtain ⟨-, n, hn, hp⟩ := hs.roots List.mem_cons_self
    exact ⟨n, hn, hp⟩
  · intro id n hn hne
    rcases (hfresh hn).parent with hroot | ⟨p, m, hp, -, hm, hcount⟩
    · exact absurd (List.mem_singleton.mp hroot) hne
    · exact ⟨p, m, hp, hm, hcount⟩
  · intro id n c hn hc
    exact (hfresh hn).child c hc
  · refine (hm hcells).transfer (P := fun _ => True) (fun x _ n hn => ?_) template _ root hcells
      trivial
    exact ⟨n, hn, rfl, fun hc => hc, .inl ⟨rfl, fun _ _ => trivial⟩⟩

/-- A tree is built by visiting the root of what its template is made into. -/
theorem build_eq_ok {template : Template} {seed : UInt64} {t : Tree} :
    build template seed = .ok t ↔ ∃ root t₀, (empty seed).instantiate template none none = (root, t₀) ∧
      (perform (.visit root)).run { t₀ with root } = (.ok (), t) := by
  unfold build
  generalize (empty seed).instantiate template none none = made
  obtain ⟨root, t₀⟩ := made
  dsimp only
  rcases hvisit : (perform (.visit root)).run { t₀ with root } with ⟨r, t₁⟩
  constructor
  · intro h
    refine ⟨root, t₀, rfl, hvisit.trans ?_⟩
    cases r <;> cases h
    rfl
  · rintro ⟨_, _, ⟨⟩, h⟩
    cases hvisit.symm.trans h
    rfl

theorem build_wellFormed (hC : Permits C) {template : Template} {seed : UInt64} {t : Tree}
    (h : build template seed = .ok t) :
    t.WellFormed ∧ (template.CellsIn C → t.Models C template template.name t.root) := by
  obtain ⟨hwf, hm⟩ := instantiate_wellFormed hC.literal template seed
  obtain ⟨root, t₀, hmade, hvisit⟩ := build_eq_ok.mp h
  rw [hmade] at hwf hm
  have hevolves : Evolves C _ t := ((groupLaws_evolves hC).perform (.visit root) _).of_run hvisit
  exact ⟨hevolves.wellFormed hwf, fun hcells => (hm hcells).evolve hwf hcells hevolves⟩

-- ---------------------------------------------------------------------------
-- All states
-- ---------------------------------------------------------------------------

theorem Reaches.wellFormed {allowed : Tree → Call → Prop} {template : Template} {seed : UInt64}
    {t₀ t : Tree} (hbuild : build template seed = .ok t₀) (h : Reaches allowed t₀ t) : t.WellFormed :=
  h.evolves.wellFormed (build_wellFormed .any hbuild).1

/-- Every state of a tree is well formed: the root is live and has no parent, every other node
has a live parent in front of it that lists it once, and what a node lists is live and points back
to it. In every later state the places of dead nodes are empty, and a node at an old place is the
one that was there. To be in a subtree is to be met on the walk over it. -/
theorem Reaches.remains_wellFormed {allowed : Tree → Call → Prop} {template : Template} {seed : UInt64}
    {t₀ t : Tree} (hbuild : build template seed = .ok t₀) (h : Reaches allowed t₀ t) :
    t.WellFormed ∧
      (∀ t', Reaches allowed t t' → ∀ id : NodeId, id.index < t.nodes.size →
        (t.isLive id = false → t'.isLive id = false) ∧
        ∀ n', t'.node? id = some n' → ∃ n, t.node? id = some n ∧ n.fixture = n'.fixture) ∧
      ∀ a n, t.isLive a = true → t.isLive n = true →
        (t.contains a n = true ↔ n ∈ t.preorder a) := by
  have hwf₀ : t₀.WellFormed :=
    (build_wellFormed (C := fun _ => True) ⟨fun _ => trivial, fun _ _ _ => trivial⟩ hbuild).1
  have hwf := h.evolves.wellFormed hwf₀
  refine ⟨hwf, fun t' h' id hlt => ⟨fun hdead => ?_, fun n' hn' => ?_⟩, fun a n ha hn => ?_⟩
  · have hgrows := h'.evolves.grows hwf
    unfold isLive at hdead ⊢
    rw [Option.isSome_eq_false_iff, Option.isNone_iff_eq_none] at hdead ⊢
    exact hgrows.dead hlt hdead
  · obtain ⟨n, hn, hf, -⟩ := (h'.evolves.grows hwf).old hlt hn'
    exact ⟨n, hn, hf⟩
  · obtain ⟨m, hm⟩ := isLive_iff_node?.mp ha
    obtain ⟨l, hl⟩ := isLive_iff_node?.mp hn
    exact contains_iff_mem_preorder hwf hm hl

/-- What has been checked of a new tree is known of it. -/
theorem exists_build {template : Template} {seed : UInt64} {p : Tree → Bool}
    (h : (build template seed).toOption.any p = true) :
    ∃ t, build template seed = .ok t ∧ p t = true := by
  cases hbuild : build template seed with
  | error e =>
    rw [hbuild] at h
    cases h
  | ok t =>
    rw [hbuild] at h
    exact ⟨t, rfl, h⟩

/-- A group of two truth values. -/
def flags : Template := .group "flags" (.boolean "flag") (.fixed 2)

theorem Reaches.remains_wellFormed_flags :
    ∃ t₀, build flags 7 = .ok t₀ ∧ ((Call.resize ⟨0⟩ 3).run t₀).WellFormed := by
  have hok : (build flags 7).isOk = true := by decide +kernel
  cases hbuild : build flags 7 with
  | error e =>
    rw [hbuild] at hok
    cases hok
  | ok t₀ =>
    have hreach : Reaches (fun _ _ => True) t₀ ((Call.resize ⟨0⟩ 3).run t₀) :=
      .call (.resize ⟨0⟩ 3) (.refl t₀) trivial
    exact ⟨t₀, rfl, (Reaches.remains_wellFormed hbuild hreach).1⟩

end Tree

end FormatFuzz
