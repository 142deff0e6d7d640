-- SUMMARY: Nodes for which a question is answered have outlived it, as a rule.
import FormatFuzz.Proofs.Assembly
import FormatFuzz.Proofs.Recurrence
import FormatFuzz.Proofs.Restoration
import FormatFuzz.Proofs.Seclusion

/-!
# Survivals

A question about a node can initialize groups, and their old elements are discarded then, maybe with the node
itself. Bytes are stored in their node in the end, the length of a node is the sum of those of its children,
and a count is that of the elements found in the end, so that no such question is answered for a node that is
gone (`Tree.byteLength_lasts`). The value of a leaf and an offset are not looked after in this way: a leaf or a
target that its own question discards still gets an answer (`Tree.value_outlives`). This takes a group above
the node that is not ready, or may be told by such a group; otherwise these nodes remain as well
(`Tree.Reaches.answers_live`).
-/

namespace FormatFuzz

open TreeM

namespace Tree

variable {t t' : Tree} {id x y : NodeId} {n : Node}

-- ---------------------------------------------------------------------------
-- Bytes, lengths and counts
-- ---------------------------------------------------------------------------

/-- If there is an answer, the node is still there. -/
def Lasts {α : Type} (id : NodeId) (r : Except TreeError α) (t : Tree) : Prop :=
  ∀ a, r = .ok a → t.isLive id = true

theorem Lasts.of_error {α : Type} {e : TreeError} : Lasts (α := α) id (.error e) t :=
  fun _ h => absurd h error_ne_ok

theorem isLive_of_cacheOf {b : Bytes} (h : t.cacheOf id = some b) : t.isLive id = true := by
  obtain ⟨n, hn, -⟩ := Option.bind_eq_some_iff.mp h
  exact isLive_iff_node?.mpr ⟨n, hn⟩

open Resolver in
theorem resolve_bytes_lasts (depth : Nat) (id : NodeId) (t : Tree) :
    wp (resolve depth (.bytes id)) (Lasts id) t := by
  cases depth with
  | zero => exact .of_error
  | succ depth => exact (bytesStep_cached id t).mono fun r t' h b hb => isLive_of_cacheOf (h b hb)

/-- The parent of a live node is live. -/
theorem Child.live (h : t.Child id x) (hwf : t.WellFormed) (hx : t.isLive x = true) : t.isLive id = true := by
  obtain ⟨m, hm⟩ := isLive_iff_node?.mp hx
  obtain ⟨-, p, hp, -⟩ := hwf.of_parent hm (h.2 m hm)
  exact isLive_iff_node?.mpr ⟨p, hp⟩

open Resolver in
/-- When the visible children have told their lengths one after the other, the last of them is live, so that
the node is, too. -/
theorem shown_lasts {depth : Nat}
    (ih : ∀ c {t : Tree}, t.WellFormed → wp (resolve depth (.length c)) (Lasts c) t) (hwf : t.WellFormed) :
    wp (do
      (← TreeM.look (·.shownChildren id)).foldlM (fun total child => do
        let n : Nat ← resolve depth (.length child)
        return total + n) 0 : TreeM Nat) (Lasts id) t := by
  have laws := resolverLaws_evolves .any
  rw [wp.bind, wp.look]
  cases hshown : t.shownChildren id with
  | error e => exact .of_error
  | ok shown =>
    obtain ⟨n, hn⟩ : ∃ n, t.node? id = some n := by
      cases hn : t.node? id with
      | some n => exact ⟨n, rfl⟩
      | none =>
        obtain ⟨e, he⟩ := node_eq_error.mpr hn
        rw [shownChildren, children, look, he] at hshown
        cases hshown
    have hlive : t.isLive id = true := isLive_iff_node?.mpr ⟨n, hn⟩
    refine wp.foldlM (fun rest _ s => s.WellFormed ∧ s.isLive id = true ∧ ∀ c ∈ rest, s.Child id c)
      ⟨hwf, hlive, fun c hc => .of_mem hwf hn (mem_shownChildren hn hshown hc)⟩ (fun _ _ h _ _ => h.2.1) ?_
    rintro c rest total s ⟨hwf, hlive, hrest⟩
    obtain ⟨hc, hrest⟩ := List.forall_mem_cons.mp hrest
    refine wp.bind.mpr ?_
    refine ((ih c hwf).and (laws.scope.resolve (fun _ => laws.bytesStep) depth (.length c) s)).mono ?_
    rintro (e | k) s' ⟨hlasts, hev⟩
    · exact .of_error
    · have hwf' := hev.wellFormed hwf
      have hgrows := hev.grows hwf
      exact ⟨hwf', (hc.grows hgrows).live hwf' (hlasts k rfl), fun c' hc' => (hrest c' hc').grows hgrows⟩

open Resolver in
/-- A node that has told its length is live, by induction on the depth. -/
theorem resolve_length_lasts (depth : Nat) (id : NodeId) (hwf : t.WellFormed) :
    wp (resolve depth (.length id)) (Lasts id) t := by
  have laws := resolverLaws_evolves .any
  induction depth generalizing id t with
  | zero => exact .of_error
  | succ depth ih =>
    show wp (lengthStep (resolve depth) id) (Lasts id) t
    unfold lengthStep
    rw [wp.bind, wp.look]
    cases hn : t.node id with
    | error e => exact .of_error
    | ok n =>
      have hlive : t.isLive id = true := isLive_iff_node?.mpr ⟨n, node_eq_ok.mp hn⟩
      dsimp only
      cases lengthRule n with
      | codec codec => exact wp.lift.mpr fun _ _ => hlive
      | fixed k => cases n.cache <;> exact fun _ _ => hlive
      | encode =>
        cases n.cache with
        | some b => exact fun _ _ => hlive
        | none =>
          refine wp.bind.mpr ((resolve_bytes_lasts depth id t).mono ?_)
          rintro (e | b) t' hlasts
          · exact .of_error
          · exact fun _ _ => hlasts b rfl
      | children =>
        cases n.cache with
        | some b => exact fun _ _ => hlive
        | none =>
          dsimp only
          split
          · rw [wp.bind]
            refine (laws.touch id t).mono ?_
            rintro (e | _) t₁ hev
            · exact .of_error
            · exact shown_lasts (fun c _ => ih c) (hev.wellFormed hwf)
          · exact shown_lasts (fun c _ => ih c) hwf

theorem bytes_lasts (id : NodeId) (t : Tree) : wp (bytes id) (Lasts id) t :=
  (Resolver.wp_answerAll (.bytes id)).mpr (resolve_bytes_lasts _ id t)

theorem byteLength_lasts (id : NodeId) (hwf : t.WellFormed) : wp (byteLength id) (Lasts id) t :=
  (Resolver.wp_answerAll (.length id)).mpr (resolve_length_lasts _ id hwf)

theorem count_lasts (id : NodeId) (t : Tree) : wp (count id) (Lasts id) t := by
  have hlook : ∀ t, wp (do return (← TreeM.look (·.children id)).length : TreeM Nat) (Lasts id) t := by
    intro t
    rw [wp.bind, wp.look]
    cases h : t.children id with
    | error e => exact .of_error
    | ok children =>
      obtain ⟨n, hn, -⟩ := look_eq_ok.mp h
      exact fun _ _ => isLive_iff_node?.mpr ⟨n, hn⟩
  unfold Tree.count countWith
  rw [wp.bind, wp.look]
  cases hg : t.group id with
  | error e => exact .of_error
  | ok g =>
    obtain ⟨n, hn, -⟩ := group_eq_ok.mp hg
    have hinit : wp (do
        init id
        return (← TreeM.look (·.children id)).length : TreeM Nat) (Lasts id) t := by
      rw [wp.bind]
      refine wp.mono (Q := fun _ _ => True) trivial ?_
      rintro (e | _) t₁ -
      · exact .of_error
      · exact hlook t₁
    dsimp only
    cases g.phase with
    | ready => exact hlook t
    | initializing => exact wp.look.mpr fun _ _ => isLive_iff_node?.mpr ⟨n, hn⟩
    | uninit => exact hinit
    | stale => exact hinit

-- ---------------------------------------------------------------------------
-- Values and offsets
-- ---------------------------------------------------------------------------

/-- The group is not ready, or it is below one that may get other elements, or is told when one does. -/
inductive Unsettled (t : Tree) : NodeId → Prop where
  | pending {x : NodeId} (h : t.Pending x) : t.Unsettled x
  | under {x y : NodeId} (hx : t.Unsettled x) (h : t.Under x y) : t.Unsettled y
  | told {w x : NodeId} (hx : t.Unsettled x) (h : t.Watches w x) : t.Unsettled w

/-- A group above the node may get other elements. -/
def Loose (t : Tree) (x : NodeId) : Prop := ∃ y, t.Unsettled y ∧ t.Under y x

/-- The groups that a question may initialize. -/
def Active (t : Tree) (x : NodeId) : Prop := t.nodes.size ≤ x.index ∨ t.Unsettled x

theorem realm_active (hwf : t.WellFormed) : Realm t.Active (fun _ => False) t where
  wellFormed := hwf
  fresh := .inl
  under := by
    intro t' a x hev ha hunder
    refine .inl ?_
    rcases Nat.lt_or_ge x.index t.nodes.size with hlt | hge
    · have hunder := (hev.grows hwf).under hwf (hev.wellFormed hwf) hlt hunder
      rcases ha with hfresh | ha
      · exact absurd (hfresh.trans (hunder.lt hwf).le) (Nat.not_le.mpr hlt)
      · exact .inr (ha.under hunder)
    · exact .inl hge
  quiet := by
    intro x phase c hx hstates
    obtain ⟨n, g, hn, hk, rfl, -⟩ := states_eq_some.mp hstates
    by_contra hphase
    exact hx (.inr (.pending ⟨n, g, hn, hk, fun h => hphase (.inl h)⟩))

theorem confined_active : Confined t.Active (fun _ => False) t t := by
  refine .refl ?_
  rintro w x hw (hfresh | hx)
  · obtain ⟨n, g, hn, -⟩ := hw
    exact absurd (lt_size hn) (Nat.not_lt.mpr hfresh)
  · exact .inr (hx.told hw)

theorem confined_laws (hwf : t.WellFormed) : ResolverLaws (Upholds (Confined t.Active (fun _ => False) t)) :=
  Confined.shallow.resolverLaws (fun s id => (touch_confined (realm_active hwf) id).run s)
    fun s id => (count_confined (realm_active hwf) id).run s

/-- What is not below a group that may get other elements is not discarded, as its parent keeps it. -/
theorem Confined.live (h : Confined t.Active (fun _ => False) t t') (hwf : t.WellFormed)
    (hx : t.isLive x = true) (hfirm : ¬ t.Loose x) : t'.isLive x = true := by
  have hwf' := h.evolves.wellFormed hwf
  obtain ⟨n, hn⟩ := isLive_iff_node?.mp hx
  cases hp : n.parent with
  | none =>
    obtain ⟨m, hm, -⟩ := hwf'.root
    rw [(h.evolves.grows hwf).root, ← hwf.eq_root hn hp] at hm
    exact isLive_iff_node?.mpr ⟨m, hm⟩
  | some p =>
    obtain ⟨hlt, m, hm, -⟩ := hwf.of_parent hn hp
    have hmem := hwf.mem_children hn hp hm
    have hpassive : ¬ t.Active p := by
      rintro (hfresh | hunsettled)
      · exact absurd (lt_size hm) (Nat.not_lt.mpr hfresh)
      · exact hfirm ⟨p, hunsettled, m, hm, x, hmem, .refl⟩
    obtain ⟨-, hchildren⟩ := (h.kept hpassive).resolve_left fun hgone => hgone.1
    rw [hm] at hchildren
    obtain ⟨m', hm', hsame⟩ := Option.map_eq_some_iff.mp hchildren
    obtain ⟨-, l, hl, -⟩ := hwf'.child hm' (hsame ▸ hmem)
    exact isLive_iff_node?.mpr ⟨l, hl⟩

theorem answerAll_lasts (r : Request) (hwf : t.WellFormed) (hx : t.isLive x = true) (hfirm : ¬ t.Loose x) :
    wp (Resolver.answerAll r) (fun _ t' => t'.isLive x = true) t :=
  ((confined_laws hwf).answerAll r).run t confined_active |>.live hwf hx hfirm

open Resolver in
/-- Only live nodes have values. -/
theorem isLive_of_value {v : Value} (hv : ((value x).run t).1 = .ok v) : t.isLive x = true := by
  by_contra hdead
  have hnone : t.node? x = none := by
    rw [isLive_iff_node?, not_exists] at hdead
    exact Option.eq_none_iff_forall_ne_some.mpr hdead
  obtain ⟨e, he⟩ := node_eq_error.mpr hnone
  have hleaf : t.isLeaf x = .error e := by rw [isLeaf, look, he]; rfl
  suffices h : wp (value x) (fun r _ => ∀ v, r ≠ .ok v) t from h v hv
  refine (wp_answerAll (.value x)).mpr ?_
  cases depthFor t with
  | zero => exact fun v => error_ne_ok
  | succ depth =>
    suffices h : wp (valueStep (resolve depth) x) (fun r _ => ∀ v, r ≠ .ok v) t from h
    unfold valueStep
    rw [wp.look_error hleaf]
    exact fun v => error_ne_ok

open Resolver in
/-- A composite or group has its bytes for a value. -/
theorem value_branch_lasts (hleaf : t.isLeaf id = .ok false) : wp (value id) (Lasts id) t := by
  refine (wp_answerAll (.value id)).mpr ?_
  cases depthFor t with
  | zero => exact .of_error
  | succ depth =>
    suffices h : wp (valueStep (resolve depth) id) (Lasts id) t from h
    unfold valueStep
    rw [wp.look_ok hleaf, if_neg Bool.false_ne_true]
    refine wp.bind.mpr ((resolve_bytes_lasts depth id t).mono ?_)
    rintro (e | b) t' hlasts
    · exact .of_error
    · exact fun _ _ => hlasts b rfl

theorem value_lasts (id : NodeId) (hwf : t.WellFormed) (hfirm : t.isLeaf id = .ok true → ¬ t.Loose id) :
    wp (value id) (Lasts id) t := by
  intro v hv
  have hlive := isLive_of_value hv
  obtain ⟨n, hn⟩ := isLive_iff_node?.mp hlive
  have hleaf : t.isLeaf id = .ok n.kind.isLeaf := by rw [isLeaf, look_of_node? hn]
  cases hkind : n.kind.isLeaf with
  | false => exact value_branch_lasts (hleaf.trans (congrArg _ hkind)) v hv
  | true => exact answerAll_lasts (.value id) hwf hlive (hfirm (hleaf.trans (congrArg _ hkind)))

theorem offset_lasts (id : NodeId) (hwf : t.WellFormed) (hfirm : ¬ t.Loose id) :
    wp (offset id) (Lasts id) t := by
  unfold offset
  rw [wp.bind, wp.look]
  cases hn : t.node id with
  | error e => exact .of_error
  | ok n =>
    have hlive : t.isLive id = true := isLive_iff_node?.mpr ⟨n, node_eq_ok.mp hn⟩
    refine wp.get_bind.mpr ((answerAll_lasts (.lengthUpTo t.root id) hwf hlive hfirm).mono ?_)
    exact fun _ _ h _ _ => h

-- ---------------------------------------------------------------------------
-- Reachable trees
-- ---------------------------------------------------------------------------

variable {τ : Template} {seed : UInt64} {t₀ : Tree} {allowed : Tree → Call → Prop}

/-- Whatever has been done to a tree, and whether its groups are ready or not: a node whose bytes, length or
count have been told is live afterwards, and so is a composite or group whose value has been told. The same
goes for the value of a leaf and for an offset, if no group above the node is to be initialized or may be told
by one that is. -/
theorem Reaches.answers_live (hbuild : build τ seed = .ok t₀) (h : Reaches allowed t₀ t) (id : NodeId) :
    (∀ b t', (bytes id).run t = (.ok b, t') → t'.isLive id = true) ∧
    (∀ k t', (byteLength id).run t = (.ok k, t') → t'.isLive id = true) ∧
    (∀ k t', (count id).run t = (.ok k, t') → t'.isLive id = true) ∧
    (∀ v t', (value id).run t = (.ok v, t') → (t.isLeaf id = .ok true → ¬ t.Loose id) → t'.isLive id = true) ∧
    ∀ k t', (offset id).run t = (.ok k, t') → ¬ t.Loose id → t'.isLive id = true := by
  have hwf := h.wellFormed hbuild
  refine ⟨fun b t' hb => ?_, fun k t' hk => ?_, fun k t' hk => ?_, fun v t' hv hfirm => ?_,
    fun k t' hk hfirm => ?_⟩
  · exact (bytes_lasts id t).of_run hb b rfl
  · exact (byteLength_lasts id hwf).of_run hk k rfl
  · exact (count_lasts id t).of_run hk k rfl
  · exact (value_lasts id hwf hfirm).of_run hv v rfl
  · exact (offset_lasts id hwf hfirm).of_run hk k rfl

/-- A group of flags behind another one of the same size. -/
def preceded : Template :=
  .composite { name := "record" } [
    .group "copy" (.boolean "flag") (.bound "source" [] 0 9),
    .group "source" (.boolean "flag") (.fixed 1)]

/-- When the second group has been given another count, its offset takes new elements for the first one. -/
theorem Reaches.answers_live_preceded : ∃ t₀ t', build preceded 7 = .ok t₀ ∧
    let t := (Call.resize ⟨2⟩ 2).run t₀
    t.Pending ⟨1⟩ ∧ ¬ t.Loose ⟨2⟩ ∧ (offset ⟨2⟩).run t = (.ok 2, t') ∧ t'.isLive ⟨2⟩ = true := by
  have hall : (build preceded 7).toOption.any (fun t₀ =>
      let t := (Call.resize ⟨2⟩ 2).run t₀
      t.states ⟨1⟩ = some (.stale, 1) &&
        (t.node? ⟨2⟩).any (·.parent = some ⟨0⟩) && t.isGroup ⟨0⟩ = .ok false &&
        t.nodes.all (·.all fun n => n.kind.group?.all (⟨0⟩ ∉ ·.watchers)) &&
        ((offset ⟨2⟩).run t).1.toOption = some 2) = true := by
    decide +kernel
  obtain ⟨t₀, hbuild, hall⟩ := exists_build hall
  refine ⟨t₀, ((offset ⟨2⟩).run ((Call.resize ⟨2⟩ 2).run t₀)).2, hbuild, ?_⟩
  have hreach : Reaches (fun _ _ => True) t₀ ((Call.resize ⟨2⟩ 2).run t₀) :=
    .call (.resize ⟨2⟩ 2) (.refl t₀) trivial
  dsimp only at hall ⊢
  generalize (Call.resize ⟨2⟩ 2).run t₀ = t at hreach hall ⊢
  simp only [Bool.and_eq_true, decide_eq_true_iff] at hall
  obtain ⟨⟨⟨⟨hpending, hparent⟩, hroot⟩, hwatchers⟩, hoffset⟩ := hall
  have hwf := hreach.wellFormed hbuild
  have hfirst : ∀ {y}, ¬ t.Under y ⟨0⟩ := fun hunder => absurd (hunder.lt hwf) (Nat.not_lt_zero _)
  -- Only the root is above the second group. It is no group itself, and watches none.
  have hfirm : ¬ t.Loose ⟨2⟩ := by
    rintro ⟨y, hy, hunder⟩
    obtain ⟨m, p, hm, hp, hyp⟩ := hunder.parent hwf
    rw [hm, Option.any_some, decide_eq_true_iff, hp, Option.some.injEq] at hparent
    subst hparent
    obtain rfl := hyp.resolve_right hfirst
    cases hy with
    | pending h =>
      obtain ⟨l, g, hl, hk, -⟩ := h
      rw [isGroup, look_of_node? hl, hk] at hroot
      cases hroot
    | under _ h => exact hfirst h
    | told _ h =>
      obtain ⟨l, g, hl, hk, hmem⟩ := h
      have hall := holds_of_all hwatchers hl
      rw [hk] at hall
      exact absurd hmem (of_decide_eq_true hall)
  have hstale : t.Pending ⟨1⟩ := pending_iff.mpr ⟨.stale, 1, hpending, by decide⟩
  rcases hrun : (offset ⟨2⟩).run t with ⟨_ | k, t'⟩ <;> rw [hrun] at hoffset
  · cases hoffset
  · cases hoffset
    obtain ⟨-, -, -, -, hlive⟩ := hreach.answers_live hbuild ⟨2⟩
    exact ⟨hstale, hfirm, rfl, hlive 2 t' hrun hfirm⟩

/-- A group of flags, and one of integers of the same size that tell their own number. -/
def selfCounting : Template :=
  .composite { name := "record" } [
    .group "flags" (.boolean "flag") (.fixed 1),
    .group "sizes" (.leaf { name := "size", cell := .deferred do return .ofNat (← Script.count "sizes") }
      (.int { packing := .ofWidth 1 .big false })) (.bound "flags" [] 0 9)]

/-- An integer that is discarded when its value or its offset is asked for gets an answer all the same. -/
theorem value_outlives : ((build selfCounting 7).toOption.map fun t₀ =>
    let t := (Call.resize ⟨1⟩ 2).run t₀
    let v := (value ⟨4⟩).run t
    let k := (offset ⟨4⟩).run t
    (t.isLive ⟨4⟩, v.1.toOption, v.2.isLive ⟨4⟩, k.1.toOption, k.2.isLive ⟨4⟩)) =
      some (true, some (.int 2), false, some 4, false) := by
  decide +kernel

end Tree

end FormatFuzz
