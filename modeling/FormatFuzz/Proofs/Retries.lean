-- SUMMARY: A call that has failed fails again in the same way.
import FormatFuzz.Proofs.Coherence
import FormatFuzz.Proofs.Recurrence
import FormatFuzz.Proofs.Seclusion
import FormatFuzz.Proofs.Ties

/-!
# Retries

Repeating a call that has failed leads to the same error (`Tree.Reaches.failure_recurs`). For questions, that
is because they can be repeated altogether while all groups are ready. Giving a group another count works in
two steps: the elements are replaced, and then their fields are bound. If the second one fails, it fails again
on the elements that are there then. If the first one fails, because groups in the elements cannot be
initialized, it is not repeated, as the count is the new one already (`Tree.resize_forgets`). It is the same
for groups that are initialized on the way, so that all of them have to be ready. When no group follows
another one, they are, and the first step always succeeds (`Tree.Reaches.settles`).
-/

namespace FormatFuzz

open TreeM

open FormatFuzz.Tree (Sane Surveys Settled)

-- ---------------------------------------------------------------------------
-- Failures
-- ---------------------------------------------------------------------------

/-- If the operation fails, it fails again in the same way on the tree that it has left. -/
def Recurs {α : Type} (act : TreeM α) (t : Tree) : Prop :=
  wp act (fun r t' => ∀ e, r = .error e → wp act (fun r' _ => r' = .error e) t') t

theorem Replays.recurs {α : Type} {act : TreeM α} (h : Replays act) {t : Tree} (hsane : t.Sane) :
    Recurs act t := by
  refine (h t hsane).mono ?_
  rintro _ t' ⟨hstores, hrecalls⟩ e rfl
  exact hrecalls t' (.refl (hstores.settled hsane.settled))

theorem Recurs.of_unchanged {α : Type} {act : TreeM α} {t : Tree}
    (h : wp act (fun r t' => ∀ e, r = .error e → t' = t) t) : Recurs act t := by
  intro e he
  unfold wp
  rw [h e he]
  exact he

-- ---------------------------------------------------------------------------
-- Strict closures
-- ---------------------------------------------------------------------------

theorem Script.Strict.brittle {α : Type} {measured : Prop} {s : Script α} (h : s.Strict measured) :
    s.Brittle := by
  induction s with
  | done r => trivial
  | ask q next ih =>
    obtain ⟨-, herror, hnext⟩ := h
    exact ⟨fun e => ⟨e, herror e⟩, fun r => ih r (hnext r)⟩

theorem Cell.Strict.brittle {measured : Prop} {cell : Cell} (h : cell.Strict measured) : cell.Brittle := by
  cases cell with
  | unset => trivial
  | literal v => trivial
  | deferred s => exact Script.Strict.brittle h
  | computed f sources => exact (Cell.compute_strict h sources).brittle
  | bound b => trivial

/-- Reliable templates make for straight trees. -/
theorem Template.Reliable.straight {C : Cell → Prop} {τ : Template} {t : Tree} (hτ : τ.Reliable C True)
    (h : t.Steady C τ) : t.Straight := fun _ _ hn =>
  ⟨(hτ.cell h hn).brittle, fun f hf raw => (Transform.Strict.run [raw] f (hτ.action h hn hf)).brittle,
    fun _ hkind => hτ.codec h hn hkind trivial⟩

-- ---------------------------------------------------------------------------
-- Operations that hinge on the outline
-- ---------------------------------------------------------------------------

namespace Tree

variable {t t' u : Tree} {id : NodeId} {n : Node} {g : Group}

/-- The operation has one outcome for all trees of the outline of `t`, and leaves such trees. Cells may
change. -/
def Hinges {α : Type} (act : TreeM α) (t : Tree) : Prop :=
  ∃ r, ∀ t', t'.outline = t.outline → wp act (fun r' u => r' = r ∧ u.outline = t.outline) t'

namespace Hinges

variable {α β : Type} {act : TreeM α} {f : α → TreeM β}

theorem pure {a : α} : Hinges (Pure.pure a) t := ⟨.ok a, fun _ h => ⟨rfl, h⟩⟩

theorem of_surveys (h : Surveys act) (hs : t.Settled) : Hinges act t := by
  obtain ⟨r, hr⟩ := h t hs
  refine ⟨r, fun t' ht' => (hr t' ht').mono ?_⟩
  rintro _ _ ⟨rfl, rfl⟩
  exact ⟨rfl, ht'⟩

theorem bind (hact : Hinges act t) (hf : ∀ a, Hinges (f a) t) : Hinges (act >>= f) t := by
  obtain ⟨r, hr⟩ := hact
  cases r with
  | error e =>
    refine ⟨.error e, fun t' ht' => ?_⟩
    rw [wp.bind]
    refine (hr t' ht').mono ?_
    rintro _ u ⟨rfl, hu⟩
    exact ⟨rfl, hu⟩
  | ok a =>
    obtain ⟨r', hr'⟩ := hf a
    refine ⟨r', fun t' ht' => ?_⟩
    rw [wp.bind]
    refine (hr t' ht').mono ?_
    rintro _ u ⟨rfl, hu⟩
    exact hr' u hu

theorem forIn {xs : List α} {f : α → PUnit → TreeM (ForInStep PUnit)} (hf : ∀ x, Hinges (f x ⟨⟩) t) :
    Hinges (ForIn.forIn xs PUnit.unit f) t := by
  induction xs with
  | nil => exact .pure
  | cons x rest ih =>
    rw [List.forIn_cons]
    refine .bind (hf x) fun step => ?_
    cases step with
    | done _ => exact .pure
    | yield _ => exact ih

end Hinges

theorem outline_bind (t : Tree) (id : NodeId) (cell : Cell) :
    ((t.putCell id cell).invalidate id).outline = t.outline := by
  have hput : Varies (fun _ => True) t (t.putCell id cell) := .of_putCell trivial
  have hinvalidate : (t.putCell id cell).Like ((t.putCell id cell).invalidate id) := .of_invalidate
  exact hinvalidate.outline.trans hput.outline

section

variable (hs : t.Settled)

include hs

theorem sourceWith_hinges (path : String) : Hinges (sourceWith init id path) t := by
  refine .of_surveys ?_ hs
  refine .bind (.look fun t => t.enclosing_outline) fun base =>
    .bind (Replays.surveys_outcome (find_surveys base path)) fun r => ?_
  cases r with
  | ok source =>
    refine .bind (.look fun t => t.isGroup_outline) fun isGroup => ?_
    cases isGroup with
    | true => exact .pure
    | false => exact .bind (.look fun t => t.fullName_outline) fun _ => .throw
  | error e => exact .get (fun _ => .throw) fun t => by rw [fullName_outline]

omit hs in
theorem bindCell_hinges (id : NodeId) (cell : Cell) : Hinges (TreeM.update fun t => do
    let _ ← t.node id
    return (t.putCell id cell).invalidate id) t := by
  have hsame : ∀ {t' : Tree}, t'.outline = t.outline →
      (t'.node id).map Node.outline = (t.node id).map Node.outline := by
    intro t' ht'
    rw [← node_outline, ht', node_outline]
  cases hn : t.node id with
  | error e =>
    refine ⟨.error e, fun t' ht' => ?_⟩
    have hnode := hsame ht'
    rw [hn] at hnode
    rw [wp.update]
    cases hn' : t'.node id with
    | ok n' =>
      rw [hn'] at hnode
      cases hnode
    | error e' =>
      rw [hn'] at hnode
      cases hnode
      exact ⟨rfl, ht'⟩
  | ok n =>
    refine ⟨.ok (), fun t' ht' => ?_⟩
    have hnode := hsame ht'
    rw [hn] at hnode
    rw [wp.update]
    cases hn' : t'.node id with
    | ok n' => exact ⟨rfl, (outline_bind t' id cell).trans ht'⟩
    | error e' =>
      rw [hn'] at hnode
      cases hnode

theorem linkElementWith_hinges (source element : NodeId) (index : Nat)
    (fields : List (String × String)) :
    Hinges (linkElementWith init source element index fields) t := by
  refine .bind (.forIn fun pair => ?_) fun _ => .pure
  have hrest : ∀ target, Hinges (do
      TreeM.update fun t => do
        let _ ← t.node target
        return (t.putCell target (.bound (.element source index pair.2))).invalidate target
      return ForInStep.yield PUnit.unit : TreeM (ForInStep PUnit)) t :=
    fun target => .bind (bindCell_hinges target _) fun _ => .pure
  dsimp only
  split
  · exact .bind .pure hrest
  · exact .bind (.of_surveys (find_surveys element pair.1) hs) hrest

theorem linkElementsWith_hinges (id : NodeId) : Hinges (linkElementsWith init id) t := by
  refine .bind (.of_surveys (.look fun t => t.group_outline) hs) fun g => ?_
  cases g.rule with
  | fixed count => exact .pure
  | random min max => exact .pure
  | bound path fields min max =>
    dsimp only
    split
    · exact .pure
    · exact .bind (sourceWith_hinges hs path) fun source =>
        .bind (.of_surveys (.look fun t => t.children_outline) hs) fun children =>
          .bind (.forIn fun pair => .bind (linkElementWith_hinges hs source pair.1 pair.2 fields) fun _ =>
            .pure) fun _ => .pure

end

-- ---------------------------------------------------------------------------
-- Other counts
-- ---------------------------------------------------------------------------

theorem wp_resize (hs : t.Settled) (hn : t.node? id = some n) (hk : n.kind = .repeated g) {count : Nat}
    {Q : Except TreeError Unit → Tree → Prop} : wp (resize id count) Q t ↔ wp (do
      replaceElementsWith (fun id => perform (.visit id)) id count
      linkElementsWith init id) Q t := by
  have hgroup : t.group id = .ok g := group_eq_ok.mpr ⟨n, hn, hk⟩
  have htouch : ∀ {Q : Except TreeError Unit → Tree → Prop}, wp (touch id) Q t ↔ Q (.ok ()) t := by
    intro Q
    unfold touch touchWith
    rw [wp.look_ok hgroup, hs.group hgroup]
    exact Iff.rfl
  unfold resize
  rw [wp.bind, htouch]

/-- If a group has as many elements already, they are bound anew at most. -/
theorem wp_resize_same (hs : t.Settled) (hn : t.node? id = some n) (hk : n.kind = .repeated g)
    {Q : Except TreeError Unit → Tree → Prop} :
    wp (resize id n.children.length) Q t ↔ wp (linkElementsWith init id) Q t := by
  rw [wp_resize hs hn hk]
  unfold replaceElementsWith
  rw [wp.bind, wp.look_ok (f := (·.children id)) (look_of_node? hn _), if_pos rfl]
  exact Iff.rfl

/-- If the fields of the elements cannot be bound, they cannot be bound again either. -/
theorem linkElements_recurs (hs : t.Settled) (hn : t.node? id = some n) (hk : n.kind = .repeated g) :
    wp (linkElementsWith init id) (fun r u => ∀ e, r = .error e →
      wp (resize id n.children.length) (fun r' _ => r' = .error e) u) t := by
  obtain ⟨r, hr⟩ := linkElementsWith_hinges hs id
  refine (hr t rfl).mono ?_
  rintro _ u ⟨rfl, hu⟩ e rfl
  have hnode := (outline_eq_iff.mp hu).2.2.2 id
  rw [hn] at hnode
  obtain ⟨m, hm, hsame⟩ := Option.map_eq_some_iff.mp hnode
  have hkind := congrArg Node.kind hsame
  have hchildren : m.children = n.children := by
    have h := congrArg Node.children hsame
    exact h
  rw [← hchildren, wp_resize_same (hs.of_outline hu) hm (hkind.trans hk)]
  exact (hr u hu).mono fun _ _ h => h.1

theorem settled_of_states (hstates : ∀ x phase c, t.states x = some (phase, c) → phase = .ready) :
    t.Settled :=
  fun id _ _ hn hk => hstates id _ _ (states_of_node? hn hk)

-- ---------------------------------------------------------------------------
-- Resizing
-- ---------------------------------------------------------------------------

end Tree

/-- Fields of elements are bound to those of another group. -/
def Multiplicity.Links : Multiplicity → Prop
  | .bound _ fields _ _ => fields ≠ []
  | _ => False

namespace Tree

variable {t : Tree} {id : NodeId} {n : Node} {g : Group} {τ : Template}

theorem linkElements_unlinked (hn : t.node? id = some n) (hk : n.kind = .repeated g)
    (hlinks : ¬ g.rule.Links) : wp (linkElementsWith init id) (fun r _ => r = .ok ()) t := by
  unfold linkElementsWith
  rw [wp.look_ok (group_eq_ok.mpr ⟨n, hn, hk⟩)]
  cases hrule : g.rule with
  | fixed count => rfl
  | random min max => rfl
  | bound path fields min max =>
    rw [hrule] at hlinks
    obtain rfl : fields = [] := not_not.mp hlinks
    rfl

/-- If the call gives a group another number of elements, they can be initialized, and all groups are ready
when fields of them are bound. -/
def Call.Settles (t : Tree) : Call → Prop
  | .resize id k => ∀ g, t.group id = .ok g →
      wp (replaceElementsWith (fun id => perform (.visit id)) id k)
        (fun r t' => r = .ok () ∧ (g.rule.Links → t'.Settled)) t
  | _ => True

/-- If the fields of new elements cannot be bound, they cannot be bound either when there are as many
elements already. -/
theorem resize_recurs (hwf : t.WellFormed) (hs : t.Settled) {count : Nat}
    (hsettles : (Call.resize id count).Settles t) : Recurs (resize id count) t := by
  cases hg : t.group id with
  | error e =>
    refine .of_unchanged ?_
    unfold resize touch touchWith
    rw [wp.bind, wp.look_error hg]
    exact fun _ _ => rfl
  | ok g =>
    obtain ⟨n, hn, hk⟩ := group_eq_ok.mp hg
    refine (wp_resize hs hn hk).mpr (wp.bind.mpr ?_)
    refine ((hsettles g hg).and (replaceElements_counts hwf hs hn count)).mono ?_
    rintro _ t₁ ⟨⟨rfl, hsettled⟩, hcounts⟩
    obtain ⟨n₁, hn₁, hfixture, rfl⟩ := hcounts rfl
    obtain ⟨g₁, hk₁, hrule₁⟩ := Node.rule_of_fixture hfixture hk
    by_cases hlinks : g.rule.Links
    · exact linkElements_recurs (hsettled hlinks) hn₁ hk₁
    · refine (linkElements_unlinked hn₁ hk₁ (hrule₁ ▸ hlinks)).mono ?_
      rintro _ _ rfl _ ⟨⟩

/-- Elements without groups can be initialized, and if no group is told of them, all groups stay ready. -/
theorem Call.settles_of_groupless (hwf : t.WellFormed) (hm : t.Models (fun _ => True) τ τ.name t.root)
    (hs : t.Settled) (hplain : ∀ g, t.group id = .ok g →
      g.element.Groupless ∧ (g.rule.Links → g.watchers = [])) (count : Nat) :
    (Call.resize id count).Settles t := by
  intro g hg
  obtain ⟨n, hn, hk⟩ := group_eq_ok.mp hg
  obtain ⟨hnone, hwatchers⟩ := hplain g hg
  unfold replaceElementsWith
  simp only [wp.bind, wp.look, children, look_of_node? hn]
  split
  · exact ⟨rfl, fun _ => hs⟩
  · simp only [wp.bind, wp.look, hg]
    refine (swapElements_spec (C := fun _ => True) (fun _ => trivial) hwf hn g.element count).mono ?_
    rintro _ t₁ ⟨elements, rfl, -, hswap⟩
    have hev := hswap.evolves hn hk rfl
    have hm₁ := hm.evolve hwf τ.cellsIn_true hev
    obtain ⟨n₁, hn₁, hkind₁, hch₁⟩ := hswap.exchanged hn
    have hk₁ := hkind₁.trans hk
    refine (wp.forIn_idle fun x hx =>
      perform_element (hev.wellFormed hwf) hm₁ hn₁ hk₁ hnone (hch₁ ▸ hx)).mono ?_
    rintro _ t₁ ⟨rfl, rfl⟩
    simp only [wp.modify]
    have hlike : t₁.Like (t₁.invalidate id) := .of_invalidate
    have hsettled : (t₁.invalidate id).Settled := by
      refine settled_of_states fun x phase c hx => ?_
      rw [hlike.states, hswap.states hwf hm hm₁ hn hk hnone] at hx
      split at hx
      · cases hx
        exact hs hn hk
      · obtain ⟨m, g', hm, hk', rfl, -⟩ := states_eq_some.mp hx
        exact hs hm hk'
    obtain ⟨n₂, hn₂, -⟩ := hlike.node? hn₁
    have hidle : wp (notify g.watchers) (fun _ t' => g.watchers = [] → t' = t₁.invalidate id)
        (t₁.invalidate id) := by
      intro hnone
      rw [hnone]
      rfl
    refine ((notify_kept hn₂ g.watchers).and hidle).mono ?_
    rintro _ t₂ ⟨⟨rfl, -⟩, hidle⟩
    exact ⟨rfl, fun hlinks => hidle (hwatchers hlinks) ▸ hsettled⟩

-- ---------------------------------------------------------------------------
-- Trees without bound groups
-- ---------------------------------------------------------------------------

theorem coarse_free : Coarse fun t => t.Free τ ∧ t.Settled := by
  rintro t t' hev hstates hwatches ⟨hfree, hs⟩
  refine ⟨hfree.step hev fun id n g hn hk => ?_, settled_of_states fun x phase c hx => ?_⟩
  · refine List.eq_nil_iff_forall_not_mem.mpr fun w hw => ?_
    obtain ⟨m, g', hm, hk', hmem⟩ := (hwatches w id).mp ((watches_iff hn hk).mpr hw)
    rw [hfree.unwatched hm hk'] at hmem
    cases hmem
  · rw [hstates] at hx
    obtain ⟨n, g, hn, hk, rfl, -⟩ := states_eq_some.mp hx
    exact hs hn hk

/-- Without bound groups, all groups are ready in all states. -/
theorem Reaches.free {allowed : Tree → Call → Prop} {seed : UInt64} {t₀ : Tree}
    (hunbound : τ.Every Template.Unbound) (hbuild : build τ seed = .ok t₀) (h : Reaches allowed t₀ t) :
    t.Free τ ∧ t.Settled := by
  obtain ⟨hwf, hm⟩ := build_wellFormed .any hbuild
  obtain ⟨hs, hw⟩ := build_settled hunbound hbuild
  refine coarse_free.reaches (fun t id ht => ?_) (fun t id ht => ?_) (fun t id n _ ht => ?_) h
    ⟨⟨hunbound, hwf, hm τ.cellsIn_true, hw⟩, hs⟩
  · rwa [(touch_surveys id).idle ht.2]
  · rwa [(count_surveys id).idle ht.2]
  · suffices hkept : wp (resize id n) (fun _ t' => t'.Free τ ∧ t'.Settled) t from hkept
    refine ((resize_settled ht.1 ht.2 id n).and ((groupLaws_evolves .any).resize id n t)).mono ?_
    rintro r t' ⟨rfl | ⟨-, hs', hw'⟩, hev⟩
    · exact ht
    · exact ⟨ht.1.step hev.rel hw', hs'⟩

/-- Without bound groups, all elements can be initialized. -/
theorem Reaches.settles {allowed : Tree → Call → Prop} {seed : UInt64} {t₀ : Tree}
    (hunbound : τ.Every Template.Unbound) (hbuild : build τ seed = .ok t₀) (h : Reaches allowed t₀ t)
    (c : Call) : c.Settles t := by
  obtain ⟨hfree, hs⟩ := h.free hunbound hbuild
  cases c with
  | resize id count =>
    intro g hg
    obtain ⟨n, hn, hk⟩ := group_eq_ok.mp hg
    obtain ⟨p, hp⟩ := exists_position hfree.wellFormed hn
    refine (replaceElements_succeeds hfree hn hk count hp).mono ?_
    rintro r t' ⟨hr, hcloses, -⟩
    exact ⟨hr, fun _ => settled_iff.mpr fun y hy => settled_iff.mp hs y (hcloses.pending hy)⟩
  | _ => trivial

-- ---------------------------------------------------------------------------
-- Calls
-- ---------------------------------------------------------------------------

/-- What has gone wrong, if anything has. -/
def failureOf {α : Type} : Except TreeError α → Option TreeError
  | .ok _ => none
  | .error e => some e

/-- The error that a call ends with. -/
def Call.failure : Call → Tree → Option TreeError
  | .find start path, t => failureOf ((Tree.find start path).run t).1
  | .bytes id, t => failureOf ((Tree.bytes id).run t).1
  | .value id, t => failureOf ((Tree.value id).run t).1
  | .byteLength id, t => failureOf ((Tree.byteLength id).run t).1
  | .offset id, t => failureOf ((Tree.offset id).run t).1
  | .count id, t => failureOf ((Tree.count id).run t).1
  | .resize id n, t => failureOf ((Tree.resize id n).run t).1
  | .replaceCell id cell, t => failureOf ((Tree.replaceCell id cell).run t).1
  | .invalidate _, _ | .invalidateAll, _ => none

theorem failureOf_again {α : Type} {act : TreeM α} (h : Recurs act t) {e : TreeError}
    (he : failureOf (act.run t).1 = some e) : failureOf (act.run (act.run t).2).1 = some e := by
  cases hr : (act.run t).1 with
  | ok a =>
    rw [hr] at he
    cases he
  | error e' =>
    rw [hr] at he
    cases he
    have hagain := h e hr
    unfold wp at hagain
    rw [hagain]
    rfl

/-- In every state in which all groups are ready, closures hand errors on and codecs are honest, a call
that has failed fails again in the same way on the tree that it has left, unless it has given a group new
elements that cannot be initialized or that other groups have to be told of. -/
theorem Reaches.failure_recurs {allowed : Tree → Call → Prop} {seed : UInt64} {t₀ : Tree}
    (hbuild : build τ seed = .ok t₀) (h : Reaches allowed t₀ t) (hs : t.Settled)
    (hstraight : t.Straight) {c : Call} (hc : c.Settles t) {e : TreeError} (he : c.failure t = some e) :
    c.failure (c.run t) = some e := by
  have hsane : t.Sane := ⟨hs, hstraight, h.encoded hbuild⟩
  cases c with
  | find start path => exact failureOf_again ((Replays.of_surveys (find_surveys start path)).recurs hsane) he
  | bytes id => exact failureOf_again ((Resolver.replays_answerAll (.bytes id)).recurs hsane) he
  | value id => exact failureOf_again ((Resolver.replays_answerAll (.value id)).recurs hsane) he
  | byteLength id => exact failureOf_again ((Resolver.replays_answerAll (.length id)).recurs hsane) he
  | offset id => exact failureOf_again ((replays_offset id).recurs hsane) he
  | count id => exact failureOf_again ((Replays.of_surveys (count_surveys id)).recurs hsane) he
  | resize id n => exact failureOf_again (resize_recurs (h.wellFormed hbuild) hs hc) he
  | replaceCell id cell =>
    refine failureOf_again (.of_unchanged ?_) he
    unfold replaceCell
    rw [wp.update]
    cases t.setCell id cell with
    | ok t' =>
      rintro _ ⟨⟩
    | error e => exact fun _ _ => rfl
  | invalidate id => cases he
  | invalidateAll => cases he

/-- A group that follows another one, with a field bound that its elements do not have. -/
def mislinked : Template :=
  .composite { name := "record" } [
    .group "flags" (.boolean "flag") (.fixed 0),
    .group "copies" (.boolean "copy") (.bound "flags" [("missing", "")] 0 9)]

theorem Reaches.failure_recurs_mislinked : ∃ t₀ e, build mislinked 7 = .ok t₀ ∧
    (Call.resize ⟨2⟩ 1).failure t₀ = some e ∧
    (Call.resize ⟨2⟩ 1).failure ((Call.resize ⟨2⟩ 1).run t₀) = some e := by
  have hruns : (build mislinked 7).toOption.any (fun t =>
      (Call.resize ⟨2⟩ 1).failure t = some (.fieldNotFound "copies[0]" "missing") ∧
      (t.group ⟨2⟩).toOption.all (·.watchers.isEmpty) = true ∧
      t.nodes.all (·.all fun n => n.kind.group?.all (·.phase = .ready)) = true) = true := by
    decide +kernel
  obtain ⟨t₀, hbuild, hruns⟩ := exists_build hruns
  obtain ⟨he, hwatchers, hready⟩ := of_decide_eq_true hruns
  have hs : t₀.Settled := by
    intro id n g hn hk
    have hlt := lt_size hn
    have h := Array.all_eq_true.mp hready id.index hlt
    unfold node? at hn
    rw [Array.getElem?_eq_getElem hlt, Option.join_some] at hn
    rw [hn] at h
    simpa [hk, NodeKind.group?] using h
  have houter : mislinked.Every Template.Outer := ⟨trivial, ⟨rfl, trivial⟩, ⟨rfl, trivial⟩, trivial⟩
  have hreliable : mislinked.Reliable (Cell.Strict True) True := by
    have hnone : ∀ f : Transform, none = some f → f.Strict True := fun _ h => by cases h
    exact ⟨⟨trivial, ⟨trivial, trivial⟩, ⟨trivial, trivial⟩, trivial⟩, fun _ h => h,
      ⟨hnone, trivial⟩, ⟨⟨hnone, trivial⟩, hnone, trivial⟩, ⟨⟨hnone, trivial⟩, hnone, trivial⟩, trivial⟩
  obtain ⟨hwf, hm⟩ := build_wellFormed (permits_strict True) hbuild
  have hm := hm hreliable.cells
  have hstraight : t₀.Straight := hreliable.straight ⟨hwf, hm, hs⟩
  have hsettles : (Call.resize ⟨2⟩ 1).Settles t₀ := by
    refine Call.settles_of_groupless hwf (hm.mono (fun _ _ => trivial) _ _ _) hs (fun g hg => ?_) 1
    obtain ⟨n, hn, hk⟩ := group_eq_ok.mp hg
    rw [hg] at hwatchers
    exact ⟨hm.groupless houter hwf hn hk, fun _ => List.isEmpty_iff.mp hwatchers⟩
  have hreach : Reaches (fun _ _ => True) t₀ t₀ := .refl t₀
  exact ⟨t₀, _, hbuild, he, Reaches.failure_recurs hbuild hreach hs hstraight hsettles he⟩

/-- A field that asks for another one, and tells whether that could be told. -/
def wavering : Template :=
  let flag (name : String) (s : Script Value) : Template := .leaf { name, cell := .deferred s } .bool
  .composite { name := "record" } [
    flag "first" (.ask (.value "third") fun
      | .ok (.bool true) => .done (.ok (.bool true))
      | _ => .ask (.bytes "second") fun _ => .done (.error (.cyclicDependency "first"))),
    flag "second" (Script.get (.value "third")),
    flag "third" (.ask (.bytes "second") fun r => .done (.ok (.bool r.isOk)))]

-- The closure of the third field gets over an error that does not come up again.
example : ((build wavering 7).toOption.map fun t =>
    let bytes := Call.bytes ⟨0⟩
    ((bytes.failure t).isSome, (bytes.failure (bytes.run t)).isSome)) = some (true, false) := by
  decide +kernel

/-- A group without elements, in each of which there would be a group that follows nothing. -/
def hollow : Template :=
  .composite { name := "record" } [
    .group "outer" (.composite { name := "part" } [
      .group "inner" (.boolean "flag") (.bound "nowhere" [] 0 9)]) (.fixed 0)]

/-- When the groups in its elements cannot be initialized, a group keeps the elements, and the same count
is found to be the old one when it is given again. -/
theorem resize_forgets : ((build hollow 7).toOption.map fun t =>
    let resize := Call.resize ⟨1⟩ 1
    (resize.failure t, resize.failure (resize.run t))) =
      some (some (.bindingUnresolved "outer[0].inner" "nowhere"), none) := by
  decide +kernel

end Tree

end FormatFuzz
