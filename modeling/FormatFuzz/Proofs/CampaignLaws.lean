-- SUMMARY: What a fuzz run does to the tree, from what its trials do to it.
import FormatFuzz.Fuzz.Run
import FormatFuzz.Proofs.Paths
import FormatFuzz.Proofs.ResolverLaws

/-!
# Laws of fuzz runs

A run changes its tree by selecting the targets, by writing values into them, by what the sink
does, and by the restoration after each trial. A relation that these keep is kept by the run,
however it ends.
-/

namespace FormatFuzz

open TreeM
open Relation (ReflTransGen)

variable {R : Tree → Tree → Prop} [IsPreorder Tree R]

-- ---------------------------------------------------------------------------
-- Selection
-- ---------------------------------------------------------------------------

/-- Touching groups leads from one tree to the other. -/
def Tree.Touches : Tree → Tree → Prop := ReflTransGen fun t t' => ∃ id, t' = ((Tree.touch id).run t).2

theorem Tree.Touches.keeps (htouch : ∀ id, Preserves R R (Tree.touch id)) {t t' : Tree}
    (h : t.Touches t') : R t t' := by
  induction h with
  | refl => exact refl_of R t
  | tail _ hstep ih =>
    obtain ⟨id, rfl⟩ := hstep
    exact trans_of R ih ((htouch id).run _)

namespace Selection

section

variable {P : NodeId → Tree → Except TreeError (List Target) → Tree → Prop}
  (hfail : ∀ id t e, P id t (.error e) t)
  (hskip : ∀ id t, P id t (.ok []) t)
  (hleaf : ∀ id t n name candidates, t.node? id = some n → n.kind.isLeaf = true →
    P id t (.ok [⟨id, name, n.cell, candidates⟩]) t)
  (htouch : ∀ id t, wp (Tree.touch id) (fun r t₁ => match r with
    | .ok _ => ∀ r t', P id t₁ r t' → P id t r t'
    | .error e => P id t (.error e) t₁) t)
  (hbelow : ∀ id t n (select : NodeId → TreeM (List Target)), t.node? id = some n →
    (∀ c t, wp (select c) (P c t) t) →
    wp (n.children.mapM select) (fun r t' => P id t (r.map List.flatten) t') t)

include hfail hskip hleaf htouch hbelow

/-- What holds of the ways in which a selection can go on from a node holds of all of it. -/
theorem targetsAt_rule (patches : Patches) (filler : UInt8) (root : NodeId) (depth : Nat)
    (id : NodeId) (t : Tree) :
    wp (targetsAt patches filler root depth id) (P id t) t := by
  induction depth generalizing id t with
  | zero => exact hfail id t _
  | succ depth ih =>
    unfold targetsAt
    rw [wp.bind, wp.look]
    cases t.fullName id with
    | error e => exact hfail id t e
    | ok name =>
      dsimp only
      rw [wp.bind, wp.look]
      cases t.options id with
      | error e => exact hfail id t e
      | ok options =>
        dsimp only
        split
        · exact hskip id t
        · rw [wp.bind, wp.look]
          cases t.isGroup id with
          | error e => exact hfail id t e
          | ok isGroup =>
            dsimp only
            split
            case' isTrue =>
              rw [wp.bind]
              refine (htouch id t).mono ?_
              rintro (e | _) t₁ hstep
              · exact hstep
              refine wp.mono (Q := P id t₁) ?_ hstep
              generalize t₁ = t
            all_goals
              rw [wp.bind, wp.look]
              cases hn : t.node id with
              | error e => exact hfail id t e
              | ok n =>
                have hrest : wp (do
                    return (← n.children.mapM (targetsAt patches filler root depth)).flatten :
                    TreeM (List Target)) (P id t) t := by
                  rw [wp.bind]
                  refine (hbelow id t n _ (Tree.node_eq_ok.mp hn) ih).mono ?_
                  rintro (e | parts) t' h <;> exact h
                dsimp only
                cases hk : n.kind with
                | leaf kind =>
                  exact hleaf id t n _ _ (Tree.node_eq_ok.mp hn) (congrArg NodeKind.isLeaf hk)
                | composite => exact hrest
                | repeated g => exact hrest

end

-- What a selection tells about each of its targets.

variable {A : Tree → Target → Prop} {t t₁ t' : Tree}

/-- Groups have been touched and nothing else, and `A` held of each target when it was selected. -/
def Gathers (A : Tree → Target → Prop) (t : Tree) (r : Except TreeError (List Target)) (t' : Tree) : Prop :=
  t.Touches t' ∧ ∀ targets, r = .ok targets → ∀ x ∈ targets, ∃ v, t.Touches v ∧ v.Touches t' ∧ A v x

theorem Gathers.of_error {e : TreeError} (h : t.Touches t') : Gathers A t (.error e) t' :=
  ⟨h, fun _ hr => absurd hr error_ne_ok⟩

theorem Gathers.nil : Gathers A t (.ok []) t := by
  refine ⟨.refl, fun targets htargets x hx => ?_⟩
  cases htargets
  cases hx

theorem Gathers.singleton {x : Target} (h : A t x) : Gathers A t (.ok [x]) t := by
  refine ⟨.refl, fun targets htargets y hy => ?_⟩
  cases htargets
  cases List.mem_singleton.mp hy
  exact ⟨t, .refl, .refl, h⟩

theorem Gathers.after {r : Except TreeError (List Target)} (h : t.Touches t₁) (hr : Gathers A t₁ r t') :
    Gathers A t r t' := by
  refine ⟨h.trans hr.1, fun targets htargets x hx => ?_⟩
  obtain ⟨v, hv, hv', hA⟩ := hr.2 targets htargets x hx
  exact ⟨v, h.trans hv, hv', hA⟩

theorem Gathers.append {xs ys : List Target} (hxs : Gathers A t (.ok xs) t₁) (hys : Gathers A t₁ (.ok ys) t') :
    Gathers A t (.ok (xs ++ ys)) t' := by
  refine ⟨hxs.1.trans hys.1, fun targets htargets x hx => ?_⟩
  cases htargets
  rcases List.mem_append.mp hx with hx | hx
  · obtain ⟨v, hv, hv', hA⟩ := hxs.2 xs rfl x hx
    exact ⟨v, hv, hv'.trans hys.1, hA⟩
  · exact (hys.after hxs.1).2 ys rfl x hx

theorem touch_gathers (id : NodeId) (t : Tree) : wp (Tree.touch id) (fun _ t' => t.Touches t') t :=
  ReflTransGen.single ⟨id, rfl⟩

/-- Targets are gathered from one node after the other, where `I` holds as long as groups are touched only. -/
theorem mapM_gathers {I : Tree → Prop} (hkeep : ∀ {t t'}, t.Touches t' → I t → I t')
    {select : NodeId → TreeM (List Target)} {ids : List NodeId}
    (h : ∀ c t, I t → wp (select c) (Gathers A t) t) (ht : I t) :
    wp (ids.mapM select) (fun r t' => Gathers A t (r.map List.flatten) t') t := by
  induction ids generalizing t with
  | nil => exact Gathers.nil
  | cons c rest ih =>
    rw [List.mapM_cons, wp.bind]
    refine (h c t ht).mono ?_
    rintro (e | part) t₁ hpart
    · exact .of_error hpart.1
    dsimp only
    rw [wp.bind]
    refine (ih (hkeep hpart.1 ht)).mono ?_
    rintro (e | parts) t' hparts
    · exact .of_error (hpart.1.trans hparts.1)
    · exact hpart.append hparts

/-- Selecting touches groups and changes nothing otherwise. Every target was a live leaf when it was
selected, and has saved the cell that it had then. -/
theorem targetsAt_saved (patches : Patches) (filler : UInt8) (root : NodeId) (depth : Nat)
    (id : NodeId) (t : Tree) :
    wp (targetsAt patches filler root depth id) (fun r t' => t.Touches t' ∧
      ∀ targets, r = .ok targets → ∀ x ∈ targets, ∃ v n, t.Touches v ∧ v.Touches t' ∧
        v.node? x.id = some n ∧ n.kind.isLeaf = true ∧ n.cell = x.saved) t := by
  suffices h : wp (targetsAt patches filler root depth id) (Gathers (fun v x =>
      ∃ n, v.node? x.id = some n ∧ n.kind.isLeaf = true ∧ n.cell = x.saved) t) t by
    refine h.mono fun r t' hgathers => ⟨hgathers.1, fun targets htargets x hx => ?_⟩
    obtain ⟨v, hv, hv', n, hn⟩ := hgathers.2 targets htargets x hx
    exact ⟨v, n, hv, hv', hn⟩
  refine targetsAt_rule (P := fun _ => Gathers _) ?fail ?skip ?leaf ?touch ?below patches filler root
    depth id t
  case fail => exact fun _ _ _ => .of_error .refl
  case skip => exact fun _ _ => .nil
  case leaf => exact fun _ _ n _ _ hn hleaf => .singleton ⟨n, hn, hleaf, rfl⟩
  case touch =>
    intro id t
    refine (touch_gathers id t).mono ?_
    rintro (e | _) t₁ hstep
    · exact .of_error hstep
    · exact fun r t' => .after hstep
  case below =>
    exact fun _ _ _ _ _ hselect => mapM_gathers (I := fun _ => True) (fun _ h => h)
      (fun c t _ => hselect c t) trivial

end Selection

theorem Campaign.targets_saved (c : Campaign) (t : Tree) :
    wp c.targets (fun r t' => t.Touches t' ∧
      ∀ targets, r = .ok targets → ∀ x ∈ targets, ∃ v n, t.Touches v ∧ v.Touches t' ∧
        v.node? x.id = some n ∧ n.kind.isLeaf = true ∧ n.cell = x.saved) t := by
  unfold Campaign.targets Selection.targets
  rw [wp.bind, wp.get]
  exact Selection.targetsAt_saved c.patches c.plan.filler c.root _ c.root t

theorem ResolverLaws.campaignTargets (laws : ResolverLaws R) (c : Campaign) :
    Preserves R R c.targets := by
  intro t
  refine (c.targets_saved t).mono ?_
  rintro (e | targets) t' ⟨h, -⟩ <;> exact h.keeps laws.touch

/-- The operation leaves trees alone whose groups are all ready. -/
def Tree.Still (t t' : Tree) : Prop := t.Settled → t' = t

instance : IsPreorder Tree Tree.Still where
  refl _ := fun _ => rfl
  trans t₁ t₂ t₃ := by
    intro h h' hs
    have ht₂ := h hs
    subst ht₂
    exact h' hs

/-- Touching groups leaves a settled tree alone. -/
theorem Tree.Touches.settled {t t' : Tree} (h : t.Touches t') (hs : t.Settled) : t' = t := by
  have hstill : ∀ id, Preserves Tree.Still Tree.Still (Tree.touch id) :=
    fun id => .of_run fun _ hs => Tree.touch_settled hs id
  exact h.keeps hstill hs

/-- Selecting the fields of a run leaves a settled tree alone. -/
theorem Campaign.targets_settled {t : Tree} (hs : t.Settled) (c : Campaign) :
    wp c.targets (fun r t' => t' = t ∧ ∀ targets, r = .ok targets →
      ∀ x ∈ targets, ∃ n, t.node? x.id = some n ∧ n.cell = x.saved) t := by
  refine (c.targets_saved t).mono ?_
  rintro r t' ⟨htouches, hsaved⟩
  refine ⟨htouches.settled hs, fun targets h x hx => ?_⟩
  obtain ⟨v, n, hv, -, hn, -, hcell⟩ := hsaved targets h x hx
  exact ⟨n, hv.settled hs ▸ hn, hcell⟩

-- ---------------------------------------------------------------------------
-- Trials
-- ---------------------------------------------------------------------------

namespace Campaign

variable {σ : Type} {sink : Sink σ}

/-- A part of a run went as far as a trial, and `Q` holds of the tree that it has left, or it did
not touch the tree. -/
def Leaves (Q : Tree → Prop) (s : RunState σ) {α : Type} (r : Except Stop α) (s' : RunState σ) :
    Prop :=
  Q s'.tree ∨
    s'.tree = s.tree ∧ s'.report.trials = s.report.trials ∧ ∀ e, r ≠ .error (.failure e)

section

variable {Q : Tree → Prop} {α β : Type}

theorem Leaves.pure (s : RunState σ) (a : α) : Leaves Q s (Except.ok a) s :=
  .inr ⟨rfl, rfl, fun _ h => by cases h⟩

/-- What comes after a part of a run may count on what holds before and after trials. -/
theorem Leaves.bind {W : Tree → Prop} (hback : ∀ t, Q t → W t) {act : RunM σ α}
    {f : α → RunM σ β} {s : RunState σ} (hs : W s.tree) (hact : wp act (Leaves Q s) s)
    (hf : ∀ a s, W s.tree → wp (f a) (Leaves Q s) s) : wp (act >>= f) (Leaves Q s) s := by
  rw [wp.bind]
  refine hact.mono ?_
  rintro (e | a) s₁ h₁
  · exact h₁.imp_right fun ⟨htree, htrials, hfail⟩ =>
      ⟨htree, htrials, fun e' he => hfail e' (congrArg Except.error (Except.error.inj he))⟩
  · have hW : W s₁.tree := by
      rcases h₁ with hQ | ⟨htree, -⟩
      · exact hback _ hQ
      · exact htree ▸ hs
    refine (hf a s₁ hW).mono fun r s₂ h₂ => ?_
    rcases h₂ with hQ | ⟨htree, htrials, hfail⟩
    · exact .inl hQ
    · rcases h₁ with hQ | ⟨htree₁, htrials₁, -⟩
      · exact .inl (htree ▸ hQ)
      · exact .inr ⟨htree.trans htree₁, htrials.trans htrials₁, hfail⟩

end

section

variable {W Q : Tree → Prop} {targets : List Target}
  (hwrite : ∀ t t' v, ∀ x ∈ targets, W t → t.setCell x.id (.literal v) = .ok t' → W t')
  (hsink : ∀ trial s t, W t → W (sink.accept trial s t).2.2)
  (hrestore : ∀ t, W t → Q (restore targets t))
  (hback : ∀ t, Q t → W t)

theorem checkLimit_leaves (c : Campaign) (s : RunState σ) :
    wp (c.checkLimit : RunM σ Unit) (Leaves Q s) s := by
  unfold checkLimit
  rw [wp.bind, wp.get]
  dsimp only
  split
  · rw [wp.bind, wp.modify, wp.throw]
    exact .inr ⟨rfl, rfl, fun _ h => by cases h⟩
  · exact Leaves.pure s ()

include hwrite

theorem writeValues_leaves {chosen : List (Target × Value)} (hchosen : ∀ pair ∈ chosen, pair.1 ∈ targets)
    {t : Tree} (ht : W t) : wp (writeValues chosen) (fun _ t' => W t') t := by
  unfold writeValues
  rw [wp.bind]
  refine wp.forIn (fun rest t => W t ∧ ∀ pair ∈ rest, pair.1 ∈ targets) ⟨ht, hchosen⟩
    (fun t h => h.1) ?_
  rintro ⟨x, v⟩ rest t ⟨ht, hrest⟩
  dsimp only
  rw [wp.bind, Tree.replaceCell, wp.update]
  cases ht' : t.setCell x.id (.literal v) with
  | error e => exact ht
  | ok t' =>
    exact ⟨hwrite t t' v x (hrest _ List.mem_cons_self) ht ht',
      fun pair hpair => hrest pair (List.mem_cons_of_mem _ hpair)⟩

include hsink hrestore hback

/-- A trial restores the tree however it ends. -/
theorem tryChoice_leaves (c : Campaign) {chosen : List (Target × Value)}
    (hchosen : ∀ pair ∈ chosen, pair.1 ∈ targets) {s : RunState σ} (hs : W s.tree) :
    wp (c.tryChoice sink targets chosen) (Leaves Q s) s := by
  refine Leaves.bind hback hs (c.checkLimit_leaves s) fun _ s hs => ?_
  rw [wp.bind, wp.get]
  dsimp only
  rcases hwritten : (writeValues chosen).run s.tree with ⟨r, t⟩
  have ht : W t := (writeValues_leaves hwrite hchosen hs).of_run hwritten
  cases r with
  | error e =>
    simp only [wp.bind, wp.set, wp.throw]
    exact .inl (hrestore t ht)
  | ok _ =>
    have haccepted := hsink ⟨s.number, c.root, chosen.map (·.1.name), chosen.map (·.2)⟩ s.sink t ht
    simp only [wp.bind, wp.set]
    split
    · exact .inl (hrestore _ haccepted)
    · exact .inl (hrestore _ haccepted)

theorem tryChoices_leaves (c : Campaign) {fields : List Target} (hfields : ∀ x ∈ fields, x ∈ targets)
    (limit : Nat) (choices : Choices) {s : RunState σ} (hs : W s.tree) :
    wp (c.tryChoices sink targets fields limit choices) (Leaves Q s) s := by
  induction limit generalizing choices s with
  | zero => exact Leaves.pure s ()
  | succ limit ih =>
    unfold tryChoices
    split
    · exact Leaves.pure s ()
    · refine Leaves.bind hback hs (c.tryChoice_leaves hwrite hsink hrestore hback ?_ hs) fun _ _ hs => ih _ hs
      rintro pair hpair
      rw [choose, List.mem_iff_getElem] at hpair
      obtain ⟨i, hi, rfl⟩ := hpair
      rw [List.getElem_zipWith]
      exact hfields _ (List.getElem_mem _)

theorem trySubset_leaves (c : Campaign) (subset : List Nat) {s : RunState σ} (hs : W s.tree) :
    wp (c.trySubset sink targets subset) (Leaves Q s) s := by
  unfold trySubset
  dsimp only
  rw [wp.bind, wp.get]
  dsimp only
  split
  · exact Leaves.pure s ()
  · refine Leaves.bind hback hs ?_ fun _ s hs => ?_
    · rw [wp.modify]
      exact .inr ⟨rfl, rfl, fun _ h => by cases h⟩
    · refine c.tryChoices_leaves hwrite hsink hrestore hback (fun x hx => ?_) _ _ hs
      obtain ⟨i, -, hi⟩ := List.mem_filterMap.mp hx
      exact List.mem_of_getElem? hi

theorem trySubsets_leaves (c : Campaign) (limit : Nat) (subsets : Subsets) {s : RunState σ}
    (hs : W s.tree) : wp (c.trySubsets sink targets limit subsets) (Leaves Q s) s := by
  induction limit generalizing subsets s with
  | zero => exact Leaves.pure s ()
  | succ limit ih =>
    unfold trySubsets
    split
    · exact Leaves.pure s ()
    · exact Leaves.bind hback hs (c.trySubset_leaves hwrite hsink hrestore hback _ hs) fun _ _ hs => ih _ hs

theorem tryAll_leaves (c : Campaign) {s : RunState σ} (hs : W s.tree) :
    wp (c.tryAll sink targets) (Leaves Q s) s := by
  unfold tryAll
  dsimp only
  generalize c.plan.sizes targets.length = sizes
  have hloop : ∀ {s : RunState σ}, W s.tree → wp (forIn sizes PUnit.unit fun k _ => do
      c.trySubsets sink targets (Subsets.total targets.length k) (.ofSize targets.length k)
      return .yield PUnit.unit : RunM σ PUnit) (Leaves Q s) s := by
    induction sizes with
    | nil =>
      intro s _
      exact Leaves.pure s PUnit.unit
    | cons k rest ih =>
      intro s hs
      rw [List.forIn_cons, bind_assoc]
      refine Leaves.bind hback hs (c.trySubsets_leaves hwrite hsink hrestore hback _ _ hs) fun _ s hs => ?_
      rw [pure_bind]
      exact ih hs
  exact Leaves.bind hback hs (hloop hs) fun _ s _ => Leaves.pure s ()

end

-- ---------------------------------------------------------------------------
-- Runs
-- ---------------------------------------------------------------------------

/-- The state before the first trial. -/
def start (c : Campaign) (s : σ) (t : Tree) : RunState σ :=
  { tree := t, sink := s, number := c.plan.firstTrial }

/-- The trials of a run, from the targets and the tree that the selection has left. -/
def trials (c : Campaign) (sink : Sink σ) (s : σ) (targets : List Target) (t : Tree) :
    Except Stop Unit × RunState σ :=
  (c.tryAll sink targets).run (c.start s t)

/-- A run ends with the tree that its trials leave. -/
theorem run_tree (c : Campaign) (s : σ) {t t₁ : Tree} {targets : List Target}
    (hselect : c.targets.run t = (.ok targets, t₁)) :
    (c.run sink s t).2.2 = (c.trials sink s targets t₁).2.tree := by
  unfold run trials start
  rw [hselect]
  dsimp only
  split <;> simp_all

/-- A run keeps what its selection keeps and what its trials keep, given what is known of the targets when they are
selected. -/
theorem run_preserves {P : List Target → Tree → Prop} (c : Campaign) {t : Tree}
    (htargets : wp c.targets (fun r t' => R t t' ∧ ∀ targets, r = .ok targets → P targets t') t)
    (hwrite : ∀ t t' id v, t.setCell id (.literal v) = .ok t' → R t t')
    (hrestore : ∀ targets t t', P targets t → R t t' → R t' (restore targets t'))
    (hsink : ∀ trial s t, R t (sink.accept trial s t).2.2) (s : σ) :
    R t (c.run sink s t).2.2 := by
  rcases hselect : c.targets.run t with ⟨r, t₁⟩
  obtain ⟨hR, hP⟩ := htargets.of_run hselect
  cases r with
  | error e =>
    unfold run
    rw [hselect]
    exact hR
  | ok targets =>
    rw [c.run_tree s hselect]
    have hall := c.tryAll_leaves (W := R t₁) (Q := R t₁)
      (fun t₂ t₃ v x _ h ht₃ => trans_of R h (hwrite t₂ t₃ x.id v ht₃))
      (fun trial s t₂ h => trans_of R h (hsink trial s t₂))
      (fun t₂ h => trans_of R h (hrestore targets t₁ t₂ (hP targets rfl) h))
      (fun _ h => h) (s := c.start s t₁) (refl_of R t₁)
    rcases hall with h | ⟨htree, -⟩
    · exact trans_of R hR h
    · exact htree ▸ hR

end Campaign

end FormatFuzz
