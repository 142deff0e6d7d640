-- SUMMARY: The outline of a tree, on which names, paths and counts depend while all groups are ready.
import FormatFuzz.Proofs.Likeness
import FormatFuzz.Proofs.Paths
import FormatFuzz.Tree.Resolve

/-!
# Outlines

Where a node is, what it is called and how many elements a group has can be told without cells,
caches and readers. So trees of one outline look the same to everything that asks for no more than
that (the lemmas `…_outline`), and if their groups are ready, paths and counts are such questions, too
(`Tree.Surveys`).
-/

namespace FormatFuzz

open TreeM

/-- A node without its cell, its cache and its readers. -/
def Node.outline (n : Node) : Node := { n with cell := .unset, cache := none, dependents := [] }

namespace Tree

variable {t t' : Tree} {id : NodeId}

/-- The tree without cells, caches, readers, counters and the stack. -/
def outline (t : Tree) : Tree := ⟨t.nodes.map (Option.map Node.outline), t.root, t.seed, [], []⟩

@[simp] theorem node?_outline : t.outline.node? id = (t.node? id).map Node.outline := by
  unfold node? outline
  rw [Array.getElem?_map]
  cases t.nodes[id.index]? <;> rfl

theorem map_nodes_eq {f : Node → Node} (hsize : t'.nodes.size = t.nodes.size)
    (h : ∀ id, (t'.node? id).map f = (t.node? id).map f) :
    t'.nodes.map (Option.map f) = t.nodes.map (Option.map f) := by
  refine Array.ext (by simp only [Array.size_map, hsize]) fun i hi hi' => ?_
  have hid := h ⟨i⟩
  rw [Array.size_map] at hi hi'
  unfold node? at hid
  rw [Array.getElem?_eq_getElem hi, Array.getElem?_eq_getElem hi'] at hid
  rw [Array.getElem_map, Array.getElem_map]
  exact hid

theorem outline_eq_iff :
    t'.outline = t.outline ↔ t'.root = t.root ∧ t'.seed = t.seed ∧ t'.nodes.size = t.nodes.size ∧
      ∀ id, (t'.node? id).map Node.outline = (t.node? id).map Node.outline := by
  constructor
  · intro h
    have hsize := congrArg (·.nodes.size) h
    simp only [outline, Array.size_map] at hsize
    refine ⟨congrArg (·.root) h, congrArg (·.seed) h, hsize, fun id => ?_⟩
    have hid := congrArg (·.node? id) h
    simpa only [node?_outline] using hid
  · rintro ⟨hroot, hseed, hsize, hnodes⟩
    unfold outline
    rw [map_nodes_eq hsize hnodes, hroot, hseed]

theorem Like.outline (h : t.Like t') : t'.outline = t.outline := by
  refine outline_eq_iff.mpr ⟨h.root, h.seed, h.size, fun id => ?_⟩
  have hid := congrArg (Option.map Node.outline) (h.nodes id)
  rwa [Option.map_map, Option.map_map] at hid

theorem Settled.of_outline (hs : t.Settled) (h : t'.outline = t.outline) : t'.Settled := by
  refine hs.of_sameKinds fun id n' hn' => ?_
  have hid := (outline_eq_iff.mp h).2.2.2 id
  rw [hn'] at hid
  obtain ⟨n, hn, heq⟩ := Option.map_eq_some_iff.mp hid.symm
  have hkind := congrArg Node.kind heq
  exact ⟨n, hn, hkind⟩

/-- What can be told from the outline is the same in all trees of one outline. -/
theorem eq_of_outline {α : Type} {f : Tree → α} (hf : ∀ t, f t.outline = f t)
    (h : t'.outline = t.outline) : f t' = f t := by
  rw [← hf t', h, hf t]

-- ---------------------------------------------------------------------------
-- What can be told from the outline
-- ---------------------------------------------------------------------------

@[simp] theorem root_outline : t.outline.root = t.root := rfl

@[simp] theorem isLive_outline : t.outline.isLive id = t.isLive id := by
  simp [isLive]

theorem node_outline : t.outline.node id = (t.node id).map Node.outline := by
  unfold node
  rw [node?_outline]
  cases t.node? id <;> rfl

/-- Nodes are looked up in the outline as in the tree. -/
theorem look_outline {α : Type} {f : Node → α} (hf : ∀ n, f n.outline = f n) :
    t.outline.look id f = t.look id f := by
  unfold look
  rw [node_outline]
  cases t.node id with
  | error e => rfl
  | ok n => exact congrArg Except.ok (hf n)

@[simp] theorem isLeaf_outline : t.outline.isLeaf id = t.isLeaf id := look_outline fun _ => rfl

@[simp] theorem isGroup_outline : t.outline.isGroup id = t.isGroup id := look_outline fun _ => rfl

@[simp] theorem isHidden_outline : t.outline.isHidden id = t.isHidden id :=
  look_outline fun _ => rfl

@[simp] theorem children_outline : t.outline.children id = t.children id :=
  look_outline fun _ => rfl

@[simp] theorem shownChildren_outline : t.outline.shownChildren id = t.shownChildren id := by
  simp [shownChildren]

@[simp] theorem climbsTo_outline (a : NodeId) (fuel : Nat) :
    t.outline.climbsTo a fuel id = t.climbsTo a fuel id := by
  induction fuel generalizing id with
  | zero => rfl
  | succ fuel ih =>
    unfold climbsTo
    rw [node?_outline]
    cases t.node? id with
    | none => rfl
    | some n =>
      simp only [Option.map_some, Option.bind_some, ih]
      rfl

@[simp] theorem contains_outline (a : NodeId) : t.outline.contains a id = t.contains a id :=
  climbsTo_outline a id.index

theorem namesAbove_outline (fuel : Nat) (parent : Option NodeId) :
    t.outline.namesAbove fuel parent = t.namesAbove fuel parent := by
  induction fuel generalizing parent with
  | zero => cases parent <;> rfl
  | succ fuel ih =>
    cases parent with
    | none => rfl
    | some p =>
      unfold namesAbove
      rw [node_outline]
      cases t.node p with
      | error e => rfl
      | ok n =>
        simp only [Except.map, ok_bind, ih]
        rfl

@[simp] theorem fullName_outline : t.outline.fullName id = t.fullName id := by
  unfold fullName
  rw [node_outline]
  cases t.node id with
  | error e => rfl
  | ok n =>
    simp only [Except.map, ok_bind, namesAbove_outline]
    rfl

@[simp] theorem nameOrPlace_outline : t.outline.nameOrPlace id = t.nameOrPlace id := by
  simp [nameOrPlace]

@[simp] theorem compositeAbove_outline (fuel : Nat) (parent : Option NodeId) :
    t.outline.compositeAbove fuel parent = t.compositeAbove fuel parent := by
  induction fuel generalizing parent with
  | zero => cases parent <;> rfl
  | succ fuel ih =>
    cases parent with
    | none => rfl
    | some p =>
      unfold compositeAbove
      rw [node_outline]
      cases t.node p with
      | error e => rfl
      | ok n =>
        simp only [Except.map, ok_bind, ih]
        rfl

@[simp] theorem enclosing_outline : t.outline.enclosing id = t.enclosing id := by
  unfold enclosing
  rw [node_outline]
  cases t.node id with
  | error e => rfl
  | ok n =>
    simp only [Except.map, ok_bind, compositeAbove_outline]
    rfl

@[simp] theorem generator_outline (p : Purpose) : t.outline.generator id p = t.generator id p := by
  unfold generator
  rw [fullName_outline]
  rfl

@[simp] theorem group_outline : t.outline.group id = t.group id := by
  unfold group
  rw [node_outline, fullName_outline]
  cases t.node id with
  | error e => rfl
  | ok n => rfl

theorem group_eq_of_outline (h : t'.outline = t.outline) : t'.group id = t.group id :=
  eq_of_outline (f := (·.group id)) (fun _ => group_outline) h

@[simp] theorem childNamed_outline (name : String) :
    t.outline.childNamed id name = t.childNamed id name := by
  unfold childNamed
  rw [children_outline]
  cases t.children id with
  | error e => rfl
  | ok children =>
    simp only [ok_bind, node?_outline, Option.any_map]
    rfl

theorem weight_outline : t.outline.weight = t.weight := by
  refine total_congr Node.weight ?_ fun id => ?_
  · exact Array.size_map ..
  · rw [node?_outline, Option.map_map]
    rfl

theorem depthFor_outline : Resolver.depthFor t.outline = Resolver.depthFor t := by
  rw [Resolver.depthFor, weight_outline, Resolver.depthFor]

@[simp] theorem encode_outline (v : Value) :
    Resolver.encode t.outline id v = Resolver.encode t id v := by
  unfold Resolver.encode
  rw [node_outline, nameOrPlace_outline]
  cases t.node id with
  | error e => rfl
  | ok n => rfl

-- ---------------------------------------------------------------------------
-- Surveys
-- ---------------------------------------------------------------------------

/-- If all groups are ready, the operation has one outcome for all trees of one outline, and
changes none of them. -/
def Surveys {α : Type} (act : TreeM α) : Prop :=
  ∀ t : Tree, t.Settled → ∃ r, ∀ t', t'.outline = t.outline → wp act (fun r' u => r' = r ∧ u = t') t'

namespace Surveys

variable {α β : Type} {act : TreeM α} {f : α → TreeM β}

theorem pure {a : α} : Surveys (Pure.pure a : TreeM α) := fun _ _ => ⟨.ok a, fun _ _ => ⟨rfl, rfl⟩⟩

theorem look {f : Tree → Except TreeError α} (hf : ∀ t, f t.outline = f t) :
    Surveys (TreeM.look f) := by
  refine fun t _ => ⟨f t, fun t' h => ?_⟩
  rw [wp.look]
  exact ⟨eq_of_outline hf h, rfl⟩

theorem bind (hact : Surveys act) (hf : ∀ a, Surveys (f a)) : Surveys (act >>= f) := by
  intro t hs
  obtain ⟨r, hr⟩ := hact t hs
  cases r with
  | error e =>
    refine ⟨.error e, fun t' h => ?_⟩
    rw [wp.bind]
    refine (hr t' h).mono ?_
    rintro _ _ ⟨rfl, rfl⟩
    exact ⟨rfl, rfl⟩
  | ok a =>
    obtain ⟨r', hr'⟩ := hf a t hs
    refine ⟨r', fun t' h => ?_⟩
    rw [wp.bind]
    refine (hr t' h).mono ?_
    rintro _ _ ⟨rfl, rfl⟩
    exact hr' _ h

/-- The tree may be looked at for what can be told from the outline. -/
theorem get {f : Tree → TreeM α} (hf : ∀ t, Surveys (f t)) (hsame : ∀ t, f t.outline = f t) :
    Surveys (MonadState.get >>= f) := by
  intro t hs
  obtain ⟨r, hr⟩ := hf t t hs
  refine ⟨r, fun t' h => ?_⟩
  rw [wp.bind, wp.get]
  dsimp only
  rw [eq_of_outline hsame h]
  exact hr t' h

theorem throw {e : TreeError} : Surveys (MonadExcept.throw e : TreeM α) :=
  fun _ _ => ⟨.error e, fun _ _ => ⟨rfl, rfl⟩⟩

/-- A node may be looked up to see that it is live. -/
theorem live {id : NodeId} (hact : Surveys act) :
    Surveys (TreeM.look (·.node id) >>= fun _ => act) := by
  have hlive : Surveys (TreeM.look (·.look id fun _ => ()) >>= fun _ => act) :=
    .bind (.look fun _ => look_outline fun _ => rfl) fun _ => hact
  intro t hs
  obtain ⟨r, hr⟩ := hlive t hs
  refine ⟨r, fun t' h => ?_⟩
  have hrun := hr t' h
  rw [wp.bind, wp.look] at hrun ⊢
  unfold Tree.look at hrun
  cases hn : t'.node id <;> rw [hn] at hrun <;> exact hrun

theorem foldlM {xs : List α} {f : β → α → TreeM β} (hf : ∀ b x, Surveys (f b x)) (b : β) :
    Surveys (xs.foldlM f b) := by
  induction xs generalizing b with
  | nil => exact .pure
  | cons x rest ih => exact .bind (hf b x) ih

end Surveys

-- ---------------------------------------------------------------------------
-- Operations on groups
-- ---------------------------------------------------------------------------

section

variable (init : NodeId → TreeM Unit)

theorem touchWith_surveys (id : NodeId) : Surveys (TreeM.touchWith init id) := by
  intro t hs
  cases hg : t.group id with
  | error e =>
    refine ⟨.error e, fun t' h => ?_⟩
    unfold TreeM.touchWith
    rw [wp.bind, wp.look, group_eq_of_outline h, hg]
    exact ⟨rfl, rfl⟩
  | ok g =>
    refine ⟨.ok (), fun t' h => ?_⟩
    unfold TreeM.touchWith
    rw [wp.bind, wp.look, group_eq_of_outline h, hg]
    dsimp only
    rw [hs.group hg]
    exact ⟨rfl, rfl⟩

theorem countWith_surveys (id : NodeId) : Surveys (TreeM.countWith init id) := by
  have hlength : Surveys (do return (← TreeM.look (·.children id)).length : TreeM Nat) :=
    .bind (.look fun t => t.children_outline) fun _ => .pure
  intro t hs
  cases hg : t.group id with
  | error e =>
    refine ⟨.error e, fun t' h => ?_⟩
    unfold TreeM.countWith
    rw [wp.bind, wp.look, group_eq_of_outline h, hg]
    exact ⟨rfl, rfl⟩
  | ok g =>
    obtain ⟨r, hr⟩ := hlength t hs
    refine ⟨r, fun t' h => ?_⟩
    unfold TreeM.countWith
    rw [wp.bind, wp.look, group_eq_of_outline h, hg]
    dsimp only
    rw [hs.group hg]
    exact hr t' h

variable {failure : Tree → TreeError} (hfailure : ∀ t, failure t.outline = failure t)

include hfailure

theorem pickWith_surveys (id : NodeId) (index : Nat) :
    Surveys (TreeM.pickWith init failure id index) := by
  refine .bind (.look fun t => t.isGroup_outline) fun isGroup => ?_
  cases isGroup
  case' false => refine .get (fun _ => .bind .throw fun _ => ?_) fun t => by rw [hfailure]
  all_goals
    refine .bind (touchWith_surveys init id) fun _ => .bind (.look fun t => t.children_outline)
      fun children => ?_
    cases children[index]? with
    | some element => exact .pure
    | none => exact .get (fun _ => .throw) fun t => by rw [hfailure]

theorem stepWith_surveys (id : NodeId) (step : Step) :
    Surveys (TreeM.stepWith init failure id step) := by
  have hfold : ∀ (indices : List Nat) id,
      Surveys (indices.foldlM (TreeM.pickWith init failure) id) :=
    fun indices id => .foldlM (pickWith_surveys init hfailure) id
  cases step with
  | malformed => exact .get (fun _ => .throw) fun t => by rw [hfailure]
  | climb =>
    refine .bind (.look fun t => t.enclosing_outline) fun base => ?_
    split
    · exact .get (fun _ => .throw) fun t => by rw [hfailure]
    · exact .pure
  | descend name indices =>
    unfold TreeM.stepWith
    dsimp only
    split
    · exact .bind .pure (hfold indices)
    · refine .bind (.look fun t => t.childNamed_outline name) fun child => ?_
      cases child with
      | some child => exact .bind .pure (hfold indices)
      | none => exact .get (fun _ => .bind .throw (hfold indices)) fun t => by rw [hfailure]

end

theorem find_surveys (start : NodeId) (path : String) : Surveys (find start path) := by
  have hsteps : ∀ id, Surveys ((Path.parse path).steps.foldlM
      (TreeM.stepWith init fun t => t.noSuchField start path) id) :=
    .foldlM (stepWith_surveys init fun t => by simp only [noSuchField, nameOrPlace_outline])
  exact .get (fun _ => .live (hsteps _)) fun _ => rfl

theorem touch_surveys (id : NodeId) : Surveys (touch id) := touchWith_surveys init id

theorem count_surveys (id : NodeId) : Surveys (count id) := countWith_surveys init id

end Tree

end FormatFuzz
