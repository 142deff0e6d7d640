-- SUMMARY: What is found in the arena after each of the changes that the tree's operations make.
import FormatFuzz.Tree.Build

/-!
# The arena

Operations change the arena by changing a node, by removing one, and by adding one in the next
free place. This module says what is found afterwards, so that nothing further up looks into the
array.

A node has a part that never changes while it lives (`Node.fixture`). With its children it is all
that the shape of the tree depends on (`Node.skeleton`).
-/

namespace FormatFuzz

-- ---------------------------------------------------------------------------
-- Parts of nodes
-- ---------------------------------------------------------------------------

/-- A group that has not been touched yet. -/
def Group.still (g : Group) : Group := { g with phase := .uninit, watchers := [] }

def NodeKind.still : NodeKind → NodeKind
  | .repeated group => .repeated group.still
  | kind => kind

namespace NodeKind

@[simp] theorem isRepeated_still (kind : NodeKind) : kind.still.isRepeated = kind.isRepeated := by
  cases kind <;> rfl

theorem isRepeated_iff {kind : NodeKind} : kind.isRepeated = true ↔ ∃ g, kind = .repeated g := by
  cases kind <;> simp [isRepeated]

theorem still_eq_leaf {kind : NodeKind} {k : LeafKind} : kind.still = .leaf k ↔ kind = .leaf k := by
  cases kind <;> simp [still]

theorem still_eq_composite {kind : NodeKind} : kind.still = .composite ↔ kind = .composite := by
  cases kind <;> simp [still]

end NodeKind

namespace Node

/-- What a node keeps as long as it lives. -/
def fixture (n : Node) : Node :=
  { n with kind := n.kind.still, children := [], cell := .unset, cache := none, dependents := [] }

/-- What the shape of the tree depends on. -/
def skeleton (n : Node) : Node := { n.fixture with children := n.children }

/-- A node without a cache, which nobody has read. -/
def bare (n : Node) : Node := { n with cache := none, dependents := [] }

theorem skeleton_eq_iff {n m : Node} :
    n.skeleton = m.skeleton ↔ n.fixture = m.fixture ∧ n.children = m.children := by
  constructor
  · intro h
    have hf := congrArg (fun n : Node => { n with children := [] }) h
    have hc := congrArg Node.children h
    exact ⟨hf, hc⟩
  · rintro ⟨hf, hc⟩
    unfold skeleton
    rw [hf, hc]

section

variable {n m : Node}

theorem one_le_weight (n : Node) : 1 ≤ n.weight := by
  unfold weight
  split
  · exact Nat.le_add_right 1 _
  · exact Nat.le_refl 1

theorem kind_of_bare (h : n.bare = m.bare) : n.kind = m.kind := by
  have h' := congrArg Node.kind h
  exact h'

theorem children_of_bare (h : n.bare = m.bare) : n.children = m.children := by
  have h' := congrArg Node.children h
  exact h'

theorem cell_of_bare (h : n.bare = m.bare) : n.cell = m.cell := by
  have h' := congrArg Node.cell h
  exact h'

theorem name_of_fixture (h : n.fixture = m.fixture) : n.name = m.name := by
  have h' := congrArg Node.name h
  exact h'

theorem parent_of_fixture (h : n.fixture = m.fixture) : n.parent = m.parent := by
  have h' := congrArg Node.parent h
  exact h'

theorem hidden_of_fixture (h : n.fixture = m.fixture) : n.hidden = m.hidden := by
  have h' := congrArg Node.hidden h
  exact h'

theorem action_of_fixture (h : n.fixture = m.fixture) : n.action = m.action := by
  have h' := congrArg Node.action h
  exact h'

theorem still_of_fixture (h : n.fixture = m.fixture) : n.kind.still = m.kind.still := by
  have h' := congrArg Node.kind h
  exact h'

theorem weight_of_fixture (h : n.fixture = m.fixture) : n.weight = m.weight := by
  have hstill : ∀ n : Node, n.weight = { n with kind := n.kind.still }.weight := by
    intro n
    unfold weight
    cases n.kind <;> rfl
  rw [hstill n, hstill m, still_of_fixture h]
  rfl

theorem rule_of_fixture {g : Group} (h : n.fixture = m.fixture) (hk : n.kind = .repeated g) :
    ∃ g', m.kind = .repeated g' ∧ g'.rule = g.rule := by
  have hstill := still_of_fixture h
  rw [hk] at hstill
  cases hm : m.kind with
  | leaf k =>
    rw [hm] at hstill
    cases hstill
  | composite =>
    rw [hm] at hstill
    cases hstill
  | repeated g' =>
    rw [hm] at hstill
    have hrule := congrArg Group.rule (NodeKind.repeated.inj hstill)
    exact ⟨g', rfl, hrule.symm⟩

theorem isRepeated_of_fixture (h : n.fixture = m.fixture) :
    n.kind.isRepeated = m.kind.isRepeated := by
  simpa using congrArg NodeKind.isRepeated (still_of_fixture h)

end

end Node

-- ---------------------------------------------------------------------------
-- Looking up
-- ---------------------------------------------------------------------------

namespace Tree

variable {t : Tree} {id x : NodeId} {n : Node}

theorem node_eq_ok : t.node id = .ok n ↔ t.node? id = some n := by
  unfold node
  cases t.node? id <;> simp

theorem node_eq_error : (∃ e, t.node id = .error e) ↔ t.node? id = none := by
  unfold node
  cases t.node? id <;> simp

theorem isLive_iff_node? : t.isLive id = true ↔ ∃ n, t.node? id = some n := by
  rw [isLive, Option.isSome_iff_exists]

theorem look_eq_ok {α : Type} {f : Node → α} {a : α} :
    t.look id f = .ok a ↔ ∃ n, t.node? id = some n ∧ f n = a := by
  unfold look node
  cases t.node? id <;> simp [Bind.bind, Except.bind, Pure.pure, Except.pure]

/-- Looking up a field of a live node. -/
theorem look_of_node? {α : Type} (h : t.node? id = some n) (f : Node → α) :
    t.look id f = .ok (f n) := look_eq_ok.mpr ⟨n, h, rfl⟩

theorem lt_size (h : t.node? id = some n) : id.index < t.nodes.size := by
  unfold node? at h
  rcases Nat.lt_or_ge id.index t.nodes.size with hlt | hge
  · exact hlt
  · rw [Array.getElem?_eq_none hge] at h
    cases h

-- ---------------------------------------------------------------------------
-- Changing, removing and adding a node
-- ---------------------------------------------------------------------------

theorem node?_modify (f : Node → Node) :
    (t.modify id f).node? x = if x = id then (t.node? id).map f else t.node? x := by
  unfold node? modify
  rw [Array.getElem?_modify]
  by_cases h : x = id
  · subst h
    cases t.nodes[x.index]? <;> simp
  · have hne : ¬ id.index = x.index := fun he => h (by cases x; cases id; simp_all)
    rw [if_neg hne, if_neg h]

theorem node?_modify_self (f : Node → Node) : (t.modify id f).node? id = (t.node? id).map f := by
  rw [node?_modify, if_pos rfl]

theorem node?_modify_ne (f : Node → Node) (h : x ≠ id) :
    (t.modify id f).node? x = t.node? x := by
  rw [node?_modify, if_neg h]

theorem node?_remove : (t.remove id).node? x = if x = id then none else t.node? x := by
  unfold node? remove
  rw [Array.getElem?_setIfInBounds]
  by_cases h : x = id
  · subst h
    simp only [if_pos]
    split <;> simp_all
  · have hne : ¬ id.index = x.index := fun he => h (by cases x; cases id; simp_all)
    rw [if_neg hne, if_neg h]

/-- Adds a node in the next free place. -/
def push (t : Tree) (n : Node) : Tree := { t with nodes := t.nodes.push (some n) }

theorem node?_push : (t.push n).node? x = if x.index = t.nodes.size then some n else t.node? x := by
  unfold node? push
  rw [Array.getElem?_push]
  split <;> rfl

@[simp] theorem size_modify (f : Node → Node) : (t.modify id f).nodes.size = t.nodes.size :=
  Array.size_modify

@[simp] theorem size_remove : (t.remove id).nodes.size = t.nodes.size :=
  Array.size_setIfInBounds

@[simp] theorem size_push : (t.push n).nodes.size = t.nodes.size + 1 := Array.size_push (some n)

-- ---------------------------------------------------------------------------
-- Clearing caches
-- ---------------------------------------------------------------------------

private theorem node?_foldl_bare (ids : List NodeId) :
    (ids.foldl (fun t id => t.modify id ({ · with cache := none, dependents := [] })) t).node? x =
      if x ∈ ids then (t.node? x).map Node.bare else t.node? x := by
  induction ids generalizing t with
  | nil => simp
  | cons id rest ih =>
    rw [List.foldl_cons, ih, node?_modify]
    by_cases hx : x = id
    · subst hx
      cases t.node? x <;> simp [Node.bare]
    · simp [hx]

private theorem frame_foldl_bare (ids : List NodeId) :
    let t' := ids.foldl (fun t id => t.modify id ({ · with cache := none, dependents := [] })) t
    t'.root = t.root ∧ t'.seed = t.seed ∧ t'.nodes.size = t.nodes.size ∧
      t'.counters = t.counters ∧ t'.resolving = t.resolving := by
  induction ids generalizing t with
  | nil => exact ⟨rfl, rfl, rfl, rfl, rfl⟩
  | cons id rest ih =>
    obtain ⟨hr, hs, hn, hc, hv⟩ := ih (t := t.modify id ({ · with cache := none, dependents := [] }))
    exact ⟨hr, hs, hn.trans (size_modify _), hc, hv⟩

theorem node?_invalidate :
    (t.invalidate id).node? x =
      if x ∈ t.reach id then (t.node? x).map Node.bare else t.node? x :=
  node?_foldl_bare (t.reach id)

@[simp] theorem root_invalidate : (t.invalidate id).root = t.root :=
  (frame_foldl_bare (t.reach id)).1

@[simp] theorem seed_invalidate : (t.invalidate id).seed = t.seed :=
  (frame_foldl_bare (t.reach id)).2.1

@[simp] theorem size_invalidate : (t.invalidate id).nodes.size = t.nodes.size :=
  (frame_foldl_bare (t.reach id)).2.2.1

@[simp] theorem counters_invalidate : (t.invalidate id).counters = t.counters :=
  (frame_foldl_bare (t.reach id)).2.2.2.1

@[simp] theorem resolving_invalidate : (t.invalidate id).resolving = t.resolving :=
  (frame_foldl_bare (t.reach id)).2.2.2.2

theorem node?_invalidateAll :
    t.invalidateAll.node? x = (t.node? x).map ({ · with cache := none }) := by
  unfold node? invalidateAll
  rw [Array.getElem?_map]
  cases t.nodes[x.index]? <;> rfl

@[simp] theorem size_invalidateAll : t.invalidateAll.nodes.size = t.nodes.size :=
  Array.size_map ..

theorem node?_noteReader (source reader : NodeId) :
    (t.noteReader source reader).node? x =
      if x = source ∧ source ≠ reader then
        (t.node? x).map fun n => { n with dependents := reader.insertInto n.dependents }
      else t.node? x := by
  unfold noteReader
  by_cases h : source = reader
  · simp [h]
  · rw [if_neg h, node?_modify]
    by_cases hx : x = source
    · simp [hx, h]
    · simp [hx]

end Tree

-- ---------------------------------------------------------------------------
-- Sums over the live nodes
-- ---------------------------------------------------------------------------

private theorem foldr_set_none (f : Node → Nat) {n : Node} :
    (nodes : List (Option Node)) → (i : Nat) → nodes[i]? = some (some n) →
      ((nodes.set i none).filterMap id).foldr (fun m rest => f m + rest) 0 + f n =
        (nodes.filterMap id).foldr (fun m rest => f m + rest) 0
  | [], _, h => by simp at h
  | node :: rest, 0, h => by
    cases h
    exact Nat.add_comm ..
  | node :: rest, i + 1, h => by
    have ih := foldr_set_none f rest i h
    cases node with
    | none => exact ih
    | some m =>
      show f m + ((rest.set i none).filterMap id).foldr (fun m rest => f m + rest) 0 + f n =
        f m + (rest.filterMap id).foldr (fun m rest => f m + rest) 0
      omega

namespace Tree

variable {t : Tree} {id : NodeId} {n : Node}

theorem total_remove (f : Node → Nat) (h : t.node? id = some n) :
    (t.remove id).total f + f n = t.total f := by
  unfold total liveNodes remove
  rw [Array.toList_setIfInBounds]
  refine foldr_set_none f _ _ ?_
  rw [Array.getElem?_toList]
  unfold node? at h
  cases hn : t.nodes[id.index]? with
  | none => rw [hn] at h; cases h
  | some m =>
    rw [hn] at h
    exact congrArg some h

theorem le_total (f : Node → Nat) (h : t.node? id = some n) : f n ≤ t.total f := by
  rw [← total_remove f h]
  exact Nat.le_add_left ..

private theorem total_eq (f : Node → Nat) :
    t.total f = (t.nodes.toList.map (Option.map f)).foldr (fun m rest => m.getD 0 + rest) 0 := by
  unfold total liveNodes
  induction t.nodes.toList with
  | nil => rfl
  | cons node nodes ih =>
    cases node with
    | none => exact ih.trans (Nat.zero_add _).symm
    | some m => exact congrArg (f m + ·) ih

theorem total_congr {t' : Tree} (f : Node → Nat) (hsize : t'.nodes.size = t.nodes.size)
    (h : ∀ x, (t'.node? x).map f = (t.node? x).map f) : t'.total f = t.total f := by
  rw [total_eq, total_eq]
  refine congrArg (List.foldr (fun (m : Option Nat) rest => m.getD 0 + rest) 0)
    (List.ext_getElem? fun i => ?_)
  have hi := h ⟨i⟩
  unfold node? at hi
  simp only [List.getElem?_map, Array.getElem?_toList]
  rcases Nat.lt_or_ge i t.nodes.size with hlt | hge
  · rw [Array.getElem?_eq_getElem hlt, Array.getElem?_eq_getElem (hsize ▸ hlt)] at hi ⊢
    exact congrArg some hi
  · rw [Array.getElem?_eq_none hge, Array.getElem?_eq_none (hsize ▸ hge)]

private theorem foldr_le_foldr (l l' : List (Option Nat))
    (h : ∀ (i m : Nat), l[i]? = some (some m) → ∃ m', l'[i]? = some (some m') ∧ m ≤ m') :
    l.foldr (fun m rest => m.getD 0 + rest) 0 ≤ l'.foldr (fun m rest => m.getD 0 + rest) 0 := by
  induction l generalizing l' with
  | nil => exact Nat.zero_le _
  | cons m l ih =>
    have hrest := ih l'.tail fun i k hi => by
      obtain ⟨k', hk', hle⟩ := h (i + 1) k hi
      exact ⟨k', by rw [List.getElem?_tail, hk'], hle⟩
    have hhead : m.getD 0 ≤ l'.head?.join.getD 0 := by
      cases m with
      | none => exact Nat.zero_le _
      | some m =>
        obtain ⟨k, hk, hle⟩ := h 0 m rfl
        rw [List.head?_eq_getElem?, hk]
        exact hle
    cases l' with
    | nil => exact Nat.add_le_add hhead hrest
    | cons m' l' => exact Nat.add_le_add hhead hrest

/-- A tree that has all nodes of another one weighs no less. -/
theorem total_le_total {t' : Tree} (f : Node → Nat)
    (h : ∀ x n, t.node? x = some n → ∃ n', t'.node? x = some n' ∧ f n ≤ f n') :
    t.total f ≤ t'.total f := by
  have hget : ∀ (t : Tree) (i m : Nat), (t.nodes.toList.map (Option.map f))[i]? = some (some m) ↔
      ∃ n, t.node? ⟨i⟩ = some n ∧ f n = m := by
    intro t i m
    unfold node?
    rw [List.getElem?_map, Array.getElem?_toList]
    cases t.nodes[i]? <;> simp
  rw [total_eq, total_eq]
  refine foldr_le_foldr _ _ fun i m hi => ?_
  obtain ⟨n, hn, rfl⟩ := (hget t i m).mp hi
  obtain ⟨n', hn', hle⟩ := h ⟨i⟩ n hn
  exact ⟨f n', (hget t' i _).mpr ⟨n', hn', rfl⟩, hle⟩

theorem total_push {t' : Tree} (f : Node → Nat) (h : t'.nodes = t.nodes.push (some n)) :
    t'.total f = t.total f + f n := by
  have hsum : ∀ t : Tree, t.total f = (t.liveNodes.map f).sum := by
    intro t
    rw [total, List.sum, List.foldr_map]
  rw [hsum, hsum, liveNodes, liveNodes, h, Array.toList_push, List.filterMap_append, List.map_append,
    List.sum_append]
  rfl

-- ---------------------------------------------------------------------------
-- Without some of the nodes
-- ---------------------------------------------------------------------------

/-- The tree without some of its nodes. -/
def without (t : Tree) (ids : List NodeId) : Tree := ids.foldr (fun id t => t.remove id) t

theorem node?_without {ids : List NodeId} {x : NodeId} :
    (t.without ids).node? x = if x ∈ ids then none else t.node? x := by
  induction ids with
  | nil => rfl
  | cons id rest ih =>
    have hcons : t.without (id :: rest) = (t.without rest).remove id := rfl
    rw [hcons, node?_remove, ih]
    by_cases hx : x = id <;> simp [hx]

theorem total_without (f : Node → Nat) {ids : List NodeId} (hn : t.node? id = some n)
    (hid : id ∉ ids) : (t.without (id :: ids)).total f + f n = (t.without ids).total f := by
  have hlive : (t.without ids).node? id = some n := by rw [node?_without, if_neg hid, hn]
  exact total_remove f hlive

theorem total_without_dead (f : Node → Nat) {ids : List NodeId} (hid : t.node? id = none) :
    (t.without (id :: ids)).total f = (t.without ids).total f := by
  refine total_congr f size_remove fun x => ?_
  rw [node?_without, node?_without]
  by_cases hx : x = id
  · simp [hx, hid]
  · simp [hx]

end Tree

end FormatFuzz
