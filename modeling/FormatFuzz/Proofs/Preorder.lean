-- SUMMARY: The walk over a subtree, and the test for being part of one.
import FormatFuzz.Proofs.Elements

/-!
# Preorder

`Tree.preorder` lists a node and everything below it, a node before its children and these in
order. In a well-formed tree it lists what `Tree.contains` finds by climbing.
-/

namespace FormatFuzz.Tree

open Relation (ReflTransGen)

variable {t : Tree} {id x : NodeId} {n : Node}

-- ---------------------------------------------------------------------------
-- The walk
-- ---------------------------------------------------------------------------

/-- A walk over the children, down to a given depth. -/
def walk (t : Tree) : (depth : Nat) → (id : NodeId) → List NodeId
  | 0, _ => []
  | depth + 1, id => id :: ((t.node? id).elim [] (·.children)).flatMap (walk t depth)

/-- A node and everything below it. Children come after their parents in the arena, so that no
walk is deeper than the rest of the arena. -/
def preorder (t : Tree) (id : NodeId) : List NodeId := t.walk (t.nodes.size - id.index) id

private theorem depth_of_child {c : NodeId} {depth : Nat} (hwf : t.WellFormed)
    (hn : t.node? id = some n) (hc : c ∈ n.children) (hdepth : t.nodes.size - id.index ≤ depth + 1) :
    t.nodes.size - c.index ≤ depth := by
  have hlt := (hwf.child hn hc).1
  omega

theorem mem_walk (hwf : t.WellFormed) {depth : Nat} (hn : t.node? id = some n)
    (hdepth : t.nodes.size - id.index ≤ depth) :
    x ∈ t.walk depth id ↔ ReflTransGen t.Lists id x := by
  induction depth generalizing id n with
  | zero =>
    have hlt := lt_size hn
    omega
  | succ depth ih =>
    rw [walk, hn, Option.elim_some, List.mem_cons, List.mem_flatMap]
    have hchild : ∀ c ∈ n.children, (x ∈ t.walk depth c ↔ ReflTransGen t.Lists c x) := by
      intro c hc
      obtain ⟨-, m, hm, -⟩ := hwf.child hn hc
      exact ih hm (depth_of_child hwf hn hc hdepth)
    constructor
    · rintro (hx | ⟨c, hc, hx⟩)
      · exact hx ▸ .refl
      · exact .head ⟨n, hn, hc⟩ ((hchild c hc).mp hx)
    · intro hpath
      rcases hpath.cases_head with hx | ⟨c, ⟨m, hm, hc⟩, hcx⟩
      · exact .inl hx.symm
      · rw [hn] at hm
        cases hm
        exact .inr ⟨c, hc, (hchild c hc).mpr hcx⟩

private theorem walk_eq (hwf : t.WellFormed) {depth depth' : Nat} (hn : t.node? id = some n)
    (hdepth : t.nodes.size - id.index ≤ depth) (hdepth' : t.nodes.size - id.index ≤ depth') :
    t.walk depth id = t.walk depth' id := by
  have hlt := lt_size hn
  induction depth generalizing id n depth' with
  | zero => omega
  | succ depth ih =>
    cases depth' with
    | zero => omega
    | succ depth' =>
      rw [walk, walk, hn, Option.elim_some]
      refine congrArg (id :: ·) (List.flatMap_congr fun c hc => ?_)
      obtain ⟨-, m, hm, -⟩ := hwf.child hn hc
      exact ih hm (depth_of_child hwf hn hc hdepth) (depth_of_child hwf hn hc hdepth') (lt_size hm)

theorem preorder_eq (hwf : t.WellFormed) (hn : t.node? id = some n) :
    t.preorder id = id :: n.children.flatMap t.preorder := by
  have hlt := lt_size hn
  obtain ⟨depth, hdepth⟩ : ∃ depth, t.nodes.size - id.index = depth + 1 :=
    ⟨t.nodes.size - id.index - 1, by omega⟩
  rw [preorder, hdepth, walk, hn, Option.elim_some]
  refine congrArg (id :: ·) (List.flatMap_congr fun c hc => ?_)
  obtain ⟨-, m, hm, -⟩ := hwf.child hn hc
  exact walk_eq hwf hm (depth_of_child hwf hn hc hdepth.le) (Nat.le_refl _)

theorem mem_preorder (hwf : t.WellFormed) (hn : t.node? id = some n) :
    x ∈ t.preorder id ↔ ReflTransGen t.Lists id x :=
  mem_walk hwf hn (Nat.le_refl _)

-- ---------------------------------------------------------------------------
-- Climbing
-- ---------------------------------------------------------------------------

theorem climbsTo_iff (hwf : t.WellFormed) {ancestor : NodeId} {fuel : Nat}
    (hn : t.node? id = some n) (hfuel : id.index ≤ fuel) :
    t.climbsTo ancestor fuel id = true ↔ ReflTransGen t.Lists ancestor id := by
  induction fuel generalizing id n with
  | zero =>
    rw [climbsTo, decide_eq_true_iff]
    constructor
    · intro h
      exact h ▸ .refl
    · intro hpath
      rcases hpath.cases_tail with h | ⟨p, -, m, hm, hc⟩
      · exact h
      · have hlt := (hwf.child hm hc).1
        omega
  | succ fuel ih =>
    rw [climbsTo, hn, Option.bind_some, Bool.or_eq_true, decide_eq_true_iff]
    cases hp : n.parent with
    | none =>
      constructor
      · rintro (h | h)
        · exact h ▸ .refl
        · cases h
      · intro hpath
        rcases hpath.cases_tail with h | ⟨p, -, m, hm, hc⟩
        · exact .inl h
        · have hparent := hwf.parent_of_mem hm hc hn
          rw [hp] at hparent
          cases hparent
    | some p =>
      obtain ⟨hlt, m, hm, -⟩ := hwf.of_parent hn hp
      have hup := ih hm (by omega)
      constructor
      · rintro (h | h)
        · exact h ▸ .refl
        · exact (hup.mp h).tail ⟨m, hm, hwf.mem_children hn hp hm⟩
      · intro hpath
        rcases hpath.cases_tail with h | ⟨q, hq, l, hl, hc⟩
        · exact .inl h
        · have hparent := hwf.parent_of_mem hl hc hn
          rw [hp] at hparent
          cases hparent
          exact .inr (hup.mpr hq)

theorem contains_iff (hwf : t.WellFormed) {ancestor : NodeId} (hn : t.node? id = some n) :
    t.contains ancestor id = true ↔ ReflTransGen t.Lists ancestor id :=
  climbsTo_iff hwf hn (Nat.le_refl _)

/-- Being found by climbing up is being found on the way down. -/
theorem contains_iff_mem_preorder (hwf : t.WellFormed) {ancestor : NodeId} {m : Node}
    (hm : t.node? ancestor = some m) (hn : t.node? id = some n) :
    t.contains ancestor id = true ↔ id ∈ t.preorder ancestor := by
  rw [contains_iff hwf hn, mem_preorder hwf hm]

end FormatFuzz.Tree
