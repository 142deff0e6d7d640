-- SUMMARY: An invalidation clears exactly what a change affects, in whatever order the edges are followed.
import FormatFuzz.Proofs.Invalidation
import FormatFuzz.Proofs.Outlines
import Mathlib.Order.Bounds.Defs

/-!
# Sweeps

`Tree.invalidate` collects what a change reaches before it clears it. A sweep clears each node as it comes to
it, so that the edges which it has followed are gone, and goes on with whichever pending node it likes. Every
sweep comes to an end, and all end in the tree after the invalidation. What has been cleared then is the least
set that holds the changed node and is closed under the edges there were (`Tree.invalidate_exact`).
-/

namespace FormatFuzz

open Relation (ReflTransGen)

namespace Tree

variable {t t' : Tree} {id x y : NodeId} {n : Node}

@[simp] theorem size_without {ids : List NodeId} : (t.without ids).nodes.size = t.nodes.size := by
  induction ids with
  | nil => rfl
  | cons id rest ih =>
    have hcons : t.without (id :: rest) = (t.without rest).remove id := rfl
    rw [hcons, size_remove, ih]

theorem ext_node? (hsize : t'.nodes.size = t.nodes.size) (hnode : ∀ x, t'.node? x = t.node? x)
    (hrest : { t' with nodes := t.nodes } = t) : t' = t := by
  have hnodes : t'.nodes = t.nodes := by
    simpa using map_nodes_eq (f := id) hsize fun x => congrArg (Option.map id) (hnode x)
  rw [← hrest, ← hnodes]

/-- An invalidation changes nothing but nodes. -/
theorem rest_invalidate (t : Tree) (id : NodeId) : { t.invalidate id with nodes := t.nodes } = t := by
  dsimp only
  rw [root_invalidate, seed_invalidate, counters_invalidate, resolving_invalidate]

-- ---------------------------------------------------------------------------
-- Steps
-- ---------------------------------------------------------------------------

/-- A sweep under way: where it has to go, where it has been, and what it has made of the tree. -/
structure Sweep where
  pending : List NodeId
  seen : List NodeId
  tree : Tree

namespace Sweep

variable {s s' : Sweep}

/-- A sweep that starts at a node. -/
def start (t : Tree) (id : NodeId) : Sweep := ⟨[id], [], t⟩

/-- The sweep goes to one of the pending nodes. If it has not been there and the node is live, the node is
cleared, and its edges lead to further ones. -/
inductive Step (s : Sweep) : Sweep → Prop
  | again {id rest} : s.pending.Perm (id :: rest) → id ∈ s.seen → Step s { s with pending := rest }
  | dead {id rest} : s.pending.Perm (id :: rest) → id ∉ s.seen → s.tree.node? id = none →
      Step s { s with pending := rest, seen := id :: s.seen }
  | live {id rest n} : s.pending.Perm (id :: rest) → id ∉ s.seen → s.tree.node? id = some n →
      Step s ⟨n.reaches ++ rest, id :: s.seen, s.tree.modify id Node.bare⟩

/-- The nodes that are pending and the edges that have not been followed. -/
def size (s : Sweep) : Nat := s.pending.length + (s.tree.without s.seen).total (·.reaches.length)

theorem Step.size_lt (h : s.Step s') : s'.size < s.size := by
  cases h with
  | again hpending _ =>
    have hlength := hpending.length_eq
    rw [List.length_cons] at hlength
    unfold size
    dsimp only
    omega
  | dead hpending _ hdead =>
    have hlength := hpending.length_eq
    rw [List.length_cons] at hlength
    unfold size
    dsimp only
    rw [total_without_dead _ hdead]
    omega
  | @live id rest n hpending hnew hn =>
    have hlength := hpending.length_eq
    rw [List.length_cons] at hlength
    have htotal := total_without (·.reaches.length) hn hnew
    -- The node is left out of the count, so it does not matter that it has been cleared.
    have hcleared : ((s.tree.modify id Node.bare).without (id :: s.seen)).total (·.reaches.length) =
        (s.tree.without (id :: s.seen)).total (·.reaches.length) := by
      refine total_congr _ (by simp) fun x => ?_
      rw [node?_without, node?_without]
      split
      · rfl
      · rename_i hx
        have hne : x ≠ id := fun he => hx (List.mem_cons.mpr (.inl he))
        rw [node?_modify_ne _ hne]
    unfold size
    dsimp only
    rw [hcleared, List.length_append]
    omega

/-- No sweep goes on for ever. -/
theorem wellFounded_step : WellFounded fun s' s : Sweep => s.Step s' :=
  Subrelation.wf Step.size_lt (measure size).wf

/-- Going to a pending node takes it from what is pending to what has been seen. -/
theorem mem_visit {rest : List NodeId} (h : s.pending.Perm (id :: rest)) :
    y ∈ s.seen ∨ y ∈ s.pending ↔ y ∈ id :: s.seen ∨ y ∈ rest := by
  rw [h.mem_iff, List.mem_cons, List.mem_cons, or_left_comm, or_assoc]

/-- A sweep can go on until nothing is pending. -/
theorem exists_step (h : s.pending ≠ []) : ∃ s', s.Step s' := by
  obtain ⟨id, rest, hpending⟩ := List.exists_cons_of_ne_nil h
  have hperm : s.pending.Perm (id :: rest) := .of_eq hpending
  by_cases hseen : id ∈ s.seen
  · exact ⟨_, .again hperm hseen⟩
  · cases hn : s.tree.node? id with
    | none => exact ⟨_, .dead hperm hseen hn⟩
    | some n => exact ⟨_, .live hperm hseen hn⟩

-- ---------------------------------------------------------------------------
-- Runs
-- ---------------------------------------------------------------------------

/-- What has been seen is cleared, and there is no way out of it but through what is pending. -/
structure Covers (t : Tree) (id : NodeId) (s : Sweep) : Prop where
  node? : ∀ x, s.tree.node? x = if x ∈ s.seen then (t.node? x).map Node.bare else t.node? x
  size : s.tree.nodes.size = t.nodes.size
  rest : { s.tree with nodes := t.nodes } = t
  begun : id ∈ s.seen ∨ id ∈ s.pending
  affected : ∀ x, x ∈ s.seen ∨ x ∈ s.pending → t.Affects id x
  closed : ∀ x ∈ s.seen, ∀ y, t.Feeds x y → y ∈ s.seen ∨ y ∈ s.pending

theorem covers_start (t : Tree) (id : NodeId) : Covers t id (start t id) where
  node? _ := by simp [Sweep.start]
  size := rfl
  rest := rfl
  begun := .inr List.mem_cons_self
  affected x hx := by
    obtain rfl : x = id := by simpa [Sweep.start] using hx
    exact .refl
  closed _ hx := absurd hx List.not_mem_nil

theorem Covers.step (h : Covers t id s) (hstep : s.Step s') : Covers t id s' := by
  cases hstep with
  | @again a rest hpending ha =>
    have hcases : ∀ {y}, y ∈ s.seen ∨ y ∈ s.pending ↔ y ∈ s.seen ∨ y ∈ rest := by
      intro y
      have hold : y ∈ a :: s.seen ↔ y ∈ s.seen :=
        List.mem_cons.trans (or_iff_right_of_imp fun he => he ▸ ha)
      rw [mem_visit hpending, hold]
    exact { h with
      begun := hcases.mp h.begun
      affected := fun x hx => h.affected x (hcases.mpr hx)
      closed := fun x hx y hy => hcases.mp (h.closed x hx y hy) }
  | @dead a rest hpending ha hdead =>
    have hdead' : t.node? a = none := by rw [← hdead, h.node?, if_neg ha]
    refine { h with
      node? := fun x => ?_
      begun := (mem_visit hpending).mp h.begun
      affected := fun x hx => h.affected x ((mem_visit hpending).mpr hx)
      closed := fun x hx y hy => ?_ }
    · rw [h.node? x]
      by_cases hx : x = a
      · simp [hx, hdead']
      · simp [hx]
    · rcases List.mem_cons.mp hx with rfl | hx
      · obtain ⟨m, hm, -⟩ := hy
        rw [hdead'] at hm
        cases hm
      · exact (mem_visit hpending).mp (h.closed x hx y hy)
  | @live a rest n hpending ha hn =>
    -- The node has not been cleared before, so the edges that are followed are those there were.
    have hn' : t.node? a = some n := by rw [← hn, h.node?, if_neg ha]
    have hsource : t.Affects id a := h.affected a ((mem_visit hpending).mpr (.inl List.mem_cons_self))
    refine ⟨fun x => ?_, (size_modify _).trans h.size, h.rest, ?_, fun x hx => ?_, fun x hx y hy => ?_⟩
    · rw [node?_modify]
      by_cases hx : x = a
      · simp [hx, hn, hn']
      · simp [hx, h.node? x]
    · exact ((mem_visit hpending).mp h.begun).imp_right (List.mem_append_right _)
    · rw [List.mem_append] at hx
      rcases hx with hx | hx | hx
      · exact h.affected x ((mem_visit hpending).mpr (.inl hx))
      · exact hsource.tail ⟨n, hn', hx⟩
      · exact h.affected x ((mem_visit hpending).mpr (.inr hx))
    · rcases List.mem_cons.mp hx with rfl | hx
      · obtain ⟨m, hm, hy⟩ := hy
        rw [hn'] at hm
        cases hm
        exact .inr (List.mem_append_left _ hy)
      · exact ((mem_visit hpending).mp (h.closed x hx y hy)).imp_right (List.mem_append_right _)

theorem Covers.run (h : ReflTransGen Step (start t id) s) : Covers t id s := by
  induction h with
  | refl => exact covers_start t id
  | tail _ hstep ih => exact ih.step hstep

/-- When nothing is pending, all that the node affects has been seen. -/
theorem Covers.mem_seen (h : Covers t id s) (hdone : s.pending = []) : x ∈ s.seen ↔ t.Affects id x := by
  have hnone : ∀ y, y ∉ s.pending := fun y hy => List.not_mem_nil (hdone ▸ hy)
  refine ⟨fun hx => h.affected x (.inl hx), fun hx => ?_⟩
  induction hx with
  | refl => exact h.begun.resolve_right (hnone id)
  | tail _ hfeeds ih => exact (h.closed _ ih _ hfeeds).resolve_right (hnone _)

theorem Covers.tree_eq (h : Covers t id s) (hdone : s.pending = []) : s.tree = t.invalidate id := by
  refine ext_node? (h.size.trans size_invalidate.symm) (fun x => ?_) ?_
  · have hx : x ∈ s.seen ↔ x ∈ t.reach id := (h.mem_seen hdone).trans mem_reach_iff.symm
    rw [h.node?, node?_invalidate]
    simp only [hx]
  · have hrest := h.rest.trans (rest_invalidate t id).symm
    exact congrArg ({ · with nodes := (t.invalidate id).nodes }) hrest

end Sweep

-- ---------------------------------------------------------------------------
-- Exactness
-- ---------------------------------------------------------------------------

/-- The set holds the node, the parents of the live nodes in it and their dependents. -/
structure Encloses (t : Tree) (id : NodeId) (S : Set NodeId) : Prop where
  start : id ∈ S
  parent : ∀ {x n p}, x ∈ S → t.node? x = some n → n.parent = some p → p ∈ S
  dependents : ∀ {x n y}, x ∈ S → t.node? x = some n → y ∈ n.dependents → y ∈ S

theorem isLeast_affects (t : Tree) (id : NodeId) : IsLeast {S | t.Encloses id S} {x | t.Affects id x} := by
  refine ⟨⟨.refl, fun hx hn hp => hx.tail (.of_parent hn hp), fun hx hn hy => ?_⟩, fun S hS x hx => ?_⟩
  · exact hx.tail ⟨_, hn, List.mem_append_right _ hy⟩
  · induction hx with
    | refl => exact hS.start
    | tail _ hfeeds ih =>
      obtain ⟨n, hn, hy⟩ := hfeeds
      rcases List.mem_append.mp hy with hy | hy
      · exact hS.parent ih hn (Option.mem_toList.mp hy)
      · exact hS.dependents ih hn hy

/-- Whatever the links between the nodes of a tree: an invalidation that clears each node as it comes to it
ends, whichever of the pending nodes it goes to next, in one and the same tree. There, exactly the nodes of the
least set that holds the given one and is closed under the links there were have lost their caches and their
dependents, and nothing else has changed. -/
theorem invalidate_exact (t : Tree) (id : NodeId) :
    Acc (fun s' s : Sweep => s.Step s') (.start t id) ∧
    (∀ s, ReflTransGen Sweep.Step (.start t id) s → (∀ s', ¬ s.Step s') → s.tree = t.invalidate id) ∧
    ∃ R, IsLeast {S | t.Encloses id S} R ∧
      (∀ x ∈ R, (t.invalidate id).node? x = (t.node? x).map ({ · with cache := none, dependents := [] })) ∧
      (∀ x ∉ R, (t.invalidate id).node? x = t.node? x) ∧
      (t.invalidate id).nodes.size = t.nodes.size ∧ { t.invalidate id with nodes := t.nodes } = t := by
  refine ⟨Sweep.wellFounded_step.apply _, fun s hrun hend => ?_, {x | t.Affects id x}, isLeast_affects t id,
    fun x hx => ?_, fun x hx => ?_, size_invalidate, ?_⟩
  · have hdone : s.pending = [] := by
      by_contra hpending
      obtain ⟨s', hstep⟩ := Sweep.exists_step hpending
      exact hend s' hstep
    exact (Sweep.Covers.run hrun).tree_eq hdone
  · rw [node?_invalidate, if_pos (mem_reach_iff.mpr hx)]
    rfl
  · rw [node?_invalidate, if_neg fun hreach => hx (mem_reach_iff.mp hreach)]
  · exact rest_invalidate t id

end Tree

end FormatFuzz
