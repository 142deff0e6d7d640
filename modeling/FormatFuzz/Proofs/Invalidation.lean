-- SUMMARY: What a change affects, and what is known of the caches that outlive it.
import FormatFuzz.Proofs.Elements
import FormatFuzz.Proofs.GroupLaws

/-!
# Invalidation

A node affects its parent and all that have read it, and so on from there (`Tree.Affects`). When a
node is invalidated, no cache is left that it affects. So a cache that outlives an operation is
affected by nodes only that the operation has left alone, and is still affected by all of them:
that is what `Tree.Keeps` says.
-/

namespace FormatFuzz

open Relation (ReflTransGen)

namespace Tree

variable {t t' t₁ t₂ : Tree} {id x y : NodeId} {n : Node}

-- ---------------------------------------------------------------------------
-- Affecting
-- ---------------------------------------------------------------------------

/-- The parent of a node, or one that has read it. -/
def Feeds (t : Tree) (x y : NodeId) : Prop := ∃ n, t.node? x = some n ∧ y ∈ n.reaches

/-- A change of `x` may be seen in `y`. -/
def Affects (t : Tree) : NodeId → NodeId → Prop := ReflTransGen t.Feeds

theorem Feeds.of_parent {p : NodeId} (hn : t.node? x = some n) (hp : n.parent = some p) :
    t.Feeds x p :=
  ⟨n, hn, List.mem_append_left _ (by simp [hp])⟩

/-- What affects a live node is live. -/
theorem Affects.live (h : t.Affects x y) (hy : t.node? y = some n) : ∃ m, t.node? x = some m := by
  rcases h.cases_head with hxy | ⟨z, ⟨m, hm, -⟩, -⟩
  · exact ⟨n, hxy ▸ hy⟩
  · exact ⟨m, hm⟩

/-- The same walk, if all nodes on it have kept their edges. -/
theorem Affects.transfer (h : t.Affects x y)
    (hkept : ∀ a b, t.Affects a y → t.Feeds a b → t'.Feeds a b) : t'.Affects x y := by
  induction h using ReflTransGen.head_induction_on with
  | refl => exact .refl
  | head hab hby ih => exact .head (hkept _ _ (.head hab hby) hab) ih

theorem Affects.mono (h : t.Affects x y) (hmono : ∀ a b, t.Feeds a b → t'.Feeds a b) :
    t'.Affects x y :=
  h.transfer fun a b _ => hmono a b

-- ---------------------------------------------------------------------------
-- The walk along edges
-- ---------------------------------------------------------------------------

/-- The edges from what has been seen lead to what has been seen or is pending. Each step either
sees a node, whose edges are then pending, or takes one of the pending away. -/
private theorem reachFrom_closed (fuel : Nat) (pending seen : List NodeId)
    (hfuel : pending.length + (t.without seen).total (·.reaches.length) ≤ fuel)
    (hseen : ∀ a ∈ seen, ∀ b, t.Feeds a b → b ∈ seen ∨ b ∈ pending) :
    (∀ a ∈ pending, a ∈ t.reachFrom fuel pending seen) ∧
      (∀ a ∈ seen, a ∈ t.reachFrom fuel pending seen) ∧
      ∀ a ∈ t.reachFrom fuel pending seen, ∀ b, t.Feeds a b → b ∈ t.reachFrom fuel pending seen := by
  induction fuel generalizing pending seen with
  | zero =>
    cases pending with
    | nil =>
      refine ⟨fun a ha => absurd ha List.not_mem_nil, fun a ha => ha, fun a ha b hab => ?_⟩
      exact (hseen a ha b hab).resolve_right List.not_mem_nil
    | cons id rest => simp at hfuel
  | succ fuel ih =>
    cases pending with
    | nil =>
      refine ⟨fun a ha => absurd ha List.not_mem_nil, fun a ha => ha, fun a ha b hab => ?_⟩
      exact (hseen a ha b hab).resolve_right List.not_mem_nil
    | cons id rest =>
      rw [List.length_cons] at hfuel
      rw [reachFrom]
      split
      · rename_i hid
        obtain ⟨hrest, hkept, hclosed⟩ := ih rest seen (by omega) fun a ha b hab => by
          rcases hseen a ha b hab with hb | hb
          · exact .inl hb
          · rcases List.mem_cons.mp hb with rfl | hb
            · exact .inl hid
            · exact .inr hb
        refine ⟨fun a ha => ?_, hkept, hclosed⟩
        rcases List.mem_cons.mp ha with rfl | ha
        · exact hkept _ hid
        · exact hrest a ha
      · rename_i hid
        cases hn : t.node? id with
        | none =>
          obtain ⟨hrest, hkept, hclosed⟩ := ih rest (id :: seen)
            (by rw [total_without_dead _ hn]; omega) fun a ha b hab => by
              rcases List.mem_cons.mp ha with rfl | ha
              · obtain ⟨m, hm, -⟩ := hab
                rw [hn] at hm
                cases hm
              · rcases hseen a ha b hab with hb | hb
                · exact .inl (List.mem_cons_of_mem _ hb)
                · rcases List.mem_cons.mp hb with rfl | hb
                  · exact .inl List.mem_cons_self
                  · exact .inr hb
          refine ⟨fun a ha => ?_, fun a ha => hkept a (List.mem_cons_of_mem _ ha), hclosed⟩
          rcases List.mem_cons.mp ha with rfl | ha
          · exact hkept _ List.mem_cons_self
          · exact hrest a ha
        | some n =>
          have htotal := total_without (·.reaches.length) hn hid
          obtain ⟨hrest, hkept, hclosed⟩ := ih (n.reaches ++ rest) (id :: seen)
            (by
              rw [List.length_append]
              omega) fun a ha b hab => by
              rcases List.mem_cons.mp ha with rfl | ha
              · obtain ⟨m, hm, hb⟩ := hab
                rw [hn] at hm
                cases hm
                exact .inr (List.mem_append_left _ hb)
              · rcases hseen a ha b hab with hb | hb
                · exact .inl (List.mem_cons_of_mem _ hb)
                · rcases List.mem_cons.mp hb with rfl | hb
                  · exact .inl List.mem_cons_self
                  · exact .inr (List.mem_append_right _ hb)
          refine ⟨fun a ha => ?_, fun a ha => hkept a (List.mem_cons_of_mem _ ha), hclosed⟩
          rcases List.mem_cons.mp ha with rfl | ha
          · exact hkept _ List.mem_cons_self
          · exact hrest a (List.mem_append_right _ ha)

private theorem reach_spec (t : Tree) (id : NodeId) :
    id ∈ t.reach id ∧ ∀ a ∈ t.reach id, ∀ b, t.Feeds a b → b ∈ t.reach id := by
  obtain ⟨hpending, -, hclosed⟩ := reachFrom_closed (t := t) t.reachLimit [id] []
    (by rw [List.length_singleton, Nat.add_comm]; exact Nat.le_refl _)
    fun a ha => absurd ha List.not_mem_nil
  exact ⟨hpending id List.mem_cons_self, hclosed⟩

theorem reach_closed (hx : x ∈ t.reach id) (h : t.Affects x y) : y ∈ t.reach id := by
  induction h with
  | refl => exact hx
  | tail _ hstep ih => exact (reach_spec t id).2 _ ih _ hstep

/-- Invalidation comes to everything that a change affects. -/
theorem mem_reach (h : t.Affects id x) : x ∈ t.reach id :=
  reach_closed (reach_spec t id).1 h

/-- The walk does not leave what it has started from affects. -/
private theorem reachFrom_affected (fuel : Nat) (pending seen : List NodeId)
    (hpending : ∀ a ∈ pending, t.Affects id a) (hseen : ∀ a ∈ seen, t.Affects id a) :
    ∀ a ∈ t.reachFrom fuel pending seen, t.Affects id a := by
  induction fuel generalizing pending seen with
  | zero => exact hseen
  | succ fuel ih =>
    cases pending with
    | nil => exact hseen
    | cons b rest =>
      obtain ⟨hb, hrest⟩ := List.forall_mem_cons.mp hpending
      have hseen' : ∀ a ∈ b :: seen, t.Affects id a := List.forall_mem_cons.mpr ⟨hb, hseen⟩
      rw [reachFrom]
      split
      · exact ih rest seen hrest hseen
      · split
        · rename_i n hn
          refine ih (n.reaches ++ rest) (b :: seen) (fun a ha => ?_) hseen'
          rcases List.mem_append.mp ha with ha | ha
          · exact hb.tail ⟨n, hn, ha⟩
          · exact hrest a ha
        · exact ih rest (b :: seen) hrest hseen'

/-- Invalidation comes to nothing else. -/
theorem mem_reach_iff : x ∈ t.reach id ↔ t.Affects id x := by
  refine ⟨fun hx => ?_, mem_reach⟩
  exact reachFrom_affected t.reachLimit [id] [] (by simp [Affects, ReflTransGen.refl])
    (fun a ha => absurd ha List.not_mem_nil) x hx

/-- A cache that outlives an invalidation is out of its reach, and so is what affects it. -/
theorem cached_invalidate {n' : Node} {b : Bytes} (hn' : (t.invalidate id).node? x = some n')
    (hb : n'.cache = some b) :
    t.node? x = some n' ∧ ∀ {y}, t.Affects y x → y ≠ id ∧ (t.invalidate id).node? y = t.node? y := by
  have hx : x ∉ t.reach id := by
    intro hx
    rw [node?_invalidate, if_pos hx] at hn'
    obtain ⟨n, -, rfl⟩ := Option.map_eq_some_iff.mp hn'
    cases hb
  rw [node?_invalidate, if_neg hx] at hn'
  refine ⟨hn', fun {y} hy => ?_⟩
  have hyr : y ∉ t.reach id := fun hyr => hx (reach_closed hyr hy)
  refine ⟨fun he => hyr (he ▸ mem_reach .refl), ?_⟩
  rw [node?_invalidate, if_neg hyr]

-- ---------------------------------------------------------------------------
-- Caches that outlive a change
-- ---------------------------------------------------------------------------

/-- Every cache that is there afterwards was there before. What affected it is still there and
still affects it, and has kept its cell and its children unless `D` says otherwise. -/
structure Keeps (D : NodeId → Prop) (t t' : Tree) : Prop where
  cached : ∀ {x n' b}, t'.node? x = some n' → n'.cache = some b →
    (∃ n, t.node? x = some n ∧ n.cache = some b) ∧
      ∀ {y}, t.Affects y x → t'.Affects y x ∧
        ∃ m m', t.node? y = some m ∧ t'.node? y = some m' ∧
          (¬ D y → m'.cell = m.cell ∧ m'.children = m.children)

namespace Keeps

variable {D D' : NodeId → Prop}

theorem refl (D : NodeId → Prop) (t : Tree) : Keeps D t t := by
  refine ⟨fun {x n b} hn hb => ?_⟩
  refine ⟨⟨n, hn, hb⟩, fun {y} hy => ⟨hy, ?_⟩⟩
  obtain ⟨m, hm⟩ := hy.live hn
  exact ⟨m, m, hm, hm, fun _ => ⟨rfl, rfl⟩⟩

theorem mono (h : Keeps D t t') (hD : ∀ y, D y → D' y) : Keeps D' t t' := by
  refine ⟨fun {x n' b} hn' hb => ?_⟩
  obtain ⟨hcache, haffects⟩ := h.cached hn' hb
  refine ⟨hcache, fun {y} hy => ?_⟩
  obtain ⟨hy', m, m', hm, hm', hsame⟩ := haffects hy
  exact ⟨hy', m, m', hm, hm', fun hnot => hsame fun hDy => hnot (hD y hDy)⟩

theorem trans (h : Keeps D t t₁) (h' : Keeps D t₁ t₂) : Keeps D t t₂ := by
  refine ⟨fun {x n₂ b} hn₂ hb => ?_⟩
  obtain ⟨⟨n₁, hn₁, hb₁⟩, haffects'⟩ := h'.cached hn₂ hb
  obtain ⟨hcache, haffects⟩ := h.cached hn₁ hb₁
  refine ⟨hcache, fun {y} hy => ?_⟩
  obtain ⟨hy₁, m, m₁, hm, hm₁, hsame⟩ := haffects hy
  obtain ⟨hy₂, m₁', m₂, hm₁', hm₂, hsame'⟩ := haffects' hy₁
  rw [hm₁] at hm₁'
  cases hm₁'
  refine ⟨hy₂, m, m₂, hm, hm₂, fun hnot => ?_⟩
  obtain ⟨hcell, hchildren⟩ := hsame hnot
  obtain ⟨hcell', hchildren'⟩ := hsame' hnot
  exact ⟨hcell'.trans hcell, hchildren'.trans hchildren⟩

instance : IsPreorder Tree (Keeps D) where
  refl := refl D
  trans _ _ _ := trans

/-- What a cache needs of each node that affects it. -/
theorem of_nodes (hcache : ∀ {x n' b}, t'.node? x = some n' → n'.cache = some b →
      ∃ n, t.node? x = some n ∧ n.cache = some b)
    (hkept : ∀ {x n' b y m}, t'.node? x = some n' → n'.cache = some b → t.Affects y x →
      t.node? y = some m → ∃ m', t'.node? y = some m' ∧ m'.reaches = m.reaches ∧
        (¬ D y → m'.cell = m.cell ∧ m'.children = m.children)) :
    Keeps D t t' := by
  refine ⟨fun {x n' b} hn' hb => ?_⟩
  obtain ⟨n, hn, hb'⟩ := hcache hn' hb
  refine ⟨⟨n, hn, hb'⟩, fun {y} hy => ⟨hy.transfer fun a c ha hac => ?_, ?_⟩⟩
  · obtain ⟨m, hm, hc⟩ := hac
    obtain ⟨m', hm', hreaches, -⟩ := hkept hn' hb ha hm
    exact ⟨m', hm', hreaches ▸ hc⟩
  · obtain ⟨m, hm⟩ := hy.live hn
    obtain ⟨m', hm', -, hsame⟩ := hkept hn' hb hy hm
    exact ⟨m, m', hm, hm', hsame⟩

/-- A change of one node that leaves its cache and its edges alone. -/
theorem of_modify {f : Node → Node} (hf : ∀ n, (f n).cache = n.cache ∧ (f n).reaches = n.reaches)
    (hD : ∀ n, ¬ D id → (f n).cell = n.cell ∧ (f n).children = n.children) :
    Keeps D t (t.modify id f) := by
  refine of_nodes (fun {x n' b} hn' hb => ?_) fun {x n' b y m} _ _ _ hm => ?_
  · rw [node?_modify] at hn'
    split at hn'
    · rename_i hx
      obtain ⟨n, hn, rfl⟩ := Option.map_eq_some_iff.mp hn'
      exact ⟨n, hx ▸ hn, (hf n).1 ▸ hb⟩
    · exact ⟨n', hn', hb⟩
  · rw [node?_modify]
    split
    · rename_i hy
      rw [← hy, hm]
      exact ⟨f m, rfl, (hf m).2, hy ▸ hD m⟩
    · exact ⟨m, hm, rfl, fun _ => ⟨rfl, rfl⟩⟩

theorem of_modifyGroup (f : Group → Group) : Keeps D t (t.modifyGroup id f) := by
  refine of_modify (fun n => ?_) fun n _ => ?_
  · cases hk : n.kind <;> exact ⟨rfl, rfl⟩
  · cases hk : n.kind <;> exact ⟨rfl, rfl⟩

/-- After an invalidation no cache is left that the node affects, so that it may be counted out. -/
theorem invalidate (h : Keeps D t t') :
    Keeps (fun y => D y ∧ y ≠ id) t (t'.invalidate id) := by
  refine ⟨fun {x n₂ b} hn₂ hb => ?_⟩
  obtain ⟨hn₁, hout⟩ := cached_invalidate hn₂ hb
  obtain ⟨hcache, haffects⟩ := h.cached hn₁ hb
  refine ⟨hcache, fun {y} hy => ?_⟩
  obtain ⟨hy₁, m, m₁, hm, hm₁, hsame⟩ := haffects hy
  obtain ⟨hne, hsame₁⟩ := hout hy₁
  refine ⟨hy₁.transfer fun a c ha hac => ?_, m, m₁, hm, hsame₁.trans hm₁, fun hnot => ?_⟩
  · obtain ⟨l, hl, hc⟩ := hac
    exact ⟨l, (hout ha).2.trans hl, hc⟩
  · exact hsame fun hDy => hnot ⟨hDy, hne⟩

/-- Whatever else happens to a node that has been invalidated, no cache sees it. -/
theorem of_invalidated {t' : Tree} (hother : ∀ {y}, y ≠ id → t'.node? y = (t.invalidate id).node? y)
    (hself : ∀ n, t'.node? id = some n → n.cache = none) : Keeps D t t' := by
  have hcached : ∀ {x n' b}, t'.node? x = some n' → n'.cache = some b →
      (t.invalidate id).node? x = some n' := by
    intro x n' b hn' hb
    have hx : x ≠ id := by
      intro hx
      rw [hself n' (hx ▸ hn')] at hb
      cases hb
    rw [← hother hx, hn']
  refine of_nodes (fun {x n' b} hn' hb => ?_) fun {x n' b y m} hn' hb hy hm => ?_
  · exact ⟨n', (cached_invalidate (hcached hn' hb) hb).1, hb⟩
  · obtain ⟨hne, hsame⟩ := (cached_invalidate (hcached hn' hb) hb).2 hy
    exact ⟨m, (hother hne).trans (hsame.trans hm), rfl, fun _ => ⟨rfl, rfl⟩⟩

theorem of_setCell {cell : Cell} : Keeps D t ((t.invalidate id).putCell id cell) := by
  refine of_invalidated (fun {y} hy => node?_modify_ne _ hy) fun n hn => ?_
  rw [putCell, node?_modify_self, node?_invalidate, if_pos (mem_reach .refl)] at hn
  obtain ⟨m, hm, rfl⟩ := Option.map_eq_some_iff.mp hn
  obtain ⟨l, -, rfl⟩ := Option.map_eq_some_iff.mp hm
  rfl

theorem of_removed : Keeps D t ((t.invalidate id).remove id) := by
  have hother : ∀ {y}, y ≠ id →
      ((t.invalidate id).remove id).node? y = (t.invalidate id).node? y := by
    intro y hy
    rw [node?_remove, if_neg hy]
  refine of_invalidated hother fun n hn => ?_
  rw [node?_remove, if_pos rfl] at hn
  cases hn

theorem of_invalidate : Keeps D t (t.invalidate id) :=
  (refl D t).invalidate.mono fun _ hy => hy.1

theorem of_discard : Keeps D t (t.discard id) := by
  suffices hfrom : ∀ fuel pending t, Keeps D t (discardFrom fuel pending t) from hfrom _ _ t
  intro fuel
  induction fuel with
  | zero =>
    intro pending t
    exact refl D t
  | succ fuel ih =>
    intro pending t
    cases pending with
    | nil => exact refl D t
    | cons id rest =>
      rw [discardFrom]
      split
      · exact of_removed.trans (ih _ _)
      · exact of_invalidate.trans (ih _ _)

/-- New nodes have no caches and have read nothing. -/
theorem of_sprouts {parent : Option NodeId} {roots : List NodeId}
    (h : t.Sprouts t' parent roots) : Keeps D t t' := by
  refine of_nodes (fun {x n' b} hn' hb => ?_) fun {x n' b y m} _ _ _ hm => ?_
  · rcases Nat.lt_or_ge x.index t.nodes.size with hlt | hge
    · exact ⟨n', h.old hlt ▸ hn', hb⟩
    · rw [(h.fresh hge hn').new.cache] at hb
      cases hb
  · exact ⟨m, h.node? hm, rfl, fun _ => ⟨rfl, rfl⟩⟩

end Keeps

-- ---------------------------------------------------------------------------
-- Operations
-- ---------------------------------------------------------------------------

open TreeM

theorem makeElements_keeps (D : NodeId → Prop) (element : Template) (name : String) (id : NodeId)
    (count index : Nat) :
    Preserves (Keeps D) (Keeps D) (makeElements element name id count index) := by
  intro t
  refine (makeElements_spec (C := fun _ => True) (fun _ => trivial) element name id count index
    t).mono ?_
  rintro _ t' ⟨elements, rfl, -, h, -⟩
  exact Keeps.of_sprouts h

/-- Replacing the elements of a group changes no other node that a remaining cache has seen. -/
theorem swapElements_keeps (id : NodeId) (element : Template) (old : List NodeId) (count : Nat) :
    Preserves (Keeps (· = id)) (Keeps (· = id)) (swapElements id element old count) := by
  refine .bind (.modify fun t => ?_) fun _ => .bind (.forIn fun child _ => ?_) fun _ =>
    .bind .look fun name => .bind (makeElements_keeps _ element name id count 0) fun elements =>
      .bind (.update fun t t' h => ?_) fun _ => .pure
  · exact .of_modify (fun _ => ⟨rfl, rfl⟩) fun _ hne => absurd rfl hne
  · exact .bind (.modify fun t => .of_discard) fun _ => .pure
  · cases hn : t.node id with
    | error e =>
      rw [hn] at h
      cases h
    | ok n =>
      rw [hn] at h
      cases h
      exact .of_modify (fun _ => ⟨rfl, rfl⟩) fun _ hne => absurd rfl hne

theorem groupLaws_keeps :
    GroupLaws (Keeps fun _ => False) (fun id => Keeps (· = id)) (fun _ _ => True) where
  phase t id phase := .of_modifyGroup _
  watch t id watcher := .of_modifyGroup _
  stale t id := .trans (.of_modifyGroup _) .of_invalidate
  link s t id source index field _ h := by
    have hput : Keeps (· = id) t (t.putCell id (.bound (.element source index field))) :=
      .of_modify (fun _ => ⟨rfl, rfl⟩) fun _ hne => absurd rfl hne
    exact h.trans (hput.invalidate.mono fun _ hy => hy.2 hy.1)
  swap t id n g count _ _ := by
    refine (swapElements_keeps id g.element n.children count t).mono fun r t' h => ?_
    cases r with
    | error e => trivial
    | ok elements => exact h
  swapped h h' := h.trans (h'.mono fun _ => False.elim)
  settle h := h.invalidate.mono fun _ hy => hy.2 hy.1
  spoil _ _ := trivial

end Tree

end FormatFuzz
