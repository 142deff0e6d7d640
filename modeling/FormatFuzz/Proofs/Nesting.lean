-- SUMMARY: Resolution ends in a tree whose groups are ready, and the stack never holds a node twice.
import Mathlib.Data.List.ReduceOption
import FormatFuzz.Proofs.Fillings
import FormatFuzz.Proofs.Guards
import FormatFuzz.Proofs.Resolution

/-!
# Nesting

Cells lead anywhere in the tree, so that questions can nest in circles. What ends them is the stack: a
node is put on it before its cell is looked at, and there are only so many nodes. Between two nodes that
are put on the stack, questions lead down the tree, which is where they end otherwise.

A resolver with too little depth does not answer at all. `Resolver.watched` hands such questions over
to a `trap`, and those that are asked while the stack is out of order too. With the depth that questions
are asked with, or more, no question ever gets there (`Tree.Reaches.resolution_ends`).
-/

namespace FormatFuzz

open TreeM

open FormatFuzz.Tree (Rests Calms)

-- ---------------------------------------------------------------------------
-- The stack
-- ---------------------------------------------------------------------------

namespace Tree

variable {t t' : Tree} {id c : NodeId} {n : Node}

/-- No node is on the stack twice, all nodes on it are live, and so it is no deeper than there are live
nodes. -/
structure Orderly (t : Tree) : Prop where
  nodup : t.resolving.Nodup
  live : ∀ id ∈ t.resolving, t.isLive id = true
  depth : t.resolving.length ≤ t.liveNodes.length

instance (t : Tree) : Decidable t.Orderly :=
  decidable_of_iff (t.resolving.Nodup ∧ (∀ id ∈ t.resolving, t.isLive id = true) ∧
    t.resolving.length ≤ t.liveNodes.length)
    ⟨fun ⟨hnodup, hlive, hdepth⟩ => ⟨hnodup, hlive, hdepth⟩, fun h => ⟨h.nodup, h.live, h.depth⟩⟩

theorem total_one (t : Tree) : t.total (fun _ => 1) = t.liveNodes.length := by
  unfold total
  induction t.liveNodes with
  | nil => rfl
  | cons n rest ih => rw [List.foldr_cons, ih, List.length_cons, Nat.add_comm]

theorem length_liveNodes_le_weight (t : Tree) : t.liveNodes.length ≤ t.weight := by
  unfold weight total
  induction t.liveNodes with
  | nil => exact Nat.le_refl 0
  | cons n rest ih =>
    have hn := n.one_le_weight
    rw [List.length_cons, List.foldr_cons]
    omega

/-- Live nodes without repetition are no more than all live nodes. -/
theorem length_le_of_nodup {ids : List NodeId} (hnodup : ids.Nodup)
    (hlive : ∀ id ∈ ids, t.isLive id = true) : ids.length ≤ t.liveNodes.length := by
  suffices hcount : (t.without ids).total (fun _ => 1) + ids.length = t.total fun _ => 1 by
    rw [← total_one, ← hcount]
    exact Nat.le_add_left _ _
  induction ids with
  | nil => rfl
  | cons id rest ih =>
    obtain ⟨hid, hrest⟩ := List.nodup_cons.mp hnodup
    obtain ⟨n, hn⟩ := isLive_iff_node?.mp (hlive id List.mem_cons_self)
    have hwithout := total_without (fun _ => 1) hn hid
    have hih := ih hrest fun x hx => hlive x (List.mem_cons_of_mem _ hx)
    rw [List.length_cons]
    omega

/-- A live node that is not on the stack may be put on it. -/
theorem Orderly.push (h : t.Orderly) (hlive : t.isLive id = true) (hid : id ∉ t.resolving) :
    Orderly { t with resolving := id :: t.resolving } := by
  have hnodup : (id :: t.resolving).Nodup := List.nodup_cons.mpr ⟨hid, h.nodup⟩
  have hall : ∀ x ∈ id :: t.resolving, t.isLive x = true := by
    intro x hx
    rcases List.mem_cons.mp hx with rfl | hx
    · exact hlive
    · exact h.live x hx
  exact ⟨hnodup, hall, length_le_of_nodup (t := t) hnodup hall⟩

theorem Rests.isLive_eq (h : t.Rests t') (id : NodeId) : t'.isLive id = t.isLive id :=
  eq_of_outline (f := (·.isLive id)) (fun _ => isLive_outline) h.outline

theorem Orderly.of_rests (h : t.Orderly) (hrests : t.Rests t') : t'.Orderly := by
  have hnodup : t'.resolving.Nodup := hrests.resolving ▸ h.nodup
  have hlive : ∀ id ∈ t'.resolving, t'.isLive id = true := by
    intro id hid
    rw [hrests.isLive_eq]
    exact h.live id (hrests.resolving ▸ hid)
  exact ⟨hnodup, hlive, length_le_of_nodup hnodup hlive⟩

-- ---------------------------------------------------------------------------
-- Nodes further on
-- ---------------------------------------------------------------------------

/-- The number of live nodes from a place on. -/
def behind (t : Tree) (place : Nat) : Nat := (t.nodes.toList.drop place).reduceOption.length

theorem behind_le_of_le {i j : Nat} (h : i ≤ j) : t.behind j ≤ t.behind i :=
  ((List.drop_sublist_drop_left _ h).filterMap _).length_le

theorem behind_le (t : Tree) (place : Nat) : t.behind place ≤ t.liveNodes.length :=
  ((List.drop_sublist place _).filterMap _).length_le

/-- There is less from a child on than from its parent on. -/
theorem behind_lt_of_child (hwf : t.WellFormed) (hn : t.node? id = some n) (hc : c ∈ n.children) :
    t.behind c.index < t.behind id.index := by
  have hlt := lt_size hn
  have hnext : t.behind (id.index + 1) < t.behind id.index := by
    unfold node? at hn
    rw [Array.getElem?_eq_getElem hlt, Option.join_some] at hn
    have hlt' : id.index < t.nodes.toList.length := by simpa using hlt
    unfold behind
    rw [List.drop_eq_getElem_cons hlt', Array.getElem_toList, hn, List.reduceOption_cons_of_some,
      List.length_cons]
    exact Nat.lt_succ_self _
  exact (behind_le_of_le (hwf.child hn hc).1).trans_lt hnext

end Tree

-- ---------------------------------------------------------------------------
-- Operations that do the same
-- ---------------------------------------------------------------------------

/-- The two operations do the same on trees that differ from the given one in caches and readers at most,
and leave such trees. -/
def Coincides (t₀ : Tree) {α : Type} (act act' : TreeM α) : Prop :=
  ∀ t, t₀.Rests t →
    wp act (fun r t' => wp act' (fun r' t'' => r' = r ∧ t'' = t') t ∧ t₀.Rests t') t

namespace Coincides

variable {t₀ : Tree} {α β : Type} {act act' : TreeM α} {f f' : α → TreeM β} {id : NodeId}

theorem of_calms (hs : t₀.Settled) (h : Preserves Calms Calms act) : Coincides t₀ act act :=
  fun t ht => ⟨⟨rfl, rfl⟩, ht.trans (h.run t (ht.settled hs))⟩

theorem bind (hact : Coincides t₀ act act') (hf : ∀ a, Coincides t₀ (f a) (f' a)) :
    Coincides t₀ (act >>= f) (act' >>= f') := by
  intro t ht
  rw [wp.bind]
  refine (hact t ht).mono fun r t₁ ⟨hsame, ht₁⟩ => ?_
  cases r with
  | error e =>
    refine ⟨?_, ht₁⟩
    rw [wp.bind]
    refine hsame.mono ?_
    rintro _ _ ⟨rfl, rfl⟩
    exact ⟨rfl, rfl⟩
  | ok a =>
    refine (hf a t₁ ht₁).mono fun r t₂ ⟨hsame₂, ht₂⟩ => ⟨?_, ht₂⟩
    rw [wp.bind]
    refine hsame.mono ?_
    rintro _ _ ⟨rfl, rfl⟩
    exact hsame₂

theorem outcome (hact : Coincides t₀ act act') : Coincides t₀ (TreeM.outcome act) (TreeM.outcome act') := by
  intro t ht
  rw [wp.outcome]
  refine (hact t ht).mono fun r t₁ ⟨hsame, ht₁⟩ => ⟨?_, ht₁⟩
  rw [wp.outcome]
  exact hsame.mono fun _ _ h => ⟨congrArg Except.ok h.1, h.2⟩

/-- Both operations may look at all of the tree. -/
theorem look {f : Tree → Except TreeError α} {g g' : α → TreeM β}
    (hg : ∀ t a, t₀.Rests t → f t = .ok a → Coincides t₀ (g a) (g' a)) :
    Coincides t₀ (TreeM.look f >>= g) (TreeM.look f >>= g') := by
  intro t ht
  cases ha : f t with
  | error e =>
    rw [wp.look_error ha]
    refine ⟨?_, ht⟩
    rw [wp.look_error ha]
    exact ⟨rfl, rfl⟩
  | ok a =>
    rw [wp.look_ok ha]
    refine (hg t a ht ha t ht).mono fun r t' ⟨hsame, ht'⟩ => ⟨?_, ht'⟩
    rwa [wp.look_ok ha]

theorem get {f f' : Tree → TreeM α} (hf : ∀ t, t₀.Rests t → Coincides t₀ (f t) (f' t)) :
    Coincides t₀ (MonadState.get >>= f) (MonadState.get >>= f') := by
  intro t ht
  rw [wp.get_bind]
  refine (hf t ht t ht).mono fun r t' ⟨hsame, ht'⟩ => ⟨?_, ht'⟩
  rwa [wp.get_bind]

theorem readRules (hs : t₀.Settled) : PairRules t₀.Rests fun _ => Coincides t₀ where
  pure _ := .of_calms hs .pure
  fail _ := .of_calms hs .throw
  bind := .bind
  look _ hg := .look hg
  state _ _ hf := .get fun t _ => hf t
  find start path := .of_calms hs (Tree.scopeLaws_calms.find start path)
  tryFind start path := .of_calms hs (.outcome (Tree.scopeLaws_calms.find start path))
  touch id := .of_calms hs (Tree.scopeLaws_calms.touch id)
  count id := .of_calms hs (Tree.scopeLaws_calms.count id)
  note reader _ := .of_calms hs (.modify fun t => Tree.scopeLaws_calms.note t _ reader)

/-- What is done with a node on the stack has to be the same only if the node is not on it yet. -/
theorem guarded (h : id ∉ t₀.resolving → Coincides { t₀ with resolving := id :: t₀.resolving } act act') :
    Coincides t₀ (Resolver.guarded id act) (Resolver.guarded id act') := by
  intro t ht
  rw [wp.guarded]
  split
  · rename_i hid
    refine ⟨?_, ht⟩
    rw [wp.guarded, if_pos hid]
    exact ⟨rfl, rfl⟩
  · rename_i hid
    have hpushed : Rests { t₀ with resolving := id :: t₀.resolving }
        { t with resolving := id :: t.resolving } := ht.stack (id :: ·)
    refine (h (ht.resolving ▸ hid) _ hpushed).mono fun r t₁ ⟨hsame, ht₁⟩ => ⟨?_, ht₁.stack List.tail⟩
    rw [wp.guarded, if_neg hid]
    refine hsame.mono ?_
    rintro _ _ ⟨rfl, rfl⟩
    exact ⟨rfl, rfl⟩

end Coincides

-- ---------------------------------------------------------------------------
-- Steps
-- ---------------------------------------------------------------------------

namespace Resolver

variable {t₀ : Tree} {ask ask' : Resolver} {id : NodeId}

section

variable (hs : t₀.Settled) (hask : ∀ r, Coincides t₀ (ask r) (ask' r))

include hs hask

theorem coincides_runScript {α : Type} (id : NodeId) (s : Script α) :
    Coincides t₀ (runScript ask id s) (runScript ask' id s) := by
  refine .look fun _ base _ _ => ?_
  induction s with
  | done r => exact (Coincides.readRules hs).lift r
  | ask q next ih =>
    exact .bind (.outcome ((Coincides.readRules hs).answer ask ask' base id q fun r _ => hask r)) fun r => ih r

theorem coincides_scripts : PairScripts t₀.Rests (fun _ => Coincides t₀) ask ask' where
  deferred _ _ := coincides_runScript hs hask _ _
  computed _ _ := coincides_runScript hs hask _ _
  action _ _ _ := coincides_runScript hs hask _ _

theorem coincides_freshBytes (id : NodeId) : Coincides t₀ (freshBytes ask id) (freshBytes ask' id) :=
  (Coincides.readRules hs).freshBytes ask ask' (fun id => hask (.bytes id)) (fun id => hask (.value id))
    (coincides_scripts hs hask) id

theorem coincides_leafContent (id : NodeId) : Coincides t₀ (leafContent ask id) (leafContent ask' id) :=
  (Coincides.readRules hs).leafContent ask ask' (fun id => hask (.bytes id)) (fun id => hask (.value id))
    (coincides_scripts hs hask) id

end

variable (hs : t₀.Settled)

include hs

/-- A live node is put on the stack before anything is asked for it. -/
theorem coincides_bytesStep (hask : t₀.isLive id = true → id ∉ t₀.resolving →
      ∀ r, Coincides { t₀ with resolving := id :: t₀.resolving } (ask r) (ask' r)) :
    Coincides t₀ (bytesStep ask id) (bytesStep ask' id) := by
  refine .look fun t n ht hn => ?_
  have hlive : t₀.isLive id = true := by
    rw [← ht.isLive_eq]
    exact Tree.isLive_iff_node?.mpr ⟨n, Tree.node_eq_ok.mp hn⟩
  have hpushed : Tree.Settled { t₀ with resolving := id :: t₀.resolving } := hs
  cases n.cache with
  | some b => exact (Coincides.readRules hs).pure b
  | none =>
    refine .bind (.guarded fun hid => coincides_freshBytes hpushed (hask hlive hid) id) fun b =>
      .bind (.of_calms hs (.update fun t t' h _ => ?_)) fun _ => (Coincides.readRules hs).pure b
    cases hm : t.node id with
    | error e =>
      rw [hm] at h
      cases h
    | ok m =>
      rw [hm] at h
      cases h
      exact .of_store

theorem coincides_valueStep (hbytes : Coincides t₀ (ask (.bytes id)) (ask' (.bytes id)))
    (hask : t₀.isLive id = true → id ∉ t₀.resolving →
      ∀ r, Coincides { t₀ with resolving := id :: t₀.resolving } (ask r) (ask' r)) :
    Coincides t₀ (valueStep ask id) (valueStep ask' id) := by
  refine .look fun t isLeaf ht hleaf => ?_
  have hlive : t₀.isLive id = true := by
    obtain ⟨n, hn, -⟩ := Tree.look_eq_ok.mp hleaf
    rw [← ht.isLive_eq]
    exact Tree.isLive_iff_node?.mpr ⟨n, hn⟩
  have hpushed : Tree.Settled { t₀ with resolving := id :: t₀.resolving } := hs
  cases isLeaf with
  | true => exact .guarded fun hid => coincides_leafContent hpushed (hask hlive hid) id
  | false => exact .bind hbytes fun _ => (Coincides.readRules hs).pure _

/-- A length is found out from the bytes of the node or from the lengths of its children. -/
theorem coincides_lengthStep (hbytes : Coincides t₀ (ask (.bytes id)) (ask' (.bytes id)))
    (hbelow : ∀ n, t₀.node? id = some n → ∀ c ∈ n.children,
      Coincides t₀ (ask (.length c)) (ask' (.length c))) :
    Coincides t₀ (lengthStep ask id) (lengthStep ask' id) := by
  have hrules := Coincides.readRules hs
  refine .look fun u n hu hn => ?_
  obtain ⟨n₀, hn₀, -⟩ := hu.symm.node? (Tree.node_eq_ok.mp hn)
  cases lengthRule n with
  | codec codec => exact hrules.lift codec.fixedLength
  | fixed k => cases n.cache <;> exact hrules.pure _
  | encode =>
    cases n.cache with
    | some b => exact hrules.pure b.length
    | none => exact .bind hbytes fun _ => hrules.pure _
  | children =>
    cases n.cache with
    | some b => exact hrules.pure b.length
    | none =>
      have hsum := hrules.shownLength ask ask' id fun t shown ht hshown c hc => by
        rw [ht.shownChildren_eq] at hshown
        exact hbelow n₀ hn₀ c (Tree.mem_shownChildren hn₀ hshown hc)
      dsimp only
      split
      · exact .bind (hrules.touch id) fun _ => hsum
      · exact hsum

theorem coincides_lengthUpToStep {target : NodeId} (hbelow : ∀ n, t₀.node? id = some n → ∀ c ∈ n.children,
      Coincides t₀ (ask (.length c)) (ask' (.length c)) ∧
        Coincides t₀ (ask (.lengthUpTo c target)) (ask' (.lengthUpTo c target))) :
    Coincides t₀ (lengthUpToStep ask id target) (lengthUpToStep ask' id target) := by
  refine (Coincides.readRules hs).lengthUpToStep ask ask' id target fun t children ht hchildren c hc => ?_
  obtain ⟨m, hm, rfl⟩ := Tree.look_eq_ok.mp hchildren
  obtain ⟨n, hn, hbare⟩ := ht.symm.node? hm
  have hsame : n.children = m.children := Node.children_of_bare hbare
  exact hbelow n hn c (hsame ▸ hc)

-- ---------------------------------------------------------------------------
-- Enough depth
-- ---------------------------------------------------------------------------

omit hs

/-- Answers requests as `resolve` does as long as the stack is in order, and leaves all others to the
trap. -/
def watched (trap : Resolver) : (depth : Nat) → Resolver
  | 0, r => trap r
  | depth + 1, r => do
    if (← get).Orderly then
      step (watched trap depth) r
    else
      trap r

theorem coincides_watched {trap : Resolver} (horderly : t₀.Orderly) {depth : Nat} {r : Request}
    {act : TreeM r.Answer} (h : Coincides t₀ act (step (watched trap depth) r)) :
    Coincides t₀ act (watched trap (depth + 1) r) := by
  intro t ht
  refine (h t ht).mono fun r t' ⟨hsame, ht'⟩ => ⟨?_, ht'⟩
  rw [watched, wp.get_bind, if_pos (horderly.of_rests ht)]
  exact hsame

/-- The depth that is needed between two nodes that are put on the stack: questions lead down the tree
once for the end of an offset and once for a length. -/
def span (t : Tree) : Nat := 2 * t.liveNodes.length + 4

section

variable {trap : Resolver} {depth : Nat}

/-- With one more node on the stack, the depth is enough. -/
def Suffices (trap : Resolver) (t₀ : Tree) (depth : Nat) : Prop :=
  ∀ ⦃id d d'⦄, t₀.isLive id = true → id ∉ t₀.resolving → depth ≤ d → depth ≤ d' →
    ∀ r, Coincides { t₀ with resolving := id :: t₀.resolving } (resolve d r) (watched trap d' r)

variable (hs : t₀.Settled) (hwf : t₀.WellFormed) (horderly : t₀.Orderly)
  (hdepth : Suffices trap t₀ depth)

include hs horderly hdepth

theorem coincides_bytes (id : NodeId) {d d' : Nat} (hd : depth + 1 ≤ d) (hd' : depth + 1 ≤ d') :
    Coincides t₀ (resolve d (.bytes id)) (watched trap d' (.bytes id)) := by
  obtain ⟨d, rfl⟩ := Nat.exists_eq_add_of_le' (Nat.le_of_add_left_le hd)
  obtain ⟨d', rfl⟩ := Nat.exists_eq_add_of_le' (Nat.le_of_add_left_le hd')
  exact coincides_watched horderly (coincides_bytesStep hs fun hlive hid =>
    hdepth hlive hid (Nat.le_of_succ_le_succ hd) (Nat.le_of_succ_le_succ hd'))

theorem coincides_value (id : NodeId) {d d' : Nat} (hd : depth + 2 ≤ d) (hd' : depth + 2 ≤ d') :
    Coincides t₀ (resolve d (.value id)) (watched trap d' (.value id)) := by
  obtain ⟨d, rfl⟩ := Nat.exists_eq_add_of_le' (Nat.le_of_add_left_le hd)
  obtain ⟨d', rfl⟩ := Nat.exists_eq_add_of_le' (Nat.le_of_add_left_le hd')
  refine coincides_watched horderly (coincides_valueStep hs ?_ fun hlive hid =>
    hdepth hlive hid (by omega) (by omega))
  exact coincides_bytes hs horderly hdepth id (Nat.le_of_succ_le_succ hd) (Nat.le_of_succ_le_succ hd')

include hwf

/-- The children of a node have fewer nodes from them on. -/
theorem coincides_length (id : NodeId) {d d' : Nat} (hd : depth + 2 + t₀.behind id.index ≤ d)
    (hd' : depth + 2 + t₀.behind id.index ≤ d') :
    Coincides t₀ (resolve d (.length id)) (watched trap d' (.length id)) := by
  induction hk : t₀.behind id.index using Nat.strong_induction_on generalizing id d d' with
  | _ k ih =>
    obtain ⟨d, rfl⟩ := Nat.exists_eq_add_of_le' (show 1 ≤ d by omega)
    obtain ⟨d', rfl⟩ := Nat.exists_eq_add_of_le' (show 1 ≤ d' by omega)
    refine coincides_watched horderly (coincides_lengthStep hs ?_ fun n hn c hc => ?_)
    · exact coincides_bytes hs horderly hdepth id (by omega) (by omega)
    · have hlt := Tree.behind_lt_of_child hwf hn hc
      exact ih _ (hk ▸ hlt) c (by omega) (by omega) rfl

theorem coincides_lengthUpTo (id target : NodeId) {d d' : Nat}
    (hd : depth + 3 + t₀.liveNodes.length + t₀.behind id.index ≤ d)
    (hd' : depth + 3 + t₀.liveNodes.length + t₀.behind id.index ≤ d') :
    Coincides t₀ (resolve d (.lengthUpTo id target)) (watched trap d' (.lengthUpTo id target)) := by
  induction hk : t₀.behind id.index using Nat.strong_induction_on generalizing id d d' with
  | _ k ih =>
    obtain ⟨d, rfl⟩ := Nat.exists_eq_add_of_le' (show 1 ≤ d by omega)
    obtain ⟨d', rfl⟩ := Nat.exists_eq_add_of_le' (show 1 ≤ d' by omega)
    refine coincides_watched horderly (coincides_lengthUpToStep hs fun n hn c hc => ⟨?_, ?_⟩)
    · have hle := t₀.behind_le c.index
      exact coincides_length hs hwf horderly hdepth c (by omega) (by omega)
    · have hlt := Tree.behind_lt_of_child hwf hn hc
      exact ih _ (hk ▸ hlt) c (by omega) (by omega) rfl

theorem coincides_request {d d' : Nat} (hd : depth + span t₀ ≤ d) (hd' : depth + span t₀ ≤ d')
    (r : Request) : Coincides t₀ (resolve d r) (watched trap d' r) := by
  unfold span at hd hd'
  cases r with
  | bytes id => exact coincides_bytes hs horderly hdepth id (by omega) (by omega)
  | value id => exact coincides_value hs horderly hdepth id (by omega) (by omega)
  | length id =>
    have hle := t₀.behind_le id.index
    exact coincides_length hs hwf horderly hdepth id (by omega) (by omega)
  | lengthUpTo within target =>
    have hle := t₀.behind_le within.index
    exact coincides_lengthUpTo hs hwf horderly hdepth within target (by omega) (by omega)

end

/-- By induction on the number of nodes that are not on the stack. -/
theorem coincides_resolve (trap : Resolver) {free : Nat} (hs : t₀.Settled) (hwf : t₀.WellFormed)
    (horderly : t₀.Orderly) (hfree : t₀.liveNodes.length ≤ t₀.resolving.length + free) {d d' : Nat}
    (hd : (free + 1) * span t₀ ≤ d) (hd' : (free + 1) * span t₀ ≤ d') (r : Request) :
    Coincides t₀ (resolve d r) (watched trap d' r) := by
  have hstep : ∀ free, (free + 1) * span t₀ = free * span t₀ + span t₀ := fun free => Nat.succ_mul ..
  induction free generalizing t₀ d d' r with
  | zero =>
    have hzero : 0 + span t₀ = (0 + 1) * span t₀ := by omega
    refine coincides_request hs hwf horderly ?_ (hzero.trans_le hd) (hzero.trans_le hd') r
    -- All live nodes are on the stack, and there is none left to be put on it.
    intro id d d' hlive hid
    have hfull := (horderly.push hlive hid).depth
    exact absurd (hfull.trans hfree) (Nat.not_succ_le_self _)
  | succ free ih =>
    rw [hstep] at hd hd'
    refine coincides_request hs hwf horderly ?_ hd hd' r
    intro id e e' hlive hid he he' r
    have hsettled : Tree.Settled { t₀ with resolving := id :: t₀.resolving } := hs
    have hpushed : Tree.WellFormed { t₀ with resolving := id :: t₀.resolving } :=
      ⟨hwf.root, hwf.parent, hwf.child⟩
    refine ih hsettled hpushed (horderly.push hlive hid) ?_ he he' r hstep
    show t₀.liveNodes.length ≤ t₀.resolving.length + 1 + free
    omega

theorem span_le_depthFor (t : Tree) : (t.liveNodes.length + 1) * span t ≤ depthFor t := by
  have hle := t.length_liveNodes_le_weight
  have hmul : (t.liveNodes.length + 1) * span t ≤ (t.weight + 2) * (3 * t.weight + 3) := by
    unfold span
    calc (t.liveNodes.length + 1) * (2 * t.liveNodes.length + 4)
        ≤ (t.weight + 1) * (2 * t.weight + 4) := Nat.mul_le_mul (by omega) (by omega)
      _ = (t.weight + 2) * (2 * t.weight + 2) := by ring
      _ ≤ (t.weight + 2) * (3 * t.weight + 3) := Nat.mul_le_mul_left _ (by omega)
  rw [depthFor]
  exact Nat.le_add_left_of_le hmul

/-- Neither the depth nor the stack ever hands a question over to the trap. -/
theorem run_watched (trap : Resolver) {t : Tree} (hs : t.Settled) (hwf : t.WellFormed)
    (horderly : t.Orderly) {depth : Nat} (hdepth : depthFor t ≤ depth) (r : Request) :
    (watched trap depth r).run t = (answerAll r).run t := by
  have hspan := span_le_depthFor t
  have hsame : wp (answerAll r) (fun r' t' => wp (watched trap depth r)
      (fun r'' t'' => r'' = r' ∧ t'' = t') t) t := by
    unfold answerAll
    rw [wp.get_bind]
    generalize depthFor t = limit at hspan hdepth
    have hcoincide := coincides_resolve trap hs hwf horderly (Nat.le_add_left t.liveNodes.length _) hspan
      (hspan.trans hdepth) r
    exact (hcoincide t (.refl t)).mono fun _ _ h => h.1
  exact Prod.ext hsame.1 hsame.2

end Resolver

-- ---------------------------------------------------------------------------
-- All states
-- ---------------------------------------------------------------------------

namespace Tree

open Resolver

variable {t : Tree}

theorem Idle.orderly (h : t.Idle) : t.Orderly := by
  constructor <;> simp [h.resolving]

/-- While all groups of a tree are ready, every question is answered, whatever the cells are: it makes no
difference what would be done if the depth ran out or the stack were out of order, so that neither happens.
The stack stays in order when a live node is put on it, and if the node is on it already, that is an error. -/
theorem Reaches.resolution_ends {allowed : Tree → Call → Prop} {template : Template} {seed : UInt64}
    {t₀ : Tree} (hbuild : build template seed = .ok t₀) (h : Reaches allowed t₀ t) (hs : t.Settled) :
    (∀ (trap : Resolver) depth, depthFor t ≤ depth →
      (∀ r, (watched trap depth r).run t = (answerAll r).run t) ∧
      ∀ id, t.isLive id = true →
        (watched trap depth (.lengthUpTo t.root id)).run t = (Tree.offset id).run t) ∧
    (∀ (u : Tree) id, u.Orderly → u.isLive id = true → ((enter id).run u).2.Orderly) ∧
    ∀ {α : Type} (u : Tree) id (act : TreeM α), id ∈ u.resolving →
      (guarded id act).run u = (.error (.cyclicDependency (u.nameOrPlace id)), u) := by
  have horderly : t.Orderly := (h.unwinds.idle (build_idle hbuild)).orderly
  have hwf : t.WellFormed := h.wellFormed hbuild
  refine ⟨fun trap depth hdepth => ?_, fun u id hu hlive => ?_, fun u id act hid => ?_⟩
  · have hanswers := fun r => run_watched trap hs hwf horderly hdepth r
    refine ⟨hanswers, fun id hlive => (hanswers _).trans ?_⟩
    obtain ⟨n, hn⟩ := isLive_iff.mp hlive
    suffices hoffset : wp (Tree.offset id) (fun r t' =>
        (answerAll (.lengthUpTo t.root id)).run t = (r, t')) t from hoffset
    unfold Tree.offset
    rw [wp.look_ok hn]
    rfl
  · suffices hentered : wp (enter id) (fun _ u' => u'.Orderly) u from hentered
    unfold enter
    rw [wp.get_bind]
    split
    · rw [wp.bind, wp.throw]
      exact hu
    · rename_i hid
      exact hu.push hlive hid
  · suffices hguarded : wp (guarded id act) (fun r u' =>
        r = .error (.cyclicDependency (u.nameOrPlace id)) ∧ u' = u) u from Prod.ext hguarded.1 hguarded.2
    rw [wp.guarded, if_pos hid]
    exact ⟨rfl, rfl⟩

theorem Reaches.resolution_ends_crossed : ∃ t₀, build crossed 7 = .ok t₀ ∧ t₀.Settled ∧
    ((Tree.bytes ⟨0⟩).run t₀).1.isOk = false ∧
    ∀ trap : Resolver, (watched trap (depthFor t₀) (.bytes ⟨0⟩)).run t₀ = (Tree.bytes ⟨0⟩).run t₀ := by
  have hruns : (build crossed 7).toOption.any (fun t => ((Tree.bytes ⟨0⟩).run t).1.isOk = false ∧
      t.nodes.all (·.all fun n => n.kind.group?.all (·.phase = .ready)) = true) = true := by
    decide +kernel
  obtain ⟨t₀, hbuild, hruns⟩ := exists_build hruns
  obtain ⟨hfails, hready⟩ := of_decide_eq_true hruns
  have hs : t₀.Settled := .of_all hready
  have hreach : Reaches (fun _ _ => True) t₀ t₀ := .refl t₀
  have hends := (Reaches.resolution_ends hbuild hreach hs).1
  exact ⟨t₀, hbuild, hs, hfails, fun trap => (hends trap _ (Nat.le_refl _)).1 (.bytes ⟨0⟩)⟩

end Tree

end FormatFuzz
