-- SUMMARY: Which groups an operation can reach, and that the others keep their phases and children.
import FormatFuzz.Proofs.GroupStates

/-!
# Confinement

Initializing a group touches others, makes and discards nodes, and tells watchers. How far this goes can be
told in advance: if the groups that may be active only have watchers among themselves, and the others need no
initialization, then the others are not touched at all (`Tree.Confined`). A node that is not active keeps its
phase and its children, unless it goes with the elements of an active group.
-/

namespace FormatFuzz

open TreeM

namespace Tree

variable {A D : NodeId → Prop} {t t' t₀ : Tree} {id x : NodeId} {n : Node} {g : Group}

-- ---------------------------------------------------------------------------
-- Realms
-- ---------------------------------------------------------------------------

/-- In a tree that comes from `t₀`, groups of `A` may be initialized, and nodes of `D` discarded. -/
structure Realm (A D : NodeId → Prop) (t₀ : Tree) : Prop where
  wellFormed : t₀.WellFormed
  fresh : ∀ {x}, t₀.nodes.size ≤ x.index → A x
  under : ∀ {t id x}, Evolves (fun _ => True) t₀ t → A id → t.Under id x → A x ∨ D x
  /-- The others do not need to be initialized. -/
  quiet : ∀ {x phase c}, ¬ A x → t₀.states x = some (phase, c) → phase = .ready ∨ phase = .initializing

/-- Nodes that are not in `A` are as they were in `t₀`, or have been discarded, and do not watch groups
of `A`. -/
structure Confined (A D : NodeId → Prop) (t₀ t : Tree) : Prop where
  evolves : Evolves (fun _ => True) t₀ t
  kept : ∀ {x}, ¬ A x → D x ∧ t.node? x = none ∨
    t.states x = t₀.states x ∧ (t.node? x).map Node.children = (t₀.node? x).map Node.children
  watchers : ∀ {w x}, t.Watches w x → A x → A w

theorem Alike.children (h : t.Alike t') (x : NodeId) :
    (t'.node? x).map Node.children = (t.node? x).map Node.children := by
  cases hn : t.node? x with
  | some n =>
    obtain ⟨n', hn', -, hch⟩ := h.node? hn
    rw [hn', Option.map_some, hch, Option.map_some]
  | none =>
    have hx := h.nodes x
    rw [hn] at hx
    rw [Option.map_eq_none_iff.mp hx]

namespace Confined

theorem refl (hwatchers : ∀ {w x}, t.Watches w x → A x → A w) : Confined A D t t :=
  ⟨.refl _ t, fun _ => .inr ⟨rfl, rfl⟩, hwatchers⟩

/-- A change that leaves phases alone outside of `A`, and enters no watchers from there. -/
theorem step (h : Confined A D t₀ t) (halike : t.Alike t') (hstates : ∀ {x}, ¬ A x → t'.states x = t.states x)
    (hwatches : ∀ {w x}, t'.Watches w x → t.Watches w x ∨ A w) : Confined A D t₀ t' where
  evolves := h.evolves.trans (.of_alike halike fun _ _ _ _ _ _ => trivial)
  kept := by
    intro x hx
    rcases h.kept hx with ⟨hD, hdead⟩ | ⟨hsame, hchildren⟩
    · refine .inl ⟨hD, ?_⟩
      have hnode := halike.nodes x
      rw [hdead] at hnode
      exact Option.map_eq_none_iff.mp hnode
    · exact .inr ⟨(hstates hx).trans hsame, (halike.children x).trans hchildren⟩
  watchers := by
    intro w x hw hx
    rcases hwatches hw with hw | hw
    · exact h.watchers hw hx
    · exact hw

theorem shallow : Shallow (Confined A D t₀) := fun _ _ hlevel h =>
  h.step hlevel.alike (fun _ => by rw [hlevel.states]) fun hw => .inl ((hlevel.watches _ _).mp hw)

theorem modifyGroup (h : Confined A D t₀ t) (hid : A id) {f : Group → Group}
    (hf : ∀ g, (f g).still = g.still) (hwatchers : ∀ g, (f g).watchers = g.watchers) :
    Confined A D t₀ (t.modifyGroup id f) := by
  refine h.step (.of_modifyGroup hf) (fun {x} hx => ?_) fun hw => .inl ((watches_keep hwatchers).mp hw)
  have hne : x ≠ id := fun he => hx (he ▸ hid)
  rw [states_modifyGroup, if_neg hne]

theorem markStale (h : Confined A D t₀ t) (hid : A id) :
    Confined A D t₀ ((t.markStale id).invalidate id) :=
  shallow.of_like .of_invalidate
    (h.modifyGroup hid (fun g => by split <;> rfl) fun g => by split <;> rfl)

theorem watch (h : Confined A D t₀ t) (hid : A id) (source : NodeId) :
    Confined A D t₀ (t.modifyGroup source fun group =>
      { group with watchers := NodeId.insertInto id group.watchers }) := by
  refine h.step (.of_modifyGroup fun _ => rfl) (fun _ => by rw [states_watch]) fun hw => ?_
  rcases watches_watch.mp hw with hw | ⟨rfl, -, -⟩
  · exact .inl hw
  · exact .inr hid

variable (hrealm : Realm A D t₀)

include hrealm

/-- Only groups of `A` are initialized. -/
theorem of_phase (h : Confined A D t₀ t) (hg : t.group id = .ok g) (hready : g.phase ≠ .ready)
    (hbusy : g.phase ≠ .initializing) : A id := by
  by_contra hid
  obtain ⟨n, hn, hk⟩ := group_eq_ok.mp hg
  rcases h.kept hid with ⟨-, hdead⟩ | ⟨hsame, -⟩
  · rw [hn] at hdead
    cases hdead
  · rcases hrealm.quiet hid (hsame.symm.trans (states_of_node? hn hk)) with hphase | hphase
    · exact hready hphase
    · exact hbusy hphase

/-- New groups have no watchers, and what goes with the old elements is in `A` or `D`. -/
theorem swapped (h : Confined A D t₀ t) (hid : A id) (hn : t.node? id = some n)
    (hk : n.kind = .repeated g) {elements : List NodeId}
    (hswap : Swapped (fun _ => True) id g.element elements t t') : Confined A D t₀ t' where
  evolves := h.evolves.trans (hswap.evolves hn hk rfl)
  kept := by
    intro x hx
    have hgrows := h.evolves.grows hrealm.wellFormed
    have hlt : x.index < t.nodes.size := by
      by_contra hge
      exact hx (hrealm.fresh (hgrows.size.trans (Nat.not_lt.mp hge)))
    have hev := hswap.evolves (C := fun _ => True) hn hk rfl
    rcases h.kept hx with ⟨hD, hdead⟩ | hsame
    · exact .inl ⟨hD, (hev.grows (h.evolves.wellFormed hrealm.wellFormed)).dead hlt hdead⟩
    · by_cases hunder : t.Under id x
      · rcases hrealm.under h.evolves hid hunder with hA | hD
        · exact absurd hA hx
        · exact .inl ⟨hD, hswap.gone hunder⟩
      · have hne : x ≠ id := fun he => hx (he ▸ hid)
        have hkept := hswap.kept hlt hne hunder
        have hchildren := congrArg (Option.map Node.children) hkept
        rw [Option.map_map, Option.map_map] at hchildren
        exact .inr ⟨(states_congr hkept).trans hsame.1, hchildren.trans hsame.2⟩
  watchers := by
    rintro w x ⟨m, g', hm, hk', hw⟩ hx
    rcases hswap.group_cases hm hk' with ⟨-, l, hl, hlk⟩ | ⟨-, -, hnone⟩
    · exact h.watchers ⟨l, g', hl, hlk, hw⟩ hx
    · rw [hnone] at hw
      cases hw

end Confined

-- ---------------------------------------------------------------------------
-- Operations
-- ---------------------------------------------------------------------------

section

variable {visit : NodeId → TreeM Unit} {count : Nat} {Q : Except TreeError Unit → Tree → Prop}

/-- A group that is given another count gets new elements, these are visited, and then its watchers are
told. `I` is what the visits keep, and `F` what is known of the elements when they are new. -/
theorem replaceElements_making {F : List NodeId → Tree → Prop} (hwf : t.WellFormed)
    (hfail : t.states id = none → ∀ e, Q (.error e) t)
    (hsame : ∀ n, t.node? id = some n → n.children.length = count → Q (.ok ()) t)
    (hmade : ∀ n g, t.node? id = some n → n.kind = .repeated g →
      wp (swapElements id g.element n.children count) (fun r t₁ => ∀ elements, r = .ok elements →
        F elements t₁) t)
    (hswap : ∀ n g elements t₁, t.node? id = some n → n.kind = .repeated g → n.children.length ≠ count →
      elements.length = count → Swapped (fun _ => True) id g.element elements t t₁ → F elements t₁ →
      ∃ I : Tree → Prop, I t₁ ∧
        (∀ x s, I s → wp (visit x) (fun r s' => match r with
          | .ok _ => I s'
          | .error e => Q (.error e) s') s) ∧
        ∀ s, I s → wp (notify g.watchers) Q (s.invalidate id)) :
    wp (replaceElementsWith visit id count) Q t := by
  unfold replaceElementsWith
  simp only [wp.bind, wp.look]
  cases hold : t.children id with
  | error e =>
    refine hfail (states_eq_none.mpr fun n hn => ?_) e
    rw [children, look_of_node? hn] at hold
    cases hold
  | ok old =>
    obtain ⟨n, hn, rfl⟩ := look_eq_ok.mp hold
    dsimp only
    split
    · exact hsame n hn ‹_›
    · rename_i hcount
      simp only [wp.bind, wp.look]
      cases hg : t.group id with
      | error e => exact hfail (states_of_group_error hg) e
      | ok g =>
        obtain ⟨n', hn', hk⟩ := group_eq_ok.mp hg
        rw [hn] at hn'
        cases hn'
        refine ((swapElements_spec (C := fun _ => True) (fun _ => trivial) hwf hn g.element count).and
          (hmade n g hn hk)).mono ?_
        rintro _ t₁ ⟨⟨elements, rfl, hlength, hswapped⟩, hF⟩
        obtain ⟨I, ht₁, hvisit, hnotify⟩ :=
          hswap n g elements t₁ hn hk hcount hlength hswapped (hF elements rfl)
        refine wp.forIn (fun _ => I) ht₁ (fun s hs => ?_) fun x rest s hs => ?_
        · simp only [wp.modify]
          exact hnotify s hs
        · rw [wp.bind]
          refine (hvisit x s hs).mono fun r s' h => ?_
          cases r <;> exact h

/-- A group that is given another count, if nothing more has to be known of its new elements. -/
theorem replaceElements_rule (hwf : t.WellFormed) (hfail : t.states id = none → ∀ e, Q (.error e) t)
    (hsame : ∀ n, t.node? id = some n → n.children.length = count → Q (.ok ()) t)
    (hswap : ∀ n g elements t₁, t.node? id = some n → n.kind = .repeated g → n.children.length ≠ count →
      elements.length = count → Swapped (fun _ => True) id g.element elements t t₁ →
      ∃ I : Tree → Prop, I t₁ ∧
        (∀ x s, I s → wp (visit x) (fun r s' => match r with
          | .ok _ => I s'
          | .error e => Q (.error e) s') s) ∧
        ∀ s, I s → wp (notify g.watchers) Q (s.invalidate id)) :
    wp (replaceElementsWith visit id count) Q t :=
  replaceElements_making (F := fun _ _ => True) hwf hfail hsame (fun _ _ _ _ _ _ => trivial)
    fun n g elements t₁ hn hk hcount hlength hswapped _ => hswap n g elements t₁ hn hk hcount hlength hswapped

end

/-- Whatever happens, the changes stay confined. -/
def Confines {α : Type} (A D : NodeId → Prop) (t₀ : Tree) (act : TreeM α) : Prop :=
  Preserves (Upholds (Confined A D t₀)) (Upholds (Confined A D t₀)) act

section

variable (hrealm : Realm A D t₀)

include hrealm

section

variable {init : NodeId → TreeM Unit} (hinit : ∀ id, A id → Confines A D t₀ (init id))

include hinit

theorem touchWith_confined (id : NodeId) : Confines A D t₀ (touchWith init id) := by
  refine Upholds.preserves fun t h => ?_
  unfold touchWith
  cases hg : t.group id with
  | error e => exact (wp.look_error hg).mpr h
  | ok g =>
    rw [wp.look_ok hg]
    cases hphase : g.phase with
    | uninit => exact (hinit id (h.of_phase hrealm hg (by simp [hphase]) (by simp [hphase]))).run t h
    | stale => exact (hinit id (h.of_phase hrealm hg (by simp [hphase]) (by simp [hphase]))).run t h
    | initializing => exact h
    | ready => exact h

theorem countWith_confined (id : NodeId) : Confines A D t₀ (countWith init id) := by
  refine Upholds.preserves fun t h => ?_
  have hlook : Confines A D t₀ (do return (← TreeM.look (·.children id)).length : TreeM Nat) :=
    .bind .look fun _ => .pure
  unfold countWith
  cases hg : t.group id with
  | error e => exact (wp.look_error hg).mpr h
  | ok g =>
    rw [wp.look_ok hg]
    have hrun : A id → Confines A D t₀ (do
        init id
        return (← TreeM.look (·.children id)).length : TreeM Nat) :=
      fun hid => .bind (hinit id hid) fun _ => hlook
    cases hphase : g.phase with
    | uninit => exact (hrun (h.of_phase hrealm hg (by simp [hphase]) (by simp [hphase]))).run t h
    | stale => exact (hrun (h.of_phase hrealm hg (by simp [hphase]) (by simp [hphase]))).run t h
    | initializing => exact wp.look.mpr h
    | ready => exact hlook.run t h

end

/-- A group of `A` only tells others of `A` that its count has changed. -/
theorem replaceElements_confined {visit : NodeId → TreeM Unit}
    (hvisit : ∀ id, Confines A D t₀ (visit id)) (hid : A id) (count : Nat) :
    Confines A D t₀ (replaceElementsWith visit id count) := by
  refine Upholds.preserves fun t h => ?_
  refine replaceElements_rule (h.evolves.wellFormed hrealm.wellFormed) (fun _ _ => h) (fun _ _ _ => h) ?_
  intro n g elements t₁ hn hk _ _ hswap
  refine ⟨Confined A D t₀, h.swapped hrealm hid hn hk hswap, fun x s hs => ?_, fun s hs => ?_⟩
  · refine (hvisit x s).mono fun r s' h' => ?_
    cases r <;> exact h' hs
  · have htold : ∀ w ∈ g.watchers, A w :=
      fun w hw => h.watchers ((watches_iff hn hk).mpr hw) hid
    have htell : Confines A D t₀ (notify g.watchers) :=
      GroupLaws.notify fun t w hw h => h.markStale (htold w hw)
    exact htell.run _ (Confined.shallow.of_like .of_invalidate hs)

omit hrealm in
theorem linkElements_confined {init : NodeId → TreeM Unit}
    (htouch : ∀ id, Confines A D t₀ (touchWith init id)) (id : NodeId) :
    Confines A D t₀ (linkElementsWith init id) :=
  GroupLaws.linkElementsWith htouch (fun _ _ _ _ _ _ _ hst hs =>
    Confined.shallow.of_like .of_invalidate (Confined.shallow.putCell (hst hs))) id

/-- Visiting nodes and initializing groups of `A` are confined. -/
theorem runTask_confined (depth : Nat) : (∀ x, Confines A D t₀ (runTask depth (.visit x))) ∧
    ∀ x, A x → Confines A D t₀ (runTask depth (.init x)) := by
  induction depth with
  | zero => exact ⟨fun _ => .throw, fun _ _ => .throw⟩
  | succ depth ih =>
    obtain ⟨hvisit, hinit⟩ := ih
    have htouch := touchWith_confined hrealm hinit
    refine ⟨fun x => GroupLaws.visitStep (htouch x) hvisit, fun x hx => ?_⟩
    refine GroupLaws.initStep (fun t phase h => h.modifyGroup hx (fun _ => rfl) fun _ => rfl) ?_ ?_ ?_
    · exact GroupLaws.countByRuleWith htouch (countWith_confined hrealm hinit)
        fun t source h => h.watch hx source
    · exact replaceElements_confined hrealm hvisit hx
    · exact linkElements_confined htouch x

theorem visit_confined (x : NodeId) : Confines A D t₀ (perform (.visit x)) :=
  .bind .get fun _ => (runTask_confined hrealm _).1 x

theorem init_confined (hid : A id) : Confines A D t₀ (init id) :=
  .bind .get fun _ => (runTask_confined hrealm _).2 id hid

theorem touch_confined (id : NodeId) : Confines A D t₀ (touch id) :=
  touchWith_confined hrealm (fun _ => init_confined hrealm) id

theorem count_confined (id : NodeId) : Confines A D t₀ (count id) :=
  countWith_confined hrealm (fun _ => init_confined hrealm) id

theorem resize_confined (hid : A id) (count : Nat) : Confines A D t₀ (resize id count) :=
  .bind (touch_confined hrealm id) fun _ =>
    .bind (replaceElements_confined hrealm (visit_confined hrealm) hid count) fun _ =>
      linkElements_confined (touch_confined hrealm) id

/-- Calls and fuzz runs are confined if only groups of `A` are given other counts. -/
theorem Confined.reaches {allowed : Tree → Call → Prop} (hallowed : ∀ t id n, allowed t (.resize id n) → A id)
    (h : Reaches allowed t t') (ht : Confined A D t₀ t) : Confined A D t₀ t' :=
  Confined.shallow.reaches (fun t id => (touch_confined hrealm id).run t)
    (fun t id => (count_confined hrealm id).run t)
    (fun t id n hresize => (resize_confined hrealm (hallowed t id n hresize) n).run t) h ht

end

end Tree

end FormatFuzz
