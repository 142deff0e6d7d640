-- SUMMARY: A group whose elements show those of another one, and what other groups do to the two.
import FormatFuzz.Proofs.Paths
import FormatFuzz.Proofs.Tidiness

/-!
# Couplings

In a template, one group may follow another one, and its rule binds a leaf of its elements to a field of the
elements of the other (`Coupling`). If both are outside of elements, they are there in all states. While the
follower has its elements, so has its source, and the leaf in each element is bound to the element of the
same index (`Tree.Coupled`).

Initializing other groups bypasses the two: the follower and all that is below it stay as they are, and so does
the source if it is ready (`Tree.Bypasses`).
-/

namespace FormatFuzz

open TreeM

-- ---------------------------------------------------------------------------
-- Templates
-- ---------------------------------------------------------------------------

/-- The one group of a template that follows another one, and a leaf of its elements that shows a field of the
elements of the other. -/
structure Coupling (τ : Template) where
  follower : Position
  source : Position
  path : String
  fields : List (String × String)
  /-- Which of the pairs binds the leaf. -/
  pair : Nat
  elementField : String
  sourceField : String
  /-- The way from an element of the follower to the leaf. -/
  leaf : Position
  bound : ∃ header element min max name,
    τ.partAt follower = some (.repeated header element (.bound path fields min max), name)
  leads : τ.follow (τ.base follower) path = some source
  counted : ∃ σ name, τ.partAt source = some (σ, name) ∧ σ.isRepeated = true ∧ σ.Unbound
  alone : ∀ {p σ name}, τ.partAt p = some (σ, name) → p ≠ follower → σ.Unbound
  outer : ∀ {p q}, (τ.partAt p).any (·.1.isRepeated) = true → q = follower ∨ q = source → p <:+ q → p = q
  paired : fields[pair]? = some (elementField, sourceField)
  shown : ∀ i, τ.follow (i :: follower) elementField = some (leaf ++ i :: follower)
  ends : ∀ i, ∃ header kind name, τ.partAt (leaf ++ i :: follower) = some (.leaf header kind, name)
  /-- No other pair binds the leaf. -/
  apart : ∀ {j pair'}, j ≠ pair → fields[j]? = some pair' →
    ∀ i k, τ.follow (i :: follower) pair'.1 ≠ some (leaf ++ k :: follower)

namespace Coupling

variable {τ : Template} (c : Coupling τ)

theorem follower_isRepeated : (τ.partAt c.follower).any (·.1.isRepeated) = true := by
  obtain ⟨header, element, min, max, name, hpart⟩ := c.bound
  rw [hpart]
  rfl

theorem source_isRepeated : (τ.partAt c.source).any (·.1.isRepeated) = true := by
  obtain ⟨σ, name, hpart, hrep, -⟩ := c.counted
  rw [hpart]
  exact hrep

theorem source_ne : c.source ≠ c.follower := by
  intro he
  obtain ⟨header, element, min, max, name, hpart⟩ := c.bound
  obtain ⟨σ, name', hpart', -, hunbound⟩ := c.counted
  rw [he, hpart] at hpart'
  cases hpart'
  exact hunbound

/-- The two groups are outside of all elements. -/
theorem not_isRepeated {p q : Position} (hq : q = c.follower ∨ q = c.source) (hp : p <:+ q) (hne : p ≠ q) :
    (τ.partAt p).any (·.1.isRepeated) = false :=
  Bool.eq_false_of_not_eq_true fun hrep => hne (c.outer hrep hq hp)

/-- Where a group is not above the follower, and not in its elements, it is apart from it. -/
theorem apart_of_not_suffix {p r : Position} (hrep : (τ.partAt p).any (·.1.isRepeated) = true)
    (hp : ¬ c.follower <:+ p) : ¬ p <:+ r ++ c.follower := by
  intro h
  rcases List.suffix_or_suffix_of_suffix h (List.suffix_append r c.follower) with habove | hbelow
  · exact hp (c.outer hrep (.inl rfl) habove ▸ List.suffix_refl _)
  · exact hp hbelow

end Coupling

namespace Tree

variable {τ : Template} {c : Coupling τ} {a b w x y id : NodeId} {t t' t₁ t₂ : Tree} {n : Node} {p q r : Position}
  {k : Nat}

-- ---------------------------------------------------------------------------
-- The two groups
-- ---------------------------------------------------------------------------

/-- Nobody but the follower watches a group, and this watches its source. There is nothing to initialize in its
elements, and nothing else is being initialized. -/
structure Joined (c : Coupling τ) (a b : NodeId) (t : Tree) : Prop where
  wellFormed : t.WellFormed
  models : t.Models (fun _ => True) τ τ.name t.root
  follower : t.placed c.follower = some b
  source : t.placed c.source = some a
  watches : ∀ {w y}, t.Watches w y → w = b ∧ y = a
  idle : ∀ {y}, t.Busy y → y = b
  inner : t.ReadyBelow c.follower

/-- In the element at an index, the leaf is bound to the element of the source at that index. -/
def Shows (c : Coupling τ) (a : NodeId) (t : Tree) (i : Nat) : Prop :=
  ∀ ⦃x n⦄, t.placed (c.leaf ++ i :: c.follower) = some x → t.node? x = some n →
    n.cell = .bound (.element a i c.sourceField)

/-- The source has `k` elements and knows its watcher. -/
structure Primed (a b : NodeId) (k : Nat) (t : Tree) : Prop where
  source : t.states a = some (.ready, k)
  watched : t.Watches b a

/-- If the follower has its elements, they show those of its source. -/
structure Coupled (c : Coupling τ) (a b : NodeId) (t : Tree) : Prop extends t.Joined c a b where
  current : ∀ {k}, t.states b = some (.ready, k) → t.Primed a b k ∧ ∀ i, t.Shows c a i

/-- All groups have their elements, but the follower may lack its own. -/
def Quiet (b : NodeId) (t : Tree) : Prop := ∀ ⦃y⦄, t.Pending y → y = b

namespace Joined

variable (h : t.Joined c a b)

include h

theorem source_ne : a ≠ b := by
  rintro rfl
  exact c.source_ne (placed_inj h.wellFormed h.source h.follower)

/-- The groups strictly below one that is not above the two follow no others and are muted. -/
theorem freeBelow (hrep : (τ.partAt p).any (·.1.isRepeated) = true) : t.FreeBelow τ p where
  wellFormed := h.wellFormed
  models := h.models
  unbound := by
    rintro q σ name ⟨i, hq⟩ hpart
    refine c.alone hpart ?_
    rintro rfl
    cases c.outer hrep (.inl rfl) (not_not.mp fun hnot => not_suffix_of_cons hnot hq)
    exact not_cons_suffix i _ hq
  muted := by
    rintro q x ⟨i, hq⟩ hx w hw
    obtain ⟨-, rfl⟩ := h.watches hw
    cases placed_inj h.wellFormed hx h.source
    cases c.outer hrep (.inr rfl) (not_not.mp fun hnot => not_suffix_of_cons hnot hq)
    exact absurd hq (not_cons_suffix i _)

/-- A group other than the follower is free if the follower has no elements to lose by it. -/
theorem freeAt (hrep : (τ.partAt p).any (·.1.isRepeated) = true) (hp : t.placed p = some x) (hne : x ≠ b)
    (hserved : x = a → ¬ t.Served b) : t.FreeAt τ p := by
  have hbelow := h.freeBelow hrep
  have hpne : p ≠ c.follower := by
    rintro rfl
    exact hne (Option.some.inj (hp.symm.trans h.follower))
  have hcases : ∀ {q}, p <:+ q → q = p ∨ ∃ i, (i :: p) <:+ q := by
    rintro q ⟨r, rfl⟩
    rcases List.eq_nil_or_concat r with rfl | ⟨r, i, rfl⟩
    · exact .inl rfl
    · exact .inr ⟨i, r, by simp⟩
  refine ⟨h.wellFormed, h.models, fun {q σ name} hq hpart => ?_, fun {q y} hq hy => ?_⟩
  · rcases hcases hq with rfl | hq
    · exact c.alone hpart hpne
    · exact hbelow.unbound hq hpart
  · rcases hcases hq with rfl | hq
    · cases hp.symm.trans hy
      intro w hw
      obtain ⟨rfl, rfl⟩ := h.watches hw
      obtain ⟨m, hm⟩ := live_of_placed h.wellFormed h.follower
      refine ⟨lt_size hm, hserved rfl, fun q' hq' hsuffix => ?_⟩
      cases placed_inj h.wellFormed hq' h.follower
      exact hpne (c.outer hrep (.inl rfl) hsuffix)
    · exact hbelow.muted hq hy

/-- The two groups stay where they are. -/
theorem placed (hev : Evolves (fun _ => True) t t') :
    t'.placed c.follower = some b ∧ t'.placed c.source = some a := by
  have hgrows := hev.grows h.wellFormed
  have hwf' := hev.wellFormed h.wellFormed
  exact ⟨hgrows.placed_outer hwf' h.models h.follower fun hp hne => c.not_isRepeated (.inl rfl) hp hne,
    hgrows.placed_outer hwf' h.models h.source fun hp hne => c.not_isRepeated (.inr rfl) hp hne⟩

/-- What happens in the part at a position leaves no new group without elements. -/
theorem closes (hcloses : Closes p t t') : t'.Joined c a b where
  wellFormed := hcloses.evolves.wellFormed h.wellFormed
  models := h.models.evolve h.wellFormed τ.cellsIn_true hcloses.evolves
  follower := (h.placed hcloses.evolves).1
  source := (h.placed hcloses.evolves).2
  watches := fun hw => h.watches (hcloses.watches hw)
  idle := fun hy => h.idle (hcloses.busy hy)
  inner := hcloses.readyBelow h.wellFormed h.inner

/-- A change that leaves children alone, and phases of other groups than the follower. -/
theorem of_alike (halike : t.Alike t') (hidle : ∀ {y}, t'.Busy y → y = b)
    (hpending : ∀ {y}, t'.Pending y → y = b ∨ t.Pending y)
    (hwatches : ∀ {w y}, t'.Watches w y → w = b ∧ y = a) : t'.Joined c a b where
  wellFormed := halike.wellFormed h.wellFormed
  models := h.models.evolve h.wellFormed τ.cellsIn_true (.of_alike halike fun _ _ _ _ _ _ => trivial)
  follower := (halike.placed _).trans h.follower
  source := (halike.placed _).trans h.source
  watches := hwatches
  idle := hidle
  inner := by
    intro r i y hy hy'
    rw [halike.placed] at hy
    rcases hpending hy' with rfl | hy'
    · have hlength := congrArg List.length (placed_inj h.wellFormed hy h.follower)
      rw [List.length_append, List.length_cons] at hlength
      omega
    · exact h.inner hy hy'

end Joined

-- ---------------------------------------------------------------------------
-- Other groups
-- ---------------------------------------------------------------------------

/-- The follower is as it was, with all that is below it, and so is the source if it was ready. -/
structure Bypasses (c : Coupling τ) (a b : NodeId) (t t' : Tree) : Prop where
  evolves : Evolves (fun _ => True) t t'
  kept : ∀ {r y}, t.placed (r ++ c.follower) = some y →
    (t'.node? y).map Node.bare = (t.node? y).map Node.bare
  source : ∀ {k}, t.states a = some (.ready, k) → t'.states a = some (.ready, k)
  busy : ∀ {y}, t'.Busy y → t.Busy y
  pending : ∀ {y}, t'.Pending y → t.Pending y
  watches : ∀ {w y}, t'.Watches w y → t.Watches w y
  heard : t.Watches b a → t'.Watches b a

namespace Bypasses

theorem refl : t.Bypasses c a b t :=
  ⟨.refl _ t, fun _ => rfl, fun h => h, fun h => h, fun h => h, fun h => h, fun h => h⟩

theorem of_like (hlike : t.Like t') : t.Bypasses c a b t' where
  evolves := hlike.evolves
  kept := fun {_ y} _ => hlike.nodes y
  source := fun hk => hlike.states ▸ hk
  busy := fun hy => by rwa [busy_iff, hlike.states, ← busy_iff] at hy
  pending := fun hy => by rwa [pending_iff, hlike.states, ← pending_iff] at hy
  watches := hlike.watches.mp
  heard := hlike.watches.mpr

/-- There is at a position below the follower what was there. -/
theorem placed_iff (h : t.Joined c a b) (hbypasses : t.Bypasses c a b t') :
    t'.placed (r ++ c.follower) = some y ↔ t.placed (r ++ c.follower) = some y := by
  have hfollower := (h.placed hbypasses.evolves).1
  induction r generalizing y with
  | nil =>
    rw [List.nil_append, h.follower, hfollower]
  | cons i r ih =>
    rw [List.cons_append, placed_cons, placed_cons]
    constructor
    · rintro ⟨above, n', habove, hn', hi⟩
      have habove := ih.mp habove
      have hkept := hbypasses.kept habove
      rw [hn'] at hkept
      obtain ⟨n, hn, hbare⟩ := Option.map_eq_some_iff.mp hkept.symm
      have hch := Node.children_of_bare hbare
      exact ⟨above, n, habove, hn, (congrArg (·[i]?) hch).trans hi⟩
    · rintro ⟨above, n, habove, hn, hi⟩
      have hkept := hbypasses.kept habove
      rw [hn] at hkept
      obtain ⟨n', hn', hbare⟩ := Option.map_eq_some_iff.mp hkept
      have hch := Node.children_of_bare hbare
      exact ⟨above, n', ih.mpr habove, hn', (congrArg (·[i]?) hch).trans hi⟩

theorem trans (h : t.Joined c a b) (h₁ : t.Bypasses c a b t₁) (h₂ : t₁.Bypasses c a b t₂) : t.Bypasses c a b t₂ where
  evolves := h₁.evolves.trans h₂.evolves
  kept := fun hy => (h₂.kept ((h₁.placed_iff h).mpr hy)).trans (h₁.kept hy)
  source := fun hk => h₂.source (h₁.source hk)
  busy := fun hy => h₁.busy (h₂.busy hy)
  pending := fun hy => h₁.pending (h₂.pending hy)
  watches := fun hw => h₁.watches (h₂.watches hw)
  heard := fun hw => h₂.heard (h₁.heard hw)

theorem joined (h : t.Joined c a b) (hbypasses : t.Bypasses c a b t') : t'.Joined c a b where
  wellFormed := hbypasses.evolves.wellFormed h.wellFormed
  models := h.models.evolve h.wellFormed τ.cellsIn_true hbypasses.evolves
  follower := (h.placed hbypasses.evolves).1
  source := (h.placed hbypasses.evolves).2
  watches := fun hw => h.watches (hbypasses.watches hw)
  idle := fun hy => h.idle (hbypasses.busy hy)
  inner := by
    intro r i y hy hpending
    have hcons : r ++ i :: c.follower = (r ++ [i]) ++ c.follower := by simp
    rw [hcons, hbypasses.placed_iff h, ← hcons] at hy
    exact h.inner hy (hbypasses.pending hpending)

/-- The follower is in the state in which it was. -/
theorem states (h : t.Joined c a b) (hbypasses : t.Bypasses c a b t') : t'.states b = t.states b :=
  states_congr (hbypasses.kept (r := []) h.follower)

theorem primed (hbypasses : t.Bypasses c a b t') (h : t.Primed a b k) : t'.Primed a b k :=
  ⟨hbypasses.source h.source, hbypasses.heard h.watched⟩

theorem shows (h : t.Joined c a b) (hbypasses : t.Bypasses c a b t') {i : Nat} (hshows : t.Shows c a i) :
    t'.Shows c a i := by
  intro x n' hx hn'
  have hcons : c.leaf ++ i :: c.follower = (c.leaf ++ [i]) ++ c.follower := by simp
  rw [hcons, hbypasses.placed_iff h] at hx
  have hkept := hbypasses.kept hx
  rw [hn'] at hkept
  obtain ⟨n, hn, hbare⟩ := Option.map_eq_some_iff.mp hkept.symm
  have hcell : n.cell = n'.cell := Node.cell_of_bare hbare
  rw [← hcons] at hx
  exact hcell ▸ hshows hx hn

theorem coupled (h : t.Coupled c a b) (hbypasses : t.Bypasses c a b t') : t'.Coupled c a b where
  toJoined := hbypasses.joined h.toJoined
  current := by
    intro k hk
    rw [hbypasses.states h.toJoined] at hk
    obtain ⟨hprimed, hshows⟩ := h.current hk
    exact ⟨hbypasses.primed hprimed, fun i => hbypasses.shows h.toJoined (hshows i)⟩

theorem quiet (hbypasses : t.Bypasses c a b t') (h : t.Quiet b) : t'.Quiet b :=
  fun _ hy => h (hbypasses.pending hy)

/-- What happens in the part of another group bypasses the two, unless that group is the source and ready. -/
theorem of_closes (h : t.Joined c a b) (hp : t.placed p = some x)
    (hrep : (τ.partAt p).any (·.1.isRepeated) = true) (hout : ¬ c.follower <:+ p)
    (hself : x = a → ∀ {k}, t.states a = some (.ready, k) → t'.states a = some (.ready, k))
    (hcloses : Closes p t t') : t.Bypasses c a b t' where
  evolves := hcloses.evolves
  kept := fun hy => hcloses.frame hy (c.apart_of_not_suffix hrep hout)
  source := by
    intro k hk
    by_cases hx : x = a
    · exact hself hx hk
    · rw [states_congr (hcloses.frame h.source fun hsuffix => ?_)]
      · exact hk
      · cases c.outer hrep (.inr rfl) hsuffix
        exact hx (Option.some.inj (hp.symm.trans h.source))
  busy := hcloses.busy
  pending := hcloses.pending
  watches := hcloses.watches
  heard := by
    intro hw
    exact hcloses.heard hw
      (isLive_of_placed (hcloses.evolves.wellFormed h.wellFormed) (h.placed hcloses.evolves).2)

end Bypasses

-- ---------------------------------------------------------------------------
-- Touching groups
-- ---------------------------------------------------------------------------

/-- The follower is being initialized. -/
structure Entered (c : Coupling τ) (a b : NodeId) (t : Tree) : Prop extends t.Joined c a b where
  busy : t.Busy b

theorem Bypasses.entered (h : t.Entered c a b) (hbypasses : t.Bypasses c a b t') : t'.Entered c a b where
  toJoined := hbypasses.joined h.toJoined
  busy := by
    rw [busy_iff, hbypasses.states h.toJoined, ← busy_iff]
    exact h.busy

theorem Entered.not_served (h : t.Entered c a b) : ¬ t.Served b := by
  intro hserved
  obtain ⟨k, hk⟩ := served_iff.mp hserved
  obtain ⟨l, hl⟩ := busy_iff.mp h.busy
  cases hk.symm.trans hl

/-- Initializing a group other than the follower bypasses the two. -/
theorem Coupled.init_bypasses (h : t.Coupled c a b) (hx : t.Pending x) (hne : x ≠ b) (depth : Nat) :
    wp (runTask depth (.init x)) (fun r t' => r = .ok () →
      t.Bypasses c a b t' ∧ t'.isLive x = true ∧ ¬ t'.Pending x) t := by
  obtain ⟨n, g, hn, hk, hphase⟩ := id hx
  obtain ⟨p, hp⟩ := exists_position h.wellFormed hn
  obtain ⟨σ, name, hpart, hm⟩ := h.models.placed hp
  have hσ : σ.isRepeated = true := by
    rw [← (hm.kind hn).2, hk]
    rfl
  have hrep : (τ.partAt p).any (·.1.isRepeated) = true := by rw [hpart, Option.any_some, hσ]
  have hidle : ¬ t.Busy x := fun hbusy => hne (h.idle hbusy)
  have hlost : ∀ {k}, x = a → t.states a ≠ some (.ready, k) := by
    rintro k rfl hready
    obtain ⟨phase, l, hl, hphase⟩ := pending_iff.mp hx
    cases hl.symm.trans hready
    exact hphase rfl
  have hfree := h.freeAt hrep hp hne fun hxa hserved => by
    obtain ⟨k, hk⟩ := served_iff.mp hserved
    exact hlost hxa (h.current hk).1.source
  have hout : ¬ c.follower <:+ p := by
    rintro ⟨r, rfl⟩
    rcases List.eq_nil_or_concat r with rfl | ⟨r, i, rfl⟩
    · exact hne (Option.some.inj (hp.symm.trans h.follower))
    · rw [List.concat_eq_append, List.append_assoc] at hp
      exact h.inner hp hx
  refine ((runTask_closes depth hfree hp hpart).2 hσ).mono ?_
  rintro r t' ⟨hok, -⟩ hr
  obtain ⟨hcloses, hlive, hself⟩ := hok hr
  exact ⟨.of_closes h.toJoined hp hrep hout (fun hxa _ hready => absurd hready (hlost hxa)) hcloses, hlive,
    fun hpending => hidle (hself hpending)⟩

section

variable {init : NodeId → TreeM Unit}

/-- Where all groups have their elements or are on the way, nothing is initialized. -/
theorem touchWith_idle (h : t.Pending id → t.Busy id) : wp (touchWith init id) (fun _ t' => t' = t) t := by
  unfold touchWith
  cases hg : t.group id with
  | error e => exact (wp.look_error hg).mpr rfl
  | ok g =>
    obtain ⟨n, hn, hk⟩ := group_eq_ok.mp hg
    rw [wp.look_ok hg]
    have hpending : g.phase ≠ .ready → g.phase = .initializing := by
      intro hphase
      obtain ⟨m, g', hm, hk', hbusy⟩ := h ⟨n, g, hn, hk, hphase⟩
      rw [hn] at hm
      cases hm
      rw [hk] at hk'
      cases hk'
      exact hbusy
    cases hphase : g.phase with
    | uninit => exact absurd (hpending (by simp [hphase])) (by simp [hphase])
    | stale => exact absurd (hpending (by simp [hphase])) (by simp [hphase])
    | initializing => rfl
    | ready => rfl

end

/-- While the follower is being initialized, touching groups bypasses the two. -/
theorem Entered.touch_bypasses (h : t.Entered c a b) (depth : Nat) {x : NodeId} :
    wp (touchWith (fun id => runTask depth (.init id)) x) (fun r t' =>
      (r = .ok () → t.Bypasses c a b t' ∧ t'.isLive x = true) ∧ (t.Quiet b → t' = t)) t := by
  have hquiet : t.Quiet b → t.Pending x → t.Busy x := fun hquiet hx => hquiet hx ▸ h.busy
  have hcoupled : t.Coupled c a b := ⟨h.toJoined, fun hk => absurd (served_iff.mpr ⟨_, hk⟩) h.not_served⟩
  unfold touchWith
  cases hg : t.group x with
  | error e => exact (wp.look_error hg).mpr ⟨fun hr => absurd hr error_ne_ok, fun _ => rfl⟩
  | ok g =>
    obtain ⟨n, hn, hk⟩ := group_eq_ok.mp hg
    rw [wp.look_ok hg]
    have hidle : (Except.ok () : Except TreeError Unit) = .ok () → t.Bypasses c a b t ∧ t.isLive x = true :=
      fun _ => ⟨.refl, isLive_iff_node?.mpr ⟨n, hn⟩⟩
    have hinit : g.phase ≠ .ready → g.phase ≠ .initializing →
        wp (runTask depth (.init x)) (fun r t' =>
          (r = .ok () → t.Bypasses c a b t' ∧ t'.isLive x = true) ∧ (t.Quiet b → t' = t)) t := by
      intro hready hbusy
      have hx : t.Pending x := ⟨n, g, hn, hk, hready⟩
      have hnot : ¬ t.Busy x := by
        rintro ⟨m, g', hm, hk', hphase⟩
        rw [hn] at hm
        cases hm
        rw [hk] at hk'
        cases hk'
        exact hbusy hphase
      have hne : x ≠ b := by
        rintro rfl
        exact hnot h.busy
      refine (hcoupled.init_bypasses hx hne depth).mono fun r t' hr => ?_
      exact ⟨fun hok => ⟨(hr hok).1, (hr hok).2.1⟩, fun hq => absurd (hquiet hq hx) hnot⟩
    cases hphase : g.phase with
    | uninit => exact hinit (by simp [hphase]) (by simp [hphase])
    | stale => exact hinit (by simp [hphase]) (by simp [hphase])
    | initializing => exact ⟨hidle, fun _ => rfl⟩
    | ready => exact ⟨hidle, fun _ => rfl⟩

/-- Following a path bypasses the two as well, and does not change a quiet tree. -/
theorem Entered.pathRules (h : t.Entered c a b) (depth : Nat) :
    PathRules (fun _ => True) τ (fun id => runTask depth (.init id)) (fun _ => True)
      (fun t' _ => t.Bypasses c a b t' ∧ (t.Quiet b → t' = t)) (fun t' => t.Quiet b → t' = t) where
  wellFormed := fun hs => (hs.1.joined h.toJoined).wellFormed
  models := fun hs => (hs.1.joined h.toJoined).models
  fail := fun hs => hs.2
  climb := fun hs _ => hs
  descend := fun hs _ => hs
  touch := by
    rintro s p id ⟨hbypasses, hquiet⟩ - hp -
    have hs := hbypasses.entered h
    refine (hs.touch_bypasses depth).mono fun r t' ht' => ?_
    have hquiet' : t.Quiet b → t' = t := fun hq => (ht'.2 (hbypasses.quiet hq)).trans (hquiet hq)
    refine ⟨fun hr => ?_, fun _ _ => hquiet'⟩
    obtain ⟨hbypasses', hlive⟩ := ht'.1 hr
    have hwf' := hbypasses'.evolves.wellFormed hs.wellFormed
    exact ⟨⟨hbypasses.trans h.toJoined hbypasses', hquiet'⟩,
      (hbypasses'.evolves.grows hs.wellFormed).placed hs.wellFormed hwf' hp hlive,
      fun _ => ⟨hbypasses.trans h.toJoined hbypasses', hquiet'⟩⟩

end Tree

end FormatFuzz
