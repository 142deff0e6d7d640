-- SUMMARY: The choices that a fuzz run tries, as a list.
import FormatFuzz.Fuzz.Run
import FormatFuzz.Proofs.Enumeration
import FormatFuzz.Proofs.Wp

/-!
# Schedules

The loops of a run over sizes, subsets and choices come down to one walk over a list that depends on
the targets and the plan only (`Campaign.schedule`). What each trial keeps of the rest of the list is
kept by the walk (`Campaign.tryAll_rule`); where it matters which subset the choices are for, the walk is
followed subset by subset (`Campaign.tryAll_walks`).
-/

namespace FormatFuzz

/-- The subsets of `n` fields that a plan asks for, as places, in order. -/
def Plan.asked (p : Plan) (n : Nat) : List (List Nat) := (p.sizes n).flatMap (Subsets.all n n)

namespace Campaign

/-- The members of a subset. -/
def members (targets : List Target) (subset : List Nat) : List Target :=
  subset.filterMap (targets[·]?)

/-- The key that a subset is known by. -/
def keyOf (targets : List Target) (subset : List Nat) : String :=
  subsetKey ((members targets subset).map (·.name))

/-- The choices for the members of a subset. -/
def choicesOf (targets : List Target) (subset : List Nat) : List (List (Target × Value)) :=
  (Choices.all ((members targets subset).map (·.candidates.length))).map (choose (members targets subset))

/-- The subsets less those whose key has been met before. -/
def unmet (targets : List Target) :
    (walked : List String) → (subsets : List (List Nat)) → List (List Nat)
  | _, [] => []
  | walked, subset :: rest =>
    if keyOf targets subset ∈ walked then
      unmet targets walked rest
    else
      subset :: unmet targets (keyOf targets subset :: walked) rest

/-- The choices for subsets, less those whose key has been met before. -/
def scheduled (targets : List Target) (walked : List String) (subsets : List (List Nat)) :
    List (List (Target × Value)) :=
  (unmet targets walked subsets).flatMap (choicesOf targets)

/-- All choices of a run. -/
def schedule (c : Campaign) (targets : List Target) : List (List (Target × Value)) :=
  scheduled targets [] (c.plan.asked targets.length)

variable {σ : Type} {sink : Sink σ} {targets : List Target}

theorem mem_of_mem_choose {fields : List Target} {choice : List Nat} {pair : Target × Value}
    (h : pair ∈ choose fields choice) : pair.1 ∈ fields := by
  rw [choose, List.mem_iff_getElem] at h
  obtain ⟨i, hi, rfl⟩ := h
  rw [List.getElem_zipWith]
  exact List.getElem_mem _

/-- Only targets are changed. -/
theorem mem_of_mem_scheduled {walked : List String} {subsets : List (List Nat)}
    {chosen : List (Target × Value)} (h : chosen ∈ scheduled targets walked subsets)
    {pair : Target × Value} (hpair : pair ∈ chosen) : pair.1 ∈ targets := by
  obtain ⟨subset, -, hchosen⟩ := List.mem_flatMap.mp h
  obtain ⟨choice, -, rfl⟩ := List.mem_map.mp hchosen
  obtain ⟨i, -, hi⟩ := List.mem_filterMap.mp (mem_of_mem_choose hpair)
  exact List.mem_of_getElem? hi

/-- A trial does not touch the keys of the subsets walked. -/
theorem tryChoice_walked (c : Campaign) (chosen : List (Target × Value)) (s : RunState σ) :
    wp (c.tryChoice sink targets chosen) (fun _ s' => s'.walked = s.walked) s := by
  have hlimit : wp (c.checkLimit : RunM σ Unit) (fun _ s' => s'.walked = s.walked) s := by
    unfold checkLimit
    rw [wp.bind, wp.get]
    dsimp only
    split
    · rw [wp.bind, wp.modify, wp.throw]
    · rfl
  unfold tryChoice
  rw [wp.bind]
  refine hlimit.mono ?_
  rintro (e | _) s₁ h₁
  · exact h₁
  dsimp only
  rw [wp.bind, wp.get]
  dsimp only
  split
  · simpa only [wp.bind, wp.set, wp.throw] using h₁
  · simp only [wp.bind, wp.set]
    split
    · exact h₁
    · exact h₁

section

variable {B : List (List Nat) → RunState σ → Prop}
  {W : List (List (Target × Value)) → List (List Nat) → RunState σ → Prop} {Q : Stop → RunState σ → Prop}
  (c : Campaign)
  (hsubset : ∀ subset rest s walked, B (subset :: rest) s → W (choicesOf targets subset) rest
    { s with walked, report := { s.report with subsets := s.report.subsets + 1 } })
  (htrial : ∀ chosen left rest s, W (chosen :: left) rest s →
    wp (c.tryChoice sink targets chosen) (fun r s' => match r with
      | .ok _ => W left rest s'
      | .error e => Q e s') s)
  (hover : ∀ rest s, W [] rest s → B rest s)

include htrial

theorem tryChoices_rule {fields : List Target} (limit : Nat) (choices : Choices)
    {rest : List (List Nat)} {s : RunState σ} (h : W ((choices.take limit).map (choose fields)) rest s) :
    wp (c.tryChoices sink targets fields limit choices) (fun r s' => match r with
      | .ok _ => W [] rest s' ∧ s'.walked = s.walked
      | .error e => Q e s') s := by
  induction limit generalizing choices s with
  | zero => exact ⟨h, rfl⟩
  | succ limit ih =>
    unfold tryChoices
    rw [Choices.take] at h
    cases hnext : choices.next? with
    | none =>
      rw [hnext] at h
      exact ⟨h, rfl⟩
    | some found =>
      obtain ⟨choice, choices⟩ := found
      rw [hnext] at h
      dsimp only
      rw [wp.bind]
      refine ((htrial _ _ _ s h).and (c.tryChoice_walked _ s)).mono ?_
      rintro (e | _) s₁ ⟨h₁, hwalked⟩
      · exact h₁
      · exact hwalked ▸ ih choices h₁

include hsubset hover

theorem trySubset_rule (subset : List Nat) {subsets : List (List Nat)} {s : RunState σ}
    (h : B (unmet targets s.walked (subset :: subsets)) s) :
    wp (c.trySubset sink targets subset) (fun r s' => match r with
      | .ok _ => B (unmet targets s'.walked subsets) s'
      | .error e => Q e s') s := by
  unfold trySubset
  dsimp only
  rw [wp.bind, wp.get]
  dsimp only
  rw [unmet] at h
  split
  · rename_i hkey
    have hmet : keyOf targets subset ∈ s.walked := hkey
    rw [if_pos hmet] at h
    exact h
  · rename_i hkey
    have hnew : keyOf targets subset ∉ s.walked := hkey
    rw [if_neg hnew] at h
    have hstart := hsubset _ _ _ (keyOf targets subset :: s.walked) h
    rw [choicesOf, ← Choices.take_ofLengths] at hstart
    rw [wp.bind, wp.modify]
    refine (c.tryChoices_rule htrial _ _ hstart).mono ?_
    rintro (e | _) s₁ h₁
    · exact h₁
    · exact h₁.2 ▸ hover _ _ h₁.1

theorem trySubsets_rule (limit : Nat) (iterator : Subsets) {subsets : List (List Nat)}
    {s : RunState σ} (h : B (unmet targets s.walked (iterator.take limit ++ subsets)) s) :
    wp (c.trySubsets sink targets limit iterator) (fun r s' => match r with
      | .ok _ => B (unmet targets s'.walked subsets) s'
      | .error e => Q e s') s := by
  induction limit generalizing iterator s with
  | zero => exact h
  | succ limit ih =>
    unfold trySubsets
    rw [Subsets.take] at h
    cases hnext : iterator.next? with
    | none =>
      rw [hnext] at h
      exact h
    | some found =>
      obtain ⟨subset, iterator⟩ := found
      rw [hnext] at h
      dsimp only
      rw [wp.bind]
      refine (c.trySubset_rule hsubset htrial hover subset h).mono ?_
      rintro (e | _) s₁ h₁
      · exact h₁
      · exact ih iterator h₁

/-- A run walks the subsets of new keys and the choices for each. What holds between subsets, of those that
are left and of the state, may turn into something else while one is walked (`hsubset`), is handed on by every
trial (`htrial`) and has to be back when no choice is left (`hover`). Then it holds at the end. -/
theorem tryAll_walks {s : RunState σ} (hs : s.walked = [])
    (h : B (unmet targets [] (c.plan.asked targets.length)) s) :
    wp (c.tryAll sink targets) (fun r s' => match r with
      | .ok _ => B [] s'
      | .error e => Q e s') s := by
  have hloop : ∀ (sizes : List Nat) {s : RunState σ},
      B (unmet targets s.walked (sizes.flatMap (Subsets.all targets.length targets.length))) s →
      wp (forIn sizes PUnit.unit fun k _ => do
        c.trySubsets sink targets (Subsets.total targets.length k) (.ofSize targets.length k)
        return .yield PUnit.unit : RunM σ PUnit) (fun r s' => match r with
          | .ok _ => B [] s'
          | .error e => Q e s') s := by
    intro sizes
    induction sizes with
    | nil => exact fun h => h
    | cons k sizes ih =>
      intro s h
      rw [List.forIn_cons, bind_assoc, wp.bind]
      rw [List.flatMap_cons, ← Subsets.take_ofSize] at h
      refine (c.trySubsets_rule hsubset htrial hover _ _ h).mono ?_
      rintro (e | _) s₁ h₁
      · exact h₁
      · exact ih h₁
  unfold tryAll
  dsimp only
  rw [wp.bind]
  refine (hloop (c.plan.sizes targets.length) ?_).mono ?_
  · rw [hs]
    exact h
  · rintro (e | _) s₁ h₁ <;> exact h₁

end

/-- A run walks its schedule: what holds of the choices that are left and of the state, and is handed
on by every trial, holds at the end. -/
theorem tryAll_rule {I : List (List (Target × Value)) → RunState σ → Prop} {Q : Stop → RunState σ → Prop}
    (c : Campaign)
    (hmark : ∀ rest s walked subsets, I rest s →
      I rest { s with walked, report := { s.report with subsets } })
    (htry : ∀ chosen rest s, I (chosen :: rest) s →
      wp (c.tryChoice sink targets chosen) (fun r s' => match r with
        | .ok _ => I rest s'
        | .error e => Q e s') s)
    {s : RunState σ} (hs : s.walked = []) (h : I (c.schedule targets) s) :
    wp (c.tryAll sink targets) (fun r s' => match r with
      | .ok _ => I [] s'
      | .error e => Q e s') s := by
  refine c.tryAll_walks (B := fun rest s => I (rest.flatMap (choicesOf targets)) s)
    (W := fun left rest s => I (left ++ rest.flatMap (choicesOf targets)) s) ?_ ?_ ?_ hs h
  · intro subset rest s walked hrest
    rw [List.flatMap_cons] at hrest
    exact hmark _ s walked _ hrest
  · exact fun chosen left rest s hleft => htry chosen _ s hleft
  · exact fun rest s hnone => hnone

end Campaign

end FormatFuzz
