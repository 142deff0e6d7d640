-- SUMMARY: Groups that follow each other agree on their counts, whatever the order in which they are initialized.
import Mathlib.Logic.Relation
import Mathlib.Logic.Relator
import FormatFuzz.Tree.Groups

/-!
# Agreement

A group that follows another one asks it for its count, and that one is initialized first if it has
not been. A group that is asked while it is being initialized answers with its provisional count.
When the groups follow each other in a circle, the last one asks the first one, so that all of them
get the provisional count of the first one, which gets it back in the end. The last one goes stale
then, but it has the right count already.

`Agrees` is what holds of the states of all groups at any time. It is kept when a group is entered
(`Agrees.enter`), when it has its elements (`Agrees.leave`), and when a stale group is renewed
(`Agrees.renew`). The states are looked at apart from the tree here, and so is who follows whom.
-/

namespace FormatFuzz

open Relation (ReflTransGen TransGen)

/-- The phases of all groups, and how many elements each of them has. -/
abbrev States := NodeId → Option (Phase × Nat)

/-- The group has been initialized, and has a number of elements since. -/
def States.Done (s : States) (x : NodeId) (c : Nat) : Prop :=
  s x = some (.ready, c) ∨ s x = some (.stale, c)

/-- The groups that are being initialized are those on the stack, and the others agree. A group may
have got the provisional count of one on the stack, and then this is the number `answer`, too. -/
structure Agrees (F : NodeId → NodeId → Prop) (v : NodeId → Nat) (stack : List NodeId)
    (answer : Option Nat) (s : States) : Prop where
  busy : ∀ {x}, x ∈ stack ↔ ∃ c, s x = some (.initializing, c)
  unbound : ∀ {x c}, s.Done x c → (∀ y, ¬ F x y) → c = v x
  bound : ∀ {x y c}, s.Done x c → F x y → s.Done y c ∨ y ∈ stack ∧ c = v y ∧ answer = some c
  stale : ∀ {x c}, s x = some (.stale, c) →
    ∃ y, F x y ∧ s y = some (.ready, c) ∧ ∀ z, F y z → z ∉ stack
  origin : ∀ {x c}, s.Done x c → ∃ y, ReflTransGen F x y ∧ c = v y

/-- Where a group that is being initialized has its count from. -/
inductive Supplies (F : NodeId → NodeId → Prop) (v : NodeId → Nat) (stack : List NodeId) (s : States)
    (x : NodeId) (answer : Option Nat) (c : Nat) : Prop where
  /-- It follows no other group. -/
  | own : (∀ y, ¬ F x y) → c = v x → answer = none → Supplies F v stack s x answer c
  /-- It follows a group that has its elements, or has got them on this occasion. -/
  | ready {y : NodeId} : F x y → s y = some (.ready, c) → answer = none ∨ answer = some c →
      Supplies F v stack s x answer c
  /-- It follows a group that is being initialized itself. -/
  | busy {y : NodeId} : F x y → y ∈ stack → c = v y → answer = none → Supplies F v stack s x answer c

/-- Groups that have been initialized keep their counts, and busy ones are left alone. -/
structure Progress (stack : List NodeId) (s s' : States) : Prop where
  ready : ∀ {x c}, s x = some (.ready, c) → s' x = some (.ready, c)
  done : ∀ {x c}, s.Done x c → s'.Done x c
  busy : ∀ {x}, x ∈ stack → s' x = s x

/-- The group `x` has its elements, and groups that follow it have gone stale. -/
structure Marks (F : NodeId → NodeId → Prop) (x : NodeId) (c : Nat) (s s' : States) : Prop where
  self : s' x = some (.ready, c)
  other : ∀ {y}, y ≠ x → s' y = s y ∨
    F y x ∧ ∃ d, s y = some (.ready, d) ∧ s' y = some (.stale, d)

variable {F : NodeId → NodeId → Prop} {v : NodeId → Nat} {stack : List NodeId}
  {answer : Option Nat} {s s₁ s₂ s' : States} {x y : NodeId} {c : Nat}

/-- A way out of a circle comes back to it. -/
theorem reflTransGen_of_circle (hunique : Relator.RightUnique F) (hcircle : TransGen F x x)
    (hpath : ReflTransGen F x y) : ReflTransGen F y x := by
  have hback : ∀ {y z}, ReflTransGen F y x → F y z → ReflTransGen F z x := by
    intro y z hy hyz
    rcases hy.cases_head with rfl | ⟨w, hyw, hw⟩
    · obtain ⟨w, hyw, hw⟩ := TransGen.head'_iff.mp hcircle
      exact hunique hyw hyz ▸ hw
    · exact hunique hyw hyz ▸ hw
  induction hpath with
  | refl => exact .refl
  | tail _ hyz ih => exact hback ih hyz

namespace States.Done

theorem ne_of_uninit {d : Nat} (h : s.Done y d) (hx : s x = some (.uninit, c)) : y ≠ x := by
  rintro rfl
  rcases h with h | h <;> cases hx.symm.trans h

theorem ne_of_busy {d : Nat} (h : s.Done y d) (hx : s x = some (.initializing, c)) : y ≠ x := by
  rintro rfl
  rcases h with h | h <;> cases hx.symm.trans h

end States.Done

theorem Supplies.eq_of_some (h : Supplies F v stack s x answer c) {d : Nat}
    (hanswer : answer = some d) : d = c := by
  cases h with
  | own _ _ hnone => cases hanswer.symm.trans hnone
  | ready _ _ hor =>
    rcases hor with hnone | hsome
    · cases hanswer.symm.trans hnone
    · cases hanswer.symm.trans hsome
      rfl
  | busy _ _ _ hnone => cases hanswer.symm.trans hnone

namespace Marks

variable {d : Nat} (h : Marks F x c s s')

include h

theorem eq_of_done (hx : s'.Done x d) : d = c := by
  rcases hx with hx | hx <;> cases h.self.symm.trans hx
  rfl

theorem old (hyx : y ≠ x) (hy : s'.Done y d) : s.Done y d := by
  rcases h.other hyx with heq | ⟨-, e, he, he'⟩
  · exact hy.imp heq.symm.trans heq.symm.trans
  · rcases hy with hy | hy <;> cases he'.symm.trans hy
    exact .inl he

theorem new (hyx : y ≠ x) (hy : s.Done y d) : s'.Done y d := by
  rcases h.other hyx with heq | ⟨-, e, he, he'⟩
  · exact hy.imp heq.trans heq.trans
  · rcases hy with hy | hy <;> cases he.symm.trans hy
    exact .inr he'

end Marks

namespace Progress

theorem refl (stack : List NodeId) (s : States) : Progress stack s s :=
  ⟨fun h => h, fun h => h, fun _ => rfl⟩

theorem trans (h : Progress stack s s₁) (h' : Progress stack s₁ s') : Progress stack s s' where
  ready := fun hx => h'.ready (h.ready hx)
  done := fun hx => h'.done (h.done hx)
  busy := fun hx => (h'.busy hx).trans (h.busy hx)

end Progress

namespace Agrees

/-- When nothing is busy, nothing has come from a busy group. -/
theorem calm (h : Agrees F v [] answer s) : Agrees F v [] none s where
  busy := h.busy
  unbound := h.unbound
  bound := fun hx hF => (h.bound hx hF).imp_right fun hy => absurd hy.1 List.not_mem_nil
  stale := h.stale
  origin := h.origin

/-- What a group follows has been initialized before it. -/
theorem done (h : Agrees F v stack none s) (hx : s.Done x c) (hF : F x y) : s.Done y c :=
  (h.bound hx hF).resolve_right fun hy => by cases hy.2.2

-- ---------------------------------------------------------------------------
-- Entering
-- ---------------------------------------------------------------------------

theorem enter (h : Agrees F v stack none s) (hx : s x = some (.uninit, c))
    (hx' : s' x = some (.initializing, c)) (hne : ∀ y, y ≠ x → s' y = s y) :
    Agrees F v (x :: stack) none s' := by
  have hold : ∀ {y d}, s'.Done y d → s.Done y d := by
    intro y d hy
    have hy' := hne y (hy.ne_of_busy hx')
    exact hy.imp hy'.symm.trans hy'.symm.trans
  have hnew : ∀ {y d}, s.Done y d → s'.Done y d := by
    intro y d hy
    have hy' := hne y (hy.ne_of_uninit hx)
    exact hy.imp hy'.trans hy'.trans
  constructor
  case busy =>
    intro y
    by_cases hy : y = x
    · subst hy
      exact iff_of_true List.mem_cons_self ⟨c, hx'⟩
    · rw [List.mem_cons, or_iff_right hy, h.busy, hne y hy]
  case unbound => exact fun hy hF => h.unbound (hold hy) hF
  case bound => exact fun hy hF => .inl (hnew (h.done (hold hy) hF))
  case stale =>
    intro y d hy
    have hy₀ : s.Done y d := hold (.inr hy)
    obtain ⟨z, hF, hz, hfree⟩ := h.stale ((hne y (hy₀.ne_of_uninit hx)).symm.trans hy)
    refine ⟨z, hF, (hne z (States.Done.ne_of_uninit (.inl hz) hx)).trans hz, fun w hw => ?_⟩
    rw [List.mem_cons, not_or]
    exact ⟨(h.done (.inl hz) hw).ne_of_uninit hx, hfree w hw⟩
  case origin => exact fun hy => h.origin (hold hy)

-- ---------------------------------------------------------------------------
-- Leaving
-- ---------------------------------------------------------------------------

section

variable (hunique : Relator.RightUnique F) (h : Agrees F v (x :: stack) answer s)
  (hc : Supplies F v (x :: stack) s x answer c) (hmarks : Marks F x c s s')

include h in
/-- A group that follows `x` already has the provisional count of `x`, and that has come back. -/
theorem answer_of_follows (hc : Supplies F v (x :: stack) s x answer c) {d : Nat} (hy : s.Done y d)
    (hF : F y x) : d = c ∧ answer = some c := by
  obtain ⟨e, hx⟩ := h.busy.mp List.mem_cons_self
  obtain ⟨-, -, hanswer⟩ := (h.bound hy hF).resolve_left fun hdone => hdone.ne_of_busy hx rfl
  have hsome := hc.eq_of_some hanswer
  exact ⟨hsome, hsome ▸ hanswer⟩

include h hmarks in
theorem done_of_marks {d : Nat} (hy : s.Done y d) : s'.Done y d := by
  obtain ⟨e, hx⟩ := h.busy.mp List.mem_cons_self
  exact hmarks.new (hy.ne_of_busy hx) hy

include hunique h hc hmarks

theorem leave_bound {z : NodeId} {d : Nat} (hy : s'.Done y d) (hF : F y z) :
    s'.Done z d ∨ z ∈ stack ∧ d = v z ∧ some c = some d := by
  by_cases hyx : y = x
  · subst hyx
    cases hmarks.eq_of_done hy
    cases hc with
    | own hnone _ _ => exact absurd hF (hnone z)
    | ready hFz hz _ =>
      cases hunique hF hFz
      exact .inl (h.done_of_marks hmarks (.inl hz))
    | busy hFz hmem hv _ =>
      cases hunique hF hFz
      rcases List.mem_cons.mp hmem with rfl | hmem
      · exact .inl (.inl hmarks.self)
      · exact .inr ⟨hmem, hv, rfl⟩
  · have hy₀ := hmarks.old hyx hy
    rcases h.bound hy₀ hF with hz | ⟨hmem, hv, hanswer⟩
    · exact .inl (h.done_of_marks hmarks hz)
    · rcases List.mem_cons.mp hmem with rfl | hmem
      · obtain ⟨rfl, -⟩ := h.answer_of_follows hc hy₀ hF
        exact .inl (.inl hmarks.self)
      · -- The answer has gone through `x`, so it is the count of `x`.
        exact .inr ⟨hmem, hv, congrArg some (hc.eq_of_some hanswer).symm⟩

theorem leave_stale {d : Nat} (hy : s' y = some (.stale, d)) :
    ∃ z, F y z ∧ s' z = some (.ready, d) ∧ ∀ w, F z w → w ∉ stack := by
  have hyx : y ≠ x := by
    rintro rfl
    cases hmarks.self.symm.trans hy
  rcases hmarks.other hyx with heq | ⟨hF, e, he, he'⟩
  · obtain ⟨z, hF, hz, hfree⟩ := h.stale (heq.symm.trans hy)
    obtain ⟨e, hx⟩ := h.busy.mp List.mem_cons_self
    refine ⟨z, hF, ?_, fun w hw hmem => hfree w hw (List.mem_cons_of_mem _ hmem)⟩
    rcases hmarks.other (States.Done.ne_of_busy (.inl hz) hx) with heq | ⟨hFx, -⟩
    · exact heq.trans hz
    · exact absurd List.mem_cons_self (hfree x hFx)
  · cases he'.symm.trans hy
    obtain ⟨rfl, hanswer⟩ := h.answer_of_follows hc (.inl he) hF
    refine ⟨x, hF, hmarks.self, fun z hFz hmem => ?_⟩
    cases hc with
    | own hnone _ _ => exact hnone z hFz
    | ready hFw hw _ =>
      cases hunique hFz hFw
      obtain ⟨e', he'⟩ := h.busy.mp (List.mem_cons_of_mem x hmem)
      cases hw.symm.trans he'
    | busy _ _ _ hnone => cases hanswer.symm.trans hnone

omit hunique in
theorem leave_origin {d : Nat} (hy : s'.Done y d) : ∃ z, ReflTransGen F y z ∧ d = v z := by
  by_cases hyx : y = x
  · subst hyx
    cases hmarks.eq_of_done hy
    cases hc with
    | own _ hv _ => exact ⟨y, .refl, hv⟩
    | ready hFz hz _ =>
      obtain ⟨w, hpath, hv⟩ := h.origin (.inl hz)
      exact ⟨w, .head hFz hpath, hv⟩
    | busy hFz _ hv _ => exact ⟨_, .single hFz, hv⟩
  · exact h.origin (hmarks.old hyx hy)

theorem leave (hx : x ∉ stack) : Agrees F v stack (some c) s' where
  busy := by
    intro y
    by_cases hyx : y = x
    · subst hyx
      refine iff_of_false hx ?_
      rintro ⟨e, he⟩
      cases hmarks.self.symm.trans he
    · have hmem : y ∈ stack ↔ y ∈ x :: stack := by rw [List.mem_cons, or_iff_right hyx]
      rw [hmem, h.busy]
      rcases hmarks.other hyx with heq | ⟨-, e, he, he'⟩
      · rw [heq]
      · rw [he, he']
        refine iff_of_false ?_ ?_ <;> rintro ⟨_, h⟩ <;> cases h
  unbound := by
    intro y d hy hF
    by_cases hyx : y = x
    · subst hyx
      cases hmarks.eq_of_done hy
      cases hc with
      | own _ hv _ => exact hv
      | ready hFz _ _ => exact absurd hFz (hF _)
      | busy hFz _ _ _ => exact absurd hFz (hF _)
    · exact h.unbound (hmarks.old hyx hy) hF
  bound := fun hy hF => h.leave_bound hunique hc hmarks hy hF
  stale := fun hy => h.leave_stale hunique hc hmarks hy
  origin := fun hy => h.leave_origin hc hmarks hy

end

/-- From before a group is entered until it has its elements. -/
theorem progress (h : Agrees F v stack none s) (hx : s x = some (.uninit, c)) {d : Nat}
    (henter : ∀ y, y ≠ x → s₁ y = s y) (hrest : Progress (x :: stack) s₁ s₂)
    (hmarks : Marks F x d s₂ s') : Progress stack s s' := by
  have hsame : ∀ {y e}, s.Done y e → s₁ y = s y ∧ s' y = s₂ y := by
    intro y e hy
    have hyx := hy.ne_of_uninit hx
    refine ⟨henter y hyx, (hmarks.other hyx).resolve_right fun hmark => ?_⟩
    exact (h.done hy hmark.1).ne_of_uninit hx rfl
  constructor
  case ready =>
    intro y e hy
    obtain ⟨hy₁, heq⟩ := hsame (.inl hy)
    exact heq.trans (hrest.ready (hy₁.trans hy))
  case done =>
    intro y e hy
    obtain ⟨hy₁, heq⟩ := hsame hy
    have hdone₁ : s₁.Done y e := hy.imp hy₁.trans hy₁.trans
    exact (hrest.done hdone₁).imp heq.trans heq.trans
  case busy =>
    intro y hy
    obtain ⟨e, he⟩ := h.busy.mp hy
    have hyx : y ≠ x := by
      rintro rfl
      cases hx.symm.trans he
    have hkept := (hrest.busy (List.mem_cons_of_mem x hy)).trans (henter y hyx)
    rcases hmarks.other hyx with heq | ⟨-, e', he', -⟩
    · exact heq.trans hkept
    · rw [hkept, he] at he'
      cases he'

-- ---------------------------------------------------------------------------
-- Renewing
-- ---------------------------------------------------------------------------

/-- A stale group has the count of the group that it follows, and keeps it. -/
theorem renew (h : Agrees F v stack none s) (hx : s x = some (.stale, c))
    (hx' : s' x = some (.ready, c)) (hne : ∀ y, y ≠ x → s' y = s y) :
    Agrees F v stack none s' ∧ Progress stack s s' := by
  have hnew : ∀ {y d}, s.Done y d → s'.Done y d := by
    intro y d hy
    by_cases hyx : y = x
    · subst hyx
      rcases hy with hy | hy <;> cases hx.symm.trans hy
      exact .inl hx'
    · exact hy.imp (hne y hyx).trans (hne y hyx).trans
  have hold : ∀ {y d}, s'.Done y d → s.Done y d := by
    intro y d hy
    by_cases hyx : y = x
    · subst hyx
      rcases hy with hy | hy <;> cases hx'.symm.trans hy
      exact .inr hx
    · exact hy.imp (hne y hyx).symm.trans (hne y hyx).symm.trans
  have hready : ∀ {y d}, s y = some (.ready, d) → s' y = some (.ready, d) := by
    intro y d hy
    have hyx : y ≠ x := by
      rintro rfl
      cases hx.symm.trans hy
    exact (hne y hyx).trans hy
  have hbusy : ∀ {y}, y ∈ stack → s' y = s y := by
    intro y hy
    obtain ⟨e, he⟩ := h.busy.mp hy
    refine hne y ?_
    rintro rfl
    cases hx.symm.trans he
  refine ⟨⟨?_, fun hy hF => h.unbound (hold hy) hF, fun hy hF => .inl (hnew (h.done (hold hy) hF)),
    ?_, fun hy => h.origin (hold hy)⟩, hready, hnew, hbusy⟩
  · intro y
    by_cases hyx : y = x
    · subst hyx
      rw [h.busy, hx, hx']
      refine iff_of_false ?_ ?_ <;> rintro ⟨_, h⟩ <;> cases h
    · rw [h.busy, hne y hyx]
  · intro y d hy
    have hyx : y ≠ x := by
      rintro rfl
      cases hx'.symm.trans hy
    obtain ⟨z, hF, hz, hfree⟩ := h.stale ((hne y hyx).symm.trans hy)
    exact ⟨z, hF, hready hz, hfree⟩

end Agrees

end FormatFuzz
