-- SUMMARY: Initialization keeps groups in agreement with those that they follow.
import FormatFuzz.Proofs.Initialization

/-!
# Following

Initializing a group of a wired template succeeds, keeps the states of all groups in agreement, and
leaves the group ready (`Tree.runTask_inits`). The groups on the stack are left out when it comes to
how deep initialization may nest: every group that is entered makes the rest weigh less.

So visits of a tree whose groups agree complete, and the groups agree afterwards
(`Tree.completes_calm`).
-/

namespace FormatFuzz

open TreeM
open Relation (ReflTransGen TransGen)

namespace Tree

variable {τ σ : Template} {t₀ t t' : Tree} {id x y : NodeId} {n : Node} {g : Group} {p : Position}
  {c d : Nat} {stack : List NodeId} {init : NodeId → TreeM Unit}

section

variable (hstart : t₀.Startable τ)

include hstart

-- ---------------------------------------------------------------------------
-- Initialization
-- ---------------------------------------------------------------------------

/-- The groups agree again after one has been initialized, and what this one was told on the way is
its count. -/
structure Initialized (τ : Template) (t₀ : Tree) (stack : List NodeId) (t : Tree) (d : Nat)
    (t' : Tree) : Prop where
  settling : t₀.Settling τ t'
  agrees : ∃ answer, (answer = none ∨ answer = some d) ∧
    Agrees (t₀.Ties τ) t₀.provision stack answer t'.states
  progress : Progress stack t.states t'.states

/-- A group `x` that is being initialized knows its count. -/
structure Supplied (τ : Template) (t₀ : Tree) (stack : List NodeId) (x : NodeId) (t : Tree) (d : Nat)
    (t' : Tree) : Prop where
  settling : t₀.Settling τ t'
  progress : Progress (x :: stack) t.states t'.states
  supplies : ∃ answer, Agrees (t₀.Ties τ) t₀.provision (x :: stack) answer t'.states ∧
    Supplies (t₀.Ties τ) t₀.provision (x :: stack) t'.states x answer d

/-- Initialization succeeds while the groups on the stack are on the way, and keeps the groups in
agreement. -/
def Inits (τ : Template) (t₀ : Tree) (stack : List NodeId) (init : NodeId → TreeM Unit) : Prop :=
  ∀ t x c, t₀.Settling τ t → Agrees (t₀.Ties τ) t₀.provision stack none t.states →
    (t.states x = some (.uninit, c) ∨ t.states x = some (.stale, c)) →
      wp (init x) (fun r t' => r = .ok () ∧
        ∃ d, t'.states x = some (.ready, d) ∧ Initialized τ t₀ stack t d t') t

/-- A group that has just been entered is supplied with its count. -/
theorem countByRule_supplied (hinits : Inits τ t₀ (x :: stack) init) (h : t₀.Settling τ t)
    (hagrees : Agrees (t₀.Ties τ) t₀.provision (x :: stack) none t.states)
    (hx : t.states x = some (.initializing, c)) :
    wp (countByRuleWith init x) (fun r t' => ∃ d, r = .ok d ∧
      t'.states x = some (.initializing, c) ∧ Supplied τ t₀ stack x t d t') t := by
  refine countByRule_rule hstart h hx
    (fun hnone => ⟨_, rfl, hx, h, .refl _ _, none, hagrees, .own hnone rfl rfl⟩)
    fun y phase e t₁ hties hy h₁ hsame _ _ => ?_
  rw [← hsame] at hagrees hx hy
  have hstill : Progress (x :: stack) t.states t₁.states := hsame ▸ .refl _ _
  have hinit : t₁.states y = some (.uninit, e) ∨ t₁.states y = some (.stale, e) →
      wp (countWith init y) (fun r t' => ∃ d, r = .ok d ∧
        t'.states x = some (.initializing, c) ∧ Supplied τ t₀ stack x t d t') t₁ := by
    intro hy
    refine (countWith_init (P := Initialized τ t₀ (x :: stack) t₁) hy
      (hinits t₁ y e h₁ hagrees hy)).mono ?_
    rintro _ t₂ ⟨d, rfl, hd, h₂, ⟨answer, hor, hagrees₂⟩, hprogress⟩
    exact ⟨d, rfl, (hprogress.busy List.mem_cons_self).trans hx, h₂, hstill.trans hprogress, answer,
      hagrees₂, .ready hties hd hor⟩
  cases phase with
  | uninit => exact hinit (.inl hy)
  | stale => exact hinit (.inr hy)
  | ready =>
    refine (countWith_ready hy).mono ?_
    rintro _ t₂ ⟨rfl, rfl⟩
    exact ⟨e, rfl, hx, h₁, hstill, none, hagrees, .ready hties hy (.inl rfl)⟩
  | initializing =>
    refine (countWith_busy hstart h₁ hy).mono ?_
    rintro _ t₂ ⟨rfl, rfl⟩
    exact ⟨_, rfl, hx, h₁, hstill, none, hagrees,
      .busy hties (hagrees.busy.mpr ⟨e, hy⟩) rfl rfl⟩

/-- A group that follows one that has its elements gets the count of that one. -/
theorem countByRule_follows (h : t₀.Settling τ t) (hx : t.states x = some (.initializing, c))
    (hties : t₀.Ties τ x y) (hy : t.states y = some (.ready, d)) :
    wp (countByRuleWith init x) (fun r t' => r = .ok d ∧ t₀.Settling τ t' ∧ t'.states = t.states) t := by
  refine countByRule_rule hstart h hx (fun hnone => absurd hties (hnone y))
    fun y' phase e t₁ hties' hy' h₁ hsame _ _ => ?_
  cases ties_rightUnique hstart.wellFormed hties hties'
  rw [← hsame] at hy
  refine (countWith_ready hy).mono ?_
  rintro _ t₂ ⟨rfl, rfl⟩
  exact ⟨rfl, h₁, hsame⟩

/-- Initialization succeeds, and keeps the groups in agreement. -/
theorem runTask_inits (depth : Nat) (hdepth : (t₀.without stack).weight + 1 ≤ depth) :
    Inits τ t₀ stack fun id => runTask depth (.init id) := by
  induction depth generalizing stack with
  | zero => exact absurd hdepth (Nat.not_succ_le_zero _)
  | succ depth ih =>
    intro t x c h hagrees hx
    have hgroup : t₀.states x ≠ none := by
      rw [Ne, ← h.groups]
      rcases hx with hx | hx <;> simp [hx]
    obtain ⟨⟨phase₀, c₀⟩, hgroup₀⟩ := Option.ne_none_iff_exists'.mp hgroup
    obtain ⟨n₀, -, hn₀, -⟩ := states_eq_some.mp hgroup₀
    have hstack : x ∉ stack := by
      intro hmem
      obtain ⟨e, he⟩ := hagrees.busy.mp hmem
      rcases hx with hx | hx <;> cases hx.symm.trans he
    have hlighter : (t₀.without (x :: stack)).weight + n₀.weight = (t₀.without stack).weight :=
      total_without Node.weight hn₀ hstack
    have hvisit := visit_elements hstart hn₀ hgroup depth (by omega)
    rcases hx with hx | hx
    · refine (initStep_settles hstart (P := fun d t₂ => ∃ t₁, (∀ y, y ≠ x → t₁.states y = t.states y) ∧
        Supplied τ t₀ stack x t₁ d t₂) h hx (fun t₁ h₁ hx₁ hother _ => ?_) hvisit).mono ?_
      · have hinits : Inits τ t₀ (x :: stack) fun id => runTask depth (.init id) := by
          have hpositive := n₀.one_le_weight
          exact ih (by omega)
        refine (countByRule_supplied hstart hinits h₁ (hagrees.enter hx hx₁ hother) hx₁).mono ?_
        rintro _ t₂ ⟨d, rfl, hx₂, hsupplied⟩
        exact ⟨d, rfl, hsupplied.settling, hx₂, t₁, hother, hsupplied⟩
      · rintro _ t' ⟨rfl, h', d, t₂, ⟨t₁, hother, -, hprogress, answer, hagrees₂, hsupplies⟩, hmarks, -, -⟩
        exact ⟨rfl, d, hmarks.self, h',
          ⟨some d, .inr rfl, hagrees₂.leave (ties_rightUnique hstart.wellFormed) hsupplies hmarks hstack⟩,
          hagrees.progress hx hother hprogress hmarks⟩
    · obtain ⟨y, hties, hy, -⟩ := hagrees.stale hx
      have hyx : y ≠ x := by
        rintro rfl
        cases hx.symm.trans hy
      refine (initStep_settles hstart (P := fun d t₂ => d = c ∧ ∀ y, y ≠ x → t₂.states y = t.states y)
        h hx (fun t₁ h₁ hx₁ hother _ => ?_) hvisit).mono ?_
      · refine (countByRule_follows hstart h₁ hx₁ hties ((hother y hyx).trans hy)).mono ?_
        rintro _ t₂ ⟨rfl, h₂, hsame⟩
        rw [hsame]
        exact ⟨c, rfl, h₂, hx₁, rfl, hother⟩
      · rintro _ t' ⟨rfl, h', d, t₂, ⟨rfl, hother⟩, hmarks, -, ⟨-, hkept⟩ | ⟨hne, -⟩⟩
        case inr => exact absurd rfl hne
        obtain ⟨hagrees', hprogress⟩ := hagrees.renew hx hmarks.self
          fun y hy => (hkept y hy).trans (hother y hy)
        exact ⟨rfl, d, hmarks.self, h', ⟨none, .inl rfl, hagrees'⟩, hprogress⟩

-- ---------------------------------------------------------------------------
-- Visits
-- ---------------------------------------------------------------------------

/-- Initialization is over, and the groups agree. -/
structure Calm (τ : Template) (t₀ t : Tree) : Prop extends t₀.Settling τ t where
  agrees : Agrees (t₀.Ties τ) t₀.provision [] none t.states

theorem completes_calm : t₀.Completes τ (t₀.Calm τ) where
  settling := fun h => h.toSettling
  idle := fun h hx => absurd (h.agrees.busy.mpr ⟨_, hx⟩) List.not_mem_nil
  init := by
    intro depth t x phase c hdepth h hx hphase
    have hpending : t.states x = some (.uninit, c) ∨ t.states x = some (.stale, c) := by
      cases phase with
      | uninit => exact .inl hx
      | stale => exact .inr hx
      | ready => exact absurd rfl hphase
      | initializing => exact absurd (h.agrees.busy.mpr ⟨c, hx⟩) List.not_mem_nil
    refine (runTask_inits hstart depth hdepth t x c h.toSettling h.agrees hpending).mono ?_
    rintro _ t' ⟨rfl, d, hd, h', ⟨answer, -, hagrees⟩, hprogress⟩
    exact ⟨rfl, ⟨h', hagrees.calm⟩, hprogress, d, hd⟩

end

end Tree

end FormatFuzz
