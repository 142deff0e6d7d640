-- SUMMARY: A question that has been asked is answered again as before, and one that has failed fails again.
import FormatFuzz.Proofs.Fillings

/-!
# Replays

When an operation is repeated on the tree that it has left, it comes upon the caches that it has filled
itself. If closures are brittle and codecs honest, that makes no difference (`Replays`): what has had a result
has the same result wherever no less is cached, and what has failed has left no cache behind that would keep
it from failing again. That holds of operations made of such ones (`Replays.readRules`), and it holds with a
node on the stack (`Resolver.guarded_replays`). The questions themselves are the subject of
`FormatFuzz.Proofs.Recurrence`.
-/

namespace FormatFuzz

open TreeM

open FormatFuzz.Tree (Sane Stores Fills Twins Awaits)

-- ---------------------------------------------------------------------------
-- Operations that can be repeated
-- ---------------------------------------------------------------------------

/-- What has come out of the operation comes out of it again: a result in all trees in which no less is
cached, and an error in the tree that it has left. -/
def Recalls {α : Type} (act : TreeM α) (t : Tree) : Except TreeError α → Prop
  | .ok a => ∀ u, t.Fills u → wp act (fun r u' => r = .ok a ∧ u.Twins u') u
  | .error e => ∀ u, t.Twins u → wp act (fun r _ => r = .error e) u

/-- The operation does nothing but fill caches, and what has come out of it comes out of it again. -/
def Replays {α : Type} (act : TreeM α) : Prop :=
  ∀ t : Tree, t.Sane → wp act (fun r t' => t.Stores t' ∧ Recalls act t' r) t

namespace Replays

variable {α β : Type} {act : TreeM α} {f : α → TreeM β}

theorem pure {a : α} : Replays (Pure.pure a : TreeM α) := fun t hsane =>
  ⟨.refl t, fun _ hu => ⟨rfl, .refl (hu.sane hsane).settled⟩⟩

theorem throw {e : TreeError} : Replays (MonadExcept.throw e : TreeM α) := fun t _ =>
  ⟨.refl t, fun _ _ => rfl⟩

/-- A failure may be looked at if it only leads to another one. -/
theorem attempt {f : Except TreeError α → TreeM β} (hact : Replays act) (hok : ∀ a, Replays (f (.ok a)))
    (herror : ∀ e, ∃ e', f (.error e) = MonadExcept.throw e') : Replays (TreeM.outcome act >>= f) := by
  have hsplit : ∀ {Q : Except TreeError β → Tree → Prop} {t : Tree},
      wp (TreeM.outcome act >>= f) Q t ↔ wp act (fun r t' => wp (f r) Q t') t := by
    intro Q t
    rw [wp.bind, wp.outcome]
  intro t hsane
  rw [hsplit]
  refine (hact t hsane).mono fun r t₁ h₁ => ?_
  obtain ⟨hstores, hrecalls⟩ := h₁
  cases r with
  | error e =>
    obtain ⟨e', he'⟩ := herror e
    rw [he']
    refine ⟨hstores, fun u hu => ?_⟩
    rw [hsplit]
    refine (hrecalls u hu).mono ?_
    rintro _ _ rfl
    rw [he']
    rfl
  | ok a =>
    refine (hok a t₁ (hstores.sane hsane)).mono fun r t₂ h₂ => ?_
    obtain ⟨hstores₂, hrecalls₂⟩ := h₂
    refine ⟨hstores.trans hstores₂, ?_⟩
    -- Both parts are repeated in turn, the first one where the second one has left its caches.
    cases r with
    | ok b =>
      intro u hu
      rw [hsplit]
      refine (hrecalls u (hstores₂.toFills.trans hu)).mono ?_
      rintro _ u₁ ⟨rfl, htwins⟩
      refine (hrecalls₂ u₁ (hu.trans htwins.fills)).mono ?_
      rintro _ u₂ ⟨rfl, htwins₂⟩
      exact ⟨rfl, htwins.trans htwins₂⟩
    | error e =>
      intro u hu
      rw [hsplit]
      refine (hrecalls u (hstores₂.toFills.trans hu.fills)).mono ?_
      rintro _ u₁ ⟨rfl, htwins⟩
      exact hrecalls₂ u₁ (hu.trans htwins)

theorem bind (hact : Replays act) (hf : ∀ a, Replays (f a)) : Replays (act >>= f) := by
  rw [TreeM.bind_eq_outcome]
  exact attempt hact hf fun e => ⟨e, rfl⟩

theorem of_surveys (h : Tree.Surveys act) : Replays act := by
  intro t hsane
  obtain ⟨r, hr⟩ := h t hsane.settled
  refine (hr t rfl).mono ?_
  rintro r t ⟨rfl, rfl⟩
  refine ⟨.refl t, ?_⟩
  cases r with
  | ok a =>
    intro u hu
    refine (hr u hu.outline).mono ?_
    rintro _ u ⟨rfl, rfl⟩
    exact ⟨rfl, .refl (hu.sane hsane).settled⟩
  | error e => exact fun u hu => (hr u hu.outline).mono fun _ _ h => h.1

theorem surveys_outcome (h : Tree.Surveys act) : Tree.Surveys (TreeM.outcome act) := by
  intro t hs
  obtain ⟨r, hr⟩ := h t hs
  refine ⟨.ok r, fun u hu => ?_⟩
  rw [wp.outcome]
  exact (hr u hu).mono fun _ _ h => ⟨congrArg Except.ok h.1, h.2⟩

/-- Without closures, caches and the stack, there is nothing to show. -/
theorem readRules : ReadRules Sane fun _ act => Replays act where
  pure _ := .pure
  fail _ := .throw
  bind := .bind
  look {_ _ f g} hf hg t hsane := by
    cases ha : f t with
    | error e =>
      rw [wp.look_error ha]
      refine ⟨.refl t, fun u hu => ?_⟩
      rw [wp.look_error ((hu.fills.eq_of_bare hf).trans ha)]
    | ok a =>
      rw [wp.look_ok ha]
      refine (hg t a hsane ha t hsane).mono fun r t' h => ⟨h.1, ?_⟩
      have hsame : ∀ {u}, t'.Fills u → f u = .ok a := fun hu =>
        (hu.eq_of_bare hf).trans ((h.1.eq_of_bare hf).trans ha)
      cases r with
      | ok b =>
        intro u hu
        rw [wp.look_ok (hsame hu)]
        exact h.2 u hu
      | error e =>
        intro u hu
        rw [wp.look_ok (hsame hu.fills)]
        exact h.2 u hu
  state {_ f} hf hact t hsane := by
    rw [wp.get_bind]
    refine (hact t t hsane).mono fun r t' h => ⟨h.1, ?_⟩
    have hsame : ∀ {u}, t'.Fills u → f u = f t := fun hu =>
      Tree.eq_of_outline hf (hu.outline.trans h.1.outline)
    cases r with
    | ok b =>
      intro u hu
      rw [wp.get_bind, hsame hu]
      exact h.2 u hu
    | error e =>
      intro u hu
      rw [wp.get_bind, hsame hu.fills]
      exact h.2 u hu
  find start path := .of_surveys (Tree.find_surveys start path)
  tryFind start path := .of_surveys (surveys_outcome (Tree.find_surveys start path))
  touch id := .of_surveys (Tree.touch_surveys id)
  count id := .of_surveys (Tree.count_surveys id)
  note {source} reader _ t hsane := by
    have hstores : t.Stores (t.noteReader (source t) reader) := .of_noteReader hsane.settled _ reader
    rw [wp.modify]
    refine ⟨hstores, fun u hu => ?_⟩
    rw [wp.modify]
    exact ⟨rfl, (hu.sane (hstores.sane hsane)).settled, Tree.unread_noteReader _ _⟩

end Replays

-- ---------------------------------------------------------------------------
-- Closures and the stack
-- ---------------------------------------------------------------------------

namespace Resolver

section

variable {ask : Resolver} (hask : ∀ r, Replays (ask r))

include hask

theorem replays_runScript {α : Type} (id : NodeId) {s : Script α} (hs : s.Brittle) :
    Replays (runScript ask id s) := by
  refine Replays.readRules.survey (fun _ => Tree.enclosing_outline) fun base => ?_
  induction s with
  | done r => exact Replays.readRules.lift r
  | ask q next ih =>
    obtain ⟨herror, hnext⟩ := hs
    have hanswer := Replays.readRules.answer hask base id q
    refine .attempt hanswer (fun a => ih (.ok a) (hnext (.ok a))) fun e => ?_
    obtain ⟨e', he'⟩ := herror e
    exact ⟨e', by rw [he']; rfl⟩

theorem replays_scriptRules : ScriptRules Sane (fun _ act => Replays act) ask where
  deferred hsane hcell := replays_runScript hask _ (hsane.brittle_of_deferred hcell)
  computed hsane hcell := replays_runScript hask _ (hsane.brittle_of_computed hcell)
  action hsane haction raw := replays_runScript hask _ (hsane.brittle_of_action haction raw)

end

/-- With a node on the stack, an operation can be repeated as well. If nothing was cached for the
node, nothing is. -/
theorem guarded_replays {α : Type} (id : NodeId) {act : TreeM α} (hact : Replays act) {t : Tree}
    (hsane : t.Sane) : wp (guarded id act) (fun r t' => (t.Stores t' ∧ Recalls (guarded id act) t' r) ∧
      (t.cacheOf id = none → t'.cacheOf id = none) ∧ ∀ a, r = .ok a → id ∉ t.resolving) t := by
  rw [wp.guarded]
  split
  · rename_i hid
    refine ⟨⟨.refl t, fun u hu => ?_⟩, fun hnone => hnone, fun a ha => by cases ha⟩
    rw [wp.guarded, if_pos (hu.resolving ▸ hid),
      Tree.eq_of_outline (f := (·.nameOrPlace id)) (fun _ => Tree.nameOrPlace_outline) hu.outline]
  · rename_i hid
    have hpushed : Sane { t with resolving := id :: t.resolving } :=
      ⟨hsane.settled, hsane.straight, hsane.encoded⟩
    refine (hact _ hpushed).mono fun r t₁ h => ?_
    obtain ⟨hstores, hrecalls⟩ := h
    have hstack : t₁.resolving = id :: t.resolving := hstores.resolving
    have hback : ({ t₁ with resolving := id :: t₁.resolving.tail } : Tree) = t₁ := by
      rw [hstack, List.tail_cons, ← hstack]
    refine ⟨⟨hstores.pop, ?_⟩, hstores.uncached List.mem_cons_self, fun _ _ => hid⟩
    have hnot : ∀ {u : Tree}, Fills { t₁ with resolving := t₁.resolving.tail } u → id ∉ u.resolving := by
      intro u hu
      rw [hu.resolving, hstack]
      exact hid
    cases r with
    | ok a =>
      intro u hu
      rw [wp.guarded, if_neg (hnot hu)]
      have hu' := hu.stack (id :: ·)
      rw [hback] at hu'
      exact (hrecalls _ hu').mono fun _ _ h => ⟨h.1, h.2.stack List.tail⟩
    | error e =>
      intro u hu
      rw [wp.guarded, if_neg (hnot hu.fills)]
      have hu' := hu.stack (id :: ·)
      rw [hback] at hu'
      exact hrecalls _ hu'

end Resolver

end FormatFuzz
