-- SUMMARY: Weakest preconditions of operations that change a state and may fail, and relations that operations keep.
import Mathlib.Order.Defs.Unbundled
import FormatFuzz.Tree.Groups

/-!
# Weakest preconditions

`wp act Q s` says that `act`, started in the state `s`, ends with an outcome and a state that
satisfy `Q`. A failure is an outcome like any other, because it keeps the changes made before it.

`Preserves R E act` is what most operations are known by: the states before and after are related
by `R` after a success and by `E` after a failure. Often these are the same.
-/

namespace FormatFuzz

variable {ε σ α β : Type}

/-- `act` ends with an outcome and a state that satisfy `Q`. -/
def wp (act : ExceptT ε (StateM σ) α) (Q : Except ε α → σ → Prop) (s : σ) : Prop :=
  Q (act.run s).1 (act.run s).2

@[simp] theorem ok_bind (a : α) (f : α → Except ε β) : (Except.ok a >>= f) = f a := rfl

@[simp] theorem error_bind (e : ε) (f : α → Except ε β) :
    ((Except.error e : Except ε α) >>= f) = .error e := rfl

@[simp] theorem pure_eq_ok (a : α) : (pure a : Except ε α) = .ok a := rfl

theorem error_ne_ok {e : ε} {a : α} : (Except.error e : Except ε α) ≠ .ok a := by
  intro h
  cases h

-- ---------------------------------------------------------------------------
-- Rules
-- ---------------------------------------------------------------------------

namespace wp

variable {Q : Except ε α → σ → Prop} {s : σ}

theorem of_run {act : ExceptT ε (StateM σ) α} {r : Except ε α} {s' : σ} (h : wp act Q s)
    (hrun : act.run s = (r, s')) : Q r s' := by
  unfold wp at h
  rwa [hrun] at h

theorem of_eq {act : ExceptT ε (StateM σ) α} {r : Except ε α} {s' : σ} (hrun : act.run s = (r, s'))
    (h : Q r s') : wp act Q s := by
  unfold wp
  rwa [hrun]

/-- The state that an operation ends in, if its outcome is known. -/
theorem exists_run {act : ExceptT ε (StateM σ) α} {r : Except ε α} {P : σ → Prop}
    (h : wp act (fun r' s' => r' = r ∧ P s') s) : ∃ s', act.run s = (r, s') ∧ P s' :=
  ⟨_, Prod.ext h.1 rfl, h.2⟩

/-- Operations that end alike are equal. -/
theorem ext {act act' : ExceptT ε (StateM σ) α} (h : ∀ Q s, wp act Q s ↔ wp act' Q s) : act = act' :=
  funext fun s => (h (fun r s' => act.run s = (r, s')) s).mp rfl

@[simp] theorem pure {a : α} :
    wp (Pure.pure a : ExceptT ε (StateM σ) α) Q s ↔ Q (.ok a) s := Iff.rfl

@[simp] theorem throw {e : ε} :
    wp (MonadExcept.throw e : ExceptT ε (StateM σ) α) Q s ↔ Q (.error e) s := Iff.rfl

@[simp] theorem get {Q : Except ε σ → σ → Prop} :
    wp (MonadState.get : ExceptT ε (StateM σ) σ) Q s ↔ Q (.ok s) s := Iff.rfl

@[simp] theorem set {s' : σ} {Q : Except ε PUnit → σ → Prop} :
    wp (MonadStateOf.set s' : ExceptT ε (StateM σ) PUnit) Q s ↔ Q (.ok ⟨⟩) s' := Iff.rfl

@[simp] theorem modify {f : σ → σ} {Q : Except ε PUnit → σ → Prop} :
    wp (modify f : ExceptT ε (StateM σ) PUnit) Q s ↔ Q (.ok ⟨⟩) (f s) := Iff.rfl

@[simp] theorem bind {act : ExceptT ε (StateM σ) α} {f : α → ExceptT ε (StateM σ) β}
    {Q : Except ε β → σ → Prop} :
    wp (act >>= f) Q s ↔
      wp act (fun r s' => match r with
        | .ok a => wp (f a) Q s'
        | .error e => Q (.error e) s') s := by
  have hrun : ((act >>= f).run s : Except ε β × σ) =
      match (act.run s : Except ε α × σ) with
      | (.ok a, s') => (f a).run s'
      | (.error e, s') => (.error e, s') := by
    change (ExceptT.bindCont f (act.run s).1).run (act.run s).2 = _
    rcases (act.run s : Except ε α × σ) with ⟨_ | _, _⟩ <;> rfl
  unfold wp
  rw [hrun]
  rcases (act.run s : Except ε α × σ) with ⟨_ | _, _⟩ <;> rfl

theorem get_bind {f : σ → ExceptT ε (StateM σ) β} {Q : Except ε β → σ → Prop} :
    wp (MonadState.get >>= f) Q s ↔ wp (f s) Q s := by
  rw [bind, get]

theorem mono {act : ExceptT ε (StateM σ) α} {Q' : Except ε α → σ → Prop}
    (h : wp act Q s) (hQ : ∀ r s', Q r s' → Q' r s') : wp act Q' s :=
  hQ _ _ h

theorem and {act : ExceptT ε (StateM σ) α} {Q' : Except ε α → σ → Prop} (h : wp act Q s)
    (h' : wp act Q' s) : wp act (fun r s' => Q r s' ∧ Q' r s') s :=
  ⟨h, h'⟩

/-- A loop that goes through a list to its end. `I` says what holds with the elements that are
left. -/
theorem forIn {xs : List α} {f : α → PUnit → ExceptT ε (StateM σ) (ForInStep PUnit)}
    {Q : Except ε PUnit → σ → Prop} (I : List α → σ → Prop) (hs : I xs s)
    (hnil : ∀ s, I [] s → Q (.ok ⟨⟩) s)
    (hcons : ∀ x rest s, I (x :: rest) s →
      wp (f x ⟨⟩) (fun r s' => match r with
        | .ok (.yield _) => I rest s'
        | .ok (.done _) => Q (.ok ⟨⟩) s'
        | .error e => Q (.error e) s') s) :
    wp (ForIn.forIn xs ⟨⟩ f) Q s := by
  induction xs generalizing s with
  | nil => exact hnil s hs
  | cons x rest ih =>
    rw [List.forIn_cons, bind]
    refine (hcons x rest s hs).mono fun r s' h => ?_
    match r with
    | .ok (.yield _) => exact ih h
    | .ok (.done _) => exact h
    | .error _ => exact h

/-- A loop whose steps do nothing does nothing. -/
theorem forIn_idle {xs : List α} {f : α → ExceptT ε (StateM σ) PUnit}
    (h : ∀ x ∈ xs, wp (f x) (fun r s' => r = .ok ⟨⟩ ∧ s' = s) s) :
    wp (ForIn.forIn xs PUnit.unit fun x _ => do
      f x
      return .yield PUnit.unit : ExceptT ε (StateM σ) PUnit) (fun r s' => r = .ok ⟨⟩ ∧ s' = s) s := by
  refine wp.forIn (fun rest s' => s' = s ∧ ∀ x ∈ rest, x ∈ xs) ⟨rfl, fun _ hx => hx⟩
    (fun s' hs' => ⟨rfl, hs'.1⟩) ?_
  rintro x rest _ ⟨rfl, hrest⟩
  rw [wp.bind]
  refine (h x (hrest x List.mem_cons_self)).mono ?_
  rintro _ _ ⟨rfl, rfl⟩
  exact ⟨rfl, fun x hx => hrest x (List.mem_cons_of_mem _ hx)⟩

theorem foldlM {xs : List α} {f : β → α → ExceptT ε (StateM σ) β} {b : β}
    {Q : Except ε β → σ → Prop} (I : List α → β → σ → Prop) (hs : I xs b s)
    (hnil : ∀ b s, I [] b s → Q (.ok b) s)
    (hcons : ∀ x rest b s, I (x :: rest) b s →
      wp (f b x) (fun r s' => match r with
        | .ok b' => I rest b' s'
        | .error e => Q (.error e) s') s) :
    wp (xs.foldlM f b) Q s := by
  induction xs generalizing b s with
  | nil => exact hnil b s hs
  | cons x rest ih =>
    rw [List.foldlM_cons, bind]
    refine (hcons x rest b s hs).mono fun r s' h => ?_
    cases r with
    | ok b' => exact ih h
    | error e => exact h

end wp

-- ---------------------------------------------------------------------------
-- Operations on trees
-- ---------------------------------------------------------------------------

namespace wp

open TreeM

variable {t : Tree}

@[simp] theorem look {f : Tree → Except TreeError α} {Q : Except TreeError α → Tree → Prop} :
    wp (TreeM.look f) Q t ↔ Q (f t) t := by
  simp only [TreeM.look, bind, get]
  cases f t <;> simp

theorem look_ok {f : Tree → Except TreeError α} {g : α → TreeM β} {Q : Except TreeError β → Tree → Prop}
    {a : α} (ha : f t = .ok a) : wp (TreeM.look f >>= g) Q t ↔ wp (g a) Q t := by
  rw [bind, look, ha]

theorem look_error {f : Tree → Except TreeError α} {g : α → TreeM β}
    {Q : Except TreeError β → Tree → Prop} {e : TreeError} (he : f t = .error e) :
    wp (TreeM.look f >>= g) Q t ↔ Q (.error e) t := by
  rw [bind, look, he]

@[simp] theorem update {f : Tree → Except TreeError Tree}
    {Q : Except TreeError Unit → Tree → Prop} :
    wp (TreeM.update f) Q t ↔
      match f t with
      | .ok t' => Q (.ok ()) t'
      | .error e => Q (.error e) t := by
  simp only [TreeM.update, bind, look]
  cases f t <;> simp

@[simp] theorem outcome {act : TreeM α} {Q : Except TreeError (Except TreeError α) → Tree → Prop} :
    wp (TreeM.outcome act) Q t ↔ wp act (fun r t' => Q (.ok r) t') t := Iff.rfl

@[simp] theorem lift {r : Except TreeError α} {Q : Except TreeError α → Tree → Prop} :
    wp (TreeM.lift r) Q t ↔ Q r t := by
  cases r <;> simp [TreeM.lift]

end wp

/-- What follows an operation may be seen as a look at its outcome. -/
theorem TreeM.bind_eq_outcome (act : TreeM α) (f : α → TreeM β) :
    (act >>= f) = outcome act >>= fun r => lift r >>= f := by
  refine wp.ext fun Q t => ?_
  simp only [wp.bind, wp.outcome, wp.lift]

-- ---------------------------------------------------------------------------
-- Relations that operations keep
-- ---------------------------------------------------------------------------

/-- The states before and after are related by `R` after a success, and by `E` after a failure. -/
def Related (R E : σ → σ → Prop) (s : σ) : Except ε α → σ → Prop
  | .ok _, s' => R s s'
  | .error _, s' => E s s'

/-- What is known after a failure is known after a success too, and outlasts what succeeds. -/
class Absorbs (R E : σ → σ → Prop) : Prop where
  of_rel : ∀ {s s'}, R s s' → E s s'
  left : ∀ {s₁ s₂ s₃}, R s₁ s₂ → E s₂ s₃ → E s₁ s₃
  right : ∀ {s₁ s₂ s₃}, E s₁ s₂ → R s₂ s₃ → E s₁ s₃

instance {R : σ → σ → Prop} [IsPreorder σ R] : Absorbs R R where
  of_rel h := h
  left := trans_of R
  right := trans_of R

instance {R : σ → σ → Prop} : Absorbs R fun _ _ => True := ⟨fun _ => trivial, fun _ _ => trivial,
  fun _ _ => trivial⟩

/-- Started anywhere, `act` ends in a state that is related to the one that it started in. -/
def Preserves (R E : σ → σ → Prop) (act : ExceptT ε (StateM σ) α) : Prop :=
  ∀ s, wp act (Related R E s) s

variable {R E : σ → σ → Prop}

theorem Related.left [IsPreorder σ R] [Absorbs R E] {s s' : σ} (h : R s s') {r : Except ε α}
    {s'' : σ} (h' : Related R E s' r s'') : Related R E s r s'' := by
  cases r with
  | ok a => exact trans_of R h h'
  | error e => exact Absorbs.left h h'

theorem Related.rel {s s' : σ} {r : Except ε α} (h : Related R R s r s') : R s s' := by
  cases r <;> exact h

/-- The state that `act` ends in, however it ends. -/
theorem Preserves.run {act : ExceptT ε (StateM σ) α} (h : Preserves R R act) (s : σ) :
    R s (act.run s).2 :=
  Related.rel (h s)

theorem Preserves.of_run {act : ExceptT ε (StateM σ) α} (h : ∀ s, R s (act.run s).2) :
    Preserves R R act := by
  intro s
  unfold wp
  cases (act.run s).1 <;> exact h s

namespace Preserves

variable [IsPreorder σ R] [Absorbs R E]

omit [Absorbs R E] in
theorem pure {a : α} : Preserves R E (Pure.pure a : ExceptT ε (StateM σ) α) := fun s => refl_of R s

theorem throw {e : ε} : Preserves R E (MonadExcept.throw e : ExceptT ε (StateM σ) α) :=
  fun s => Absorbs.of_rel (refl_of R s)

omit [Absorbs R E] in
theorem get : Preserves R E (MonadState.get : ExceptT ε (StateM σ) σ) := fun s => refl_of R s

omit [IsPreorder σ R] [Absorbs R E] in
theorem modify {f : σ → σ} (h : ∀ s, R s (f s)) :
    Preserves R E (modify f : ExceptT ε (StateM σ) PUnit) := fun s => h s

theorem bind {act : ExceptT ε (StateM σ) α} {f : α → ExceptT ε (StateM σ) β}
    (ha : Preserves R E act) (hf : ∀ a, Preserves R E (f a)) : Preserves R E (act >>= f) := by
  intro s
  rw [wp.bind]
  refine (ha s).mono fun r s' h => ?_
  cases r with
  | ok a => exact (hf a s').mono fun _ _ h' => h'.left h
  | error e => exact h

omit [IsPreorder σ R] [Absorbs R E] in
theorem ite {c : Prop} [Decidable c] {a b : ExceptT ε (StateM σ) α} (ha : Preserves R E a)
    (hb : Preserves R E b) : Preserves R E (if c then a else b) := by
  split
  · exact ha
  · exact hb

theorem forIn {xs : List α} {f : α → PUnit → ExceptT ε (StateM σ) (ForInStep PUnit)}
    (h : ∀ x ∈ xs, Preserves R E (f x ⟨⟩)) : Preserves R E (ForIn.forIn xs ⟨⟩ f) := by
  intro s
  refine wp.forIn (fun rest s' => rest ⊆ xs ∧ R s s') ⟨fun _ hx => hx, refl_of R s⟩
    (fun _ h => h.2) fun x rest s' ⟨hsub, hs'⟩ => ?_
  refine (h x (hsub List.mem_cons_self) s').mono fun r s'' h' => ?_
  match r with
  | .ok (.yield _) =>
    exact ⟨fun _ hy => hsub (List.mem_cons_of_mem _ hy), trans_of R hs' h'⟩
  | .ok (.done _) => exact trans_of R hs' h'
  | .error _ => exact Absorbs.left hs' h'

theorem foldlM {xs : List α} {f : β → α → ExceptT ε (StateM σ) β} {b : β}
    (h : ∀ b, ∀ x ∈ xs, Preserves R E (f b x)) : Preserves R E (xs.foldlM f b) := by
  intro s
  refine wp.foldlM (fun rest _ s' => rest ⊆ xs ∧ R s s') ⟨fun _ hx => hx, refl_of R s⟩
    (fun _ _ h => h.2) fun x rest b s' ⟨hsub, hs'⟩ => ?_
  refine (h b x (hsub List.mem_cons_self) s').mono fun r s'' h' => ?_
  cases r with
  | ok b' => exact ⟨fun _ hy => hsub (List.mem_cons_of_mem _ hy), trans_of R hs' h'⟩
  | error e => exact Absorbs.left hs' h'

theorem mapM {xs : List α} {f : α → ExceptT ε (StateM σ) β}
    (h : ∀ x ∈ xs, Preserves R E (f x)) : Preserves R E (xs.mapM f) := by
  induction xs with
  | nil => exact pure
  | cons x rest ih =>
    rw [List.mapM_cons]
    refine bind (h x List.mem_cons_self) fun y => ?_
    exact bind (ih fun z hz => h z (List.mem_cons_of_mem _ hz)) fun _ => pure

end Preserves

namespace Preserves

variable {R E : Tree → Tree → Prop} [IsPreorder Tree R] [Absorbs R E]

theorem look {f : Tree → Except TreeError α} : Preserves R E (TreeM.look f) := by
  intro t
  rw [wp.look]
  cases f t with
  | ok a => exact refl_of R t
  | error e => exact Absorbs.of_rel (refl_of R t)

theorem update {f : Tree → Except TreeError Tree} (h : ∀ t t', f t = .ok t' → R t t') :
    Preserves R E (TreeM.update f) := by
  intro t
  rw [wp.update]
  cases hf : f t with
  | ok t' => exact h t t' hf
  | error e => exact Absorbs.of_rel (refl_of R t)

theorem lift {r : Except TreeError α} : Preserves R E (TreeM.lift r) := by
  intro t
  rw [wp.lift]
  cases r with
  | ok a => exact refl_of R t
  | error e => exact Absorbs.of_rel (refl_of R t)

omit [IsPreorder Tree R] [Absorbs R E] in
theorem outcome {act : TreeM α} (h : Preserves R R act) : Preserves R E (TreeM.outcome act) := by
  intro t
  rw [wp.outcome]
  refine (h t).mono fun r t' h' => ?_
  cases r <;> exact h'

/-- A failure may be looked at if what follows it fails as well. -/
theorem attempt {act : TreeM α} {f : Except TreeError α → TreeM β} (hact : Preserves R E act)
    (hok : ∀ a, Preserves R E (f (.ok a)))
    (herror : ∀ e t, wp (f (.error e)) (fun r t' => (∃ e', r = .error e') ∧ R t t') t) :
    Preserves R E (TreeM.outcome act >>= f) := by
  intro t
  rw [wp.bind, wp.outcome]
  refine (hact t).mono fun r t' h => ?_
  cases r with
  | ok a => exact (hok a t').mono fun _ _ h' => h'.left h
  | error e =>
    refine (herror e t').mono ?_
    rintro _ t'' ⟨⟨e', rfl⟩, h'⟩
    exact Absorbs.right h h'

end Preserves

end FormatFuzz
