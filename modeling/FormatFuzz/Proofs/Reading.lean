-- SUMMARY: Reads of a settled tree: what they leave behind, and what is known of their results.
import FormatFuzz.Proofs.Invalidation
import FormatFuzz.Proofs.Likeness

/-!
# Reading

While a settled tree is read, only caches, readers and the stack change. `Tree.Sound` is what holds
of the caches all the time: each is an answer that depends on nodes only that affect the cached node.

`Tree.Reads x act P` says that `act` keeps this and that its results satisfy `P`, which may speak of
the nodes that affect `x` in the end: these become more with every read that is noted.
-/

namespace FormatFuzz

open Relation (ReflTransGen)

namespace Tree

/-- The tree differs from `t₀` in caches, readers and the stack only, and all caches are right. -/
structure Sound (τ : Template) (measured : Prop) (t₀ t : Tree) : Prop where
  like : t₀.Like t
  cached : ∀ {x n b}, t.node? x = some n → n.cache = some b →
    Denotes τ measured t₀ (t.Affects · x) (.bytes x) b

/-- The children of what is in the footprint are in it. -/
def Downward (t : Tree) (F : NodeId → Prop) : Prop :=
  ∀ {x n c}, F x → t.node? x = some n → c ∈ n.children → F c

variable {τ : Template} {measured : Prop} {t₀ t t' : Tree} {F : NodeId → Prop} {x id : NodeId}
  {n : Node}

-- ---------------------------------------------------------------------------
-- Sound trees
-- ---------------------------------------------------------------------------

theorem Downward.of_like (hlike : t₀.Like t) (hwf : t₀.WellFormed) :
    t₀.Downward (t.Affects · x) := by
  intro y n c hy hn hc
  obtain ⟨-, m, hm, hp⟩ := hwf.child hn hc
  obtain ⟨m', hm', hbare⟩ := hlike.node? hm
  have hparent := congrArg Node.parent hbare
  exact .head (.of_parent hm' (hparent.trans hp)) hy

theorem Downward.of_path {y : NodeId} (h : t₀.Downward F) (hx : F x)
    (hpath : ReflTransGen t₀.Lists x y) : F y := by
  induction hpath with
  | refl => exact hx
  | tail _ hstep ih =>
    obtain ⟨n, hn, hc⟩ := hstep
    exact h ih hn hc

namespace Sound

theorem node? (h : Sound τ measured t₀ t) (hn : t.node? id = some n) :
    ∃ n₀, t₀.node? id = some n₀ ∧ n₀.bare = n.bare :=
  h.like.symm.node? hn

/-- The caches stay right when edges are added. -/
theorem of_like (h : Sound τ measured t₀ t) (hlike : t.Like t')
    (hedges : ∀ a b, t.Feeds a b → t'.Feeds a b)
    (hcache : ∀ x n' b, t'.node? x = some n' → n'.cache = some b →
      ∃ n, t.node? x = some n ∧ n.cache = some b) : Sound τ measured t₀ t' where
  like := h.like.trans hlike
  cached := by
    intro x n' b hn' hb
    obtain ⟨n, hn, hb⟩ := hcache x n' b hn' hb
    exact (h.cached hn hb).mono fun y hy => hy.mono hedges

end Sound

theorem Feeds.noteReader {source reader a b : NodeId} (h : t.Feeds a b) :
    (t.noteReader source reader).Feeds a b := by
  obtain ⟨n, hn, hb⟩ := h
  unfold Feeds
  rw [node?_noteReader]
  split
  · rw [hn]
    refine ⟨_, rfl, ?_⟩
    rcases List.mem_append.mp hb with hb | hb
    · exact List.mem_append_left _ hb
    · exact List.mem_append_right _ (NodeId.mem_insertInto.mpr (.inr hb))
  · exact ⟨n, hn, hb⟩

theorem affects_noteReader {source reader : NodeId} (hn : t.node? source = some n) :
    (t.noteReader source reader).Affects source reader := by
  by_cases h : source = reader
  · exact h ▸ .refl
  · refine .single ⟨{ n with dependents := reader.insertInto n.dependents }, ?_, ?_⟩
    · rw [node?_noteReader, if_pos ⟨rfl, h⟩, hn]
      rfl
    · exact List.mem_append_right _ (NodeId.mem_insertInto.mpr (.inl rfl))

theorem Sound.noteReader (h : Sound τ measured t₀ t) (source reader : NodeId) :
    Sound τ measured t₀ (t.noteReader source reader) := by
  refine h.of_like (.of_noteReader source reader) (fun a b => .noteReader) fun x n' b hn' hb => ?_
  rw [node?_noteReader] at hn'
  split at hn'
  · obtain ⟨n, hn, rfl⟩ := Option.map_eq_some_iff.mp hn'
    exact ⟨n, hn, hb⟩
  · exact ⟨n', hn', hb⟩

end Tree

-- ---------------------------------------------------------------------------
-- Reads
-- ---------------------------------------------------------------------------

open TreeM
open FormatFuzz.Tree (Sound Denotes Downward)

variable {τ : Template} {measured : Prop} {t₀ : Tree} {x id : NodeId} {α β : Type}

/-- `act` keeps the caches right, and its results satisfy `P` for the nodes that affect `x`
afterwards. -/
def Reads (τ : Template) (measured : Prop) (t₀ : Tree) (x : NodeId) (act : TreeM α)
    (P : (NodeId → Prop) → α → Prop) : Prop :=
  ∀ t, Sound τ measured t₀ t → wp act (fun r t' => Sound τ measured t₀ t' ∧
    (∀ a b, t.Feeds a b → t'.Feeds a b) ∧ ∀ a, r = .ok a → P (t'.Affects · x) a) t

/-- What is known for a footprint is known for all larger ones. -/
def Upward (x : NodeId) (P : (NodeId → Prop) → α → Prop) : Prop :=
  ∀ F F' a, F x → (∀ y, F y → F' y) → P F a → P F' a

namespace Reads

variable {act : TreeM α} {P : (NodeId → Prop) → α → Prop} {Q : (NodeId → Prop) → β → Prop}

-- ---------------------------------------------------------------------------
-- Rules
-- ---------------------------------------------------------------------------

theorem pure {a : α} (h : ∀ F, F x → P F a) : Reads τ measured t₀ x (Pure.pure a) P := by
  intro t ht
  rw [wp.pure]
  refine ⟨ht, fun _ _ hab => hab, fun b hb => ?_⟩
  cases hb
  exact h _ .refl

theorem throw {e : TreeError} : Reads τ measured t₀ x (MonadExcept.throw e : TreeM α) P := by
  intro t ht
  rw [wp.throw]
  exact ⟨ht, fun _ _ hab => hab, fun b hb => by cases hb⟩

theorem lift {r : Except TreeError α} (h : ∀ a, r = .ok a → ∀ F, F x → P F a) :
    Reads τ measured t₀ x (TreeM.lift r) P := by
  cases r with
  | ok a => exact pure fun F hx => h a rfl F hx
  | error e => exact throw

theorem look {f : Tree → Except TreeError α}
    (h : ∀ t a, Sound τ measured t₀ t → f t = .ok a → ∀ F, F x → P F a) :
    Reads τ measured t₀ x (TreeM.look f) P := by
  intro t ht
  rw [wp.look]
  exact ⟨ht, fun _ _ hab => hab, fun a ha => h t a ht ha _ .refl⟩

theorem mono {P' : (NodeId → Prop) → α → Prop} (h : Reads τ measured t₀ x act P)
    (hP : ∀ F a, F x → P F a → P' F a) : Reads τ measured t₀ x act P' := by
  intro t ht
  refine (h t ht).mono ?_
  rintro r t' ⟨ht', hedges, hr⟩
  exact ⟨ht', hedges, fun a ha => hP _ a .refl (hr a ha)⟩

/-- With the node itself, all below it are in the footprint. -/
theorem downward {P' : (NodeId → Prop) → α → Prop} (h : Reads τ measured t₀ x act P)
    (hwf : t₀.WellFormed) (hP : ∀ F a, F x → t₀.Downward F → P F a → P' F a) :
    Reads τ measured t₀ x act P' := by
  intro t ht
  refine (h t ht).mono ?_
  rintro r t' ⟨ht', hedges, hr⟩
  exact ⟨ht', hedges, fun a ha => hP _ a .refl (Downward.of_like ht'.like hwf) (hr a ha)⟩

theorem bind {f : α → TreeM β} (h : Reads τ measured t₀ x act P) (hup : Upward x P)
    (hf : ∀ a, (∃ F, F x ∧ P F a) → Reads τ measured t₀ x (f a) (fun F b => P F a → Q F b)) :
    Reads τ measured t₀ x (act >>= f) Q := by
  intro t ht
  rw [wp.bind]
  refine (h t ht).mono ?_
  rintro (e | a) t₁ ⟨ht₁, hedges, hP⟩
  · exact ⟨ht₁, hedges, fun b hb => by cases hb⟩
  · refine (hf a ⟨_, .refl, hP a rfl⟩ t₁ ht₁).mono ?_
    rintro r t₂ ⟨ht₂, hedges', hQ⟩
    refine ⟨ht₂, fun _ _ hab => hedges' _ _ (hedges _ _ hab), fun b hb => hQ b hb ?_⟩
    exact hup _ _ a .refl (fun y hy => hy.mono hedges') (hP a rfl)

/-- The first result satisfies something that does not depend on the footprint. -/
theorem seq {p : α → Prop} {f : α → TreeM β} (h : Reads τ measured t₀ x act fun _ a => p a)
    (hf : ∀ a, p a → Reads τ measured t₀ x (f a) Q) : Reads τ measured t₀ x (act >>= f) Q :=
  h.bind (fun _ _ _ _ _ hp => hp) fun a ⟨_, _, hp⟩ => (hf a hp).mono fun _ _ _ hQ _ => hQ

/-- The result is put into a form that tells what it is made of. -/
theorem result {g : α → β} (h : Reads τ measured t₀ x act P)
    (hg : ∀ F a, F x → P F a → Q F (g a)) :
    Reads τ measured t₀ x (act >>= fun a => Pure.pure (g a)) Q := by
  intro t ht
  rw [wp.bind]
  refine (h t ht).mono ?_
  rintro (e | a) t' ⟨ht', hedges, hP⟩
  · exact ⟨ht', hedges, fun b hb => by cases hb⟩
  · refine ⟨ht', hedges, fun b hb => ?_⟩
    cases hb
    exact hg _ a .refl (hP a rfl)

theorem ite {c : Prop} [Decidable c] {act' : TreeM α} (h : c → Reads τ measured t₀ x act P)
    (h' : ¬ c → Reads τ measured t₀ x act' P) :
    Reads τ measured t₀ x (if c then act else act') P := by
  split
  · exact h ‹_›
  · exact h' ‹_›

theorem get_bind {f : Tree → TreeM β}
    (h : ∀ t, Sound τ measured t₀ t → Reads τ measured t₀ x (f t) Q) :
    Reads τ measured t₀ x (MonadState.get >>= f) Q := by
  intro t ht
  rw [wp.bind, wp.get]
  exact h t ht t ht

theorem outcome (h : Reads τ measured t₀ x act P) :
    Reads τ measured t₀ x (TreeM.outcome act) (fun F r => ∀ a, r = .ok a → P F a) := by
  intro t ht
  rw [wp.outcome]
  refine (h t ht).mono ?_
  rintro r t' ⟨ht', hedges, hP⟩
  refine ⟨ht', hedges, fun r' hr' => ?_⟩
  cases hr'
  exact hP

/-- What is known for the nodes that affect `y` is known for those that affect `x`, if `y` does. -/
theorem widen {y : NodeId} (h : Reads τ measured t₀ y act P) (hup : Upward y P) :
    Reads τ measured t₀ x act (fun F a => F y → P F a) := by
  intro t ht
  refine (h t ht).mono ?_
  rintro r t' ⟨ht', hedges, hP⟩
  exact ⟨ht', hedges, fun a ha hyx => hup _ _ a .refl (fun z hz => hz.trans hyx) (hP a ha)⟩

theorem mapM {xs : List α} {f : α → TreeM β} {P : α → (NodeId → Prop) → β → Prop}
    (h : ∀ a ∈ xs, Reads τ measured t₀ x (f a) (P a)) (hup : ∀ a, Upward x (P a)) :
    Reads τ measured t₀ x (xs.mapM f) fun F bs => List.Forall₂ (fun a b => P a F b) xs bs := by
  induction xs with
  | nil => exact pure fun _ _ => .nil
  | cons a rest ih =>
    rw [List.mapM_cons]
    refine (h a List.mem_cons_self).bind (hup a) fun b _ => ?_
    have hrest := ih fun c hc => h c (List.mem_cons_of_mem _ hc)
    refine hrest.bind (fun F F' bs hx hF hbs => hbs.imp fun a b => hup a F F' b hx hF) fun bs _ => ?_
    exact pure fun _ _ hbs hb => .cons hb hbs

theorem sum {xs : List α} {f : α → TreeM Nat} {P : α → (NodeId → Prop) → Nat → Prop} (start : Nat)
    (h : ∀ a ∈ xs, Reads τ measured t₀ x (f a) (P a)) (hup : ∀ a, Upward x (P a)) :
    Reads τ measured t₀ x (xs.foldlM (fun total a => do
      let n ← f a
      return total + n) start) fun F k => ∃ parts, List.Forall₂ (fun a m => P a F m) xs parts ∧
        k = start + parts.sum := by
  induction xs generalizing start with
  | nil => exact pure fun _ _ => ⟨[], .nil, rfl⟩
  | cons a rest ih =>
    rw [List.foldlM_cons]
    have hrest := fun start => ih start fun c hc => h c (List.mem_cons_of_mem _ hc)
    refine bind (P := fun F k => ∃ m, P a F m ∧ k = start + m) ?_ ?_ fun total _ => ?_
    · exact (h a List.mem_cons_self).result fun F m _ hm => ⟨m, hm, rfl⟩
    · exact fun F F' k hx hF ⟨m, hm, hk⟩ => ⟨m, hup a F F' m hx hF hm, hk⟩
    · refine (hrest total).mono fun F k _ ⟨parts, hparts, hk⟩ ⟨m, hm, htotal⟩ => ?_
      exact ⟨m :: parts, .cons hm hparts, by rw [hk, htotal, List.sum_cons, Nat.add_assoc]⟩

/-- A read that is noted adds to the footprint. -/
theorem note {source : NodeId} (hlive : t₀.isLive source = true) :
    Reads τ measured t₀ x (modify fun t : Tree => t.noteReader source x) fun F _ => F source := by
  intro t ht
  rw [wp.modify]
  refine ⟨ht.noteReader source x, fun a b => .noteReader, fun _ _ => ?_⟩
  obtain ⟨n, hn⟩ := Tree.isLive_iff_node?.mp hlive
  obtain ⟨n', hn', -⟩ := ht.like.node? hn
  exact Tree.affects_noteReader hn'

/-- A result that is an answer may be put into the cache. -/
theorem store {act : TreeM Bytes}
    (h : Reads τ measured t₀ x act fun F b => Denotes τ measured t₀ F (.bytes x) b) :
    Reads τ measured t₀ x (do
      let b ← act
      TreeM.update fun t => do
        let _ ← t.node x
        return t.modify x ({ · with cache := some b })
      return b) fun F b => Denotes τ measured t₀ F (.bytes x) b := by
  intro t ht
  rw [wp.bind]
  refine (h t ht).mono ?_
  rintro (e | b) t₁ ⟨ht₁, hedges, hb⟩
  · exact ⟨ht₁, hedges, fun b hb => by cases hb⟩
  · simp only [wp.bind, wp.update]
    cases hn : t₁.node x with
    | error e => exact ⟨ht₁, hedges, fun b hb => by cases hb⟩
    | ok n =>
      have hedges' : ∀ a c, t₁.Feeds a c → (t₁.modify x ({ · with cache := some b })).Feeds a c := by
        rintro a c ⟨m, hm, hc⟩
        unfold Tree.Feeds
        rw [Tree.node?_modify]
        split
        · rename_i ha
          rw [← ha, hm]
          exact ⟨_, rfl, hc⟩
        · exact ⟨m, hm, hc⟩
      simp only [ok_bind, pure_eq_ok, wp.pure]
      refine ⟨⟨ht₁.like.trans (.of_modify fun _ => rfl), fun {y m b'} hm hb' => ?_⟩,
        fun _ _ hab => hedges' _ _ (hedges _ _ hab), fun b' hb' => ?_⟩
      · rw [Tree.node?_modify] at hm
        split at hm
        · rename_i hy
          obtain ⟨l, -, rfl⟩ := Option.map_eq_some_iff.mp hm
          cases hb'
          exact hy ▸ (hb b rfl).mono fun _ hz => hz.mono hedges'
        · exact (ht₁.cached hm hb').mono fun _ hz => hz.mono hedges'
      · cases hb'
        exact (hb b rfl).mono fun _ hz => hz.mono hedges'

-- ---------------------------------------------------------------------------
-- The stack
-- ---------------------------------------------------------------------------

theorem stack {f : Tree → List NodeId} :
    Reads τ measured t₀ x (modify fun t : Tree => { t with resolving := f t }) fun _ _ => True := by
  intro t ht
  rw [wp.modify]
  refine ⟨⟨⟨ht.like.root, ht.like.seed, ht.like.size, ht.like.nodes⟩, fun {y n b} hn hb => ?_⟩,
    fun _ _ hab => hab, fun _ _ => trivial⟩
  exact (ht.cached hn hb).mono fun _ hy => hy.mono fun _ _ hab => hab

theorem guarded (h : Reads τ measured t₀ x act P) (hup : Upward x P) :
    Reads τ measured t₀ x (Resolver.guarded id act) P := by
  have henter : Reads τ measured t₀ x (Resolver.enter id) fun _ _ => True := by
    refine get_bind fun t _ => ?_
    split
    · exact seq (p := fun _ => True) throw fun _ _ => stack
    · exact stack
  refine henter.seq fun _ _ => h.outcome.bind ?_ fun r _ => stack.seq fun _ _ => ?_
  · exact fun F F' r hx hF hr a ha => hup F F' a hx hF (hr a ha)
  · exact lift fun a ha F _ hr => hr a ha

end Reads

end FormatFuzz
