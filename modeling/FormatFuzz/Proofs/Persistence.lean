-- SUMMARY: What has had a result has it where more is cached and less is on the stack.
import FormatFuzz.Proofs.Recurrence

/-!
# Persistence

A question that has had a result has the same one in a tree in which more is cached and less is on the
stack (`Resolver.persists_resolve`). Not just anything may be cached in addition: it has to be what comes
out of the node when that is worked out anew (`Tree.Justified`). Questions cache nothing else
(`Tree.grounds_resolve`), so that what one question has left behind changes no result of another one.

The two runs go through the same parts side by side. They come apart where the second one finds a cache
that the first one does not have; from the justification of the cache the result is the same, and so is
what is cached afterwards.
-/

namespace FormatFuzz

open TreeM

open FormatFuzz.Tree (Sane Stores Fills Twins)

-- ---------------------------------------------------------------------------
-- Justified caches
-- ---------------------------------------------------------------------------

namespace Tree

variable {t t' u v u' v' u₁ v₁ : Tree} {id x : NodeId} {n m : Node} {b : Bytes}

/-- The tree with nothing but the node on the stack. -/
def alone (t : Tree) (x : NodeId) : Tree := { t with resolving := [x] }

/-- The bytes are those of the node, and nothing has to be cached to find them out, as long as no less is
cached than in this tree. -/
structure Justified (t : Tree) (x : NodeId) (b : Bytes) : Prop where
  tallies : ∀ n, t.node? x = some n → t.Tallies x n b
  again : ∃ limit, ∀ depth, limit ≤ depth → ∀ u, (t.alone x).Fills u →
    wp (Resolver.freshBytes (Resolver.resolve depth) x)
      (fun r u' => r = .ok b ∧ ∀ y, u'.cacheOf y = u.cacheOf y) u

theorem Justified.mono (h : t.Justified x b) (hfills : t.Fills t') : t'.Justified x b where
  tallies n' hn' := by
    obtain ⟨n, hn, hbare⟩ := hfills.symm.node? hn'
    exact (h.tallies n hn).mono hfills.outline hfills.kept hbare.symm
  again := by
    obtain ⟨limit, hagain⟩ := h.again
    exact ⟨limit, fun depth hdepth u hu => hagain depth hdepth u ((hfills.stack fun _ => [x]).trans hu)⟩

theorem Justified.stack (h : t.Justified x b) (resolving : List NodeId) :
    Justified { t with resolving } x b :=
  ⟨h.tallies, h.again⟩

theorem Sane.stack (h : t.Sane) (resolving : List NodeId) : Sane { t with resolving } :=
  ⟨h.settled, h.straight, h.encoded⟩

-- ---------------------------------------------------------------------------
-- Trees in which questions are easier
-- ---------------------------------------------------------------------------

/-- In the second tree no less is cached, and no more is on the stack. What is cached in addition is
justified. -/
structure Eases (u v : Tree) : Prop where
  like : u.Like v
  left : u.Sane
  right : v.Sane
  kept : ∀ {x b}, u.cacheOf x = some b → v.cacheOf x = some b
  stack : v.resolving ⊆ u.resolving
  justified : ∀ {x b}, u.cacheOf x = none → v.cacheOf x = some b → v.Justified x b

/-- The two trees go on to trees in which again the second one has no less cached, and in which it has
cached nothing that the first one does not have. -/
structure Advances (u v u' v' : Tree) : Prop where
  left : u.Stores u'
  right : v.Stores v'
  kept : ∀ {x b}, u'.cacheOf x = some b → v'.cacheOf x = some b
  modest : ∀ {x}, v.cacheOf x = none → u'.cacheOf x = none → v'.cacheOf x = none

namespace Eases

theorem outline (h : u.Eases v) : v.outline = u.outline := h.like.outline

theorem node? (h : u.Eases v) (hn : u.node? id = some n) :
    ∃ m, v.node? id = some m ∧ m.bare = n.bare := h.like.node? hn

/-- A node is put on the stack of both trees, or of the first one with nothing else on the second. -/
theorem push (h : u.Eases v) {stack stack' : List NodeId} (hstack : stack' ⊆ stack) :
    Eases { u with resolving := stack } { v with resolving := stack' } where
  like := ⟨h.like.root, h.like.seed, h.like.size, h.like.nodes⟩
  left := h.left.stack stack
  right := h.right.stack stack'
  kept := h.kept
  stack := hstack
  justified hnone hb := (h.justified hnone hb).stack stack'

theorem advances (h : u.Eases v) : Advances u v u v where
  left := .refl u
  right := .refl v
  kept := h.kept
  modest hnone _ := hnone

end Eases

namespace Advances

theorem trans (h : Advances u v u₁ v₁) (h' : Advances u₁ v₁ u' v') : Advances u v u' v' where
  left := h.left.trans h'.left
  right := h.right.trans h'.right
  kept := h'.kept
  modest {x} hnone hnone' := by
    have hnone₁ : u₁.cacheOf x = none := by
      cases hb : u₁.cacheOf x with
      | none => rfl
      | some b =>
        rw [h'.left.kept hb] at hnone'
        cases hnone'
    exact h'.modest (h.modest hnone hnone₁) hnone'

theorem eases (h : Advances u v u' v') (heases : u.Eases v) : u'.Eases v' where
  like := h.left.toLike.symm.trans (heases.like.trans h.right.toLike)
  left := h.left.sane heases.left
  right := h.right.sane heases.right
  kept := h.kept
  stack := by
    rw [h.left.resolving, h.right.resolving]
    exact heases.stack
  justified {x b} hnone hb := by
    cases hv : v.cacheOf x with
    | none =>
      rw [h.modest hv hnone] at hb
      cases hb
    | some b' =>
      have hkept := h.right.kept hv
      rw [hb] at hkept
      cases hkept
      refine (heases.justified ?_ hv).mono h.right.toFills
      cases hu : u.cacheOf x with
      | none => rfl
      | some b =>
        rw [h.left.kept hu] at hnone
        cases hnone

/-- The same bytes may be cached for a node of both trees. -/
theorem kept_store (h : Advances u v u' v') (hn : u'.node? id = some n) (hm : v'.node? id = some m)
    {c : Bytes} (hc : (u'.modify id ({ · with cache := some b })).cacheOf x = some c) :
    (v'.modify id ({ · with cache := some b })).cacheOf x = some c := by
  rw [cacheOf_store hn] at hc
  rw [cacheOf_store hm]
  split at hc
  · rwa [if_pos ‹_›]
  · rw [if_neg ‹_›]
    exact h.kept hc

theorem modest_store (h : Advances u v u' v') (hn : u'.node? id = some n) (hm : v'.node? id = some m)
    (hx : v.cacheOf x = none) (hx' : (u'.modify id ({ · with cache := some b })).cacheOf x = none) :
    (v'.modify id ({ · with cache := some b })).cacheOf x = none := by
  rw [cacheOf_store hn] at hx'
  rw [cacheOf_store hm]
  split at hx'
  · cases hx'
  · rw [if_neg ‹_›]
    exact h.modest hx hx'

end Advances

end Tree

open FormatFuzz.Tree (Eases Advances)

-- ---------------------------------------------------------------------------
-- Results that persist
-- ---------------------------------------------------------------------------

/-- Where the first operation has a result, the second one has the same in a tree in which questions are
easier. -/
def Persists {α : Type} (act act' : TreeM α) : Prop :=
  ∀ u v, Eases u v → wp act (fun r u' => ∀ a, r = .ok a →
    wp act' (fun r' v' => r' = .ok a ∧ Advances u v u' v') v) u

namespace Persists

variable {α β : Type} {act act' : TreeM α} {f f' : α → TreeM β} {id : NodeId}

theorem of_surveys (h : Tree.Surveys act) : Persists act act := by
  intro u v huv
  obtain ⟨r, hr⟩ := h u huv.left.settled
  refine (hr u rfl).mono ?_
  rintro _ _ ⟨rfl, rfl⟩ a rfl
  refine (hr v huv.outline).mono ?_
  rintro _ _ ⟨rfl, rfl⟩
  exact ⟨rfl, huv.advances⟩

theorem throw {e : TreeError} : Persists (MonadExcept.throw e : TreeM α) act' := by
  rintro u v - a ⟨⟩

/-- A failure may be looked at if it only leads to another one. -/
theorem attempt {g g' : Except TreeError α → TreeM β} (hact : Persists act act')
    (hok : ∀ a, Persists (g (.ok a)) (g' (.ok a)))
    (herror : ∀ e, ∃ e', g (.error e) = MonadExcept.throw e') :
    Persists (TreeM.outcome act >>= g) (TreeM.outcome act' >>= g') := by
  intro u v huv
  rw [wp.bind, wp.outcome]
  refine (hact u v huv).mono fun r u₁ h₁ => ?_
  dsimp only
  cases r with
  | error e =>
    obtain ⟨e', he'⟩ := herror e
    rw [he']
    rintro a ⟨⟩
  | ok a =>
    obtain ⟨v₁, hrun, hadvances⟩ := (h₁ a rfl).exists_run
    refine (hok a u₁ v₁ (hadvances.eases huv)).mono fun r u₂ h₂ b hb => ?_
    rw [wp.bind, wp.outcome]
    exact wp.of_eq hrun ((h₂ b hb).mono fun r' v₂ h => ⟨h.1, hadvances.trans h.2⟩)

theorem bind (hact : Persists act act') (hf : ∀ a, Persists (f a) (f' a)) :
    Persists (act >>= f) (act' >>= f') := by
  rw [TreeM.bind_eq_outcome, TreeM.bind_eq_outcome act']
  exact attempt hact hf fun e => ⟨e, rfl⟩

/-- Without closures, caches and the stack, there is nothing to show. -/
theorem readRules : PairRules Sane fun _ => Persists where
  pure _ := .of_surveys .pure
  fail _ := .throw
  bind := .bind
  look {_ _ f g g'} hf hg u v huv := by
    cases ha : f u with
    | error e =>
      rw [wp.look_error ha]
      rintro a ⟨⟩
    | ok a =>
      rw [wp.look_ok ha]
      refine (hg u a huv.left ha u v huv).mono fun r u' h b hb => ?_
      rw [wp.look_ok ((huv.like.eq_of_bare hf).trans ha)]
      exact h b hb
  state {_ f f'} hf hf' hact u v huv := by
    rw [wp.get_bind]
    refine (hact u u v huv).mono fun r u' h b hb => ?_
    rw [wp.get_bind, Tree.eq_of_outline hf' huv.outline]
    exact h b hb
  find start path := .of_surveys (Tree.find_surveys start path)
  tryFind start path := .of_surveys (Replays.surveys_outcome (Tree.find_surveys start path))
  touch id := .of_surveys (Tree.touch_surveys id)
  count id := .of_surveys (Tree.count_surveys id)
  note reader _ u v huv := by
    rw [wp.modify]
    rintro _ ⟨⟩
    rw [wp.modify]
    refine ⟨rfl, .of_noteReader huv.left.settled _ reader, .of_noteReader huv.right.settled _ reader,
      fun hb => ?_, fun hnone _ => ?_⟩
    · rw [Tree.cacheOf_noteReader] at hb ⊢
      exact huv.kept hb
    · rw [Tree.cacheOf_noteReader]
      exact hnone

/-- With the node on both stacks, what comes out persists as well. -/
theorem guarded (hact : Persists act act') :
    Persists (Resolver.guarded id act) (Resolver.guarded id act') := by
  intro u v huv
  rw [wp.guarded]
  split
  · rintro a ⟨⟩
  · rename_i hid
    have hpushed := huv.push (List.cons_subset_cons id huv.stack)
    refine (hact _ _ hpushed).mono fun r u₁ h₁ a ha => ?_
    rw [wp.guarded, if_neg fun hmem => hid (huv.stack hmem)]
    refine (h₁ a ha).mono fun r' v₁ h => ⟨h.1, h.2.left.pop, h.2.right.pop, h.2.kept, h.2.modest⟩

end Persists

-- ---------------------------------------------------------------------------
-- Closures
-- ---------------------------------------------------------------------------

namespace Resolver

section

variable {ask ask' : Resolver} (hask : ∀ r, Persists (ask r) (ask' r))

include hask

theorem persists_runScript {α : Type} (id : NodeId) {s : Script α} (hs : s.Brittle) :
    Persists (runScript ask id s) (runScript ask' id s) := by
  refine Persists.readRules.survey (fun _ => Tree.enclosing_outline) fun base => ?_
  induction s with
  | done r => exact Persists.readRules.lift r
  | ask q next ih =>
    obtain ⟨herror, hnext⟩ := hs
    refine .attempt (Persists.readRules.answer ask ask' base id q fun r _ => hask r)
      (fun a => ih (.ok a) (hnext (.ok a))) fun e => ?_
    obtain ⟨e', he'⟩ := herror e
    exact ⟨e', by rw [he']; rfl⟩

theorem persists_scripts : PairScripts Sane (fun _ => Persists) ask ask' where
  deferred hsane hcell := persists_runScript hask _ (hsane.brittle_of_deferred hcell)
  computed hsane hcell := persists_runScript hask _ (hsane.brittle_of_computed hcell)
  action hsane haction raw := persists_runScript hask _ (hsane.brittle_of_action haction raw)

theorem persists_freshBytes (id : NodeId) : Persists (freshBytes ask id) (freshBytes ask' id) :=
  Persists.readRules.freshBytes ask ask' (fun id => hask (.bytes id)) (fun id => hask (.value id))
    (persists_scripts hask) id

end

-- ---------------------------------------------------------------------------
-- Questions about cached nodes
-- ---------------------------------------------------------------------------

section

variable {t : Tree} {id : NodeId} {b : Bytes}

theorem bytes_idle (hb : t.cacheOf id = some b) (depth : Nat) :
    wp (resolve depth (.bytes id)) (fun r t' => t' = t ∧ ∀ b' : Bytes, r = .ok b' → b' = b) t := by
  cases depth with
  | zero =>
    refine ⟨rfl, ?_⟩
    rintro b' ⟨⟩
  | succ depth =>
    obtain ⟨n, hn, hcache⟩ := Tree.cacheOf_eq_some.mp hb
    refine (wp_bytesStep_cached hn hcache).mpr ⟨rfl, ?_⟩
    rintro b' ⟨⟩
    rfl

theorem length_idle (hb : t.cacheOf id = some b) (depth : Nat) :
    wp (resolve depth (.length id)) (fun _ t' => t' = t) t := by
  cases depth with
  | zero => rfl
  | succ depth =>
    obtain ⟨n, hn, hcache⟩ := Tree.cacheOf_eq_some.mp hb
    cases hrule : lengthRule n with
    | codec codec => exact (wp_lengthStep_codec hn hrule).mpr rfl
    | _ => exact (wp_lengthStep_cached hn (by simp [hrule]) hcache).mpr rfl

/-- Where the children of a node are cached, their lengths are told without a change. -/
theorem shownLength_idle (hs : t.Settled) {shown : List NodeId} {parts : List Bytes}
    (hshown : t.shownChildren id = .ok shown)
    (hparts : List.Forall₂ (fun c part => t.cacheOf c = some part) shown parts) (depth : Nat)
    (isRepeated : Bool) : wp (shownLength (resolve depth) id isRepeated) (fun _ t' => t' = t) t := by
  refine wp_shownLength hs (fun _ => rfl) fun shown' hshown' => ?_
  rw [hshown] at hshown'
  cases hshown'
  refine wp.foldlM (fun rest _ u => rest ⊆ shown ∧ u = t) ⟨fun _ hc => hc, rfl⟩ (fun _ _ hu => hu.2) ?_
  rintro c rest total _ ⟨hsub, rfl⟩
  obtain ⟨part, hpart⟩ := Tree.exists_of_forall₂ hparts (hsub List.mem_cons_self)
  refine wp.bind.mpr ((length_idle hpart depth).mono ?_)
  rintro (e | k) _ rfl
  · rfl
  · exact ⟨fun _ hc => hsub (List.mem_cons_of_mem _ hc), rfl⟩

end

-- ---------------------------------------------------------------------------
-- Steps
-- ---------------------------------------------------------------------------

section

variable {d : Nat} (hask : ∀ e, d ≤ e → ∀ r, Persists (resolve d r) (resolve e r)) {e : Nat} (hde : d ≤ e)
  {u v : Tree} (huv : u.Eases v) {id : NodeId} {n m : Node}

include hask

include huv in
/-- If only the second tree has the bytes cached, they are what comes out of the node with nothing else on
the stack, where it comes out in the first tree. -/
theorem freshBytes_justified (hnone : u.cacheOf id = none) {b : Bytes} (hb : v.cacheOf id = some b) :
    wp (guarded id (freshBytes (resolve d) id)) (fun r u' => ∀ b' : Bytes, r = .ok b' →
      (b' = b ∧ ∀ {x c}, u'.cacheOf x = some c → v.cacheOf x = some c) ∧ u.Like u') u := by
  obtain ⟨limit, hagain⟩ := (huv.justified hnone hb).again
  have hagain := hagain (max limit d) (Nat.le_max_left _ _) _ (.refl (v.alone id))
  rw [wp.guarded]
  split
  · rintro b' ⟨⟩
  · -- The second tree is looked at with nothing else on the stack, which is what justification speaks of.
    have halone := huv.push (List.cons_subset_cons id (List.nil_subset u.resolving))
    refine (persists_freshBytes (hask _ (Nat.le_max_right limit d)) id _ _ halone).mono
      fun r u₁ h₁ b' hb' => ?_
    obtain ⟨⟨hr, hadvances⟩, hr', hsame⟩ := (h₁ b' hb').and hagain
    refine ⟨⟨Except.ok.inj (hr.symm.trans hr'), fun {x c} hc => ?_⟩, hadvances.left.pop.toLike⟩
    exact (hsame x).symm.trans (hadvances.kept hc)

include hde huv in
/-- Bytes that neither tree has cached are worked out in both, and cached in both. -/
theorem persists_bytesStep_fresh (hn : u.node? id = some n) (hnone : n.cache = none)
    (hm : v.node? id = some m) (hnone' : m.cache = none) :
    wp (bytesStep (resolve d) id) (fun r u' => ∀ b, r = .ok b →
      wp (bytesStep (resolve e) id) (fun r' v' => r' = .ok b ∧
        (∀ {x c}, u'.cacheOf x = some c → v'.cacheOf x = some c) ∧
        ∀ {x}, v.cacheOf x = none → u'.cacheOf x = none → v'.cacheOf x = none) v) u := by
  rw [wp_bytesStep_fresh hn hnone, wp.bind]
  refine ((persists_freshBytes (hask e hde) id).guarded u v huv).mono fun r u₁ h₁ => ?_
  cases r with
  | error e =>
    rintro b ⟨⟩
  | ok b =>
    obtain ⟨v₁, hrun, hadvances⟩ := (h₁ b rfl).exists_run
    obtain ⟨n₁, hn₁, -⟩ := hadvances.left.node? hn
    obtain ⟨m₁, hm₁, -⟩ := hadvances.right.node? hm
    dsimp only
    rw [wp_store hn₁]
    rintro _ ⟨⟩
    rw [wp_bytesStep_fresh hm hnone', wp.bind]
    refine wp.of_eq hrun ?_
    dsimp only
    rw [wp_store hm₁]
    exact ⟨rfl, hadvances.kept_store hn₁ hm₁, hadvances.modest_store hn₁ hm₁⟩

include huv in
/-- Bytes that only the second tree has cached are worked out in the first one, and cached. -/
theorem persists_bytesStep_justified (hn : u.node? id = some n) (hnone : n.cache = none) {b : Bytes}
    (hb : v.cacheOf id = some b) :
    wp (bytesStep (resolve d) id) (fun r u' => ∀ b' : Bytes, r = .ok b' →
      b' = b ∧ ∀ {x c}, u'.cacheOf x = some c → v.cacheOf x = some c) u := by
  rw [wp_bytesStep_fresh hn hnone, wp.bind]
  have hnone' : u.cacheOf id = none := (Tree.cacheOf_of_node? hn).trans hnone
  refine (freshBytes_justified hask huv hnone' hb).mono fun r u₁ h₁ => ?_
  cases r with
  | error e =>
    rintro b' ⟨⟩
  | ok b' =>
    obtain ⟨⟨rfl, hkept⟩, hlike⟩ := h₁ b' rfl
    obtain ⟨n₁, hn₁, -⟩ := hlike.node? hn
    dsimp only
    rw [wp_store hn₁]
    rintro _ ⟨⟩
    refine ⟨rfl, fun {x c} hc => ?_⟩
    rw [Tree.cacheOf_store hn₁] at hc
    split at hc
    · cases hc
      rename_i hx
      exact hx ▸ hb
    · exact hkept hc

include hde in
theorem persists_bytesStep (id : NodeId) :
    Persists (bytesStep (resolve d) id) (bytesStep (resolve e) id) := by
  intro u v huv
  cases hn : u.node? id with
  | none =>
    obtain ⟨e, he⟩ := Tree.node_eq_error.mpr hn
    unfold bytesStep
    rw [wp.look_error he]
    rintro b ⟨⟩
  | some n =>
    obtain ⟨m, hm, -⟩ := huv.node? hn
    have hleft := (recurrent_resolve d).bytesStep huv.left id
    have hright := (recurrent_resolve e).bytesStep huv.right id
    cases hcache : n.cache with
    | some b =>
      have hb : m.cache = some b :=
        (Tree.cacheOf_of_node? hm).symm.trans (huv.kept ((Tree.cacheOf_of_node? hn).trans hcache))
      rw [wp_bytesStep_cached hn hcache]
      rintro _ ⟨⟩
      rw [wp_bytesStep_cached hm hb]
      exact ⟨rfl, huv.advances⟩
    | none =>
      cases hcache' : m.cache with
      | none =>
        refine (hleft.and (persists_bytesStep_fresh hask hde huv hn hcache hm hcache')).mono ?_
        rintro r u' ⟨⟨⟨hstores, -⟩, -⟩, hfresh⟩ b hb
        refine (hright.and (hfresh b hb)).mono ?_
        rintro r' v' ⟨⟨⟨hstores', -⟩, -⟩, hr', hkept, hmodest⟩
        exact ⟨hr', hstores, hstores', hkept, hmodest⟩
      | some b =>
        have hb : v.cacheOf id = some b := (Tree.cacheOf_of_node? hm).trans hcache'
        refine (hleft.and (persists_bytesStep_justified hask huv hn hcache hb)).mono ?_
        rintro r u' ⟨⟨⟨hstores, -⟩, -⟩, hsame⟩ b' hb'
        obtain ⟨rfl, hkept⟩ := hsame b' hb'
        rw [wp_bytesStep_cached hm hcache']
        exact ⟨rfl, hstores, .refl v, hkept, fun hnone _ => hnone⟩

include hde huv in
/-- Where the bytes are cached in the second tree only, a length that is told by them is that of the cache. -/
theorem persists_lengthStep_encode (hn : u.node? id = some n) (hrule : lengthRule n = .encode)
    (hnone : n.cache = none) (hm : v.node? id = some m) (hrule' : lengthRule m = .encode) :
    wp (lengthStep (resolve d) id) (fun r u' => ∀ k, r = .ok k →
      wp (lengthStep (resolve e) id) (fun r' v' => r' = .ok k ∧ Advances u v u' v') v) u := by
  rw [wp_lengthStep_encode hn hrule hnone]
  cases hcache : m.cache with
  | none =>
    have hpair : Persists
        (do
          let b : Bytes ← resolve d (.bytes id)
          return b.length : TreeM Nat)
        (do
          let b : Bytes ← resolve e (.bytes id)
          return b.length : TreeM Nat) :=
      .bind (hask e hde (.bytes id)) fun b => .of_surveys .pure
    refine (hpair u v huv).mono fun r u' h k hk => ?_
    rw [wp_lengthStep_encode hm hrule' hcache]
    exact h k hk
  | some c =>
    have hidle := bytes_idle ((Tree.cacheOf_of_node? hm).trans hcache) e
    refine wp.bind.mpr ((hask e hde (.bytes id) u v huv).mono fun r u' h => ?_)
    cases r with
    | error e =>
      rintro k ⟨⟩
    | ok b =>
      rintro _ ⟨⟩
      obtain ⟨⟨hr, hadvances⟩, hv, hb⟩ := (h b rfl).and hidle
      rw [wp_lengthStep_cached hm (by simp [hrule']) hcache]
      rw [hv] at hadvances
      exact ⟨congrArg (fun b : Bytes => Except.ok b.length) (hb b hr).symm, hadvances⟩

include hde in
theorem persists_shownLength (id : NodeId) (isRepeated : Bool) :
    Persists (shownLength (resolve d) id isRepeated) (shownLength (resolve e) id isRepeated) := by
  have hsum := Persists.readRules.shownLength (resolve d) (resolve e) id fun _ _ _ _ c _ =>
    hask e hde (.length c)
  unfold shownLength
  cases isRepeated with
  | false => exact hsum
  | true => exact .bind (Persists.readRules.touch id) fun _ => hsum

include hde huv in
/-- A length that is told by the children is told by the cached bytes as well, because these are theirs. -/
theorem persists_lengthStep_children (hn : u.node? id = some n) (hrule : lengthRule n = .children)
    (hnone : n.cache = none) (hm : v.node? id = some m) (hbare : m.bare = n.bare) :
    wp (lengthStep (resolve d) id) (fun r u' => ∀ k, r = .ok k →
      wp (lengthStep (resolve e) id) (fun r' v' => r' = .ok k ∧ Advances u v u' v') v) u := by
  have hrule' : lengthRule m = .children := (Tree.lengthRule_of_bare hbare).trans hrule
  rw [wp_lengthStep_children hn hrule hnone]
  refine (persists_shownLength hask hde id _ u v huv).mono fun r u' h k hk => ?_
  cases hcache : m.cache with
  | none =>
    have hkind := Node.kind_of_bare hbare
    have hrepeated : m.kind.isRepeated = n.kind.isRepeated := congrArg NodeKind.isRepeated hkind
    rw [wp_lengthStep_children hm hrule' hcache, hrepeated]
    exact h k hk
  | some b =>
    have hnone' : u.cacheOf id = none := (Tree.cacheOf_of_node? hn).trans hnone
    have htallies := (huv.justified hnone' ((Tree.cacheOf_of_node? hm).trans hcache)).tallies m hm
    unfold Tree.Tallies at htallies
    rw [hrule'] at htallies
    obtain ⟨shown, parts, hshown, hparts, rfl⟩ := htallies
    -- The second tree does not ask the children any more. They would tell the same, and change nothing.
    have hidle := shownLength_idle huv.right.settled hshown hparts e n.kind.isRepeated
    have htold : wp (shownLength (resolve e) id n.kind.isRepeated) (fun r _ =>
        ∀ k, r = .ok k → parts.flatten.length = k) v := by
      refine wp_shownLength huv.right.settled (by simp) fun shown' hshown' => ?_
      rw [hshown] at hshown'
      cases hshown'
      exact (recurrent_resolve e).shownLength_told huv.right hparts
    obtain ⟨⟨hr, hadvances⟩, hv, hlength⟩ := (h k hk).and (hidle.and htold)
    rw [wp_lengthStep_cached hm (by simp [hrule']) hcache, hlength k hr]
    rw [hv] at hadvances
    exact ⟨rfl, hadvances⟩

omit hask in
include huv in
/-- The length of a fixed rule is that of all bytes that can be justified. -/
theorem persists_lengthStep_fixed {k : Nat} (hn : u.node? id = some n) (hrule : lengthRule n = .fixed k)
    (hnone : n.cache = none) (hm : v.node? id = some m) (hrule' : lengthRule m = .fixed k) :
    wp (lengthStep (resolve d) id) (fun r u' => ∀ k, r = .ok k →
      wp (lengthStep (resolve e) id) (fun r' v' => r' = .ok k ∧ Advances u v u' v') v) u := by
  rw [wp_lengthStep_fixed hn hrule hnone]
  rintro _ ⟨⟩
  cases hcache : m.cache with
  | none =>
    rw [wp_lengthStep_fixed hm hrule' hcache]
    exact ⟨rfl, huv.advances⟩
  | some b =>
    have hnone' : u.cacheOf id = none := (Tree.cacheOf_of_node? hn).trans hnone
    have htallies := (huv.justified hnone' ((Tree.cacheOf_of_node? hm).trans hcache)).tallies m hm
    unfold Tree.Tallies at htallies
    rw [hrule'] at htallies
    rw [wp_lengthStep_cached hm (by simp [hrule']) hcache, htallies]
    exact ⟨rfl, huv.advances⟩

include hde in
theorem persists_lengthStep (id : NodeId) :
    Persists (lengthStep (resolve d) id) (lengthStep (resolve e) id) := by
  intro u v huv
  cases hn : u.node? id with
  | none =>
    obtain ⟨e, he⟩ := Tree.node_eq_error.mpr hn
    unfold lengthStep
    rw [wp.look_error he]
    rintro b ⟨⟩
  | some n =>
    obtain ⟨m, hm, hbare⟩ := huv.node? hn
    have hrules : lengthRule m = lengthRule n := Tree.lengthRule_of_bare hbare
    by_cases hcodec : ∃ codec, lengthRule n = .codec codec
    · obtain ⟨codec, hrule⟩ := hcodec
      rw [wp_lengthStep_codec hn hrule]
      intro k hk
      rw [wp_lengthStep_codec hm (hrules.trans hrule)]
      exact ⟨hk, huv.advances⟩
    · have hne : ∀ codec, lengthRule n ≠ .codec codec := fun codec hrule => hcodec ⟨codec, hrule⟩
      cases hcache : n.cache with
      | some b =>
        have hb : m.cache = some b :=
          (Tree.cacheOf_of_node? hm).symm.trans (huv.kept ((Tree.cacheOf_of_node? hn).trans hcache))
        rw [wp_lengthStep_cached hn hne hcache]
        rintro _ ⟨⟩
        rw [wp_lengthStep_cached hm (hrules ▸ hne) hb]
        exact ⟨rfl, huv.advances⟩
      | none =>
        cases hrule : lengthRule n with
        | codec codec => exact absurd hrule (hne codec)
        | fixed k => exact persists_lengthStep_fixed huv hn hrule hcache hm (hrules.trans hrule)
        | encode => exact persists_lengthStep_encode hask hde huv hn hrule hcache hm (hrules.trans hrule)
        | children => exact persists_lengthStep_children hask hde huv hn hrule hcache hm hbare

include hde in
theorem persists_valueStep (id : NodeId) :
    Persists (valueStep (resolve d) id) (valueStep (resolve e) id) := by
  refine Persists.readRules.survey (fun _ => Tree.isLeaf_outline) fun isLeaf => ?_
  cases isLeaf with
  | true =>
    have hcontent := Persists.readRules.leafContent (resolve d) (resolve e) (fun id => hask e hde (.bytes id))
      (fun id => hask e hde (.value id)) (persists_scripts (hask e hde)) id
    exact hcontent.guarded
  | false => exact .bind (hask e hde (.bytes id)) fun _ => .of_surveys .pure

include hde in
theorem persists_step (r : Request) : Persists (step (resolve d) r) (step (resolve e) r) := by
  cases r with
  | bytes id => exact persists_bytesStep hask hde id
  | value id => exact persists_valueStep hask hde id
  | length id => exact persists_lengthStep hask hde id
  | lengthUpTo within target =>
    exact Persists.readRules.lengthUpToStep (resolve d) (resolve e) within target fun _ _ _ _ c _ =>
      ⟨hask e hde (.length c), hask e hde (.lengthUpTo c target)⟩

end

/-- What a question has come out with comes out with more depth too, where it is easier. -/
theorem persists_resolve {d e : Nat} (hde : d ≤ e) (r : Request) :
    Persists (resolve d r) (resolve e r) := by
  induction d generalizing e r with
  | zero => exact .throw
  | succ d ih =>
    cases e with
    | zero => exact absurd hde (Nat.not_succ_le_zero d)
    | succ e => exact persists_step (fun e hde r => ih hde r) (Nat.le_of_succ_le_succ hde) r

-- ---------------------------------------------------------------------------
-- What questions cache
-- ---------------------------------------------------------------------------

end Resolver

namespace Tree

open Resolver

variable {t t' u v : Tree} {id x : NodeId} {b : Bytes}

/-- What has been cached is justified. -/
structure Founds (t t' : Tree) : Prop extends Stores t t' where
  justified : ∀ {x b}, t.cacheOf x = none → t'.cacheOf x = some b → t'.Justified x b

/-- The operation caches nothing but what is justified. -/
def Grounds (t t' : Tree) : Prop := t.Sane → t.Founds t'

namespace Founds

theorem refl (t : Tree) : t.Founds t where
  toStores := .refl t
  justified hnone hb := by
    rw [hnone] at hb
    cases hb

theorem trans (h : t.Founds u) (h' : u.Founds v) : t.Founds v where
  toStores := h.toStores.trans h'.toStores
  justified {x b} hnone hb := by
    cases hu : u.cacheOf x with
    | none => exact h'.justified hu hb
    | some b' =>
      have hkept := h'.kept hu
      rw [hb] at hkept
      cases hkept
      exact (h.justified hnone hu).mono h'.toFills

theorem pop (h : Founds { t with resolving := id :: t.resolving } u) :
    t.Founds { u with resolving := u.resolving.tail } where
  toStores := h.toStores.pop
  justified hnone hb := (h.justified hnone hb).stack u.resolving.tail

/-- What questions have left behind makes further ones easier. -/
theorem eases (h : t.Founds u) (hsane : t.Sane) : t.Eases u where
  like := h.toLike
  left := hsane
  right := h.sane hsane
  kept := h.kept
  stack := h.resolving ▸ List.Subset.refl _
  justified := h.justified

end Founds

instance : IsPreorder Tree Grounds where
  refl t _ := .refl t
  trans _ _ _ := fun h h' hsane => (h hsane).trans (h' ((h hsane).sane hsane))

theorem Surveys.grounds {α : Type} {act : TreeM α} (h : Surveys act) : Preserves Grounds Grounds act := by
  refine .of_run fun t hsane => ?_
  rw [h.idle hsane.settled]
  exact .refl t

theorem scopeLaws_grounds : ScopeLaws Grounds where
  find start path := (find_surveys start path).grounds
  touch id := (touch_surveys id).grounds
  count id := (count_surveys id).grounds
  note t source reader hsane := by
    refine ⟨.of_noteReader hsane.settled source reader, fun hnone hb => ?_⟩
    rw [cacheOf_noteReader, hnone] at hb
    cases hb
  guarded id act hact := by
    refine .of_run fun t hsane => ?_
    suffices h : wp (Resolver.guarded id act) (fun _ t' => t.Founds t') t from h
    rw [wp.guarded]
    split
    · exact .refl t
    · exact (hact _).mono fun r u hu => (hu.rel (hsane.stack _)).pop

/-- What the node has come out with on some stack, it comes out with when nothing else is on it. -/
theorem Justified.of_recalls {d : Nat} (hsane : t.Sane) (hid : id ∈ t.resolving)
    (htallies : ∀ n, t.node? id = some n → t.Tallies id n b)
    (hrecalls : Recalls (freshBytes (resolve d) id) t (.ok b)) : t.Justified id b where
  tallies := htallies
  again := by
    refine ⟨d, fun depth hdepth u hu => ?_⟩
    have hfills : t.Fills { u with resolving := t.resolving } := hu.stack fun _ => t.resolving
    have heases : Eases { u with resolving := t.resolving } u := by
      have hsaneu := hfills.sane hsane
      have hstack : u.resolving = [id] := hu.resolving
      refine ⟨⟨rfl, rfl, rfl, fun _ => rfl⟩, hsaneu, hsaneu.stack u.resolving, fun hb => hb, ?_,
        fun hnone hb => ?_⟩
      · rw [hstack]
        exact List.cons_subset.mpr ⟨hid, List.nil_subset _⟩
      · cases hnone.symm.trans hb
    obtain ⟨hagain, hr, htwins⟩ :=
      (persists_freshBytes (fun r => persists_resolve hdepth r) id _ u heases).and (hrecalls _ hfills)
    refine (hagain b hr).mono fun r' u' h => ⟨h.1, fun y => ?_⟩
    cases hy : u.cacheOf y with
    | none => exact h.2.modest hy (htwins.cacheOf_eq.trans hy)
    | some c => exact h.2.right.kept hy

theorem grounds_bytesStep {d : Nat} (hask : ∀ r, Preserves Grounds Grounds (resolve d r)) (id : NodeId) :
    Preserves Grounds Grounds (bytesStep (resolve d) id) := by
  refine .of_run fun t hsane => ?_
  suffices h : wp (bytesStep (resolve d) id) (fun _ t' => t.Founds t') t from h
  refine wp_bytesStep_of_fresh (.refl t) fun {n} hn hcache => ?_
  rw [wp.guarded]
  split
  · exact ⟨.refl t, by simp⟩
  · rename_i hid
    have hpushed : Sane { t with resolving := id :: t.resolving } := hsane.stack _
    have hreplays : Replays (freshBytes (resolve d) id) :=
      Replays.readRules.freshBytes (recurrent_resolve d).replays
        (replays_scriptRules (recurrent_resolve d).replays) id
    refine (((scopeLaws_grounds.freshBytes hask id _).and (hreplays _ hpushed)).and
      ((recurrent_resolve d).freshBytes_tallies hpushed hn)).mono fun r t₁ h => ?_
    obtain ⟨⟨hfounds, hstores, hrecalls⟩, htallies⟩ := h
    have hpopped := (hfounds.rel hpushed).pop
    refine ⟨hpopped, fun b n₁ hb hn₁ => ?_⟩
    subst hb
    have hnone₁ : n₁.cache = none := by
      rw [← cacheOf_of_node? hn₁]
      exact hstores.uncached List.mem_cons_self ((cacheOf_of_node? hn).trans hcache)
    have htallies₁ : ∀ m, t₁.node? id = some m → t₁.Tallies id m b := by
      intro m hm
      obtain ⟨m', hm', hbare⟩ := hpopped.node? hn
      cases hm.symm.trans hm'
      exact (htallies b rfl).mono rfl (fun hb => hb) hbare
    -- The bytes are justified while the node is on the stack, and the stack does not matter for that.
    have hid₁ : id ∈ t₁.resolving := hstores.resolving ▸ List.mem_cons_self
    have hjustified := Justified.of_recalls (hstores.sane hpushed) hid₁ htallies₁ hrecalls
    have hstored := Stores.of_store hn₁ hnone₁ (htallies₁ n₁ hn₁) (hpopped.resolving ▸ hid)
    refine hpopped.trans ⟨hstored, fun hnone hb => ?_⟩
    obtain ⟨rfl, rfl⟩ := new_store hn₁ hnone hb
    exact (hjustified.stack _).mono hstored.toFills

/-- Questions cache nothing but what is justified, whatever they end with. -/
theorem grounds_resolve (depth : Nat) (r : Request) : Preserves Grounds Grounds (resolve depth r) := by
  induction depth generalizing r with
  | zero => exact .throw
  | succ depth ih => exact ScopeLaws.step ih scopeLaws_grounds (grounds_bytesStep ih) r

end Tree

end FormatFuzz
