-- SUMMARY: What has failed fails in the same way where more is cached, unless a circle was the reason.
import FormatFuzz.Proofs.Persistence

/-!
# Failures

Results persist where more is cached (`FormatFuzz.Proofs.Persistence`). Errors do so for fewer questions. A
circle may be gone when part of it is cached (`TreeError.Vague`), closures may look at errors and make results of
them (`Script.Candid`), and the length of a node is that of its cached bytes although its children do not tell
theirs (`Tree.Blind`). Where none of this is the case, the two runs fail with the same error
(`Resolver.concurs_resolve`, `Resolver.concurs_lengthUpTo`).

Only some nodes are measured on the way to a length. `B` holds of these, and a question about the length of
another one is not spoken of.
-/

namespace FormatFuzz

open TreeM

open FormatFuzz.Tree (Sane Eases Advances)

-- ---------------------------------------------------------------------------
-- Errors
-- ---------------------------------------------------------------------------

/-- The error hangs on what else is being resolved. -/
def TreeError.Vague : TreeError → Prop
  | .cyclicDependency _ | .nestingLimit => True
  | _ => False

/-- The read asks for a length or an offset. -/
def Query.Measures : Query → Prop
  | .length _ | .offset _ => True
  | _ => False

/-- The closure passes on the errors of its reads, and asks for lengths and offsets only if that is
`measured`. -/
def Script.Candid {α : Type} (measured : Prop) : Script α → Prop
  | .done _ => True
  | .ask q next => (q.Measures → measured) ∧ (∀ e, next (.error e) = .done (.error e)) ∧
      ∀ r, (next r).Candid measured

theorem Script.Candid.brittle {α : Type} {measured : Prop} {s : Script α} (h : s.Candid measured) :
    s.Brittle := by
  induction s with
  | done r => trivial
  | ask q next ih =>
    obtain ⟨-, herror, hnext⟩ := h
    exact ⟨fun e => ⟨e, herror e⟩, fun r => ih r (hnext r)⟩

theorem Script.Candid.mono {α : Type} {measured measured' : Prop} (hmeasured : measured → measured')
    {s : Script α} (h : s.Candid measured) : s.Candid measured' := by
  induction s with
  | done r => trivial
  | ask q next ih =>
    obtain ⟨hq, herror, hnext⟩ := h
    exact ⟨fun hmeasures => hmeasured (hq hmeasures), herror, fun r => ih r (hnext r)⟩

/-- The closures in the cell are candid. -/
def Cell.Candid (measured : Prop) : Cell → Prop
  | .unset | .literal _ | .bound _ => True
  | .deferred s => s.Candid measured
  | .computed f sources => (compute f sources).Candid measured

/-- The closures of the node are candid, and its codec is honest. -/
structure Node.Candid (measured : Prop) (n : Node) : Prop where
  cell : n.cell.Candid measured
  action : ∀ f, n.action = some f → ∀ raw, (f.run [raw]).Candid measured
  codec : ∀ codec, n.kind = .leaf (.custom codec) → codec.Honest

namespace Node.Candid

variable {measured measured' : Prop} {n : Node}

theorem straight (h : n.Candid measured) : n.Straight where
  cell := by
    have hcell := h.cell
    cases hc : n.cell with
    | unset => trivial
    | literal v => trivial
    | bound b => trivial
    | deferred s =>
      rw [hc] at hcell
      exact Script.Candid.brittle hcell
    | computed f sources =>
      rw [hc] at hcell
      exact Script.Candid.brittle hcell
  action f hf raw := (h.action f hf raw).brittle
  codec := h.codec

theorem mono (hmeasured : measured → measured') (h : n.Candid measured) : n.Candid measured' where
  cell := by
    have hcell := h.cell
    cases hc : n.cell with
    | unset => trivial
    | literal v => trivial
    | bound b => trivial
    | deferred s =>
      rw [hc] at hcell
      exact Script.Candid.mono hmeasured hcell
    | computed f sources =>
      rw [hc] at hcell
      exact Script.Candid.mono hmeasured hcell
  action f hf raw := (h.action f hf raw).mono hmeasured
  codec := h.codec

end Node.Candid

/-- A node without closures, whose codec does not tell the length if it has one. -/
def Node.isPlain (n : Node) : Bool :=
  n.action.isNone &&
    (match n.cell with
      | .unset | .literal _ => true
      | _ => false) &&
    match n.kind with
    | .leaf (.custom codec) => !codec.fixedLength.isOk
    | _ => true

namespace Tree

variable {t t' : Tree} {x c : NodeId}

/-- All nodes are candid. -/
def Candid (measured : Prop) (t : Tree) : Prop := ∀ ⦃id n⦄, t.node? id = some n → n.Candid measured

theorem Candid.straight {measured : Prop} (h : t.Candid measured) : t.Straight :=
  fun _ _ hn => (h hn).straight

theorem Candid.mono {measured measured' : Prop} (hmeasured : measured → measured') (h : t.Candid measured) :
    t.Candid measured' := fun _ _ hn => (h hn).mono hmeasured

theorem Candid.of_like {measured : Prop} (h : t.Candid measured) (hlike : t.Like t') :
    t'.Candid measured := by
  intro id n' hn'
  obtain ⟨n, hn, hbare⟩ := hlike.symm.node? hn'
  obtain ⟨hcell, haction, hcodec⟩ := h hn
  have hcandid : n.bare.Candid measured := ⟨hcell, haction, hcodec⟩
  rw [hbare] at hcandid
  exact ⟨hcandid.cell, hcandid.action, hcandid.codec⟩

/-- In a tree at hand it can be checked whether all nodes are plain, and then they are candid. -/
theorem Candid.of_all {measured : Prop} (h : t.nodes.all (·.all Node.isPlain) = true) :
    t.Candid measured := by
  intro x n hn
  have hplain := holds_of_all h hn
  unfold Node.isPlain at hplain
  rw [Bool.and_eq_true, Bool.and_eq_true] at hplain
  obtain ⟨⟨haction, hcell⟩, hcodec⟩ := hplain
  refine ⟨?_, fun f hf => ?_, fun codec hk v k b hlength => ?_⟩
  · cases hc : n.cell with
    | unset => trivial
    | literal v => trivial
    | _ =>
      rw [hc] at hcell
      cases hcell
  · rw [hf] at haction
    cases haction
  · rw [hk] at hcodec
    dsimp only at hcodec
    rw [hlength] at hcodec
    cases hcodec

-- ---------------------------------------------------------------------------
-- Lengths that are not told
-- ---------------------------------------------------------------------------

/-- The length of the node is that of its visible children, one of which is `c`. -/
def Sums (t : Tree) (x c : NodeId) : Prop :=
  ∃ n shown, t.node? x = some n ∧ Resolver.lengthRule n = .children ∧ t.shownChildren x = .ok shown ∧
    c ∈ shown

/-- A leaf with a codec that does not tell the length. -/
def Untold (t : Tree) (c : NodeId) : Prop :=
  ∃ n codec e, t.node? c = some n ∧ Resolver.lengthRule n = .codec codec ∧ codec.fixedLength = .error e

/-- One of the children that tell the length of the node does not tell its own. -/
def Blind (t : Tree) (x : NodeId) : Prop := ∃ c, t.Sums x c ∧ t.Untold c

theorem Sums.of_like (h : t.Sums x c) (hlike : t.Like t') : t'.Sums x c := by
  obtain ⟨n, shown, hn, hrule, hshown, hc⟩ := h
  obtain ⟨m, hm, hbare⟩ := hlike.node? hn
  have hsame : t'.shownChildren x = t.shownChildren x :=
    eq_of_outline (f := (·.shownChildren x)) (fun _ => shownChildren_outline) hlike.outline
  exact ⟨m, shown, hm, (lengthRule_of_bare hbare).trans hrule, hsame.trans hshown, hc⟩

theorem Untold.of_like (h : t.Untold c) (hlike : t.Like t') : t'.Untold c := by
  obtain ⟨n, codec, e, hn, hrule, he⟩ := h
  obtain ⟨m, hm, hbare⟩ := hlike.node? hn
  exact ⟨m, codec, e, hm, (lengthRule_of_bare hbare).trans hrule, he⟩

theorem Blind.of_like (h : t.Blind x) (hlike : t.Like t') : t'.Blind x := by
  obtain ⟨c, hsums, huntold⟩ := h
  exact ⟨c, hsums.of_like hlike, huntold.of_like hlike⟩

-- ---------------------------------------------------------------------------
-- Trees in which failures are the same
-- ---------------------------------------------------------------------------

/-- The trees are `t₀` with some caches and a stack. Questions are easier in the second one, but no blind node
that is measured is cached there only. -/
structure Echoes (t₀ : Tree) (B : NodeId → Prop) (u v : Tree) : Prop extends Eases u v where
  base : t₀.Like u
  known : ∀ {x}, B x → t₀.Blind x → u.cacheOf x = none → v.cacheOf x = none

namespace Echoes

variable {t₀ u v u' v' : Tree} {B : NodeId → Prop}

theorem advance (h : Echoes t₀ B u v) (hadvances : Advances u v u' v') : Echoes t₀ B u' v' where
  toEases := hadvances.eases h.toEases
  base := h.base.trans hadvances.left.toLike
  known {x} hB hblind hnone := by
    refine hadvances.modest (h.known hB hblind ?_) hnone
    cases hu : u.cacheOf x with
    | none => rfl
    | some b =>
      rw [hadvances.left.kept hu] at hnone
      cases hnone

theorem push (h : Echoes t₀ B u v) {stack stack' : List NodeId} (hstack : stack' ⊆ stack) :
    Echoes t₀ B { u with resolving := stack } { v with resolving := stack' } where
  toEases := h.toEases.push hstack
  base := ⟨h.base.root, h.base.seed, h.base.size, h.base.nodes⟩
  known := h.known

end Echoes

end Tree

open FormatFuzz.Tree (Echoes)

-- ---------------------------------------------------------------------------
-- Runs that end alike
-- ---------------------------------------------------------------------------

/-- Either run has the same result, and then `P` holds, or the same error, if the first one is not vague. -/
def Alike {α : Type} (P : Prop) (r r' : Except TreeError α) : Prop :=
  match r with
  | .ok _ => r' = r ∧ P
  | .error e => e.Vague ∨ r' = r

theorem vague_or {α : Type} {P : Tree → Prop} {e : TreeError} {act : TreeM α} {v : Tree}
    (h : wp act (fun r v' => Alike (P v') (.error e) r) v) :
    e.Vague ∨ wp act (fun r _ => r = .error e) v := h

/-- The second operation ends like the first one where questions are easier. -/
def Concurs (t₀ : Tree) (B : NodeId → Prop) {α : Type} (act act' : TreeM α) : Prop :=
  ∀ u v, Echoes t₀ B u v → wp act (fun r u' => wp act' (fun r' v' => Alike (Advances u v u' v') r r') v) u

namespace Concurs

variable {t₀ : Tree} {B : NodeId → Prop} {α β : Type} {act act' : TreeM α} {f f' : α → TreeM β} {id : NodeId}

/-- What is not vague goes wrong again. -/
theorem fails_again {u v : Tree} (h : Concurs t₀ B act act') (huv : Echoes t₀ B u v) {e : TreeError}
    (hfails : (act.run u).1 = .error e) (he : ¬ e.Vague) : (act'.run v).1 = .error e := by
  have halike : Alike _ (act.run u).1 (act'.run v).1 := h u v huv
  rw [hfails] at halike
  exact halike.resolve_left he

/-- Results are the same already, and errors are left to look at. -/
theorem of_persists (hpersists : Persists act act') (hfails : ∀ u v, Echoes t₀ B u v →
    wp act (fun r _ => ∀ e, r = .error e → wp act' (fun r' _ => e.Vague ∨ r' = .error e) v) u) :
    Concurs t₀ B act act' := by
  intro u v huv
  refine ((hpersists u v huv.toEases).and (hfails u v huv)).mono fun r u' h => ?_
  cases r with
  | ok a => exact h.1 a rfl
  | error e => exact h.2 e rfl

theorem of_surveys (h : Tree.Surveys act) : Concurs t₀ B act act := by
  refine .of_persists (.of_surveys h) fun u v huv => ?_
  obtain ⟨r, hr⟩ := h u huv.left.settled
  refine (hr u rfl).mono ?_
  rintro _ _ ⟨rfl, -⟩ e rfl
  exact (hr v huv.outline).mono fun _ _ h => .inr h.1

theorem throw {e : TreeError} : Concurs t₀ B (MonadExcept.throw e : TreeM α) (MonadExcept.throw e) :=
  fun _ _ _ => .inr rfl

/-- An error may be looked at if it is only passed on. -/
theorem attempt {g g' : Except TreeError α → TreeM β} (hact : Concurs t₀ B act act')
    (hok : ∀ a, Concurs t₀ B (g (.ok a)) (g' (.ok a)))
    (herror : ∀ e, g (.error e) = MonadExcept.throw e ∧ g' (.error e) = MonadExcept.throw e) :
    Concurs t₀ B (TreeM.outcome act >>= g) (TreeM.outcome act' >>= g') := by
  intro u v huv
  rw [wp.bind, wp.outcome]
  refine (hact u v huv).mono fun r u₁ h₁ => ?_
  dsimp only
  cases r with
  | error e =>
    rw [(herror e).1]
    refine wp.throw.mpr (wp.bind.mpr (wp.outcome.mpr (h₁.mono ?_)))
    rintro r' v₁ (hvague | rfl)
    · exact .inl hvague
    · dsimp only
      rw [(herror e).2]
      exact .inr rfl
  | ok a =>
    obtain ⟨v₁, hrun, hadvances⟩ := h₁.exists_run
    refine (hok a u₁ v₁ (huv.advance hadvances)).mono fun r u₂ h₂ => ?_
    rw [wp.bind, wp.outcome]
    refine wp.of_eq hrun (h₂.mono fun r' v₂ h => ?_)
    cases r with
    | ok b => exact ⟨h.1, hadvances.trans h.2⟩
    | error e => exact h

theorem bind (hact : Concurs t₀ B act act') (hf : ∀ a, Concurs t₀ B (f a) (f' a)) :
    Concurs t₀ B (act >>= f) (act' >>= f') := by
  rw [TreeM.bind_eq_outcome, TreeM.bind_eq_outcome act']
  exact attempt hact hf fun e => ⟨rfl, rfl⟩

/-- What follows may hang on what is the same in all these trees. -/
theorem get {f f' : Tree → TreeM α} (hf' : ∀ t, f' t.outline = f' t)
    (hact : ∀ t, t₀.Like t → Concurs t₀ B (f t) (f' t)) :
    Concurs t₀ B (MonadState.get >>= f) (MonadState.get >>= f') := by
  intro u v huv
  rw [wp.get_bind]
  refine (hact u huv.base u v huv).mono fun r u' h => ?_
  rwa [wp.get_bind, Tree.eq_of_outline hf' huv.outline]

theorem readRules : PairRules t₀.Like fun _ => Concurs t₀ B where
  pure _ := .of_surveys .pure
  fail _ := .throw
  bind := .bind
  look {_ _ f g g'} hf hg u v huv := by
    cases ha : f u with
    | error e =>
      rw [wp.look_error ha, wp.look_error ((huv.like.eq_of_bare hf).trans ha)]
      exact .inr rfl
    | ok a =>
      rw [wp.look_ok ha]
      refine (hg u a huv.base ha u v huv).mono fun r u' h => ?_
      rwa [wp.look_ok ((huv.like.eq_of_bare hf).trans ha)]
  state _ hf' hact := .get hf' fun t _ => hact t
  find start path := .of_surveys (Tree.find_surveys start path)
  tryFind start path := .of_surveys (Replays.surveys_outcome (Tree.find_surveys start path))
  touch id := .of_surveys (Tree.touch_surveys id)
  count id := .of_surveys (Tree.count_surveys id)
  note reader hsource := by
    refine .of_persists (Persists.readRules.note reader hsource) fun u v huv => ?_
    rw [wp.modify]
    rintro _ ⟨⟩

/-- With the node on both stacks, errors are the same as well. If it is on the first stack already, that is a
circle. -/
theorem guarded (hact : Concurs t₀ B act act') :
    Concurs t₀ B (Resolver.guarded id act) (Resolver.guarded id act') := by
  intro u v huv
  rw [wp.guarded]
  split
  · exact .inl trivial
  · rename_i hid
    have hpushed := huv.push (List.cons_subset_cons id huv.stack)
    refine (hact _ _ hpushed).mono fun r u₁ h₁ => ?_
    rw [wp.guarded, if_neg fun hmem => hid (huv.stack hmem)]
    refine h₁.mono fun r' v₁ h => ?_
    cases r with
    | ok a => exact ⟨h.1, h.2.left.pop, h.2.right.pop, h.2.kept, h.2.modest⟩
    | error e => exact h

end Concurs

-- ---------------------------------------------------------------------------
-- Closures and bytes
-- ---------------------------------------------------------------------------

/-- The request is about bytes, or about lengths of nodes that are measured. -/
def Request.Within (B : NodeId → Prop) : Request → Prop
  | .bytes _ | .value _ => True
  | .length id => B id
  | .lengthUpTo _ _ => ∀ x, B x

theorem Query.LeadsTo.within {B : NodeId → Prop} {q : Query} {r : Request} (h : q.LeadsTo r)
    (hmeasures : q.Measures → ∀ x, B x) : r.Within B := by
  cases r with
  | bytes id => trivial
  | value id => trivial
  | length id =>
    cases q with
    | length path => exact hmeasures trivial id
    | _ => cases h
  | lengthUpTo within target =>
    cases q with
    | offset path => exact hmeasures trivial
    | _ => cases h

namespace Resolver

variable {t₀ u v : Tree} {B : NodeId → Prop} {id : NodeId}

section

variable {ask ask' : Resolver} (hcandid : t₀.Candid (∀ x, B x))
  (hask : ∀ r, r.Within B → Concurs t₀ B (ask r) (ask' r))

include hask

theorem concurs_runScript {α : Type} (id : NodeId) {s : Script α} (hs : s.Candid (∀ x, B x)) :
    Concurs t₀ B (runScript ask id s) (runScript ask' id s) := by
  refine Concurs.readRules.survey (fun _ => Tree.enclosing_outline) fun base => ?_
  induction s with
  | done r => exact Concurs.readRules.lift r
  | ask q next ih =>
    obtain ⟨hmeasures, herror, hnext⟩ := hs
    refine .attempt (Concurs.readRules.answer ask ask' base id q fun r hr => hask r (hr.within hmeasures))
      (fun a => ih (.ok a) (hnext (.ok a))) fun e => ?_
    rw [herror e]
    exact ⟨rfl, rfl⟩

include hcandid

theorem concurs_scripts : PairScripts t₀.Like (fun _ => Concurs t₀ B) ask ask' where
  deferred hlike hcell := by
    obtain ⟨n, hn, hc⟩ := Tree.look_eq_ok.mp hcell
    have hcandid' := (hcandid.of_like hlike hn).cell
    rw [hc] at hcandid'
    exact concurs_runScript hask _ hcandid'
  computed hlike hcell := by
    obtain ⟨n, hn, hc⟩ := Tree.look_eq_ok.mp hcell
    have hcandid' := (hcandid.of_like hlike hn).cell
    rw [hc] at hcandid'
    exact concurs_runScript hask _ hcandid'
  action hlike haction raw := by
    obtain ⟨n, hn, ha⟩ := Tree.look_eq_ok.mp haction
    exact concurs_runScript hask _ ((hcandid.of_like hlike hn).action _ ha raw)

theorem concurs_leafContent (id : NodeId) : Concurs t₀ B (leafContent ask id) (leafContent ask' id) :=
  Concurs.readRules.leafContent ask ask' (fun id => hask (.bytes id) trivial)
    (fun id => hask (.value id) trivial) (concurs_scripts hcandid hask) id

theorem concurs_freshBytes (id : NodeId) : Concurs t₀ B (freshBytes ask id) (freshBytes ask' id) :=
  Concurs.readRules.freshBytes ask ask' (fun id => hask (.bytes id) trivial)
    (fun id => hask (.value id) trivial) (concurs_scripts hcandid hask) id

end

/-- A dead node is one in both trees. -/
theorem node_error_of_like {t t' : Tree} (hlike : t.Like t') (hn : t.node? id = none) :
    t.node id = .error (.unknownNode id.index) ∧ t'.node id = .error (.unknownNode id.index) := by
  have hsame := hlike.nodes id
  rw [hn, Option.map_none, Option.map_eq_none_iff] at hsame
  rw [Tree.node, Tree.node, hn, hsame]
  exact ⟨rfl, rfl⟩

-- ---------------------------------------------------------------------------
-- Cached nodes
-- ---------------------------------------------------------------------------

section

variable {t : Tree} {b : Bytes}

theorem bytes_told (hb : t.cacheOf id = some b) (depth : Nat) :
    wp (resolve depth (.bytes id)) (fun r _ => ∀ e, r = .error e → e.Vague) t := by
  cases depth with
  | zero =>
    rintro _ ⟨⟩
    trivial
  | succ depth =>
    obtain ⟨n, hn, hcache⟩ := Tree.cacheOf_eq_some.mp hb
    refine (wp_bytesStep_cached hn hcache).mpr ?_
    rintro _ ⟨⟩

/-- The length of a cached node is told, unless a codec has to tell it. -/
theorem length_told (hb : t.cacheOf id = some b) (htold : ¬ t.Untold id) (depth : Nat) :
    wp (resolve depth (.length id)) (fun r t' => t' = t ∧ ∀ e, r = .error e → e.Vague) t := by
  cases depth with
  | zero =>
    refine ⟨rfl, ?_⟩
    rintro _ ⟨⟩
    trivial
  | succ depth =>
    obtain ⟨n, hn, hcache⟩ := Tree.cacheOf_eq_some.mp hb
    cases hrule : lengthRule n with
    | codec codec =>
      refine (wp_lengthStep_codec hn hrule).mpr ⟨rfl, fun e he => ?_⟩
      exact absurd ⟨n, codec, e, hn, hrule, he⟩ htold
    | _ =>
      refine (wp_lengthStep_cached hn (by simp [hrule]) hcache).mpr ⟨rfl, ?_⟩
      rintro _ ⟨⟩

/-- The lengths of cached children are told if the node is not blind. -/
theorem shownLength_known (hs : t.Settled) {n : Node} (hn : t.node? id = some n)
    (hrule : lengthRule n = .children) (hblind : ¬ t.Blind id) {shown : List NodeId} {parts : List Bytes}
    (hshown : t.shownChildren id = .ok shown)
    (hparts : List.Forall₂ (fun c part => t.cacheOf c = some part) shown parts) (depth : Nat) :
    wp (shownLength (resolve depth) id n.kind.isRepeated) (fun r _ => ∀ e, r = .error e → e.Vague) t := by
  have hsum : wp (do
      (← TreeM.look (·.shownChildren id)).foldlM (fun total child => do
        let n : Nat ← resolve depth (.length child)
        return total + n) 0 : TreeM Nat) (fun r _ => ∀ e, r = .error e → e.Vague) t := by
    rw [wp.look_ok hshown]
    refine wp.foldlM (fun rest _ u => rest ⊆ shown ∧ u = t) ⟨fun _ hc => hc, rfl⟩ ?_ ?_
    · rintro _ _ - _ ⟨⟩
    · rintro c rest total _ ⟨hsub, rfl⟩
      have hc : c ∈ shown := hsub List.mem_cons_self
      obtain ⟨part, hpart⟩ := Tree.exists_of_forall₂ hparts hc
      have htold : ¬ Tree.Untold _ c := fun huntold => hblind ⟨c, ⟨n, shown, hn, hrule, hshown, hc⟩, huntold⟩
      refine wp.bind.mpr ((length_told hpart htold depth).mono ?_)
      rintro (e | k) _ ⟨rfl, hvague⟩
      · exact hvague
      · exact ⟨fun _ hc => hsub (List.mem_cons_of_mem _ hc), rfl⟩
  unfold shownLength
  cases hrep : n.kind.isRepeated with
  | false => exact hsum
  | true =>
    have hgroup : t.isGroup id = .ok true := Tree.look_eq_ok.mpr ⟨n, hn, hrep⟩
    refine wp.bind.mpr ((Tree.touch_ok hs hgroup).mono ?_)
    rintro _ _ ⟨rfl, rfl⟩
    exact hsum

end

-- ---------------------------------------------------------------------------
-- Steps
-- ---------------------------------------------------------------------------

section

variable {d : Nat} (hcandid : t₀.Candid (∀ x, B x))
  (hask : ∀ e, d ≤ e → ∀ r, r.Within B → Concurs t₀ B (resolve d r) (resolve e r))
  {e : Nat} (hde : d ≤ e) (huv : Echoes t₀ B u v) {n m : Node}

include hcandid hask

include huv in
/-- If only the second tree has the bytes cached, they come out of the node with nothing else on the stack. So
with more on the stack, nothing but a circle can keep them from coming out of it in the first tree. -/
theorem freshBytes_vague (hnone : u.cacheOf id = none) {b : Bytes} (hb : v.cacheOf id = some b) :
    wp (guarded id (freshBytes (resolve d) id)) (fun r u' => (∀ e, r = .error e → e.Vague) ∧
      ∀ b : Bytes, r = .ok b → u.Like u') u := by
  obtain ⟨limit, hagain⟩ := (huv.justified hnone hb).again
  have hagain := hagain (max limit d) (Nat.le_max_left _ _) _ (.refl (v.alone id))
  rw [wp.guarded]
  split
  · refine ⟨?_, ?_⟩
    · rintro _ ⟨⟩
      trivial
    · rintro _ ⟨⟩
  · have halone := huv.push (List.cons_subset_cons id (List.nil_subset u.resolving))
    have hfresh := concurs_freshBytes hcandid (hask _ (Nat.le_max_right limit d)) id
    refine (hfresh _ _ halone).mono fun r u₁ h₁ => ?_
    obtain ⟨halike, hr, -⟩ := h₁.and hagain
    cases r with
    | ok b' =>
      refine ⟨?_, ?_⟩
      · rintro _ ⟨⟩
      · rintro _ ⟨⟩
        exact halike.2.left.pop.toLike
    | error e =>
      refine ⟨?_, ?_⟩
      · rintro _ ⟨⟩
        rcases halike with hvague | heq
        · exact hvague
        · rw [hr] at heq
          cases heq
      · rintro _ ⟨⟩

include hde in
theorem concurs_bytesStep (id : NodeId) :
    Concurs t₀ B (bytesStep (resolve d) id) (bytesStep (resolve e) id) := by
  refine .of_persists (persists_step (fun _ he r => persists_resolve he r) hde (.bytes id)) fun u v huv => ?_
  cases hn : u.node? id with
  | none =>
    obtain ⟨hu, hv⟩ := node_error_of_like huv.like hn
    unfold bytesStep
    rw [wp.look_error hu]
    intro _ he
    rw [wp.look_error hv]
    exact .inr he
  | some n =>
    obtain ⟨m, hm, -⟩ := huv.node? hn
    cases hcache : n.cache with
    | some b =>
      rw [wp_bytesStep_cached hn hcache]
      rintro _ ⟨⟩
    | none =>
      have hnone : u.cacheOf id = none := (Tree.cacheOf_of_node? hn).trans hcache
      rw [wp_bytesStep_fresh hn hcache, wp.bind]
      cases hcache' : m.cache with
      | some b =>
        have hb : v.cacheOf id = some b := (Tree.cacheOf_of_node? hm).trans hcache'
        refine (freshBytes_vague hcandid hask huv hnone hb).mono fun r u₁ h₁ => ?_
        cases r with
        | error e =>
          rintro _ ⟨⟩
          exact .inl (h₁.1 e rfl)
        | ok b' =>
          obtain ⟨n₁, hn₁, -⟩ := (h₁.2 b' rfl).node? hn
          dsimp only
          rw [wp_store hn₁]
          rintro _ ⟨⟩
      | none =>
        refine ((concurs_freshBytes hcandid (hask e hde) id).guarded u v huv).mono fun r u₁ h₁ => ?_
        cases r with
        | error e =>
          rintro _ ⟨⟩
          rcases vague_or h₁ with hvague | hsame
          · exact .inl hvague
          · rw [wp_bytesStep_fresh hm hcache', wp.bind]
            refine hsame.mono ?_
            rintro _ v₁ rfl
            exact .inr rfl
        | ok b =>
          obtain ⟨v₁, -, hadvances⟩ := h₁.exists_run
          obtain ⟨n₁, hn₁, -⟩ := hadvances.left.node? hn
          dsimp only
          rw [wp_store hn₁]
          rintro _ ⟨⟩

include hde in
theorem concurs_valueStep (id : NodeId) :
    Concurs t₀ B (valueStep (resolve d) id) (valueStep (resolve e) id) := by
  refine Concurs.readRules.survey (fun _ => Tree.isLeaf_outline) fun isLeaf => ?_
  cases isLeaf with
  | true => exact (concurs_leafContent hcandid (hask e hde) id).guarded
  | false => exact .bind (hask e hde (.bytes id) trivial) fun _ => .of_surveys .pure

omit hcandid in
include hde huv in
theorem fails_lengthStep_encode (hn : u.node? id = some n) (hrule : lengthRule n = .encode)
    (hnone : n.cache = none) (hm : v.node? id = some m) (hrule' : lengthRule m = .encode) :
    wp (lengthStep (resolve d) id) (fun r _ => ∀ e', r = .error e' →
      wp (lengthStep (resolve e) id) (fun r' _ => e'.Vague ∨ r' = .error e') v) u := by
  rw [wp_lengthStep_encode hn hrule hnone]
  refine wp.bind.mpr ((hask e hde (.bytes id) trivial u v huv).mono fun r u' h => ?_)
  cases r with
  | ok b =>
    rintro _ ⟨⟩
  | error e' =>
    rintro _ ⟨⟩
    cases hcache : m.cache with
    | none =>
      rcases vague_or h with hvague | hsame
      · exact .inl hvague
      · rw [wp_lengthStep_encode hm hrule' hcache]
        refine wp.bind.mpr (hsame.mono ?_)
        rintro _ v' rfl
        exact .inr rfl
    | some b =>
      -- The bytes are there in the second tree, so that only its depth can have failed.
      obtain ⟨halike, htold⟩ := h.and (bytes_told ((Tree.cacheOf_of_node? hm).trans hcache) e)
      refine .inl ?_
      rcases halike with hvague | heq
      · exact hvague
      · exact htold e' heq

omit hcandid hask in
include huv in
/-- If only the second tree has the bytes cached, the lengths of all children that are measured are told
there. -/
theorem shownLength_vague (hid : B id) (hnone : u.cacheOf id = none) (hm : v.node? id = some m)
    (hrule : lengthRule m = .children) {b : Bytes} (hb : v.cacheOf id = some b) (depth : Nat) :
    wp (shownLength (resolve depth) id m.kind.isRepeated) (fun r _ => ∀ e, r = .error e → e.Vague) v := by
  have hblind : ¬ v.Blind id := by
    intro hblind
    have hknown := huv.known hid (hblind.of_like (huv.base.trans huv.like).symm) hnone
    rw [hb] at hknown
    cases hknown
  have htallies := (huv.justified hnone hb).tallies m hm
  unfold Tree.Tallies at htallies
  rw [hrule] at htallies
  obtain ⟨shown, parts, hshown, hparts, -⟩ := htallies
  exact shownLength_known huv.right.settled hm hrule hblind hshown hparts depth

omit hcandid in
include hde huv in
theorem fails_lengthStep_children (hclosed : ∀ c, t₀.Sums id c → B c) (hid : B id)
    (hn : u.node? id = some n) (hrule : lengthRule n = .children) (hnone : n.cache = none)
    (hm : v.node? id = some m) (hbare : m.bare = n.bare) :
    wp (lengthStep (resolve d) id) (fun r _ => ∀ e', r = .error e' →
      wp (lengthStep (resolve e) id) (fun r' _ => e'.Vague ∨ r' = .error e') v) u := by
  have hrule' : lengthRule m = .children := (Tree.lengthRule_of_bare hbare).trans hrule
  have hrepeated : m.kind.isRepeated = n.kind.isRepeated := by
    have hkind := Node.kind_of_bare hbare
    exact congrArg NodeKind.isRepeated hkind
  have hsum := Concurs.readRules.shownLength (resolve d) (resolve e) id fun t shown hlike hshown c hc => by
    obtain ⟨n', hn', hbare'⟩ := (hlike.symm.trans huv.base).symm.node? hn
    have hrule'' := (Tree.lengthRule_of_bare hbare').trans hrule
    have hsums : t.Sums id c := ⟨n', shown, hn', hrule'', hshown, hc⟩
    exact hask e hde (.length c) (hclosed c (hsums.of_like hlike.symm))
  have hconcurs : Concurs t₀ B (shownLength (resolve d) id n.kind.isRepeated)
      (shownLength (resolve e) id n.kind.isRepeated) := by
    unfold shownLength
    cases n.kind.isRepeated with
    | false => exact hsum
    | true => exact .bind (Concurs.readRules.touch id) fun _ => hsum
  rw [wp_lengthStep_children hn hrule hnone]
  refine (hconcurs u v huv).mono fun r u' h => ?_
  cases r with
  | ok k =>
    rintro _ ⟨⟩
  | error e' =>
    rintro _ ⟨⟩
    cases hcache : m.cache with
    | none =>
      rw [wp_lengthStep_children hm hrule' hcache, hrepeated]
      exact h
    | some b =>
      have hnone' : u.cacheOf id = none := (Tree.cacheOf_of_node? hn).trans hnone
      have hb : v.cacheOf id = some b := (Tree.cacheOf_of_node? hm).trans hcache
      obtain ⟨halike, hvague⟩ := h.and (hrepeated ▸ shownLength_vague huv hid hnone' hm hrule' hb e)
      refine .inl ?_
      rcases halike with hvague' | heq
      · exact hvague'
      · exact hvague e' heq

omit hcandid in
include hde in
/-- A node that is measured, and whose children are if they tell its length, fails alike in both trees. -/
theorem concurs_lengthStep (hclosed : ∀ c, t₀.Sums id c → B c) (hid : B id) :
    Concurs t₀ B (lengthStep (resolve d) id) (lengthStep (resolve e) id) := by
  refine .of_persists (persists_step (fun _ he r => persists_resolve he r) hde (.length id)) fun u v huv => ?_
  cases hn : u.node? id with
  | none =>
    obtain ⟨hu, hv⟩ := node_error_of_like huv.like hn
    unfold lengthStep
    rw [wp.look_error hu]
    intro _ he
    rw [wp.look_error hv]
    exact .inr he
  | some n =>
    obtain ⟨m, hm, hbare⟩ := huv.node? hn
    have hrules : lengthRule m = lengthRule n := Tree.lengthRule_of_bare hbare
    cases hrule : lengthRule n with
    | codec codec =>
      rw [wp_lengthStep_codec hn hrule]
      intro e' he'
      rw [wp_lengthStep_codec hm (hrules.trans hrule)]
      exact .inr he'
    | fixed k =>
      cases hcache : n.cache with
      | some b =>
        rw [wp_lengthStep_cached hn (by simp [hrule]) hcache]
        rintro _ ⟨⟩
      | none =>
        rw [wp_lengthStep_fixed hn hrule hcache]
        rintro _ ⟨⟩
    | encode =>
      cases hcache : n.cache with
      | some b =>
        rw [wp_lengthStep_cached hn (by simp [hrule]) hcache]
        rintro _ ⟨⟩
      | none => exact fails_lengthStep_encode hask hde huv hn hrule hcache hm (hrules.trans hrule)
    | children =>
      cases hcache : n.cache with
      | some b =>
        rw [wp_lengthStep_cached hn (by simp [hrule]) hcache]
        rintro _ ⟨⟩
      | none => exact fails_lengthStep_children hask hde huv hclosed hid hn hrule hcache hm hbare

end

-- ---------------------------------------------------------------------------
-- All questions
-- ---------------------------------------------------------------------------

section

variable (hcandid : t₀.Candid (∀ x, B x)) (hclosed : ∀ x c, B x → t₀.Sums x c → B c)

include hcandid hclosed

/-- Questions that are answered, or fail for no vague reason, end in the same way where they are easier. -/
theorem concurs_resolve {d e : Nat} (hde : d ≤ e) (r : Request) (hr : r.Within B) :
    Concurs t₀ B (resolve d r) (resolve e r) := by
  induction d generalizing e r with
  | zero =>
    refine .of_persists .throw fun u v _ => ?_
    rintro _ ⟨⟩
    exact .inl trivial
  | succ d ih =>
    cases e with
    | zero => exact absurd hde (Nat.not_succ_le_zero d)
    | succ e =>
      have hde := Nat.le_of_succ_le_succ hde
      have ih := fun e (he : d ≤ e) r (hr : r.Within B) => ih he r hr
      cases r with
      | bytes id => exact concurs_bytesStep hcandid ih hde id
      | value id => exact concurs_valueStep hcandid ih hde id
      | length id => exact concurs_lengthStep ih hde (hclosed id · hr) hr
      | lengthUpTo within target =>
        exact Concurs.readRules.lengthUpToStep (resolve d) (resolve e) within target fun _ _ _ _ c _ =>
          ⟨ih e hde (.length c) (hr c), ih e hde (.lengthUpTo c target) hr⟩

/-- Only children that do not hold the target are measured. -/
theorem concurs_lengthBefore {x : NodeId} (hx : ∀ c, t₀.contains c x = false → B c) {d e : Nat} (hde : d ≤ e)
    (hdown : ∀ c, Concurs t₀ B (resolve d (.lengthUpTo c x)) (resolve e (.lengthUpTo c x)))
    (children : List NodeId) :
    Concurs t₀ B (lengthBefore (resolve d) x children) (lengthBefore (resolve e) x children) := by
  induction children with
  | nil => exact .of_surveys .pure
  | cons c rest ih =>
    unfold lengthBefore
    refine PairRules.ite (.of_surveys .pure) (.get (fun _ => by simp only [Tree.contains_outline])
      fun t ht => ?_)
    have hsame : t.contains c x = t₀.contains c x :=
      Tree.eq_of_outline (f := (·.contains c x)) (fun _ => Tree.contains_outline c) ht.outline
    cases hc : t.contains c x with
    | true => exact hdown c
    | false =>
      have hlength := concurs_resolve hcandid hclosed hde (.length c) (hx c (hsame.symm.trans hc))
      refine Concurs.readRules.survey (fun _ => Tree.isHidden_outline) fun hidden => PairRules.ite ?_ ?_
      · exact .bind (.of_surveys .pure) fun _ => .bind ih fun _ => .of_surveys .pure
      · exact .bind hlength fun _ => .bind ih fun _ => .of_surveys .pure

theorem concurs_lengthUpTo {x : NodeId} (hx : ∀ c, t₀.contains c x = false → B c) {d e : Nat} (hde : d ≤ e)
    (y : NodeId) : Concurs t₀ B (resolve d (.lengthUpTo y x)) (resolve e (.lengthUpTo y x)) := by
  induction d generalizing e y with
  | zero =>
    refine .of_persists .throw fun u v _ => ?_
    rintro _ ⟨⟩
    exact .inl trivial
  | succ d ih =>
    cases e with
    | zero => exact absurd hde (Nat.not_succ_le_zero d)
    | succ e =>
      have hde := Nat.le_of_succ_le_succ hde
      exact Concurs.readRules.lengthUpToStep_of_before (resolve d) (resolve e) y x fun _ children _ _ =>
        concurs_lengthBefore hcandid hclosed hx hde (ih hde) children

end

end Resolver

end FormatFuzz
