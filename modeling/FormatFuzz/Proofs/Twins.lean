-- SUMMARY: Resolution never looks at who has read a node.
import FormatFuzz.Proofs.ReadRules

/-!
# Twins

Readers are noted for the sake of invalidation only. So if all groups are ready, resolution has the
same outcome in two trees that differ in readers only, and leaves two such trees
(`Resolver.mirrors_answerAll`).
-/

namespace FormatFuzz

open TreeM

/-- A node that nobody has read. -/
def Node.unread (n : Node) : Node := { n with dependents := [] }

namespace Tree

variable {t t' u : Tree} {id : NodeId}

/-- The tree without readers. -/
def unread (t : Tree) : Tree := { t with nodes := t.nodes.map (Option.map Node.unread) }

theorem node?_unread : t.unread.node? id = (t.node? id).map Node.unread := by
  unfold node? unread
  rw [Array.getElem?_map]
  cases t.nodes[id.index]? <;> rfl

theorem node_unread : t.unread.node id = (t.node id).map Node.unread := by
  unfold node
  rw [node?_unread]
  cases t.node? id <;> rfl

theorem outline_unread (t : Tree) : t.unread.outline = t.outline := by
  refine outline_eq_iff.mpr ⟨rfl, rfl, Array.size_map .., fun id => ?_⟩
  rw [node?_unread, Option.map_map]
  rfl

theorem bare_unread (t : Tree) : t.unread.bare = t.bare := by
  refine Like.bare ⟨rfl, rfl, Array.size_map .., fun id => ?_⟩
  rw [node?_unread, Option.map_map]
  rfl

theorem unread_modify {f : Node → Node} (hf : ∀ n, (f n).unread = f n.unread) :
    (t.modify id f).unread = t.unread.modify id f := by
  have hnodes : (t.nodes.modify id.index (Option.map f)).map (Option.map Node.unread) =
      (t.nodes.map (Option.map Node.unread)).modify id.index (Option.map f) := by
    refine Array.ext_getElem? fun i => ?_
    rw [Array.getElem?_map, Array.getElem?_modify, Array.getElem?_modify, Array.getElem?_map]
    split
    · rw [Option.map_map, Option.map_map]
      refine congrArg (Option.map · _) (funext fun n => ?_)
      cases n with
      | none => rfl
      | some n => exact congrArg some (hf n)
    · rfl
  unfold unread modify
  rw [hnodes]

theorem unread_noteReader (source reader : NodeId) :
    (t.noteReader source reader).unread = t.unread := by
  have hnodes : ∀ id, ((t.noteReader source reader).node? id).map Node.unread =
      (t.node? id).map Node.unread := by
    intro id
    rw [node?_noteReader]
    split
    · rw [Option.map_map]
      rfl
    · rfl
  have harray := map_nodes_eq (Like.of_noteReader source reader).size hnodes
  unfold noteReader at harray ⊢
  split
  · rfl
  · rename_i hne
    rw [if_neg hne] at harray
    exact congrArg (fun nodes => { t with nodes }) harray

/-- The trees differ in readers only, and their groups are ready. -/
structure Twins (t t' : Tree) : Prop where
  settled : t.Settled
  unread : t'.unread = t.unread

namespace Twins

theorem refl (hs : t.Settled) : t.Twins t := ⟨hs, rfl⟩

theorem outline (h : t.Twins t') : t'.outline = t.outline := by
  rw [← outline_unread t', h.unread, outline_unread]

theorem bare (h : t.Twins t') : t'.bare = t.bare := by
  rw [← bare_unread t', h.unread, bare_unread]

theorem symm (h : t.Twins t') : t'.Twins t := ⟨h.settled.of_outline h.outline, h.unread.symm⟩

theorem trans (h : t.Twins t') (h' : t'.Twins u) : t.Twins u :=
  ⟨h.settled, h'.unread.trans h.unread⟩

theorem resolving (h : t.Twins t') : t'.resolving = t.resolving := by
  have hunread := congrArg (·.resolving) h.unread
  exact hunread

theorem root (h : t.Twins t') : t'.root = t.root := by
  have hunread := congrArg (·.root) h.unread
  exact hunread

/-- A node is live in both trees or in neither. -/
theorem node_cases (h : t.Twins t') (id : NodeId) :
    (∃ e, t.node id = .error e ∧ t'.node id = .error e) ∨
      ∃ n n', t.node id = .ok n ∧ t'.node id = .ok n' ∧ n'.unread = n.unread := by
  have hnode := congrArg (·.node id) h.unread
  simp only [Tree.node_unread] at hnode
  cases hn : t.node id with
  | error e =>
    cases hn' : t'.node id with
    | error e' =>
      rw [hn, hn'] at hnode
      cases hnode
      exact .inl ⟨e, rfl, rfl⟩
    | ok n' =>
      rw [hn, hn'] at hnode
      cases hnode
  | ok n =>
    cases hn' : t'.node id with
    | error e' =>
      rw [hn, hn'] at hnode
      cases hnode
    | ok n' =>
      rw [hn, hn'] at hnode
      exact .inr ⟨n, n', rfl, rfl, Except.ok.inj hnode⟩

theorem noteReader (h : t.Twins t') (source reader : NodeId) :
    (t.noteReader source reader).Twins (t'.noteReader source reader) :=
  ⟨h.settled.of_outline (Like.of_noteReader source reader).outline, by
    rw [unread_noteReader, unread_noteReader, h.unread]⟩

theorem modify (h : t.Twins t') (id : NodeId) {f : Node → Node} (hf : ∀ n, (f n).unread = f n.unread)
    (hkind : ∀ n, (f n).kind = n.kind) : (t.modify id f).Twins (t'.modify id f) where
  settled := by
    refine h.settled.of_sameKinds fun x n' hn' => ?_
    rw [node?_modify] at hn'
    split at hn'
    · rename_i hx
      obtain ⟨n, hn, rfl⟩ := Option.map_eq_some_iff.mp hn'
      exact ⟨n, hx ▸ hn, (hkind n).symm⟩
    · exact ⟨n', hn', rfl⟩
  unread := by rw [unread_modify hf, unread_modify hf, h.unread]

theorem stack (h : t.Twins t') (f : List NodeId → List NodeId) :
    Twins { t with resolving := f t.resolving } { t' with resolving := f t'.resolving } where
  settled := h.settled
  unread := by
    have hunread := congrArg (fun t => { t with resolving := f t.resolving }) h.unread
    exact hunread

end Twins

-- ---------------------------------------------------------------------------
-- Operations that do not look at readers
-- ---------------------------------------------------------------------------

end Tree

/-- In two trees that differ in readers only, the operation has the same outcome and leaves two such
trees. -/
def Mirrors {α : Type} (act : TreeM α) : Prop :=
  ∀ t t' : Tree, t.Twins t' →
    wp act (fun r u => wp act (fun r' u' => r' = r ∧ u.Twins u') t') t

namespace Mirrors

variable {α β : Type} {act : TreeM α} {f : α → TreeM β}

theorem pure {a : α} : Mirrors (Pure.pure a : TreeM α) := fun _ _ h => ⟨rfl, h⟩

theorem throw {e : TreeError} : Mirrors (MonadExcept.throw e : TreeM α) := fun _ _ h => ⟨rfl, h⟩

theorem lift {r : Except TreeError α} : Mirrors (TreeM.lift r) := by
  intro t t' h
  rw [wp.lift, wp.lift]
  exact ⟨rfl, h⟩

theorem bind (hact : Mirrors act) (hf : ∀ a, Mirrors (f a)) : Mirrors (act >>= f) := by
  intro t t' h
  rw [wp.bind]
  refine (hact t t' h).mono fun r u hu => ?_
  cases r with
  | error e =>
    dsimp only
    rw [wp.bind]
    refine hu.mono ?_
    rintro _ u' ⟨rfl, hu'⟩
    exact ⟨rfl, hu'⟩
  | ok a =>
    refine (hf a u _ hu.2).mono fun r v hv => ?_
    rw [wp.bind]
    unfold wp at hu ⊢
    rw [hu.1]
    exact hv

theorem outcome (hact : Mirrors act) : Mirrors (TreeM.outcome act) := by
  intro t t' h
  rw [wp.outcome]
  refine (hact t t' h).mono fun r u hu => ?_
  rw [wp.outcome]
  exact hu.mono fun r' u' h' => ⟨congrArg Except.ok h'.1, h'.2⟩

theorem of_surveys (h : Tree.Surveys act) : Mirrors act := by
  intro t t' ht
  obtain ⟨r, hr⟩ := h t ht.settled
  refine (hr t rfl).mono ?_
  rintro _ _ ⟨rfl, rfl⟩
  refine (hr t' ht.outline).mono ?_
  rintro _ _ ⟨rfl, rfl⟩
  exact ⟨rfl, ht⟩

/-- A node may be looked up for anything but its readers. -/
theorem node {id : NodeId} {f : Node → TreeM α} (hsame : ∀ n, f n.unread = f n) (hf : ∀ n, Mirrors (f n)) :
    Mirrors (TreeM.look (·.node id) >>= f) := by
  intro t t' h
  rcases h.node_cases id with ⟨e, he, he'⟩ | ⟨n, n', hn, hn', heq⟩
  · rw [wp.look_error he, wp.look_error he']
    exact ⟨rfl, h⟩
  · rw [wp.look_ok hn]
    refine (hf n t t' h).mono fun r u hu => ?_
    rw [wp.look_ok hn', ← hsame n', heq, hsame n]
    exact hu

/-- Without caches and the stack, there is nothing to show. -/
theorem readRules : ReadRules (fun _ => True) fun _ act => Mirrors act where
  pure _ := .pure
  fail _ := .throw
  bind := .bind
  look {_ _ f g} hf hg t t' h := by
    have heq : f t' = f t := by rw [← hf t', h.bare, hf t]
    cases ha : f t with
    | ok a =>
      rw [wp.look_ok ha]
      refine (hg t a trivial ha t t' h).mono fun r u hu => ?_
      rw [wp.look_ok (heq.trans ha)]
      exact hu
    | error e =>
      rw [wp.look_error ha, wp.look_error (heq.trans ha)]
      exact ⟨rfl, h⟩
  state {_ f} hsame hf t t' h := by
    rw [wp.get_bind]
    refine (hf t t t' h).mono fun r u hu => ?_
    rw [wp.get_bind, Tree.eq_of_outline hsame h.outline]
    exact hu
  find start path := .of_surveys (Tree.find_surveys start path)
  tryFind start path := .outcome (.of_surveys (Tree.find_surveys start path))
  touch id := .of_surveys (Tree.touch_surveys id)
  count id := .of_surveys (Tree.count_surveys id)
  note {source} reader hsource t t' h := by
    rw [wp.modify, wp.modify, Tree.eq_of_outline hsource h.outline]
    exact ⟨rfl, h.noteReader (source t) reader⟩

end Mirrors

-- ---------------------------------------------------------------------------
-- Resolution
-- ---------------------------------------------------------------------------

namespace Resolver

theorem mirrors_guarded {α : Type} (id : NodeId) {act : TreeM α} (hact : Mirrors act) :
    Mirrors (guarded id act) := by
  intro t t' h
  rw [wp.guarded]
  split
  · rename_i hid
    rw [wp.guarded, if_pos (h.resolving ▸ hid),
      Tree.eq_of_outline (f := (·.nameOrPlace id)) (fun _ => Tree.nameOrPlace_outline) h.outline]
    exact ⟨rfl, h⟩
  · rename_i hid
    refine (hact _ _ (h.stack (id :: ·))).mono fun r u hu => ?_
    rw [wp.guarded, if_neg (h.resolving ▸ hid)]
    exact hu.mono fun r' u' h' => ⟨h'.1, h'.2.stack List.tail⟩

section

variable {ask : Resolver} (hask : ∀ r, Mirrors (ask r))

include hask

theorem mirrors_runScript {α : Type} (id : NodeId) (s : Script α) :
    Mirrors (runScript ask id s) := by
  refine Mirrors.readRules.survey (fun _ => Tree.enclosing_outline) fun base => ?_
  induction s with
  | done r => exact .lift
  | ask q next ih => exact .bind (.outcome (Mirrors.readRules.answer hask base id q)) fun r => ih r

theorem mirrors_scriptRules : ScriptRules (fun _ => True) (fun _ act => Mirrors act) ask where
  deferred _ _ := mirrors_runScript hask _ _
  computed _ _ := mirrors_runScript hask _ _
  action _ _ _ := mirrors_runScript hask _ _

omit hask in
theorem mirrors_store (id : NodeId) (b : Bytes) : Mirrors (TreeM.update fun t => do
    let _ ← t.node id
    return t.modify id ({ · with cache := some b })) := by
  intro t t' h
  have hstored := h.modify id (f := ({ · with cache := some b })) (fun _ => rfl) fun _ => rfl
  simp only [wp.update]
  rcases h.node_cases id with ⟨e, he, he'⟩ | ⟨n, n', hn, hn', -⟩
  · rw [he, he']
    exact ⟨rfl, h⟩
  · rw [hn, hn']
    exact ⟨trivial, hstored⟩

theorem mirrors_bytesStep (id : NodeId) : Mirrors (bytesStep ask id) := by
  refine .node (fun _ => rfl) fun n => ?_
  cases n.cache with
  | some b => exact .pure
  | none =>
    have hfresh := Mirrors.readRules.freshBytes hask (mirrors_scriptRules hask) id
    exact .bind (mirrors_guarded id hfresh) fun b => .bind (mirrors_store id b) fun _ => .pure

theorem mirrors_valueStep (id : NodeId) : Mirrors (valueStep ask id) := by
  refine Mirrors.readRules.survey (fun _ => Tree.isLeaf_outline) fun isLeaf => ?_
  cases isLeaf with
  | true =>
    exact mirrors_guarded id (Mirrors.readRules.leafContent hask (mirrors_scriptRules hask) id)
  | false => exact .bind (hask (.bytes id)) fun _ => .pure

theorem mirrors_lengthStep (id : NodeId) : Mirrors (lengthStep ask id) := by
  refine .node (fun _ => rfl) fun n => ?_
  cases lengthRule n with
  | codec codec => exact .lift
  | fixed m => cases n.cache <;> exact .pure
  | encode =>
    cases n.cache with
    | some b => exact .pure
    | none => exact .bind (hask (.bytes id)) fun _ => .pure
  | children =>
    cases n.cache with
    | some b => exact .pure
    | none =>
      have hsum := Mirrors.readRules.shownLength hask id
      dsimp only
      split
      · exact .bind (Mirrors.readRules.touch id) fun _ => hsum
      · exact hsum

theorem mirrors_step (r : Request) : Mirrors (step ask r) := by
  cases r with
  | bytes id => exact mirrors_bytesStep hask id
  | value id => exact mirrors_valueStep hask id
  | length id => exact mirrors_lengthStep hask id
  | lengthUpTo within target => exact Mirrors.readRules.lengthUpToStep hask within target

end

-- ---------------------------------------------------------------------------
-- Operations
-- ---------------------------------------------------------------------------

theorem mirrors_resolve (depth : Nat) (r : Request) : Mirrors (resolve depth r) := by
  induction depth generalizing r with
  | zero => exact .throw
  | succ depth ih => exact mirrors_step ih r

theorem mirrors_answerAll (r : Request) : Mirrors (answerAll r) :=
  Mirrors.readRules.state (fun _ => by rw [Tree.depthFor_outline]) fun _ => mirrors_resolve _ r

end Resolver

end FormatFuzz
