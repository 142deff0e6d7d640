-- SUMMARY: Rules for properties of operations that hold of resolution part by part.
import FormatFuzz.Proofs.Outlines

/-!
# Rules for reads

Most parts of resolution look neither at caches nor at readers: they look at the bare tree, follow
paths, note readers, run closures, and ask further questions. A property of operations that is kept by
these (`ReadRules`) holds of all such parts if it holds of the answers to the questions. What is left to
show for each property is what it makes of caches and of the stack.

The same goes for what is said of two runs of a part, in which questions are answered in two different ways
(`PairRules`). A property of a single run is one that does not look at the second.
-/

namespace FormatFuzz

open TreeM

-- ---------------------------------------------------------------------------
-- Bare trees
-- ---------------------------------------------------------------------------

namespace Tree

variable {t t' : Tree} {id : NodeId}

/-- The tree without caches, readers, counters and the stack. -/
def bare (t : Tree) : Tree := ⟨t.nodes.map (Option.map Node.bare), t.root, t.seed, [], []⟩

@[simp] theorem node?_bare : t.bare.node? id = (t.node? id).map Node.bare := by
  unfold node? bare
  rw [Array.getElem?_map]
  cases t.nodes[id.index]? <;> rfl

theorem node_bare : t.bare.node id = (t.node id).map Node.bare := by
  unfold node
  rw [node?_bare]
  cases t.node? id <;> rfl

theorem look_bare {α : Type} {f : Node → α} (hf : ∀ n, f n.bare = f n) :
    t.bare.look id f = t.look id f := by
  unfold look
  rw [node_bare]
  cases t.node id with
  | error e => rfl
  | ok n => exact congrArg Except.ok (hf n)

theorem outline_bare (t : Tree) : t.bare.outline = t.outline := by
  refine outline_eq_iff.mpr ⟨rfl, rfl, Array.size_map .., fun id => ?_⟩
  rw [node?_bare, Option.map_map]
  rfl

theorem Like.bare (h : t.Like t') : t'.bare = t.bare := by
  unfold Tree.bare
  rw [map_nodes_eq h.size h.nodes, h.root, h.seed]

/-- What can be told from the outline can be told from the bare tree. -/
theorem bare_of_outline {α : Type} {f : Tree → α} (hf : ∀ t, f t.outline = f t) (t : Tree) :
    f t.bare = f t :=
  eq_of_outline hf t.outline_bare

/-- What can be told from the bare tree is the same in trees that differ in caches and readers
only. -/
theorem Like.eq_of_bare {α : Type} {f : Tree → α} (h : t.Like t') (hf : ∀ t, f t.bare = f t) :
    f t' = f t := by
  rw [← hf t', h.bare, hf t]

end Tree

-- ---------------------------------------------------------------------------
-- The stack
-- ---------------------------------------------------------------------------

theorem wp.guarded {α : Type} {id : NodeId} {act : TreeM α} {Q : Except TreeError α → Tree → Prop}
    {t : Tree} : wp (Resolver.guarded id act) Q t ↔
      if id ∈ t.resolving then Q (.error (.cyclicDependency (t.nameOrPlace id))) t
      else wp act (fun r t' => Q r { t' with resolving := t'.resolving.tail })
        { t with resolving := id :: t.resolving } := by
  unfold Resolver.guarded Resolver.enter Resolver.leave
  simp only [wp.bind, wp.get]
  split
  · rw [wp.bind, wp.throw]
  · simp only [wp.modify, wp.outcome, wp.lift]

-- ---------------------------------------------------------------------------
-- Rules
-- ---------------------------------------------------------------------------

/-- The property is kept by the parts of resolution other than questions, closures, caches and the
stack. Only trees that are `sane` need to be looked at. -/
structure ReadRules (sane : Tree → Prop) (P : (α : Type) → TreeM α → Prop) : Prop where
  pure : ∀ {α : Type} (a : α), P α (Pure.pure a)
  fail : ∀ {α : Type} (e : TreeError), P α (throw e)
  bind : ∀ {α β : Type} {act : TreeM α} {f : α → TreeM β}, P α act → (∀ a, P β (f a)) →
    P β (act >>= f)
  /-- The bare tree may be looked at. -/
  look : ∀ {α β : Type} {f : Tree → Except TreeError α} {g : α → TreeM β}, (∀ t, f t.bare = f t) →
    (∀ t a, sane t → f t = .ok a → P β (g a)) → P β (TreeM.look f >>= g)
  /-- What follows may depend on the outline of the tree. -/
  state : ∀ {α : Type} {f : Tree → TreeM α}, (∀ t, f t.outline = f t) → (∀ t, P α (f t)) →
    P α (get >>= f)
  find : ∀ start path, P _ (Tree.find start path)
  tryFind : ∀ start path, P _ (TreeM.outcome (Tree.find start path))
  touch : ∀ id, P _ (Tree.touch id)
  count : ∀ id, P _ (Tree.count id)
  note : ∀ {source : Tree → NodeId} (reader : NodeId), (∀ t, source t.outline = source t) →
    P _ (modify fun t => t.noteReader (source t) reader)

/-- The property holds of all closures in sane trees, as they are run. -/
structure ScriptRules (sane : Tree → Prop) (P : (α : Type) → TreeM α → Prop) (ask : Resolver) :
    Prop where
  deferred : ∀ {t : Tree} {id : NodeId} {s : Script Value}, sane t →
    t.cell id = .ok (.deferred s) → P _ (Resolver.runScript ask id s)
  computed : ∀ {t : Tree} {id : NodeId} {f : Transform} {sources : List String}, sane t →
    t.cell id = .ok (.computed f sources) → P _ (Resolver.runScript ask id (Cell.compute f sources))
  action : ∀ {t : Tree} {id : NodeId} {f : Transform}, sane t →
    t.look id (·.action) = .ok (some f) → ∀ raw, P _ (Resolver.runScript ask id (f.run [raw]))

/-- What is asked for to answer a read. -/
def Query.LeadsTo : Query → Request → Prop
  | .bytes _, .bytes _ | .value _, .value _ | .length _, .length _ | .offset _, .lengthUpTo .. => True
  | _, _ => False

/-- The relation holds between two runs of the parts of resolution other than questions, closures, caches
and the stack. Only trees that are `sane` need to be looked at. -/
structure PairRules (sane : Tree → Prop) (P : (α : Type) → TreeM α → TreeM α → Prop) : Prop where
  pure : ∀ {α : Type} (a : α), P α (Pure.pure a) (Pure.pure a)
  fail : ∀ {α : Type} (e : TreeError), P α (throw e) (throw e)
  bind : ∀ {α β : Type} {act act' : TreeM α} {f f' : α → TreeM β}, P α act act' →
    (∀ a, P β (f a) (f' a)) → P β (act >>= f) (act' >>= f')
  /-- The bare tree may be looked at. -/
  look : ∀ {α β : Type} {f : Tree → Except TreeError α} {g g' : α → TreeM β}, (∀ t, f t.bare = f t) →
    (∀ t a, sane t → f t = .ok a → P β (g a) (g' a)) → P β (TreeM.look f >>= g) (TreeM.look f >>= g')
  /-- What follows may depend on the outline of the tree. -/
  state : ∀ {α : Type} {f f' : Tree → TreeM α}, (∀ t, f t.outline = f t) → (∀ t, f' t.outline = f' t) →
    (∀ t, P α (f t) (f' t)) → P α (get >>= f) (get >>= f')
  find : ∀ start path, P _ (Tree.find start path) (Tree.find start path)
  tryFind : ∀ start path, P _ (TreeM.outcome (Tree.find start path)) (TreeM.outcome (Tree.find start path))
  touch : ∀ id, P _ (Tree.touch id) (Tree.touch id)
  count : ∀ id, P _ (Tree.count id) (Tree.count id)
  note : ∀ {source : Tree → NodeId} (reader : NodeId), (∀ t, source t.outline = source t) →
    P _ (modify fun t => t.noteReader (source t) reader) (modify fun t => t.noteReader (source t) reader)

/-- The relation holds between two runs of all closures in sane trees. -/
structure PairScripts (sane : Tree → Prop) (P : (α : Type) → TreeM α → TreeM α → Prop)
    (ask ask' : Resolver) : Prop where
  deferred : ∀ {t : Tree} {id : NodeId} {s : Script Value}, sane t →
    t.cell id = .ok (.deferred s) → P _ (Resolver.runScript ask id s) (Resolver.runScript ask' id s)
  computed : ∀ {t : Tree} {id : NodeId} {f : Transform} {sources : List String}, sane t →
    t.cell id = .ok (.computed f sources) →
      P _ (Resolver.runScript ask id (Cell.compute f sources))
        (Resolver.runScript ask' id (Cell.compute f sources))
  action : ∀ {t : Tree} {id : NodeId} {f : Transform}, sane t →
    t.look id (·.action) = .ok (some f) → ∀ raw,
      P _ (Resolver.runScript ask id (f.run [raw])) (Resolver.runScript ask' id (f.run [raw]))

-- ---------------------------------------------------------------------------
-- Pairs of runs
-- ---------------------------------------------------------------------------

namespace PairRules

variable {sane : Tree → Prop} {P : (α : Type) → TreeM α → TreeM α → Prop} (rules : PairRules sane P)

include rules

omit rules in
theorem ite {α : Type} {c : Prop} [Decidable c] {a b a' b' : TreeM α} (ha : P _ a a') (hb : P _ b b') :
    P _ (if c then a else b) (if c then a' else b') := by
  split
  · exact ha
  · exact hb

theorem lift {α : Type} (r : Except TreeError α) : P _ (TreeM.lift r) (TreeM.lift r) := by
  cases r with
  | ok a => exact rules.pure a
  | error e => exact rules.fail e

theorem foldlM {α β : Type} {xs : List α} {f g : β → α → TreeM β}
    (hf : ∀ b, ∀ x ∈ xs, P _ (f b x) (g b x)) (b : β) : P _ (xs.foldlM f b) (xs.foldlM g b) := by
  induction xs generalizing b with
  | nil => exact rules.pure b
  | cons x rest ih =>
    exact rules.bind (hf b x List.mem_cons_self) (ih fun b y hy => hf b y (List.mem_cons_of_mem _ hy))

theorem mapM {α β : Type} {xs : List α} {f g : α → TreeM β} (hf : ∀ x, P _ (f x) (g x)) :
    P _ (xs.mapM f) (xs.mapM g) := by
  induction xs with
  | nil => exact rules.pure []
  | cons x rest ih =>
    rw [List.mapM_cons, List.mapM_cons]
    exact rules.bind (hf x) fun y => rules.bind ih fun ys => rules.pure (y :: ys)

/-- What can be told from the outline may be looked at. -/
theorem survey {α β : Type} {f : Tree → Except TreeError α} {g h : α → TreeM β}
    (hf : ∀ t, f t.outline = f t) (hg : ∀ a, P _ (g a) (h a)) :
    P _ (TreeM.look f >>= g) (TreeM.look f >>= h) :=
  rules.look (Tree.bare_of_outline hf) fun _ a _ _ => hg a

theorem survey_pure {α : Type} {f : Tree → Except TreeError α} (hf : ∀ t, f t.outline = f t) :
    P _ (TreeM.look f) (TreeM.look f) := by
  have hbind := rules.survey hf rules.pure
  rwa [bind_pure] at hbind

/-- Both runs may go on in the same way with what the outline tells. -/
theorem state_self {α : Type} {f : Tree → TreeM α} (hf : ∀ t, f t.outline = f t)
    (hact : ∀ t, P _ (f t) (f t)) : P _ (get >>= f) (get >>= f) :=
  rules.state hf hf hact

/-- A node may be looked up to see that it is live. -/
theorem live {α : Type} {id : NodeId} {a b : TreeM α} (hact : P _ a b) :
    P _ (TreeM.look (·.node id) >>= fun _ => a) (TreeM.look (·.node id) >>= fun _ => b) := by
  have hlive := rules.look (f := (·.look id fun _ => ())) (fun _ => Tree.look_bare fun _ => rfl)
    fun _ _ _ _ => hact
  have hsame : ∀ act : TreeM α, (TreeM.look (·.look id fun _ => ()) >>= fun _ => act) =
      (TreeM.look (·.node id) >>= fun _ => act) := by
    refine fun act => wp.ext fun Q t => ?_
    rw [wp.bind, wp.look, wp.bind, wp.look]
    unfold Tree.look
    cases t.node id <;> rfl
  rwa [hsame, hsame] at hlive

-- ---------------------------------------------------------------------------
-- Questions
-- ---------------------------------------------------------------------------

theorem readNode (base reader : NodeId) (path : String) :
    P _ (Resolver.readNode base reader path) (Resolver.readNode base reader path) :=
  rules.bind (rules.find base path) fun id => rules.bind (rules.note reader fun _ => rfl) fun _ =>
    rules.pure id

variable (ask ask' : Resolver)

theorem answer (base reader : NodeId) (q : Query) (hask : ∀ r, q.LeadsTo r → P _ (ask r) (ask' r)) :
    P _ (Resolver.answer ask base reader q) (Resolver.answer ask' base reader q) := by
  cases q with
  | bytes path => exact rules.bind (rules.readNode base reader path) fun id => hask (.bytes id) trivial
  | value path => exact rules.bind (rules.readNode base reader path) fun id => hask (.value id) trivial
  | count path => exact rules.bind (rules.readNode base reader path) fun id => rules.count id
  | length path => exact rules.bind (rules.readNode base reader path) fun id => hask (.length id) trivial
  | offset path =>
    refine rules.bind (rules.find base path) fun id => rules.bind (rules.note reader fun _ => rfl)
      fun _ => rules.live (rules.state (fun _ => rfl) (fun _ => rfl) fun t => ?_)
    exact hask (.lengthUpTo t.root id) trivial
  | field path => exact rules.find base path
  | fullName id => exact rules.survey_pure fun _ => Tree.fullName_outline
  | base => exact rules.pure base
  | reader => exact rules.pure reader
  | generator => exact rules.survey_pure fun _ => Tree.generator_outline _

-- ---------------------------------------------------------------------------
-- Values and bytes
-- ---------------------------------------------------------------------------

theorem bindingTarget (id : NodeId) (b : Binding) :
    P _ (Resolver.bindingTarget id b) (Resolver.bindingTarget id b) := by
  have hfail : ∀ {α : Type} (e : String → TreeError),
      P α (do throw (e ((← get).nameOrPlace id))) (do throw (e ((← get).nameOrPlace id))) :=
    fun e => rules.state_self (fun _ => by rw [Tree.nameOrPlace_outline]) fun _ => rules.fail _
  cases b with
  | path path =>
    refine rules.survey (fun _ => Tree.enclosing_outline) fun base =>
      rules.bind (rules.tryFind base path) fun r => ?_
    cases r with
    | ok target => exact rules.pure target
    | error e => exact hfail fun name => .bindingUnresolved name path
  | element group index field =>
    refine rules.state_self (fun _ => by simp only [Tree.nameOrPlace_outline]) fun t =>
      rules.state_self (fun _ => by simp only [Tree.isLive_outline]) fun t' => ite ?live ?dead
    case' dead =>
      refine rules.state_self (fun _ => by simp only [Tree.nameOrPlace_outline]) fun _ =>
        rules.bind (rules.fail _) fun _ => ?_
    all_goals
      refine rules.bind (rules.count group) fun _ => rules.bind (rules.note id fun _ => rfl) fun _ =>
        rules.survey (fun _ => Tree.children_outline) fun children => ?_
      cases children[index]? with
      | none => exact hfail fun name => .bindingUnresolved name _
      | some element =>
        refine ite (rules.pure element) (rules.bind (rules.tryFind element field) fun r => ?_)
        cases r with
        | ok found => exact rules.pure found
        | error e => exact hfail fun name => .bindingUnresolved name _

section

variable (hbytes : ∀ id, P _ (ask (.bytes id)) (ask' (.bytes id)))

include hbytes

theorem shownBytes (id : NodeId) :
    P _ (do return (← (← TreeM.look (·.shownChildren id)).mapM fun child => ask (.bytes child)).flatten :
      TreeM Bytes)
    (do return (← (← TreeM.look (·.shownChildren id)).mapM fun child => ask' (.bytes child)).flatten :
      TreeM Bytes) :=
  rules.survey (fun _ => Tree.shownChildren_outline) fun _ =>
    rules.bind (rules.mapM fun child => hbytes child) fun parts => rules.pure parts.flatten

variable (hvalue : ∀ id, P _ (ask (.value id)) (ask' (.value id))) (scripts : PairScripts sane P ask ask')

include hvalue scripts

omit hbytes in
theorem cellValue (id : NodeId) : P _ (Resolver.cellValue ask id) (Resolver.cellValue ask' id) := by
  refine rules.look (fun _ => Tree.look_bare fun _ => rfl) fun t cell hsane hcell => ?_
  cases cell with
  | unset => exact rules.pure none
  | literal v => exact rules.pure (some v)
  | deferred s => exact rules.bind (scripts.deferred hsane hcell) fun v => rules.pure (some v)
  | computed f sources => exact rules.bind (scripts.computed hsane hcell) fun v => rules.pure (some v)
  | bound b =>
    exact rules.bind (rules.bindingTarget id b) fun target => rules.bind (rules.note id fun _ => rfl)
      fun _ => rules.bind (hvalue target) fun v => rules.pure (some v)

theorem leafContent (id : NodeId) : P _ (Resolver.leafContent ask id) (Resolver.leafContent ask' id) := by
  refine rules.bind (rules.cellValue ask ask' hvalue scripts id) fun v => ?_
  cases v with
  | some v => exact rules.pure v
  | none =>
    refine rules.look (fun _ => Tree.look_bare fun _ => rfl) fun _ kind _ _ => ?_
    cases kind with
    | leaf kind => exact rules.survey (fun _ => Tree.generator_outline _) fun _ => rules.lift _
    | composite => exact rules.bind (hbytes id) fun _ => rules.pure _
    | repeated g => exact rules.bind (hbytes id) fun _ => rules.pure _

theorem rawBytes (id : NodeId) (kind : NodeKind) :
    P _ (Resolver.rawBytes ask id kind) (Resolver.rawBytes ask' id kind) := by
  unfold Resolver.rawBytes
  refine ite (rules.bind (rules.leafContent ask ask' hbytes hvalue scripts id) fun v => ?_) ?_
  · exact rules.survey_pure fun _ => Tree.encode_outline v
  · refine ite (rules.bind (rules.touch id) fun _ => ?_) ?_ <;>
    · refine rules.bind (rules.cellValue ask ask' hvalue scripts id) fun v => ?_
      cases v with
      | some v => exact rules.pure v.text
      | none => exact rules.shownBytes ask ask' hbytes id

theorem freshBytes (id : NodeId) : P _ (Resolver.freshBytes ask id) (Resolver.freshBytes ask' id) := by
  refine rules.look (fun _ => Tree.look_bare fun _ => rfl) fun _ kind _ _ =>
    rules.bind (rules.rawBytes ask ask' hbytes hvalue scripts id kind) fun raw =>
      rules.look (fun _ => Tree.look_bare fun _ => rfl) fun t action hsane haction => ?_
  cases action with
  | none => exact rules.pure raw
  | some f =>
    have hother : ∀ v : Value,
        P _ (if kind.isLeaf then TreeM.look (Resolver.encode · id v) else return v.text)
          (if kind.isLeaf then TreeM.look (Resolver.encode · id v) else return v.text) := fun v =>
      ite (rules.survey_pure fun _ => Tree.encode_outline v) (rules.pure v.text)
    refine rules.bind (scripts.action hsane haction raw) fun v => ?_
    cases v with
    | bytes b => exact rules.pure b
    | int v => exact hother (.int v)
    | bool v => exact hother (.bool v)

end

-- ---------------------------------------------------------------------------
-- Lengths
-- ---------------------------------------------------------------------------

/-- Lengths are only asked of visible children. -/
theorem shownLength (id : NodeId) (hbelow : ∀ t shown, sane t → t.shownChildren id = .ok shown →
      ∀ c ∈ shown, P _ (ask (.length c)) (ask' (.length c))) :
    P _ (do
      (← TreeM.look (·.shownChildren id)).foldlM (fun total child => do
        let n : Nat ← ask (.length child)
        return total + n) 0 : TreeM Nat)
    (do
      (← TreeM.look (·.shownChildren id)).foldlM (fun total child => do
        let n : Nat ← ask' (.length child)
        return total + n) 0 : TreeM Nat) :=
  rules.look (Tree.bare_of_outline (f := (·.shownChildren id)) fun _ => Tree.shownChildren_outline)
    fun t shown hsane hshown => rules.foldlM (fun _ c hc =>
      rules.bind (hbelow t shown hsane hshown c hc) fun _ => rules.pure _) 0

theorem lengthBefore (target : NodeId) (children : List NodeId)
    (hbelow : ∀ c ∈ children, P _ (ask (.length c)) (ask' (.length c)) ∧
      P _ (ask (.lengthUpTo c target)) (ask' (.lengthUpTo c target))) :
    P _ (Resolver.lengthBefore ask target children) (Resolver.lengthBefore ask' target children) := by
  induction children with
  | nil => exact rules.pure 0
  | cons child rest ih =>
    obtain ⟨hlength, hup⟩ := hbelow child List.mem_cons_self
    have ih := ih fun c hc => hbelow c (List.mem_cons_of_mem _ hc)
    unfold Resolver.lengthBefore
    refine ite (rules.pure 0) (rules.state (fun _ => by simp only [Tree.contains_outline])
      (fun _ => by simp only [Tree.contains_outline]) fun t => ite hup ?_)
    refine rules.survey (fun _ => Tree.isHidden_outline) fun hidden => ite ?_ ?_
    · exact rules.bind (rules.pure 0) fun _ => rules.bind ih fun _ => rules.pure _
    · exact rules.bind hlength fun _ => rules.bind ih fun _ => rules.pure _

/-- On the way to the target, what is in front of it is left to be asked of the children. -/
theorem lengthUpToStep_of_before (within target : NodeId) (hbefore : ∀ t children, sane t →
      t.children within = .ok children → P _ (Resolver.lengthBefore ask target children)
        (Resolver.lengthBefore ask' target children)) :
    P _ (Resolver.lengthUpToStep ask within target) (Resolver.lengthUpToStep ask' within target) := by
  have hrest : P _ (do Resolver.lengthBefore ask target (← TreeM.look (·.children within)))
      (do Resolver.lengthBefore ask' target (← TreeM.look (·.children within))) :=
    rules.look (Tree.bare_of_outline (f := (·.children within)) fun _ => Tree.children_outline) hbefore
  unfold Resolver.lengthUpToStep
  refine ite (rules.pure 0) (rules.survey (fun _ => Tree.isGroup_outline) fun isGroup => ?_)
  cases isGroup with
  | true => exact rules.bind (rules.touch within) fun _ => hrest
  | false => exact hrest

/-- The way to the target is only asked of children. -/
theorem lengthUpToStep (within target : NodeId) (hbelow : ∀ t children, sane t →
      t.children within = .ok children → ∀ c ∈ children, P _ (ask (.length c)) (ask' (.length c)) ∧
        P _ (ask (.lengthUpTo c target)) (ask' (.lengthUpTo c target))) :
    P _ (Resolver.lengthUpToStep ask within target) (Resolver.lengthUpToStep ask' within target) :=
  rules.lengthUpToStep_of_before ask ask' within target fun t children hsane hchildren =>
    rules.lengthBefore ask ask' target children (hbelow t children hsane hchildren)

end PairRules

-- ---------------------------------------------------------------------------
-- Single runs
-- ---------------------------------------------------------------------------

section

variable {sane : Tree → Prop} {P : (α : Type) → TreeM α → Prop}

theorem ReadRules.pairs (rules : ReadRules sane P) : PairRules sane fun α act _ => P α act where
  pure := rules.pure
  fail := rules.fail
  bind := rules.bind
  look := rules.look
  state hf _ hact := rules.state hf hact
  find := rules.find
  tryFind := rules.tryFind
  touch := rules.touch
  count := rules.count
  note := rules.note

theorem ScriptRules.pairs {ask : Resolver} (scripts : ScriptRules sane P ask) :
    PairScripts sane (fun α act _ => P α act) ask ask where
  deferred := scripts.deferred
  computed := scripts.computed
  action := scripts.action

end

namespace ReadRules

variable {sane : Tree → Prop} {P : (α : Type) → TreeM α → Prop} (rules : ReadRules sane P)

include rules

theorem lift {α : Type} (r : Except TreeError α) : P _ (TreeM.lift r) := rules.pairs.lift r

theorem mapM {α β : Type} {xs : List α} {f : α → TreeM β} (hf : ∀ x, P _ (f x)) :
    P _ (xs.mapM f) :=
  rules.pairs.mapM (g := f) hf

/-- What can be told from the outline may be looked at. -/
theorem survey {α β : Type} {f : Tree → Except TreeError α} {g : α → TreeM β}
    (hf : ∀ t, f t.outline = f t) (hg : ∀ a, P _ (g a)) : P _ (TreeM.look f >>= g) :=
  rules.pairs.survey (h := g) hf hg

/-- A node may be looked up to see that it is live. -/
theorem live {α : Type} {id : NodeId} {act : TreeM α} (hact : P _ act) :
    P _ (TreeM.look (·.node id) >>= fun _ => act) :=
  rules.pairs.live (b := act) hact

variable {ask : Resolver} (hask : ∀ r, P _ (ask r))

include hask

theorem answer (base reader : NodeId) (q : Query) : P _ (Resolver.answer ask base reader q) :=
  rules.pairs.answer ask ask base reader q fun r _ => hask r

section

variable (scripts : ScriptRules sane P ask)

include scripts

theorem leafContent (id : NodeId) : P _ (Resolver.leafContent ask id) :=
  rules.pairs.leafContent ask ask (fun id => hask (.bytes id)) (fun id => hask (.value id)) scripts.pairs id

theorem rawBytes (id : NodeId) (kind : NodeKind) : P _ (Resolver.rawBytes ask id kind) :=
  rules.pairs.rawBytes ask ask (fun id => hask (.bytes id)) (fun id => hask (.value id)) scripts.pairs id kind

theorem freshBytes (id : NodeId) : P _ (Resolver.freshBytes ask id) :=
  rules.pairs.freshBytes ask ask (fun id => hask (.bytes id)) (fun id => hask (.value id)) scripts.pairs id

end

theorem shownLength (id : NodeId) : P _ (do
    (← TreeM.look (·.shownChildren id)).foldlM (fun total child => do
      let n : Nat ← ask (.length child)
      return total + n) 0 : TreeM Nat) :=
  rules.pairs.shownLength ask ask id fun _ _ _ _ c _ => hask (.length c)

theorem lengthUpToStep (within target : NodeId) :
    P _ (Resolver.lengthUpToStep ask within target) :=
  rules.pairs.lengthUpToStep ask ask within target fun _ _ _ _ c _ =>
    ⟨hask (.length c), hask (.lengthUpTo c target)⟩

end ReadRules

end FormatFuzz
