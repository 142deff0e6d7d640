-- SUMMARY: New elements are what their template and the tree's seed make of them.
import FormatFuzz.Proofs.Retries
import FormatFuzz.Proofs.Tidiness

/-!
# Regrowth

When a group is given another count, its elements are made anew. If no group follows another one, little happens
to the new nodes on the way: each keeps the cell that its template has for it, and each group among them gets as
many elements as its rule asks for by itself (`Tree.Faithful`). That holds of all nodes from some place on, if
only groups in front of it are given other counts (`Tree.resize_faithful`).

New nodes are first described by the template that they have just been made from (`Tree.Pristine`), and then by
where they are, because positions are what stays when the tree goes on to change.
-/

namespace FormatFuzz

open TreeM

/-- The node has the cell of its template, unless a counter has numbered it. -/
def Node.Plain (n : Node) (h : Header) : Prop := h.counter = none → n.cell = h.cell

namespace Tree

variable {τ σ : Template} {t t' t₁ t₂ : Tree} {parent : Option NodeId} {id x : NodeId} {n n' : Node}

-- ---------------------------------------------------------------------------
-- New nodes
-- ---------------------------------------------------------------------------

mutual

/-- Nothing has happened to the node, or to those below it, since they were made from the template. -/
def Pristine (t : Tree) : Template → NodeId → Prop
  | .leaf h _, id => ∃ n, t.node? id = some n ∧ n.Plain h
  | .composite h fields, id => ∃ n, t.node? id = some n ∧ n.Plain h ∧ PristineAll t fields n.children
  | .repeated h _ _, id => ∃ n, t.node? id = some n ∧ n.Plain h ∧ n.children = []

def PristineAll (t : Tree) : List Template → List NodeId → Prop
  | [], ids => ids = []
  | σ :: rest, ids => ∃ id ids', ids = id :: ids' ∧ Pristine t σ id ∧ PristineAll t rest ids'

end

theorem Pristine.plain (h : t.Pristine σ id) : ∃ n, t.node? id = some n ∧ n.Plain σ.header := by
  cases σ with
  | leaf h' kind => exact h
  | composite h' fields =>
    obtain ⟨n, hn, hplain, -⟩ := h
    exact ⟨n, hn, hplain⟩
  | repeated h' element rule =>
    obtain ⟨n, hn, hplain, -⟩ := h
    exact ⟨n, hn, hplain⟩

theorem PristineAll.getElem? {σs : List Template} {ids : List NodeId} {i : Nat}
    (h : t.PristineAll σs ids) (hσ : σs[i]? = some σ) (hid : ids[i]? = some id) : t.Pristine σ id := by
  induction σs generalizing ids i with
  | nil => cases hσ
  | cons σ' rest ih =>
    obtain ⟨first, ids', rfl, hfirst, hrest⟩ := h
    cases i with
    | zero =>
      cases hσ
      cases hid
      exact hfirst
    | succ i => exact ih hrest hσ hid

/-- The nodes from some place on are as they were, and their children are among them. -/
def KeptFrom (b : Nat) (t t' : Tree) : Prop :=
  ∀ ⦃x n⦄, b ≤ x.index → t.node? x = some n → t'.node? x = some n ∧ ∀ c ∈ n.children, b ≤ c.index

mutual

theorem Pristine.transfer {b : Nat} (hkept : KeptFrom b t t') : (σ : Template) → (id : NodeId) →
    b ≤ id.index → t.Pristine σ id → t'.Pristine σ id
  | .leaf _ _, _, hid, ⟨n, hn, hplain⟩ => ⟨n, (hkept hid hn).1, hplain⟩
  | .composite _ fields, _, hid, ⟨n, hn, hplain, hfields⟩ =>
    ⟨n, (hkept hid hn).1, hplain, PristineAll.transfer hkept fields n.children (hkept hid hn).2 hfields⟩
  | .repeated _ _ _, _, hid, ⟨n, hn, hplain, hnone⟩ => ⟨n, (hkept hid hn).1, hplain, hnone⟩

theorem PristineAll.transfer {b : Nat} (hkept : KeptFrom b t t') : (σs : List Template) →
    (ids : List NodeId) → (∀ id ∈ ids, b ≤ id.index) → t.PristineAll σs ids → t'.PristineAll σs ids
  | [], _, _, h => h
  | σ :: rest, _, hids, ⟨id, ids', hcons, hid, hrest⟩ => by
    subst hcons
    refine ⟨id, ids', rfl, Pristine.transfer hkept σ id (hids id List.mem_cons_self) hid, ?_⟩
    exact PristineAll.transfer hkept rest ids' (fun c hc => hids c (List.mem_cons_of_mem id hc)) hrest

end

theorem Sprouts.kept {ids : List NodeId} (hs : t₁.Sprouts t₂ parent ids) : KeptFrom 0 t₁ t₂ :=
  fun _ _ _ hn => ⟨hs.node? hn, fun _ _ => Nat.zero_le _⟩

/-- New nodes are not touched by a change of a node in front of them. -/
theorem Sprouts.kept_behind {ids : List NodeId} (hs : t₁.Sprouts t₂ parent ids)
    (hid : id.index < t₁.nodes.size) (f : Node → Node) : KeptFrom t₁.nodes.size t₂ (t₂.modify id f) := by
  intro x n hge hn
  have hne : x ≠ id := by
    rintro rfl
    exact absurd hid (Nat.not_lt.mpr hge)
  exact ⟨(node?_modify_ne f hne).trans hn, fun c hc => hge.trans ((hs.fresh hge hn).child c hc).1.le⟩

theorem addNode_pristine (h : Header) (name : Option String) (parent : Option NodeId) (kind : NodeKind)
    (hkind : kind.still = kind) (t : Tree) :
    ∃ n, t.Adds (t.addNode h name parent kind).2 (t.addNode h name parent kind).1 n ∧ n.Plain h ∧
      n.children = [] := by
  obtain ⟨n, hadds, -, -, -, hnone, -⟩ :=
    addNode_adds (C := fun _ => True) (fun _ => trivial) t h name parent kind hkind
  have hn := (hadds.node? _).trans (if_pos hadds.place)
  exact ⟨n, hadds, fun hcounter => (addNode_plain hn hcounter).1, hnone⟩

mutual

theorem instantiate_pristine : (σ : Template) → (name : Option String) → (parent : Option NodeId) →
    (t : Tree) → (instantiate σ name parent t).2.Pristine σ (instantiate σ name parent t).1
  | .leaf h kind, name, parent, t => by
    obtain ⟨n, hadds, hplain, -⟩ := addNode_pristine h name parent (.leaf kind) rfl t
    exact ⟨n, (hadds.node? _).trans (if_pos hadds.place), hplain⟩
  | .composite h fields, name, parent, t => by
    obtain ⟨n, hadds, hplain, -⟩ := addNode_pristine h name parent .composite rfl t
    obtain ⟨hs, -⟩ := instantiateAll_sprouts (C := fun _ => True) (fun _ => trivial) fields
      (t.addNode h name parent .composite).1 (t.addNode h name parent .composite).2
    have hfields := instantiateAll_pristine fields (t.addNode h name parent .composite).1
      (t.addNode h name parent .composite).2
    rw [instantiate_composite]
    dsimp only
    generalize instantiateAll fields _ _ = made at hs hfields ⊢
    obtain ⟨ids, t₂⟩ := made
    have hid := hs.node? ((hadds.node? _).trans (if_pos hadds.place))
    have hlt := lt_size ((hadds.node? _).trans (if_pos hadds.place))
    refine ⟨{ n with children := ids }, ?_, hplain, ?_⟩
    · exact (node?_modify_self _).trans (congrArg (Option.map _) hid)
    · exact PristineAll.transfer (hs.kept_behind hlt _) fields ids (fun c hc => (hs.roots hc).1) hfields
  | .repeated h element rule, name, parent, t => by
    obtain ⟨n, hadds, hplain, hnone⟩ := addNode_pristine h name parent (.repeated { element, rule }) rfl t
    exact ⟨n, (hadds.node? _).trans (if_pos hadds.place), hplain, hnone⟩

theorem instantiateAll_pristine : (σs : List Template) → (parent : NodeId) → (t : Tree) →
    (instantiateAll σs parent t).2.PristineAll σs (instantiateAll σs parent t).1
  | [], _, _ => rfl
  | σ :: rest, parent, t => by
    have hfirst := instantiate_pristine σ none (some parent) t
    obtain ⟨hs, -⟩ := instantiateAll_sprouts (C := fun _ => True) (fun _ => trivial) rest parent
      (instantiate σ none (some parent) t).2
    refine ⟨_, _, rfl, Pristine.transfer hs.kept σ _ (Nat.zero_le _) hfirst, ?_⟩
    exact instantiateAll_pristine rest parent (instantiate σ none (some parent) t).2

end

theorem makeElements_pristine (element : Template) (name : String) (id : NodeId) (count index : Nat)
    (t : Tree) :
    wp (makeElements element name id count index) (fun r t' => ∀ elements, r = .ok elements →
      ∀ e ∈ elements, t'.Pristine element e) t := by
  induction count generalizing index t with
  | zero =>
    rintro _ ⟨⟩ e he
    cases he
  | succ count ih =>
    rw [makeElements]
    simp only [wp.bind, wp.get, wp.set]
    have hfirst := instantiate_pristine element (some s!"{name}[{index}]") (some id) t
    have hspec := makeElements_spec (C := fun _ => True) (fun _ => trivial) element name id count (index + 1)
      (instantiate element (some s!"{name}[{index}]") (some id) t).2
    refine (hspec.and (ih (index + 1) _)).mono ?_
    rintro _ t' ⟨⟨rest, rfl, -, hs, -⟩, hrest⟩ _ ⟨⟩ e he
    rcases List.mem_cons.mp he with rfl | he
    · exact Pristine.transfer hs.kept element _ (Nat.zero_le _) hfirst
    · exact hrest rest rfl e he

/-- The elements that a group gets are new. -/
theorem swapElements_pristine (id : NodeId) (element : Template) (old : List NodeId) (count : Nat) (t : Tree) :
    wp (swapElements id element old count) (fun r t' => ∀ elements, r = .ok elements →
      ∀ e ∈ elements, t'.Pristine element e) t := by
  unfold swapElements
  simp only [wp.bind, wp.modify]
  refine (discardAll_spec old _).mono ?_
  rintro _ t₁ ⟨rfl, -⟩
  simp only [wp.look]
  cases hname : t₁.name id with
  | error e => exact fun _ h => absurd h error_ne_ok
  | ok name =>
    obtain ⟨n, hn, -⟩ := look_eq_ok.mp hname
    dsimp only
    refine ((makeElements_spec (C := fun _ => True) (fun _ => trivial) element name id count 0 t₁).and
      (makeElements_pristine element name id count 0 t₁)).mono ?_
    rintro _ t₂ ⟨⟨elements, rfl, -, hs, -⟩, hnew⟩
    simp only [wp.update, node_eq_ok.mpr (hs.node? hn), ok_bind, pure_eq_ok, wp.pure]
    rintro _ ⟨⟩ e he
    exact Pristine.transfer (hs.kept_behind (lt_size hn) _) element e (hs.roots he).1 (hnew elements rfl e he)

/-- What is below a new node is as new as the node. -/
theorem Pristine.below {p r : Position} {name name' : String} {σ' : Template} (h : t.Pristine σ id)
    (hp : t.placed p = some id) (hpart : τ.partAt p = some (σ, name)) (hr : t.placed (r ++ p) = some x)
    (hpart' : τ.partAt (r ++ p) = some (σ', name')) : t.Pristine σ' x := by
  induction r generalizing x σ' name' with
  | nil =>
    cases hp.symm.trans hr
    cases hpart.symm.trans hpart'
    exact h
  | cons i r ih =>
    obtain ⟨above, m, habove, hm, hi⟩ := placed_cons.mp hr
    obtain ⟨⟨σ₁, name₁⟩, hpart₁, hσ'⟩ := Option.bind_eq_some_iff.mp hpart'
    have hpristine := ih habove hpart₁
    cases σ₁ with
    | leaf h' kind => cases hσ'
    | composite h' fields =>
      obtain ⟨m', hm', -, hfields⟩ := hpristine
      cases hm.symm.trans hm'
      obtain ⟨field, hfield, heq⟩ := Option.map_eq_some_iff.mp hσ'
      cases heq
      exact hfields.getElem? hfield hi
    | repeated h' element rule =>
      obtain ⟨m', hm', -, hnone⟩ := hpristine
      cases hm.symm.trans hm'
      rw [hnone] at hi
      cases hi

-- ---------------------------------------------------------------------------
-- Faithful trees
-- ---------------------------------------------------------------------------

/-- The node has the cell that its part of the template has, and if it is a group that is ready, the count that
its rule asks for. -/
structure Suits (τ : Template) (t : Tree) (x : NodeId) (n : Node) : Prop where
  cell : ∀ {q σ name}, t.placed q = some x → τ.partAt q = some (σ, name) → n.Plain σ.header
  count : ∀ {c}, t.states x = some (.ready, c) → t.provisionalCount x = .ok c

/-- No group follows another one, and the nodes from some place on are as the template says. -/
structure Faithful (τ : Template) (b : Nat) (t : Tree) : Prop extends Free τ t where
  suits : ∀ {x n}, b ≤ x.index → t.node? x = some n → t.Suits τ x n

/-- There is nothing behind the last node. -/
theorem Free.faithful (h : t.Free τ) : t.Faithful τ t.nodes.size where
  toFree := h
  suits := fun hge hn => absurd (lt_size hn) (Nat.not_lt.mpr hge)

theorem Free.isBound (h : t.Free τ) (hn : t.node? id = some n) {g : Group} (hk : n.kind = .repeated g) :
    g.rule.isBound = false := by
  obtain ⟨p, hp⟩ := exists_position h.wellFormed hn
  obtain ⟨header, name, hpart⟩ := h.models.rule hp hn hk
  have hunbound := (h.unbound.partAt hpart).self
  cases hrule : g.rule with
  | fixed count => rfl
  | random min max => rfl
  | bound path fields min max =>
    rw [hrule] at hunbound
    exact hunbound.elim

/-- A group that is being initialized is left alone by what others do, because nobody tells it anything. -/
theorem Free.held (h : t.Free τ) (hn : t.node? id = some n) {g : Group} (hk : n.kind = .repeated g)
    (hphase : g.phase = .initializing) : t.Held id where
  wellFormed := h.wellFormed
  index := lt_size hn
  quiet := by
    intro phase c hstates
    rw [states_of_node? hn hk] at hstates
    cases hstates
    exact .inr hphase
  unheard := by
    rintro x ⟨m, g', hm, hk', hmem⟩
    rw [h.unwatched hm hk'] at hmem
    cases hmem

theorem Suits.step (h : t.Suits τ x n) (hwf : t.WellFormed) (hev : Evolves (fun _ => True) t t')
    (hn : t.node? x = some n) (hn' : t'.node? x = some n') (hcell : n'.cell = n.cell)
    (hready : ∀ {c}, t'.states x = some (.ready, c) → t.states x = some (.ready, c) ∨
      t'.provisionalCount x = .ok c) : t'.Suits τ x n' where
  cell := by
    intro q σ name hq hpart hcounter
    have hback := (hev.grows hwf).placed_back hwf (hev.wellFormed hwf) hn hq
    exact hcell.trans (h.cell hback hpart hcounter)
  count := by
    intro c hc
    rcases hready hc with hold | hcount
    · obtain ⟨m, g, hm, hk, -⟩ := states_eq_some.mp hold
      exact ((hev.grows hwf).provisionalCount hwf (hev.wellFormed hwf) hm hn' hk).trans (h.count hold)
    · exact hcount

namespace Faithful

variable {b : Nat} {g : Group}

theorem of_like (h : t.Faithful τ b) (hlike : t.Like t') : t'.Faithful τ b where
  toFree := h.toFree.step hlike.evolves (h.unwatched.of_sameKinds hlike.sameKinds)
  suits := by
    intro x n' hge hn'
    obtain ⟨n, hn, hbare⟩ := hlike.symm.node? hn'
    have hcell := Node.cell_of_bare hbare
    refine (h.suits hge hn).step h.wellFormed hlike.evolves hn hn' hcell.symm fun hc => .inl ?_
    rwa [← hlike.states]

/-- A group may become ready when it has the count that its rule asks for. -/
theorem setPhase (h : t.Faithful τ b) {phase : Phase} (hcount : phase = .ready → ∀ {n g},
    t.node? id = some n → n.kind = .repeated g → t.provisionalCount id = .ok n.children.length) :
    (t.modifyGroup id ({ · with phase })).Faithful τ b where
  toFree := by
    refine h.toFree.step (.of_modifyGroup fun _ => rfl) (h.unwatched.of_watches fun hw => ?_)
    exact (watches_setPhase phase).mp hw
  suits := by
    intro x n' hge hn'
    have hev : Evolves (fun _ => True) t (t.modifyGroup id ({ · with phase })) := .of_modifyGroup fun _ => rfl
    obtain ⟨n, hn, hcase⟩ := node?_modifyGroup hn'
    refine (h.suits hge hn).step h.wellFormed hev hn hn' (cell_modifyGroup hn hn') fun {c} hc => ?_
    by_cases hx : x = id
    · subst hx
      obtain ⟨m, g', hm, hk', hready, hlength⟩ := states_eq_some.mp hc
      cases hn'.symm.trans hm
      rcases hcase with ⟨hne, -⟩ | ⟨-, hch, hgroup⟩
      · exact absurd rfl hne
      · obtain ⟨g, hk, rfl⟩ := hgroup g' hk'
        refine .inr ?_
        rw [(hev.grows h.wellFormed).provisionalCount h.wellFormed (hev.wellFormed h.wellFormed) hn hn' hk,
          hcount hready hn hk, ← hch, hlength]
    · exact .inl ((states_setPhase_ne phase hx).symm.trans hc)

/-- A group may get new elements, if it is not ready yet or in front of the place. -/
theorem swapped (h : t.Faithful τ b) (hn : t.node? id = some n) (hk : n.kind = .repeated g)
    (hid : id.index < b ∨ g.phase ≠ .ready) {elements : List NodeId}
    (hswap : Swapped (fun _ => True) id g.element elements t t₁)
    (hnew : ∀ e ∈ elements, t₁.Pristine g.element e) : t₁.Faithful τ b where
  toFree := h.toFree.step (hswap.evolves hn hk rfl) (h.unwatched.of_watches hswap.watches_old)
  suits := by
    intro x n' hge hn'
    have hwf := h.wellFormed
    have hev := hswap.evolves (C := fun _ => True) hn hk rfl
    have hwf₁ := hev.wellFormed hwf
    obtain ⟨m, hm, hkind, hch⟩ := hswap.exchanged hn
    rcases Nat.lt_or_ge x.index t.nodes.size with hlt | hfresh
    case inl =>
      obtain ⟨hnot, l, hl, -, hcell, -⟩ := hswap.old hlt hn'
      refine (h.suits hge hl).step hwf hev hl hn' hcell.symm fun {c} hc => .inl ?_
      by_cases hx : x = id
      · subst hx
        rw [states_of_node? hm (hkind.trans hk)] at hc
        exact absurd (congrArg Prod.fst (Option.some_inj.mp hc)) (hid.resolve_left (Nat.not_lt.mpr hge))
      · rwa [← states_congr (hswap.kept hlt hx hnot)]
    case inr =>
      obtain ⟨p, hp⟩ := exists_position hwf hn
      have hp₁ := (hev.grows hwf).placed hwf hwf₁ hp (isLive_iff_node?.mpr ⟨m, hm⟩)
      obtain ⟨r, i, hr⟩ := hswap.placed_fresh hp₁ hfresh hn'
      constructor
      case cell =>
        intro q σ name hq hpart
        cases placed_inj hwf₁ hr hq
        obtain ⟨e, he⟩ := placed_suffix hr
        obtain ⟨above, l, habove, hl, hi⟩ := placed_cons.mp he
        cases hp₁.symm.trans habove
        cases hm.symm.trans hl
        rw [hch] at hi
        obtain ⟨header, own, hgroup⟩ := h.models.rule hp hn hk
        have helement : τ.partAt (i :: p) = some (g.element, s!"{own}[{i}]") := by
          rw [Template.partAt, hgroup]
          rfl
        have hpristine := (hnew e (List.mem_of_getElem? hi)).below he helement hr hpart
        obtain ⟨l', hl', hplain⟩ := hpristine.plain
        cases hn'.symm.trans hl'
        exact hplain
      case count =>
        intro c hc
        obtain ⟨l, g', hl, hlk, hready, -⟩ := states_eq_some.mp hc
        rcases hswap.group_cases hl hlk with ⟨hlt, -⟩ | ⟨-, huninit, -⟩
        · exact absurd hlt (Nat.not_lt.mpr hfresh)
        · rw [hready] at huninit
          cases huninit

end Faithful

-- ---------------------------------------------------------------------------
-- Operations
-- ---------------------------------------------------------------------------

section

variable {b : Nat}

/-- Whatever happens, the tree stays as its template says. -/
def Respects {α : Type} (τ : Template) (b : Nat) (act : TreeM α) : Prop :=
  Preserves (Upholds (Faithful τ b)) (Upholds (Faithful τ b)) act

theorem linkElements_faithful {init : NodeId → TreeM Unit} (h : t.Faithful τ b) :
    wp (linkElementsWith init id) (fun _ t' => t' = t) t :=
  (linkElements_unbound fun hn hk => h.isBound hn hk).mono fun _ _ h => h.1

/-- A group gets new elements as its template has them, and nobody has to be told. -/
theorem replaceElements_faithful {visit : NodeId → TreeM Unit} (hvisit : ∀ x, Respects τ b (visit x))
    (h : t.Faithful τ b) (hid : id.index < b ∨ ∀ c, t.states id ≠ some (.ready, c)) (count : Nat) :
    wp (replaceElementsWith visit id count) (fun _ t' => t'.Faithful τ b) t := by
  refine replaceElements_making (F := fun elements t₁ => ∀ n g, t.node? id = some n → n.kind = .repeated g →
    ∀ e ∈ elements, t₁.Pristine g.element e) h.wellFormed (fun _ _ => h) (fun _ _ _ => h) ?_ ?_
  · intro n g hn hk
    refine (swapElements_pristine id g.element n.children count t).mono ?_
    rintro r t₁ hnew elements hr n' g' hn' hk'
    cases hn.symm.trans hn'
    cases hk.symm.trans hk'
    exact hnew elements hr
  · intro n g elements t₁ hn hk _ _ hswap hnew
    have hphase : id.index < b ∨ g.phase ≠ .ready :=
      hid.imp_right fun hstates hready => hstates _ (hready ▸ states_of_node? hn hk)
    refine ⟨Faithful τ b, h.swapped hn hk hphase hswap (hnew n g hn hk), fun x s hs => ?_, fun s hs => ?_⟩
    · refine (hvisit x s).mono fun r s' h' => ?_
      cases r <;> exact h' hs
    · rw [h.unwatched hn hk]
      exact hs.of_like .of_invalidate

section

variable {run : Task → TreeM Unit} (hvisit : ∀ x, Respects τ b (run (.visit x)))
  (hconfined : ∀ t₁, t₁.Held id → ∀ x, Confines (· ≠ id) (fun _ => True) t₁ (run (.visit x)))
  (hevolves : ∀ x, Preserves (Evolves fun _ => True) (Evolves fun _ => True) (run (.visit x)))

include hvisit hconfined hevolves

/-- At the end of its initialization a group has the count that its rule asks for. -/
theorem initBody_faithful (h : t.Faithful τ b)
    (hphase : ∀ {n g}, t.node? id = some n → n.kind = .repeated g → g.phase = .initializing) :
    wp (initBody run id) (fun r t' => t'.Faithful τ b ∧ (r = .ok () → ∀ {n' g'}, t'.node? id = some n' →
      n'.kind = .repeated g' → t'.provisionalCount id = .ok n'.children.length)) t := by
  have hfail : ∀ {e : TreeError} {P : Prop}, (Except.error e : Except TreeError Unit) = .ok () → P :=
    fun h => absurd h error_ne_ok
  have hstates : ∀ c, t.states id ≠ some (.ready, c) := by
    intro c hc
    obtain ⟨n, g, hn, hk, hready, -⟩ := states_eq_some.mp hc
    cases hready.symm.trans (hphase hn hk)
  unfold initBody
  cases hg : t.group id with
  | error e =>
    unfold countByRuleWith
    rw [wp.bind, wp.look_error hg]
    exact ⟨h, hfail⟩
  | ok g =>
    obtain ⟨n, hn, hk⟩ := group_eq_ok.mp hg
    rw [wp.bind, wp_countByRule_unbound hn hk (h.isBound hn hk)]
    cases hcount : t.provisionalCount id with
    | error e => exact ⟨h, hfail⟩
    | ok count =>
      have hgrows := GroupLaws.replaceElementsWith
        (groupLaws_evolves .any).swaps hevolves id count t
      have hdone := replaceElements_held (h.held hn hk (hphase hn hk)) hn hk hconfined count
      dsimp only
      rw [wp.bind]
      refine (((replaceElements_faithful hvisit h (.inr hstates) count).and hdone).and hgrows).mono ?_
      rintro (e | _) t₁ ⟨⟨h₁, hdone⟩, hgrows⟩
      · exact ⟨h₁, hfail⟩
      · refine (linkElements_faithful h₁).mono ?_
        rintro r _ rfl
        refine ⟨h₁, fun _ {n₁ g₁} hn₁ _ => ?_⟩
        rw [(hgrows.rel.grows h.wellFormed).provisionalCount h.wellFormed h₁.wellFormed hn hn₁ hk, hcount,
          (hdone n₁ hn₁).1.length]

theorem initStep_faithful (h : t.Faithful τ b) : wp (initStep run id) (fun _ t' => t'.Faithful τ b) t := by
  refine wp_initStep (fun _ _ => h) fun n hn => ?_
  have h₁ : (t.modifyGroup id ({ · with phase := .initializing })).Faithful τ b := h.setPhase nofun
  have hphase : ∀ {n g}, (t.modifyGroup id ({ · with phase := .initializing })).node? id = some n →
      n.kind = .repeated g → g.phase = .initializing := by
    intro n₁ g₁ hn₁ hk₁
    rcases group_setPhase hn₁ hk₁ with ⟨hne, -⟩ | ⟨-, hphase, -⟩
    · exact absurd rfl hne
    · exact hphase
  refine (initBody_faithful hvisit hconfined hevolves h₁ hphase).mono ?_
  rintro r t₂ ⟨h₂, hcount⟩
  refine ⟨fun _ _ => h₂, fun n₂ hn₂ => h₂.setPhase fun hready => hcount ?_⟩
  cases r with
  | ok _ => rfl
  | error e => cases hready

end

/-- Visiting nodes and initializing groups leaves a tree as its template says. -/
theorem runTask_faithful (depth : Nat) :
    (∀ x, Respects τ b (runTask depth (.visit x))) ∧
      ∀ x, Respects τ b (runTask depth (.init x)) := by
  induction depth with
  | zero => exact ⟨fun _ => .throw, fun _ => .throw⟩
  | succ depth ih =>
    obtain ⟨hvisit, hinit⟩ := ih
    refine ⟨fun x => GroupLaws.visitStep (GroupLaws.touchWith hinit x) hvisit, fun x => ?_⟩
    refine Upholds.preserves fun t h => initStep_faithful hvisit (fun t₁ hheld => ?_) (fun y => ?_) h
    · exact (runTask_confined hheld.realm depth).1
    · exact (groupLaws_evolves .any).runTask depth (.visit y)

/-- A group in front of the place may be given another count. -/
theorem resize_faithful (hid : id.index < b) (count : Nat) :
    Respects τ b (resize id count) := by
  have hvisit : ∀ x, Respects τ b (perform (.visit x)) :=
    fun x => .bind .get fun _ => (runTask_faithful _).1 x
  have hinit : ∀ x, Respects τ b (init x) :=
    fun x => .bind .get fun _ => (runTask_faithful _).2 x
  refine .bind (GroupLaws.touchWith hinit id) fun _ => .bind ?_ fun _ => ?_
  · exact Upholds.preserves fun t h => replaceElements_faithful hvisit h (.inl hid) count
  · exact Upholds.preserves fun t h => (linkElements_faithful h).mono fun _ _ he => he ▸ h

end

end Tree

end FormatFuzz
