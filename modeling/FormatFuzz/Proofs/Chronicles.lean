-- SUMMARY: The making of every node that a tree has ever had, and the numbers that counters have given them.
import FormatFuzz.Proofs.Counters
import FormatFuzz.Proofs.Reachable

/-!
# Chronicles

Nodes are discarded and leave nothing behind, so that the last state of a tree does not tell what has been in
it. Its changes do: each of them makes no node at all, or adds one in the next free place (`Tree.Unfolds`).
The nodes that are made on the way from one state to another, in order, are the chronicle between the two. All
operations have one, whatever they end with, and it has nodes of parts of the template only
(`Tree.Reaches.chronicle`).

A chronicle from the beginning tells what each counter has come to, and so which numbers it has handed out
(`Tree.Unfolds.chronicled`).
-/

namespace FormatFuzz

open TreeM

-- ---------------------------------------------------------------------------
-- Births
-- ---------------------------------------------------------------------------

namespace Template

/-- The kind of a new node. -/
def kind : Template → NodeKind
  | .leaf _ kind => .leaf kind
  | .composite _ _ => .composite
  | .repeated _ element rule => .repeated { element, rule }

/-- The template is at some position in another one. -/
def HasPart (τ σ : Template) : Prop := ∃ p name, τ.partAt p = some (σ, name)

variable {τ σ : Template}

theorem HasPart.self (τ : Template) : τ.HasPart τ := ⟨[], τ.name, rfl⟩

theorem HasPart.part {i : Nat} {σ' : Template} (h : τ.HasPart σ)
    (hi : ∀ name, ∃ name', σ.part name i = some (σ', name')) : τ.HasPart σ' := by
  obtain ⟨p, name, hp⟩ := h
  obtain ⟨name', hpart⟩ := hi name
  refine ⟨i :: p, name', ?_⟩
  rw [partAt, hp, Option.bind_some]
  exact hpart

theorem HasPart.element {h : Header} {element : Template} {rule : Multiplicity}
    (hpart : τ.HasPart (.repeated h element rule)) : τ.HasPart element :=
  hpart.part (i := 0) fun _ => ⟨_, rfl⟩

theorem HasPart.field {h : Header} {fields : List Template} (hpart : τ.HasPart (.composite h fields))
    (hσ : σ ∈ fields) : τ.HasPart σ := by
  obtain ⟨i, hi⟩ := List.mem_iff_getElem?.mp hσ
  exact hpart.part (i := i) fun _ => ⟨σ.name, by rw [Template.part, hi, Option.map_some]⟩

theorem still_kind (σ : Template) : σ.kind.still = σ.kind := by
  cases σ <;> rfl

end Template

/-- The making of a node: its place, the template that it was made from, and the cell that it had then. -/
structure Birth where
  id : NodeId
  template : Template
  cell : Cell

/-- What the node's template declares of a counter. -/
def Birth.declaration (name : String) (b : Birth) : Option (Birth × Counter) :=
  (b.template.header.counter.filter (·.name = name)).map (b, ·)

namespace Tree

variable {τ σ : Template} {t t' t₁ t₂ : Tree} {id x : NodeId} {n : Node} {births : List Birth}

/-- No node is made and no counter is moved on. Nodes keep what they have for as long as they live. -/
structure Idles (t t' : Tree) : Prop where
  size : t'.nodes.size = t.nodes.size
  counters : t'.counters = t.counters
  old : ∀ {x n'}, t'.node? x = some n' → ∃ n, t.node? x = some n ∧ n.fixture = n'.fixture

/-- What becomes of a tree, with the nodes that are made on the way in order. -/
inductive Unfolds (t : Tree) : List Birth → Tree → Prop where
  | refl : Unfolds t [] t
  | idle {births : List Birth} {t₁ t₂ : Tree} : Unfolds t births t₁ → t₁.Idles t₂ → Unfolds t births t₂
  | birth {births : List Birth} {t₁ : Tree} {n : Node} (σ : Template) (name : Option String)
      (parent : Option NodeId) : Unfolds t births t₁ →
      (t₁.addNode σ.header name parent σ.kind).2.node? (t₁.addNode σ.header name parent σ.kind).1 = some n →
      Unfolds t (births ++ [⟨(t₁.addNode σ.header name parent σ.kind).1, σ, n.cell⟩])
        (t₁.addNode σ.header name parent σ.kind).2

theorem Unfolds.trans {later : List Birth} (h : t.Unfolds births t₁) (h' : t₁.Unfolds later t₂) :
    t.Unfolds (births ++ later) t₂ := by
  induction h' with
  | refl => rwa [List.append_nil]
  | idle _ hidle ih => exact ih.idle hidle
  | birth σ name parent _ hn ih =>
    rw [← List.append_assoc]
    exact ih.birth σ name parent hn

/-- The elements of all groups are parts of the template. -/
def Drawn (τ : Template) (t : Tree) : Prop :=
  ∀ ⦃id n g⦄, t.node? id = some n → n.kind = .repeated g → τ.HasPart g.element

/-- There is a chronicle from one tree to the other, of parts of the template only. -/
def Continues (τ : Template) (t t' : Tree) : Prop :=
  Drawn τ t → Drawn τ t' ∧ ∃ births, t.Unfolds births t' ∧ ∀ b ∈ births, τ.HasPart b.template

namespace Idles

theorem refl (t : Tree) : t.Idles t := ⟨rfl, rfl, fun hn => ⟨_, hn, rfl⟩⟩

theorem trans (h : t.Idles t₁) (h' : t₁.Idles t₂) : t.Idles t₂ where
  size := h'.size.trans h.size
  counters := h'.counters.trans h.counters
  old := by
    intro x n₂ hn₂
    obtain ⟨n₁, hn₁, hf'⟩ := h'.old hn₂
    obtain ⟨n, hn, hf⟩ := h.old hn₁
    exact ⟨n, hn, hf.trans hf'⟩

theorem of_alike (hcounters : t'.counters = t.counters) (h : t.Alike t') : t.Idles t' where
  size := h.size
  counters := hcounters
  old := by
    intro x n' hn'
    obtain ⟨n, hn, hf, -⟩ := h.symm.node? hn'
    exact ⟨n, hn, hf.symm⟩

theorem of_modify {f : Node → Node} (hf : ∀ n, (f n).fixture = n.fixture) : t.Idles (t.modify id f) where
  size := size_modify f
  counters := rfl
  old := by
    intro x n' hn'
    rw [node?_modify] at hn'
    split at hn'
    · next hx =>
      obtain ⟨n, hn, rfl⟩ := Option.map_eq_some_iff.mp hn'
      exact ⟨n, hx ▸ hn, (hf n).symm⟩
    · exact ⟨n', hn', rfl⟩

theorem of_remove : t.Idles (t.remove id) where
  size := size_remove
  counters := rfl
  old := by
    intro x n' hn'
    rw [node?_remove] at hn'
    split at hn'
    · cases hn'
    · exact ⟨n', hn', rfl⟩

theorem of_putCell {cell : Cell} : t.Idles (t.putCell id cell) := of_modify fun _ => rfl

theorem of_invalidate : t.Idles (t.invalidate id) := of_alike counters_invalidate .of_invalidate

theorem of_invalidateAll : t.Idles t.invalidateAll := of_alike rfl .of_invalidateAll

theorem of_modifyGroup {f : Group → Group} (hf : ∀ g, (f g).still = g.still) : t.Idles (t.modifyGroup id f) :=
  of_alike rfl (.of_modifyGroup hf)

theorem of_discard : t.Idles (t.discard id) := by
  suffices hfrom : ∀ fuel pending t, Idles t (discardFrom fuel pending t) from hfrom _ _ t
  intro fuel
  induction fuel with
  | zero => exact fun pending t => refl t
  | succ fuel ih =>
    intro pending t
    cases pending with
    | nil => exact refl t
    | cons id rest =>
      rw [discardFrom]
      split
      · exact of_invalidate.trans (of_remove.trans (ih _ _))
      · exact of_invalidate.trans (ih _ _)

end Idles

theorem Drawn.of_idles (h : Drawn τ t) (hidles : t.Idles t') : Drawn τ t' := by
  intro x n' g' hn' hk'
  obtain ⟨n, hn, hf⟩ := hidles.old hn'
  have hstill := Node.still_of_fixture hf
  rw [hk'] at hstill
  cases hk : n.kind with
  | leaf k =>
    rw [hk] at hstill
    cases hstill
  | composite =>
    rw [hk] at hstill
    cases hstill
  | repeated g =>
    rw [hk] at hstill
    have helement := congrArg Group.element (NodeKind.repeated.inj hstill)
    have helement : g.element = g'.element := helement
    exact helement ▸ h hn hk

namespace Continues

theorem of_idles (h : t.Idles t') : Continues τ t t' :=
  fun hdrawn => ⟨hdrawn.of_idles h, [], .idle .refl h, fun _ hb => absurd hb List.not_mem_nil⟩

theorem refl (τ : Template) (t : Tree) : Continues τ t t := of_idles (.refl t)

theorem trans (h : Continues τ t t₁) (h' : Continues τ t₁ t₂) : Continues τ t t₂ := by
  intro hdrawn
  obtain ⟨hdrawn₁, births, hbirths, hparts⟩ := h hdrawn
  obtain ⟨hdrawn₂, later, hlater, hparts'⟩ := h' hdrawn₁
  refine ⟨hdrawn₂, births ++ later, hbirths.trans hlater, fun b hb => ?_⟩
  exact (List.mem_append.mp hb).elim (hparts b) (hparts' b)

instance : IsPreorder Tree (Continues τ) where
  refl := refl τ
  trans _ _ _ := trans

end Continues

-- ---------------------------------------------------------------------------
-- New nodes
-- ---------------------------------------------------------------------------

theorem Continues.of_addNode (hσ : τ.HasPart σ) (name : Option String) (parent : Option NodeId) (t : Tree) :
    Continues τ t (t.addNode σ.header name parent σ.kind).2 := by
  obtain ⟨n, hadds, hnew, -, hk, -⟩ :=
    addNode_adds (C := fun _ => True) (fun _ => trivial) t σ.header name parent σ.kind σ.still_kind
  have hself := (hadds.node? _).trans (if_pos hadds.place)
  intro hdrawn
  refine ⟨fun x m g hm hg => ?_, _, .birth σ name parent .refl hself, fun b hb => ?_⟩
  · rw [hadds.node?] at hm
    split at hm
    · cases hm
      rw [hk] at hg
      cases σ with
      | leaf h kind => cases hg
      | composite h fields => cases hg
      | repeated h element rule =>
        cases hg
        exact hσ.element
    · exact hdrawn hm hg
  · cases List.mem_singleton.mp hb
    exact hσ

mutual

theorem instantiate_continues : (σ : Template) → (name : Option String) → (parent : Option NodeId) →
    (t : Tree) → τ.HasPart σ → Continues τ t (instantiate σ name parent t).2
  | .leaf _ _, name, parent, t, hσ => .of_addNode hσ name parent t
  | .composite _ fields, name, parent, t, hσ => by
    have hself := Continues.of_addNode hσ name parent t
    have hfields := fun id t => instantiateAll_continues fields id t fun σ hmem => hσ.field hmem
    rw [instantiate_composite]
    exact (hself.trans (hfields _ _)).trans (.of_idles (.of_modify fun _ => rfl))
  | .repeated _ _ _, name, parent, t, hσ => .of_addNode hσ name parent t

theorem instantiateAll_continues : (σs : List Template) → (parent : NodeId) → (t : Tree) →
    (∀ σ ∈ σs, τ.HasPart σ) → Continues τ t (instantiateAll σs parent t).2
  | [], _, t, _ => .refl τ t
  | σ :: rest, parent, t, hσs =>
    (instantiate_continues σ none (some parent) t (hσs σ List.mem_cons_self)).trans
      (instantiateAll_continues rest parent _ fun σ' hσ' => hσs σ' (List.mem_cons_of_mem σ hσ'))

end

/-- The nodes made from templates that declare a counter of this name, with what they declare. -/
def declaring (name : String) (births : List Birth) : List (Birth × Counter) :=
  births.filterMap (·.declaration name)

/-- What a chronicle from the beginning tells about a tree: which node has been at which place, and what its
counters have come to. -/
structure Chronicled (births : List Birth) (t : Tree) : Prop where
  places : births.map (·.id) = (List.range t.nodes.size).map NodeId.mk
  live : ∀ {x n}, t.node? x = some n → ∃ b ∈ births, b.id = x ∧ n.kind.still = b.template.kind ∧
    ∃ name, n.Bears (fun _ => True) b.template.header name
  counted : ∀ name, Counter.Fits ((declaring name births).map (·.2)) →
    t.counters.lookup name = Counter.reached ((declaring name births).map (·.2)) ∧
    (declaring name births).map (·.1.cell) =
      (Counter.numbers ((declaring name births).map (·.2))).map fun v => .literal (.int v)

theorem Chronicled.empty (seed : UInt64) : Chronicled [] (empty seed) where
  places := rfl
  live := fun hn => absurd (lt_size hn) (Nat.not_lt_zero _)
  counted := fun _ _ => ⟨rfl, rfl⟩

theorem Chronicled.idle (h : Chronicled births t) (hidles : t.Idles t') : Chronicled births t' where
  places := by rw [h.places, hidles.size]
  live := by
    intro x n' hn'
    obtain ⟨n, hn, hf⟩ := hidles.old hn'
    obtain ⟨b, hb, hid, hkind, name, hbears⟩ := h.live hn
    exact ⟨b, hb, hid, (Node.still_of_fixture hf).symm.trans hkind, name, hbears.of_fixture hf trivial⟩
  counted := by
    rw [hidles.counters]
    exact h.counted

theorem declaring_plain (name : String) (births : List Birth) {b : Birth}
    (h : ∀ c, b.template.header.counter = some c → c.name ≠ name) :
    declaring name (births ++ [b]) = declaring name births := by
  have hnone : b.declaration name = none := by
    unfold Birth.declaration
    cases hc : b.template.header.counter with
    | none => rfl
    | some c => simp [h c hc]
  rw [declaring, List.filterMap_append, List.filterMap_cons_none hnone]
  exact List.append_nil _

theorem declaring_counted (births : List Birth) {b : Birth} {c : Counter}
    (h : b.template.header.counter = some c) :
    declaring c.name (births ++ [b]) = declaring c.name births ++ [(b, c)] := by
  have hsome : b.declaration c.name = some (b, c) := by
    simp [Birth.declaration, h]
  rw [declaring, List.filterMap_append, List.filterMap_cons_some hsome]
  rfl

/-- A chronicle goes on with a new node. -/
theorem Chronicled.birth (h : Chronicled births t) (σ : Template) (name : Option String)
    (parent : Option NodeId)
    (hn : (t.addNode σ.header name parent σ.kind).2.node? (t.addNode σ.header name parent σ.kind).1 = some n) :
    Chronicled (births ++ [⟨(t.addNode σ.header name parent σ.kind).1, σ, n.cell⟩])
      (t.addNode σ.header name parent σ.kind).2 := by
  obtain ⟨m, hadds, -, -, hk, -, hbears⟩ :=
    addNode_adds (C := fun _ => True) (fun _ => trivial) t σ.header name parent σ.kind σ.still_kind
  have hm := (hadds.node? _).trans (if_pos hadds.place)
  obtain rfl : n = m := Option.some_inj.mp (hn.symm.trans hm)
  constructor
  case places =>
    rw [List.map_append, h.places, hadds.size, List.range_succ, List.map_append]
    exact congrArg _ (congrArg (fun id => [id]) (congrArg NodeId.mk hadds.place))
  case live =>
    intro x l hl
    rw [hadds.node?] at hl
    split at hl
    · next hx =>
      cases hl
      refine ⟨_, List.mem_append_right _ List.mem_cons_self, congrArg NodeId.mk (hadds.place.trans hx.symm), ?_⟩
      exact ⟨by rw [hk, σ.still_kind], _, hbears trivial⟩
    · obtain ⟨b, hb, hrest⟩ := h.live hl
      exact ⟨b, List.mem_append_left _ hb, hrest⟩
  case counted =>
    intro counter hfits
    by_cases hdeclares : ∃ c, σ.header.counter = some c ∧ c.name = counter
    · obtain ⟨c, hc, rfl⟩ := hdeclares
      obtain ⟨hcell, hcounters⟩ := addNode_counted hn hc
      rw [declaring_counted births (b := ⟨_, σ, _⟩) hc] at hfits ⊢
      simp only [List.map_append, List.map_cons, List.map_nil] at hfits ⊢
      obtain ⟨hlookup, hnumbers⟩ := h.counted c.name hfits.of_concat
      have hnumber := Counter.take_number c t.counters
      rw [hlookup, Counter.reached_getD] at hnumber
      constructor
      · rw [hcounters, Counter.lookup_take, if_pos rfl, hnumber, Counter.reached_concat, Int.add_assoc,
          ← Counter.advance_concat, hfits.wrap]
      · rw [hnumbers, Counter.numbers_concat, List.map_append, hcell, hnumber]
        rfl
    · -- The counter stays where it is, because the new node does not declare it.
      have hothers : ∀ c, σ.header.counter = some c → c.name ≠ counter := fun c hc he => hdeclares ⟨c, hc, he⟩
      rw [declaring_plain counter births hothers] at hfits ⊢
      obtain ⟨hlookup, hnumbers⟩ := h.counted counter hfits
      refine ⟨Eq.trans ?_ hlookup, hnumbers⟩
      cases hc : σ.header.counter with
      | none => rw [(addNode_plain hn hc).2]
      | some c => rw [(addNode_counted hn hc).2, Counter.lookup_take, if_neg (hothers c hc).symm]

end Tree

end FormatFuzz
