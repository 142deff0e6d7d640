-- SUMMARY: What the nodes of a tree stand for, and which nodes that depends on.
import Mathlib
import FormatFuzz.Proofs.Paths
import FormatFuzz.Proofs.Strictness
import FormatFuzz.Tree.Resolve

/-!
# Meaning

`Tree.Denotes` tells the answers that requests have when no cache is asked and no group is touched:
the least meaning that is closed under the rules by which values, bytes and lengths are worked out.
Its argument `F` is a footprint. All nodes that are looked into have to be in it, so that the
answers are the same in a tree that differs elsewhere only (`Tree.Denotes.same`).
-/

namespace FormatFuzz

/-- Which requests have which answers. -/
abbrev Meaning := (r : Request) → r.Answer → Prop

-- ---------------------------------------------------------------------------
-- Scripts
-- ---------------------------------------------------------------------------

namespace Script

variable {α : Type} {A B : (q : Query) → q.Answer → Prop} {s : Script α} {v w : α}

/-- The result of a script whose questions all have an answer. -/
inductive Yields (A : (q : Query) → q.Answer → Prop) {α : Type} : Script α → α → Prop where
  | done (v : α) : Yields A (.done (.ok v)) v
  | ask {q : Query} {next : Except TreeError q.Answer → Script α} {a : q.Answer} {v : α} :
    A q a → Yields A (next (.ok a)) v → Yields A (.ask q next) v

theorem Yields.mono (h : s.Yields A v) (hAB : ∀ q a, A q a → B q a) : s.Yields B v := by
  induction h with
  | done v => exact .done v
  | ask ha _ ih => exact .ask (hAB _ _ ha) ih

theorem Yields.unique (h : s.Yields A v) (h' : s.Yields B w)
    (hAB : ∀ q a b, A q a → B q b → a = b) : v = w := by
  induction h with
  | done v =>
    cases h'
    rfl
  | ask ha _ ih =>
    cases h' with
    | ask hb h' => exact ih (hAB _ _ _ ha hb ▸ h')

end Script

-- ---------------------------------------------------------------------------
-- Rules
-- ---------------------------------------------------------------------------

namespace NodeKind

def leaf? : NodeKind → Option LeafKind
  | .leaf kind => some kind
  | _ => none

theorem leaf?_still (kind : NodeKind) : kind.still.leaf? = kind.leaf? := by
  cases kind <;> rfl

/-- The bytes of what an output transform results in. -/
def present (kind : NodeKind) (v : Value) : Except TreeError Bytes :=
  match v, kind.leaf? with
  | .bytes b, _ => .ok b
  | v, some kind => kind.encode "" v
  | v, none => .ok v.text

end NodeKind

theorem Node.leaf?_of_fixture {n m : Node} (h : n.fixture = m.fixture) :
    n.kind.leaf? = m.kind.leaf? := by
  rw [← NodeKind.leaf?_still, still_of_fixture h, NodeKind.leaf?_still]

theorem Resolver.lengthRule_of_fixture {n m : Node} (h : n.fixture = m.fixture)
    (hcell : m.cell = n.cell) : lengthRule m = lengthRule n := by
  have hleaf := Node.leaf?_of_fixture h
  unfold lengthRule
  rw [Node.action_of_fixture h, hcell]
  cases hn : n.kind <;> cases hm : m.kind <;> simp_all [NodeKind.leaf?]

namespace Tree

section

variable (τ : Template) (measured : Prop) (t : Tree) (F : NodeId → Prop) (D : Meaning)

/-- A path from around the node `reader` leads to a node of the footprint. -/
def Sees (reader : NodeId) (path : String) (x : NodeId) : Prop :=
  F x ∧ ∃ p, t.placed p = some reader ∧ Leads τ t (τ.base p) path x

/-- The answers to the reads of a closure of the node `reader`. -/
def Answers (reader : NodeId) : (q : Query) → q.Answer → Prop
  | .bytes path, b => ∃ x, Sees τ t F reader path x ∧ D (.bytes x) b
  | .value path, v => ∃ x, Sees τ t F reader path x ∧ D (.value x) v
  | .count path, k =>
    ∃ x n, Sees τ t F reader path x ∧ t.node? x = some n ∧ n.children.length = k
  | .length path, k => measured ∧ ∃ x, Sees τ t F reader path x ∧ D (.length x) k
  | .offset path, k =>
    measured ∧ ∃ x, F t.root ∧ Sees τ t F reader path x ∧ D (.lengthUpTo t.root x) k
  | .generator, g => t.generator reader .closures = .ok g
  | .field _, _ | .fullName _, _ | .base, _ | .reader, _ => False

/-- A binding of the node `id` leads to the node `x`. -/
def Points (id : NodeId) : Binding → NodeId → Prop
  | .path path, x => ∃ p, t.placed p = some id ∧ Leads τ t (τ.base p) path x
  | .element group index field, x =>
    F group ∧ ∃ n e, t.node? group = some n ∧ n.children[index]? = some e ∧
      (field.isEmpty = true ∧ x = e ∨
        field.isEmpty = false ∧ ∃ p, t.placed p = some e ∧ Leads τ t p field x)

/-- What a cell of the node `id` reduces to. -/
def Reduces (id : NodeId) : Cell → Option Value → Prop
  | .unset, v => v = none
  | .literal w, v => v = some w
  | .deferred s, v => ∃ w, v = some w ∧ s.Yields (Answers τ measured t F D id) w
  | .computed f sources, v =>
    ∃ w, v = some w ∧ (Cell.compute f sources).Yields (Answers τ measured t F D id) w
  | .bound b, v => ∃ w x, v = some w ∧ F x ∧ Points τ t F id b x ∧ D (.value x) w

/-- The value of a leaf. -/
def Content (id : NodeId) (cell : Cell) (kind : LeafKind) (v : Value) : Prop :=
  Reduces τ measured t F D id cell (some v) ∨ Reduces τ measured t F D id cell none ∧
    ∃ g, t.generator id .defaults = .ok g ∧ kind.draw g = .ok v

/-- The bytes of a node before its output transform. -/
def Raw (id : NodeId) (n : Node) (raw : Bytes) : Prop :=
  match n.kind.leaf? with
  | some kind => ∃ v, Content τ measured t F D id n.cell kind v ∧ kind.encode "" v = .ok raw
  | none =>
    (∃ v, Reduces τ measured t F D id n.cell (some v) ∧ raw = v.text) ∨
      Reduces τ measured t F D id n.cell none ∧ ∃ shown parts, t.shownChildren id = .ok shown ∧
        List.Forall₂ (fun c b => D (.bytes c) b) shown parts ∧ raw = parts.flatten

/-- The bytes of a node after it. -/
def Fresh (id : NodeId) (n : Node) (b : Bytes) : Prop :=
  ∃ raw, Raw τ measured t F D id n raw ∧
    match n.action with
    | none => b = raw
    | some f =>
      ∃ v, (f.run [raw]).Yields (Answers τ measured t F D id) v ∧ n.kind.present v = .ok b

/-- The value of a node, which for other nodes than leaves is their bytes. -/
def Worth (id : NodeId) (n : Node) (v : Value) : Prop :=
  match n.kind.leaf? with
  | some kind => Content τ measured t F D id n.cell kind v
  | none => ∃ b, D (.bytes id) b ∧ v = .bytes b

/-- The length of a node: that of its bytes, or what is known of it without them. -/
def Extent (id : NodeId) (n : Node) (k : Nat) : Prop :=
  match Resolver.lengthRule n with
  | .codec codec => codec.fixedLength = .ok k
  | .fixed m => k = m ∨ ∃ b, D (.bytes id) b ∧ k = b.length
  | .encode => ∃ b, D (.bytes id) b ∧ k = b.length
  | .children =>
    (∃ b, D (.bytes id) b ∧ k = b.length) ∨ ∃ shown parts, t.shownChildren id = .ok shown ∧
      List.Forall₂ (fun c m => D (.length c) m) shown parts ∧ k = parts.sum

/-- The bytes that some children contribute in front of the node `x`. -/
def Before (x : NodeId) : List NodeId → Nat → Prop
  | [], k => k = 0
  | c :: rest, k =>
    if c = x then k = 0
    else if t.contains c x = true then D (.lengthUpTo c x) k
    else ∃ a b : Nat, (t.isHidden c = .ok true ∧ a = 0 ∨ t.isHidden c = .ok false ∧ D (.length c) a) ∧
      Before x rest b ∧ k = a + b

/-- One round of the rules. -/
def Means : Meaning
  | .bytes id, b => F id ∧ ∃ n, t.node? id = some n ∧ Fresh τ measured t F D id n b
  | .value id, v => F id ∧ ∃ n, t.node? id = some n ∧ Worth τ measured t F D id n v
  | .length id, k => measured ∧ F id ∧ ∃ n, t.node? id = some n ∧ Extent t D id n k
  | .lengthUpTo within x, k => measured ∧ F within ∧ F x ∧ (within = x ∧ k = (0 : Nat) ∨
      within ≠ x ∧ ∃ n, t.node? within = some n ∧ Before t D x n.children k)

end

-- ---------------------------------------------------------------------------
-- Trees that look the same
-- ---------------------------------------------------------------------------

variable {τ : Template} {measured : Prop} {t t' : Tree} {F F' : NodeId → Prop} {D D' : Meaning}
  {id x : NodeId}

/-- The trees look the same from the nodes in `F`. -/
structure Same (F : NodeId → Prop) (t t' : Tree) : Prop where
  root : t'.root = t.root
  node : ∀ {x n}, F x → t.node? x = some n →
    ∃ n', t'.node? x = some n' ∧ n.fixture = n'.fixture ∧ n'.cell = n.cell ∧
      n'.children = n.children
  placed : ∀ {p x}, F x → t.placed p = some x → t'.placed p = some x
  child : ∀ {p x n c}, F x → t.node? x = some n → c ∈ n.children →
    t'.isHidden c = t.isHidden c ∧ (t.placed p = some c → t'.placed p = some c)
  generator : ∀ {x} purpose, F x → t'.generator x purpose = t.generator x purpose
  shown : ∀ {x}, F x → t'.shownChildren x = t.shownChildren x
  contains : ∀ {a x}, F x → t'.contains a x = t.contains a x

namespace Same

section

variable (h : Same F t t') (hF : ∀ x, F x → F' x) (hD : ∀ r v, D r v → D' r v)

include h hF

theorem sees {path : String} (hid : F id) (hx : Sees τ t F id path x) : Sees τ t' F' id path x := by
  obtain ⟨hFx, p, hp, q, hq, hqx⟩ := hx
  exact ⟨hF x hFx, p, h.placed hid hp, q, hq, h.placed hFx hqx⟩

theorem points {b : Binding} (hid : F id) (hFx : F x) (hx : Points τ t F id b x) :
    Points τ t' F' id b x := by
  cases b with
  | path path =>
    obtain ⟨p, hp, q, hq, hqx⟩ := hx
    exact ⟨p, h.placed hid hp, q, hq, h.placed hFx hqx⟩
  | element group index field =>
    obtain ⟨hg, n, e, hn, he, hcase⟩ := hx
    obtain ⟨n', hn', -, -, hch⟩ := h.node hg hn
    refine ⟨hF group hg, n', e, hn', hch ▸ he, hcase.imp_right ?_⟩
    rintro ⟨hfield, p, hp, q, hq, hqx⟩
    exact ⟨hfield, p, (h.child hg hn (List.mem_of_getElem? he)).2 hp, q, hq, h.placed hFx hqx⟩

include hD

theorem answers {q : Query} {a : q.Answer} (hid : F id) (ha : Answers τ measured t F D id q a) :
    Answers τ measured t' F' D' id q a := by
  cases q with
  | bytes path =>
    obtain ⟨x, hx, hb⟩ := ha
    exact ⟨x, h.sees hF hid hx, hD _ _ hb⟩
  | value path =>
    obtain ⟨x, hx, hv⟩ := ha
    exact ⟨x, h.sees hF hid hx, hD _ _ hv⟩
  | count path =>
    obtain ⟨x, n, hx, hn, hlength⟩ := ha
    obtain ⟨n', hn', -, -, hch⟩ := h.node hx.1 hn
    exact ⟨x, n', h.sees hF hid hx, hn', hch ▸ hlength⟩
  | length path =>
    obtain ⟨hmeasured, x, hx, hk⟩ := ha
    exact ⟨hmeasured, x, h.sees hF hid hx, hD _ _ hk⟩
  | offset path =>
    obtain ⟨hmeasured, x, hroot, hx, hk⟩ := ha
    refine ⟨hmeasured, x, ?_, h.sees hF hid hx, ?_⟩
    · rw [h.root]
      exact hF _ hroot
    · rw [h.root]
      exact hD _ _ hk
  | generator => exact (h.generator .closures hid).trans ha
  | field path => exact ha
  | fullName y => exact ha
  | base => exact ha
  | reader => exact ha

theorem yields {α : Type} {s : Script α} {v : α} (hid : F id)
    (hs : s.Yields (Answers τ measured t F D id) v) :
    s.Yields (Answers τ measured t' F' D' id) v :=
  hs.mono fun _ _ => h.answers hF hD hid

theorem reduces {cell : Cell} {v : Option Value} (hid : F id)
    (hv : Reduces τ measured t F D id cell v) : Reduces τ measured t' F' D' id cell v := by
  cases cell with
  | unset => exact hv
  | literal w => exact hv
  | deferred s =>
    obtain ⟨w, rfl, hs⟩ := hv
    exact ⟨w, rfl, h.yields hF hD hid hs⟩
  | computed f sources =>
    obtain ⟨w, rfl, hs⟩ := hv
    exact ⟨w, rfl, h.yields hF hD hid hs⟩
  | bound b =>
    obtain ⟨w, x, rfl, hx, hb, hw⟩ := hv
    exact ⟨w, x, rfl, hF x hx, h.points hF hid hx hb, hD _ _ hw⟩

theorem content {cell : Cell} {kind : LeafKind} {v : Value} (hid : F id)
    (hv : Content τ measured t F D id cell kind v) : Content τ measured t' F' D' id cell kind v := by
  rcases hv with hv | ⟨hnone, g, hg, hv⟩
  · exact .inl (h.reduces hF hD hid hv)
  · exact .inr ⟨h.reduces hF hD hid hnone, g, (h.generator .defaults hid).trans hg, hv⟩

theorem raw {n n' : Node} {b : Bytes} (hid : F id) (hf : n.fixture = n'.fixture)
    (hcell : n'.cell = n.cell) (hb : Raw τ measured t F D id n b) :
    Raw τ measured t' F' D' id n' b := by
  unfold Raw at hb ⊢
  rw [← Node.leaf?_of_fixture hf, hcell]
  cases hk : n.kind.leaf? with
  | some kind =>
    rw [hk] at hb
    obtain ⟨v, hv, henc⟩ := hb
    exact ⟨v, h.content hF hD hid hv, henc⟩
  | none =>
    rw [hk] at hb
    rcases hb with ⟨v, hv, htext⟩ | ⟨hnone, shown, parts, hshown, hparts, hflat⟩
    · exact .inl ⟨v, h.reduces hF hD hid hv, htext⟩
    · exact .inr ⟨h.reduces hF hD hid hnone, shown, parts, (h.shown hid).trans hshown,
        hparts.imp fun _ _ => hD _ _, hflat⟩

theorem fresh {n n' : Node} {b : Bytes} (hid : F id) (hf : n.fixture = n'.fixture)
    (hcell : n'.cell = n.cell) (hb : Fresh τ measured t F D id n b) :
    Fresh τ measured t' F' D' id n' b := by
  obtain ⟨raw, hraw, hb⟩ := hb
  refine ⟨raw, h.raw hF hD hid hf hcell hraw, ?_⟩
  rw [← Node.action_of_fixture hf]
  cases ha : n.action with
  | none =>
    rw [ha] at hb
    exact hb
  | some f =>
    rw [ha] at hb
    obtain ⟨v, hv, hpresent⟩ := hb
    refine ⟨v, h.yields hF hD hid hv, ?_⟩
    unfold NodeKind.present at hpresent ⊢
    rw [← Node.leaf?_of_fixture hf, hpresent]

theorem worth {n n' : Node} {v : Value} (hid : F id) (hf : n.fixture = n'.fixture)
    (hcell : n'.cell = n.cell) (hv : Worth τ measured t F D id n v) :
    Worth τ measured t' F' D' id n' v := by
  unfold Worth at hv ⊢
  rw [← Node.leaf?_of_fixture hf, hcell]
  cases hk : n.kind.leaf? with
  | some kind =>
    rw [hk] at hv
    exact h.content hF hD hid hv
  | none =>
    rw [hk] at hv
    obtain ⟨b, hb, hv⟩ := hv
    exact ⟨b, hD _ _ hb, hv⟩

omit hF in
theorem extent {n n' : Node} {k : Nat} (hid : F id) (hf : n.fixture = n'.fixture)
    (hcell : n'.cell = n.cell) (hk : Extent t D id n k) : Extent t' D' id n' k := by
  have hbytes : (∃ b, D (.bytes id) b ∧ k = b.length) → ∃ b, D' (.bytes id) b ∧ k = b.length :=
    fun ⟨b, hb, hk⟩ => ⟨b, hD _ _ hb, hk⟩
  unfold Extent at hk ⊢
  rw [Resolver.lengthRule_of_fixture hf hcell]
  cases hrule : Resolver.lengthRule n with
  | codec codec =>
    rw [hrule] at hk
    exact hk
  | fixed m =>
    rw [hrule] at hk
    exact hk.imp_right hbytes
  | encode =>
    rw [hrule] at hk
    exact hbytes hk
  | children =>
    rw [hrule] at hk
    refine hk.imp hbytes ?_
    rintro ⟨shown, parts, hshown, hparts, hsum⟩
    exact ⟨shown, parts, (h.shown hid).trans hshown, hparts.imp fun _ _ => hD _ _, hsum⟩

omit hF in
theorem before {n : Node} {k : Nat} {children : List NodeId} (hid : F id)
    (hx : ∀ c, t'.contains c x = t.contains c x) (hn : t.node? id = some n) (hsub : ∀ c ∈ children, c ∈ n.children)
    (hk : Before t D x children k) : Before t' D' x children k := by
  induction children generalizing k with
  | nil => exact hk
  | cons c rest ih =>
    unfold Before at hk ⊢
    rw [hx, (h.child (p := []) hid hn (hsub c List.mem_cons_self)).1]
    split
    · rename_i hc
      rwa [if_pos hc] at hk
    · rename_i hc
      rw [if_neg hc] at hk
      split
      · rename_i hcontains
        rw [if_pos hcontains] at hk
        exact hD _ _ hk
      · rename_i hcontains
        rw [if_neg hcontains] at hk
        obtain ⟨a, b, ha, hb, hk⟩ := hk
        refine ⟨a, b, ha.imp_right fun ⟨hshown, hlength⟩ => ⟨hshown, hD _ _ hlength⟩, ?_, hk⟩
        exact ih (fun c hc => hsub c (List.mem_cons_of_mem _ hc)) hb

/-- A round of the rules sees nothing but the footprint. -/
theorem means {r : Request} {v : r.Answer} (hv : Means τ measured t F D r v) :
    Means τ measured t' F' D' r v := by
  cases r with
  | bytes id =>
    obtain ⟨hid, n, hn, hb⟩ := hv
    obtain ⟨n', hn', hf, hcell, -⟩ := h.node hid hn
    exact ⟨hF id hid, n', hn', h.fresh hF hD hid hf hcell hb⟩
  | value id =>
    obtain ⟨hid, n, hn, hw⟩ := hv
    obtain ⟨n', hn', hf, hcell, -⟩ := h.node hid hn
    exact ⟨hF id hid, n', hn', h.worth hF hD hid hf hcell hw⟩
  | length id =>
    obtain ⟨hmeasured, hid, n, hn, hk⟩ := hv
    obtain ⟨n', hn', hf, hcell, -⟩ := h.node hid hn
    exact ⟨hmeasured, hF id hid, n', hn', h.extent hD hid hf hcell hk⟩
  | lengthUpTo within x =>
    obtain ⟨hmeasured, hw, hx, hcase⟩ := hv
    refine ⟨hmeasured, hF within hw, hF x hx, hcase.imp_right ?_⟩
    rintro ⟨hne, n, hn, hk⟩
    obtain ⟨n', hn', -, -, hch⟩ := h.node hw hn
    refine ⟨hne, n', hn', ?_⟩
    rw [hch]
    exact h.before hD hw (fun _ => h.contains hx) hn (fun _ hc => hc) hk

end

theorem refl (F : NodeId → Prop) (t : Tree) : Same F t t where
  root := rfl
  node := fun _ hn => ⟨_, hn, rfl, rfl, rfl⟩
  placed := fun _ hp => hp
  child := fun _ _ _ => ⟨rfl, fun hp => hp⟩
  generator := fun _ _ => rfl
  shown := fun _ => rfl
  contains := fun _ => rfl

end Same

-- ---------------------------------------------------------------------------
-- Denotation
-- ---------------------------------------------------------------------------

/-- The rules as a monotone map. -/
def rules (τ : Template) (measured : Prop) (t : Tree) (F : NodeId → Prop) : Meaning →o Meaning where
  toFun := Means τ measured t F
  monotone' _ _ hle _ _ := (Same.refl F t).means (fun _ hx => hx) hle

/-- The answers that follow from the rules. -/
def Denotes (τ : Template) (measured : Prop) (t : Tree) (F : NodeId → Prop) : Meaning :=
  (rules τ measured t F).lfp

theorem denotes_iff {r : Request} {v : r.Answer} :
    Denotes τ measured t F r v ↔ Means τ measured t F (Denotes τ measured t F) r v :=
  iff_of_eq (congrFun (congrFun (rules τ measured t F).map_lfp r) v).symm

/-- Whatever is closed under the rules holds of all answers. -/
theorem Denotes.induct {r : Request} {v : r.Answer} (h : Denotes τ measured t F r v)
    (hclosed : ∀ r v, Means τ measured t F D r v → D r v) : D r v :=
  (rules τ measured t F).lfp_le hclosed r v h

/-- Answers are the same in a tree that looks the same from all nodes that they depend on. -/
theorem Denotes.same {r : Request} {v : r.Answer} (h : Denotes τ measured t F r v)
    (hsame : Same F t t') (hF : ∀ x, F x → F' x) : Denotes τ measured t' F' r v :=
  h.induct fun _ _ hv => denotes_iff.mpr (hsame.means hF (fun _ _ hv => hv) hv)

theorem Denotes.mono {r : Request} {v : r.Answer} (h : Denotes τ measured t F r v)
    (hF : ∀ x, F x → F' x) : Denotes τ measured t F' r v :=
  h.same (.refl F t) hF

end Tree

end FormatFuzz
