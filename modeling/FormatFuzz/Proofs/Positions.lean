-- SUMMARY: Positions in a template, the nodes at them, and where paths lead.
import FormatFuzz.Proofs.Preorder

/-!
# Positions

A position is the way down to a part of a template, as indices into fields and elements. In a tree
that follows the template there is one node at most at a position, and a node stays where it is as
long as it lives. Where a path leads hangs on the template alone, whatever the counts of the groups
on the way: a tree has a node there or it has none.
-/

namespace FormatFuzz

/-- Indices into fields or elements, the innermost first. -/
abbrev Position := List Nat

-- ---------------------------------------------------------------------------
-- Templates
-- ---------------------------------------------------------------------------

namespace Template

/-- The part at an index of a template whose nodes have the given name, and the name that the
nodes of that part have. -/
def part (σ : Template) (name : String) (i : Nat) : Option (Template × String) :=
  match σ with
  | .leaf .. => none
  | .composite _ fields => fields[i]?.map fun field => (field, field.name)
  | .repeated _ element _ => some (element, s!"{name}[{i}]")

/-- The part at a position, and the name that its nodes have. -/
def partAt (τ : Template) : Position → Option (Template × String)
  | [] => some (τ, τ.name)
  | i :: p => (τ.partAt p).bind fun (σ, name) => σ.part name i

def isComposite : Template → Bool
  | .composite .. => true
  | _ => false

def isRepeated : Template → Bool
  | .repeated .. => true
  | _ => false

/-- The nearest composite above a position. -/
def above (τ : Template) : Position → Option Position
  | [] => none
  | _ :: p => if (τ.partAt p).any (·.1.isComposite) then some p else τ.above p

/-- Where the paths of a node at a position start from. -/
def base (τ : Template) (p : Position) : Position := (τ.above p).getD p

/-- The field of a composite by its name. -/
def descend (τ : Template) (name : String) (p : Position) : Option Position :=
  match τ.partAt p with
  | some (.composite _ fields, _) => (fields.findIdx? (·.name = name)).map (· :: p)
  | _ => none

/-- The element of a group, whether the group has as many or not. -/
def pick (τ : Template) (p : Position) (i : Nat) : Option Position :=
  if (τ.partAt p).any (·.1.isRepeated) then some (i :: p) else none

def followStep (τ : Template) (p : Position) : Step → Option Position
  | .malformed => none
  | .climb => τ.above p
  | .descend name indices => do
    indices.foldlM τ.pick (← if name.isEmpty then some p else τ.descend name p)

/-- Where a path leads from a position. -/
def follow (τ : Template) (p : Position) (path : String) : Option Position :=
  let parsed := Path.parse path
  parsed.steps.foldlM τ.followStep (if parsed.fromRoot then [] else p)

/-- The groups that elements are picked from, one inside the other. -/
def picked (p : Position) : List Nat → List Position
  | [] => []
  | i :: rest => p :: picked (i :: p) rest

def touchedAt (τ : Template) (p : Position) : Step → List Position
  | .descend name indices =>
    match if name.isEmpty then some p else τ.descend name p with
    | some q => picked q indices
    | none => []
  | _ => []

def touchedAlong (τ : Template) : Position → List Step → List Position
  | _, [] => []
  | p, step :: rest =>
    τ.touchedAt p step ++
      match τ.followStep p step with
      | some q => τ.touchedAlong q rest
      | none => []

/-- The groups that are touched when a path is followed, for as long as it leads anywhere. -/
def touched (τ : Template) (p : Position) (path : String) : List Position :=
  let parsed := Path.parse path
  τ.touchedAlong (if parsed.fromRoot then [] else p) parsed.steps

theorem pick_eq_some {τ : Template} {p q : Position} {i : Nat} (h : τ.pick p i = some q) : q = i :: p := by
  unfold pick at h
  split at h
  · cases h
    rfl
  · cases h

theorem above_suffix {τ : Template} {p q : Position} (h : τ.above p = some q) : q <:+ p := by
  induction p with
  | nil => cases h
  | cons i p ih =>
    rw [above] at h
    split at h
    · cases h
      exact List.suffix_cons i _
    · exact (ih h).trans (List.suffix_cons i p)

/-- Only composites have fields. -/
theorem descend_eq_some {τ : Template} {p q : Position} {name : String} (h : τ.descend name p = some q) :
    (∃ i, q = i :: p) ∧ (τ.partAt p).any (·.1.isRepeated) = false := by
  unfold descend at h
  split at h
  · rename_i header fields name' hpart
    obtain ⟨i, -, rfl⟩ := Option.map_eq_some_iff.mp h
    exact ⟨⟨i, rfl⟩, by rw [hpart]; rfl⟩
  · cases h

end Template

namespace Tree

variable {C : Cell → Prop} {τ : Template} {t t' : Tree} {id : NodeId} {n : Node} {p q : Position}

-- ---------------------------------------------------------------------------
-- Nodes at positions
-- ---------------------------------------------------------------------------

/-- The node at a position. -/
def placed (t : Tree) : Position → Option NodeId
  | [] => some t.root
  | i :: p => (t.placed p).bind fun id => (t.node? id).bind (·.children[i]?)

theorem placed_cons {i : Nat} : t.placed (i :: p) = some id ↔
    ∃ above n, t.placed p = some above ∧ t.node? above = some n ∧ n.children[i]? = some id := by
  simp only [placed, Option.bind_eq_some_iff]
  constructor
  · rintro ⟨above, hp, n, hn, hi⟩
    exact ⟨above, n, hp, hn, hi⟩
  · rintro ⟨above, n, hp, hn, hi⟩
    exact ⟨above, hp, n, hn, hi⟩

theorem live_of_placed (hwf : t.WellFormed) (h : t.placed p = some id) :
    ∃ n, t.node? id = some n := by
  cases p with
  | nil =>
    cases h
    obtain ⟨n, hn, -⟩ := hwf.root
    exact ⟨n, hn⟩
  | cons i p =>
    obtain ⟨above, m, -, hm, hi⟩ := placed_cons.mp h
    obtain ⟨-, n, hn, -⟩ := hwf.child hm (List.mem_of_getElem? hi)
    exact ⟨n, hn⟩

theorem isLive_of_placed (hwf : t.WellFormed) (h : t.placed p = some id) : t.isLive id = true :=
  isLive_iff_node?.mpr (live_of_placed hwf h)

/-- Every node is somewhere. -/
theorem exists_position (hwf : t.WellFormed) (hn : t.node? id = some n) :
    ∃ p, t.placed p = some id := by
  obtain ⟨k, hk⟩ : ∃ k, id.index = k := ⟨_, rfl⟩
  induction k using Nat.strong_induction_on generalizing id n with
  | _ k ih =>
    cases hp : n.parent with
    | none => exact ⟨[], congrArg some (hwf.eq_root hn hp).symm⟩
    | some above =>
      obtain ⟨hlt, m, hm, -⟩ := hwf.of_parent hn hp
      obtain ⟨p, hpos⟩ := ih above.index (hk ▸ hlt) hm rfl
      obtain ⟨i, hi⟩ := List.mem_iff_getElem?.mp (hwf.mem_children hn hp hm)
      exact ⟨i :: p, placed_cons.mpr ⟨above, m, hpos, hm, hi⟩⟩

/-- Nodes have one position each. -/
theorem placed_inj (hwf : t.WellFormed) (hp : t.placed p = some id) (hq : t.placed q = some id) :
    p = q := by
  have hroot : ∀ {i p}, t.placed (i :: p) ≠ some t.root := by
    intro i p h
    obtain ⟨above, m, -, hm, hi⟩ := placed_cons.mp h
    obtain ⟨-, r, hr, hparent⟩ := hwf.child hm (List.mem_of_getElem? hi)
    obtain ⟨r', hr', hnone⟩ := hwf.root
    rw [hr] at hr'
    cases hr'
    rw [hparent] at hnone
    cases hnone
  induction p generalizing q id with
  | nil =>
    cases q with
    | nil => rfl
    | cons j q =>
      cases hp
      exact absurd hq hroot
  | cons i p ih =>
    cases q with
    | nil =>
      cases hq
      exact absurd hp hroot
    | cons j q =>
      obtain ⟨a, m, hpa, hm, hi⟩ := placed_cons.mp hp
      obtain ⟨b, l, hqb, hl, hj⟩ := placed_cons.mp hq
      obtain ⟨-, n, hn, hparent⟩ := hwf.child hm (List.mem_of_getElem? hi)
      have hparent' := hwf.parent_of_mem hl (List.mem_of_getElem? hj) hn
      rw [hparent] at hparent'
      cases hparent'
      rw [hm] at hl
      cases hl
      rw [ih hpa hqb]
      refine congrArg (· :: q) ?_
      obtain ⟨hi', hieq⟩ := List.getElem?_eq_some_iff.mp hi
      obtain ⟨hj', hjeq⟩ := List.getElem?_eq_some_iff.mp hj
      exact (hwf.nodup_children hm).getElem_inj_iff.mp (hieq.trans hjeq.symm)

/-- Everything is below the root. -/
theorem below_root (hp : t.placed p = some id) : Relation.ReflTransGen t.Lists t.root id := by
  induction p generalizing id with
  | nil =>
    cases hp
    exact .refl
  | cons i p ih =>
    obtain ⟨above, n, hpa, hn, hi⟩ := placed_cons.mp hp
    exact (ih hpa).tail ⟨n, hn, List.mem_of_getElem? hi⟩

/-- What is above a position with a node has a node, too. -/
theorem placed_suffix (h : t.placed (q ++ p) = some id) : ∃ x, t.placed p = some x := by
  induction q generalizing id with
  | nil => exact ⟨id, h⟩
  | cons i q ih =>
    obtain ⟨above, -, habove, -⟩ := placed_cons.mp h
    exact ih habove

/-- What is below a node is at a position below its own. -/
theorem placed_of_path {x : NodeId} (hp : t.placed p = some id) (hpath : Relation.ReflTransGen t.Lists id x) :
    ∃ q, t.placed (q ++ p) = some x := by
  induction hpath with
  | refl => exact ⟨[], hp⟩
  | tail _ hstep ih =>
    obtain ⟨q, hq⟩ := ih
    obtain ⟨n, hn, hc⟩ := hstep
    obtain ⟨i, hi⟩ := List.mem_iff_getElem?.mp hc
    exact ⟨i :: q, placed_cons.mpr ⟨_, n, hq, hn, hi⟩⟩

/-- A node is no deeper in the tree than in the arena. -/
theorem length_le_index (hwf : t.WellFormed) (h : t.placed p = some id) : p.length ≤ id.index := by
  induction p generalizing id with
  | nil => exact Nat.zero_le _
  | cons i p ih =>
    obtain ⟨above, m, hp, hm, hi⟩ := placed_cons.mp h
    have hlt := (hwf.child hm (List.mem_of_getElem? hi)).1
    have hle := ih hp
    rw [List.length_cons]
    omega

/-- Nodes that live on stay where they are. -/
theorem Grows.placed (h : t.Grows t') (hwf : t.WellFormed) (hwf' : t'.WellFormed)
    (hp : t.placed p = some id) (hlive : t'.isLive id = true) : t'.placed p = some id := by
  induction p generalizing id with
  | nil =>
    cases hp
    exact congrArg some h.root
  | cons i p ih =>
    obtain ⟨above, m, hpa, hm, hi⟩ := placed_cons.mp hp
    have hmem := List.mem_of_getElem? hi
    obtain ⟨-, n, hn, hparent⟩ := hwf.child hm hmem
    obtain ⟨n', hn'⟩ := isLive_iff_node?.mp hlive
    obtain ⟨n₀, hn₀, hf, -⟩ := h.old (lt_size hn) hn'
    rw [hn] at hn₀
    cases hn₀
    have hparent' : n'.parent = some above := (Node.parent_of_fixture hf).symm.trans hparent
    obtain ⟨-, m', hm', -⟩ := hwf'.of_parent hn' hparent'
    obtain ⟨m₀, hm₀, -, hch⟩ := h.old (lt_size hm) hm'
    rw [hm] at hm₀
    cases hm₀
    refine placed_cons.mpr ⟨above, m', ih hpa (isLive_iff_node?.mpr ⟨m', hm'⟩), hm', ?_⟩
    rcases hch with hsame | ⟨-, hfresh⟩
    · rw [hsame, hi]
    · have hge := hfresh id (hwf'.mem_children hn' hparent' hm')
      exact absurd (lt_size hn) (Nat.not_lt.mpr hge)

/-- Nodes that were there before are where they were. -/
theorem Grows.placed_back (h : t.Grows t') (hwf : t.WellFormed) (hwf' : t'.WellFormed)
    (hn : t.node? id = some n) (hp : t'.placed p = some id) : t.placed p = some id := by
  obtain ⟨q, hq⟩ := exists_position hwf hn
  have hq' := h.placed hwf hwf' hq (isLive_of_placed hwf' hp)
  rwa [placed_inj hwf' hp hq']

/-- What a node is in stays with it. -/
theorem Grows.placed_above (h : t.Grows t') (hwf : t.WellFormed) (hwf' : t'.WellFormed) {above : NodeId}
    (hp : t.placed (q ++ p) = some id) (hlive : t'.isLive id = true) (habove : t.placed p = some above) :
    t'.placed p = some above := by
  induction q generalizing id with
  | nil =>
    cases habove.symm.trans hp
    exact h.placed hwf hwf' hp hlive
  | cons i q ih =>
    obtain ⟨y, m, hy, hm, hi⟩ := placed_cons.mp hp
    obtain ⟨y', m', hy', hm', hi'⟩ := placed_cons.mp (h.placed hwf hwf' hp hlive)
    obtain ⟨-, n, hn, hparent⟩ := hwf.child hm (List.mem_of_getElem? hi)
    obtain ⟨-, n', hn', hparent'⟩ := hwf'.child hm' (List.mem_of_getElem? hi')
    obtain ⟨n₀, hn₀, hf, -⟩ := h.old (lt_size hn) hn'
    rw [hn] at hn₀
    cases hn₀
    rw [← Node.parent_of_fixture hf, hparent] at hparent'
    cases hparent'
    exact ih hy (isLive_iff_node?.mpr ⟨m', hm'⟩)

-- ---------------------------------------------------------------------------
-- Nodes and parts
-- ---------------------------------------------------------------------------

theorem ModelsAll.getElem? {τs : List Template} {ids : List NodeId} (h : t.ModelsAll C τs ids)
    {i : Nat} {c : NodeId} (hc : ids[i]? = some c) :
    ∃ σ, τs[i]? = some σ ∧ t.Models C σ σ.name c := by
  induction τs generalizing ids i with
  | nil =>
    cases h
    cases hc
  | cons σ rest ih =>
    obtain ⟨id, ids', rfl, hid, hrest⟩ := h
    cases i with
    | zero =>
      cases hc
      exact ⟨σ, rfl, hid⟩
    | succ i => exact ih hrest hc

theorem ModelsAll.exists_getElem? {τs : List Template} {ids : List NodeId} (h : t.ModelsAll C τs ids)
    {i : Nat} {σ : Template} (hσ : τs[i]? = some σ) : ∃ c, ids[i]? = some c := by
  induction τs generalizing ids i with
  | nil => cases hσ
  | cons σ' rest ih =>
    obtain ⟨id, ids', rfl, -, hrest⟩ := h
    cases i with
    | zero => exact ⟨id, rfl⟩
    | succ i => exact ih hrest hσ

/-- What a node lists follows the parts of what the node follows. -/
theorem Models.part {σ : Template} {name : String} {m : Node} {i : Nat} (h : t.Models C σ name id)
    (hm : t.node? id = some m) {c : NodeId} (hi : m.children[i]? = some c) :
    ∃ σ' name', σ.part name i = some (σ', name') ∧ t.Models C σ' name' c := by
  cases σ with
  | leaf h' kind =>
    obtain ⟨n, hn, -, -, hch⟩ := h
    cases hm.symm.trans hn
    rw [hch] at hi
    cases hi
  | composite h' fields =>
    obtain ⟨n, hn, -, -, hch⟩ := h
    cases hm.symm.trans hn
    obtain ⟨field, hfield, hc⟩ := hch.getElem? hi
    exact ⟨field, field.name, by simp [Template.part, hfield], hc⟩
  | repeated h' element rule =>
    obtain ⟨n, g, hn, -, -, -, -, hch⟩ := h
    cases hm.symm.trans hn
    exact ⟨element, s!"{name}[{i}]", rfl, hch i c hi⟩

/-- The node at a position follows the part of the template that is there. -/
theorem Models.placed (h : t.Models C τ τ.name t.root) (hp : t.placed p = some id) :
    ∃ σ name, τ.partAt p = some (σ, name) ∧ t.Models C σ name id := by
  induction p generalizing id with
  | nil =>
    cases hp
    exact ⟨τ, τ.name, rfl, h⟩
  | cons i p ih =>
    obtain ⟨above, m, hpa, hm, hi⟩ := placed_cons.mp hp
    obtain ⟨σ, name, hpart, hmodels⟩ := ih hpa
    obtain ⟨σ', name', hpart', hmodels'⟩ := hmodels.part hm hi
    exact ⟨σ', name', by rw [Template.partAt, hpart]; exact hpart', hmodels'⟩

/-- The cells at and below a node that follows a template are allowed. -/
theorem Models.cell_below {σ : Template} {name : String} {x : NodeId} {n : Node} (h : t.Models C σ name id)
    (hpath : Relation.ReflTransGen t.Lists id x) (hn : t.node? x = some n) : C n.cell := by
  have hmodels : ∃ σ' name', t.Models C σ' name' x := by
    induction hpath generalizing n with
    | refl => exact ⟨σ, name, h⟩
    | tail _ hlists ih =>
      obtain ⟨m, hm, hmem⟩ := hlists
      obtain ⟨σ', name', hmodels⟩ := ih hm
      obtain ⟨i, hi⟩ := List.mem_iff_getElem?.mp hmem
      obtain ⟨σ'', name'', -, hc⟩ := hmodels.part hm hi
      exact ⟨σ'', name'', hc⟩
  obtain ⟨σ', name', hmodels⟩ := hmodels
  obtain ⟨m, hm, hb⟩ := hmodels.live
  cases hn.symm.trans hm
  exact hb.cell

/-- All cells of a tree that follows its template are allowed. -/
theorem Models.cell (h : t.Models C τ τ.name t.root) (hwf : t.WellFormed) (hn : t.node? id = some n) :
    C n.cell := by
  obtain ⟨p, hp⟩ := exists_position hwf hn
  exact h.cell_below (below_root hp) hn

/-- A node is of the kind of its part. -/
theorem Models.kind {σ : Template} {name : String} (h : t.Models C σ name id)
    (hn : t.node? id = some n) :
    n.kind.isComposite = σ.isComposite ∧ n.kind.isRepeated = σ.isRepeated := by
  cases σ with
  | leaf h' kind =>
    obtain ⟨m, hm, -, hk, -⟩ := h
    rw [hn] at hm
    cases hm
    rw [hk]
    exact ⟨rfl, rfl⟩
  | composite h' fields =>
    obtain ⟨m, hm, -, hk, -⟩ := h
    rw [hn] at hm
    cases hm
    rw [hk]
    exact ⟨rfl, rfl⟩
  | repeated h' element rule =>
    obtain ⟨m, g, hm, -, hk, -⟩ := h
    rw [hn] at hm
    cases hm
    rw [hk]
    exact ⟨rfl, rfl⟩

/-- For each part of the template that is outside of all elements there is a node. -/
theorem Models.exists_placed (h : t.Models C τ τ.name t.root) {σ : Template} {name : String}
    (hpart : τ.partAt q = some (σ, name))
    (houter : ∀ {p}, p <:+ q → p ≠ q → (τ.partAt p).any (·.1.isRepeated) = false) :
    ∃ x, t.placed q = some x := by
  induction q generalizing σ name with
  | nil => exact ⟨t.root, rfl⟩
  | cons i q ih =>
    have hlonger : ∀ {p}, p <:+ q → p ≠ i :: q := by
      rintro p hp rfl
      exact absurd hp.length_le (by simp)
    obtain ⟨⟨above, name'⟩, habove, hi⟩ := Option.bind_eq_some_iff.mp hpart
    obtain ⟨y, hy⟩ := ih habove fun hp _ => houter (hp.trans (List.suffix_cons i q)) (hlonger hp)
    obtain ⟨σ', name'', hpart', hm⟩ := h.placed hy
    rw [habove] at hpart'
    cases hpart'
    have hrep := houter (List.suffix_cons i q) (hlonger (List.suffix_refl q))
    rw [habove, Option.any_some] at hrep
    cases above with
    | leaf header kind => cases hi
    | repeated header element rule => cases hrep
    | composite header fields =>
      obtain ⟨n, hn, -, -, hch⟩ := hm
      obtain ⟨field, hfield, -⟩ := Option.map_eq_some_iff.mp hi
      obtain ⟨x, hx⟩ := hch.exists_getElem? hfield
      exact ⟨x, placed_cons.mpr ⟨y, n, hy, hn, hx⟩⟩

/-- Trees with the same children have the same nodes at all positions. -/
theorem Alike.placed (h : t.Alike t') (p : Position) : t'.placed p = t.placed p := by
  induction p with
  | nil => exact congrArg some h.root
  | cons i p ih =>
    have hkept : ∀ {t t' : Tree}, t.Alike t' → t'.placed p = t.placed p →
        ∀ {x}, t.placed (i :: p) = some x → t'.placed (i :: p) = some x := by
      intro t t' h hp x hx
      obtain ⟨above, n, habove, hn, hi⟩ := placed_cons.mp hx
      obtain ⟨n', hn', -, hch⟩ := h.node? hn
      exact placed_cons.mpr ⟨above, n', hp.trans habove, hn', by rwa [hch]⟩
    refine Option.ext fun x => ⟨hkept h.symm ih.symm, hkept h ih⟩

/-- A node stays if all elements that it is in do. -/
theorem Grows.placed_along (h : t.Grows t') (hwf' : t'.WellFormed) (hm : t.Models C τ τ.name t.root)
    (hq : t.placed q = some id)
    (hkept : ∀ {i p}, i :: p <:+ q → (τ.partAt p).any (·.1.isRepeated) = true →
      t'.placed (i :: p) = t.placed (i :: p)) : t'.placed q = some id := by
  induction q generalizing id with
  | nil =>
    cases hq
    exact congrArg some h.root
  | cons i q ih =>
    obtain ⟨above, n, habove, hn, hi⟩ := placed_cons.mp hq
    have habove' := ih habove fun hp => hkept (hp.trans (List.suffix_cons i q))
    obtain ⟨σ, name, hpart, hmodels⟩ := hm.placed habove
    cases hrep : n.kind.isRepeated with
    | true =>
      rw [hkept (List.suffix_refl _) (by rw [hpart, Option.any_some, ← (hmodels.kind hn).2, hrep]), hq]
    | false =>
      obtain ⟨n', hn'⟩ := live_of_placed hwf' habove'
      obtain ⟨m, hm', -, hch⟩ := h.old (lt_size hn) hn'
      rw [hn] at hm'
      cases hm'
      rcases hch with hsame | ⟨hrep', -⟩
      · exact placed_cons.mpr ⟨above, n', habove', hn', by rwa [hsame]⟩
      · rw [hrep] at hrep'
        cases hrep'

/-- What is outside of all elements stays there. -/
theorem Grows.placed_outer (h : t.Grows t') (hwf' : t'.WellFormed)
    (hm : t.Models C τ τ.name t.root) (hq : t.placed q = some id)
    (houter : ∀ {p}, p <:+ q → p ≠ q → (τ.partAt p).any (·.1.isRepeated) = false) :
    t'.placed q = some id := by
  refine h.placed_along hwf' hm hq fun {i p} hp hrep => ?_
  have hne : p ≠ q := by
    rintro rfl
    exact absurd hp.length_le (by simp)
  rw [houter ((List.suffix_cons i p).trans hp) hne] at hrep
  cases hrep

end Tree

end FormatFuzz
