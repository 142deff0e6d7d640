-- SUMMARY: Resolution in a settled tree answers what the tree denotes.
import FormatFuzz.Proofs.Reading

/-!
# Resolution

Requests are answered from caches where there are any, and by the rules of `FormatFuzz.Proofs.Meaning`
otherwise. So in a settled tree whose caches are right, every answer is one that the tree denotes
(`Reads.answerAll`): there is one lemma for each function that takes part.
-/

namespace FormatFuzz

open TreeM
open Relation (ReflTransGen)
open FormatFuzz.Tree (Sound Denotes Downward)

/-- The closures in a template are strict, and its codecs are honest where lengths are asked for. -/
structure Template.Reliable (C : Cell → Prop) (measured : Prop) (τ : Template) : Prop where
  cells : τ.CellsIn C
  strict : ∀ cell, C cell → cell.Strict measured
  decent : τ.Every (Template.Decent measured)

namespace Request

/-- The node that an answer is worked out from. -/
def anchor : Request → NodeId
  | .bytes id | .value id | .length id => id
  | .lengthUpTo within _ => within

/-- The requests that strict closures lead to. -/
def Apt (measured : Prop) (t₀ : Tree) : Request → Prop
  | .bytes _ | .value _ => True
  | .length _ => measured
  | .lengthUpTo within x => measured ∧ ReflTransGen t₀.Lists within x

end Request

/-- All answers are right. -/
def Faithful (τ : Template) (measured : Prop) (t₀ : Tree) (ask : Resolver) : Prop :=
  ∀ r : Request, r.Apt measured t₀ →
    Reads τ measured t₀ r.anchor (ask r) fun F v => Denotes τ measured t₀ F r v

theorem Faithful.reads {τ : Template} {measured : Prop} {t₀ : Tree} {ask : Resolver}
    (h : Faithful τ measured t₀ ask) (x : NodeId) (r : Request) (hr : r.Apt measured t₀) :
    Reads τ measured t₀ x (ask r) fun F v => F r.anchor → Denotes τ measured t₀ F r v :=
  (h r hr).widen fun _ _ _ _ hF hv => hv.mono hF

theorem LeafKind.encode_ok {kind : LeafKind} {name : String} {v : Value} {b : Bytes}
    (h : kind.encode name v = .ok b) : kind.encode "" v = .ok b := by
  cases kind with
  | int spec =>
    unfold encode at h ⊢
    dsimp only at h ⊢
    cases hv : v.int? with
    | none =>
      rw [hv] at h
      cases h
    | some i =>
      rw [hv] at h
      exact h
  | str spec => exact h
  | bool =>
    cases v with
    | bytes b => cases h
    | int i => exact h
    | bool b => exact h
  | custom codec => exact h

variable {C : Cell → Prop} {τ : Template} {measured : Prop} {t₀ t : Tree} {F F' : NodeId → Prop}
  {x id base : NodeId} {n : Node} {p : Position}

-- ---------------------------------------------------------------------------
-- What is looked up in a sound tree
-- ---------------------------------------------------------------------------

theorem Tree.Points.mono {b : Binding} (h : Tree.Points τ t₀ F id b x) (hF : ∀ y, F y → F' y) :
    Tree.Points τ t₀ F' id b x := by
  cases b with
  | path path => exact h
  | element group index field => exact ⟨hF group h.1, h.2⟩

namespace Tree.Sound

theorem isLive_iff (h : Sound τ measured t₀ t) : t.isLive id = true ↔ t₀.isLive id = true := by
  rw [isLive_iff_node?, isLive_iff_node?]
  constructor
  · rintro ⟨n, hn⟩
    obtain ⟨n₀, hn₀, -⟩ := h.node? hn
    exact ⟨n₀, hn₀⟩
  · rintro ⟨n₀, hn₀⟩
    obtain ⟨n, hn, -⟩ := h.like.node? hn₀
    exact ⟨n, hn⟩

theorem placed_iff (h : Sound τ measured t₀ t) (hwf : t₀.WellFormed) :
    t.placed p = some id ↔ t₀.placed p = some id := by
  have hwf' := h.like.alike.wellFormed hwf
  constructor
  · intro hp
    obtain ⟨n, hn⟩ := live_of_placed hwf' hp
    exact (h.like.symm.same hwf').placed (isLive_iff_node?.mpr ⟨n, hn⟩) hp
  · intro hp
    obtain ⟨n, hn⟩ := live_of_placed hwf hp
    exact (h.like.same hwf).placed (isLive_iff_node?.mpr ⟨n, hn⟩) hp

theorem leads (h : Sound τ measured t₀ t) (hwf : t₀.WellFormed) {path : String}
    (hx : Leads τ t p path x) : Leads τ t₀ p path x := by
  obtain ⟨q, hq, hplaced⟩ := hx
  exact ⟨q, hq, (h.placed_iff hwf).mp hplaced⟩

/-- What is looked up in a node does not hang on its cache and its readers. -/
theorem look {α : Type} (h : Sound τ measured t₀ t) {f : Node → α} {a : α}
    (hf : ∀ n, f n.bare = f n) (ha : t.look id f = .ok a) :
    ∃ n, t₀.node? id = some n ∧ f n = a := by
  obtain ⟨n, hn, rfl⟩ := look_eq_ok.mp ha
  obtain ⟨n₀, hn₀, hbare⟩ := h.node? hn
  exact ⟨n₀, hn₀, by rw [← hf n₀, hbare, hf]⟩

theorem generator (h : Sound τ measured t₀ t) (hwf : t₀.WellFormed) (hn : t₀.node? id = some n)
    (purpose : Purpose) : t.generator id purpose = t₀.generator id purpose :=
  (h.like.same hwf).generator purpose (isLive_iff_node?.mpr ⟨n, hn⟩)

end Tree.Sound

/-- A filter that ends well has kept what its test holds of. -/
theorem eq_filter_of_filterM {α : Type} {test : α → Except TreeError Bool} {keep : α → Bool}
    (hkeep : ∀ x, keep x = true ↔ test x = .ok true) {xs ys : List α} (h : xs.filterM test = .ok ys) :
    ys = xs.filter keep := by
  have haux : ∀ (xs acc : List α) {out}, xs.filterAuxM test acc = .ok out →
      out = (xs.filter keep).reverse ++ acc := by
    intro xs
    induction xs with
    | nil =>
      rintro acc _ ⟨⟩
      rfl
    | cons x rest ih =>
      intro acc out hout
      rw [List.filterAuxM] at hout
      cases htest : test x with
      | error e =>
        rw [htest] at hout
        cases hout
      | ok kept =>
        rw [htest, ok_bind] at hout
        rw [ih _ hout]
        cases kept with
        | true => simp [(hkeep x).mpr htest]
        | false =>
          have hdropped : keep x = false := by
            rw [Bool.eq_false_iff, ne_eq, hkeep, htest]
            simp
          simp [hdropped]
  unfold List.filterM at h
  cases hout : xs.filterAuxM test [] with
  | error e =>
    rw [hout] at h
    cases h
  | ok out =>
    rw [hout] at h
    cases h
    rw [haux xs [] hout, List.append_nil, List.reverse_reverse]

theorem Tree.shownChildren_eq {shown : List NodeId} (hn : t₀.node? id = some n)
    (h : t₀.shownChildren id = .ok shown) :
    shown = n.children.filter fun c => t₀.isHidden c = .ok false := by
  unfold shownChildren children at h
  rw [look_of_node? hn, ok_bind] at h
  refine eq_filter_of_filterM (fun c => ?_) h
  cases t₀.isHidden c with
  | error e => simp
  | ok hidden => simp

theorem Tree.mem_shownChildren {shown : List NodeId} {c : NodeId} (hn : t₀.node? id = some n)
    (h : t₀.shownChildren id = .ok shown) (hc : c ∈ shown) : c ∈ n.children := by
  rw [shownChildren_eq hn h] at hc
  exact List.mem_of_mem_filter hc

-- ---------------------------------------------------------------------------
-- What a node has from its template
-- ---------------------------------------------------------------------------

namespace Template.Reliable

variable (hτ : τ.Reliable C measured) (hsteady : t₀.Steady C τ)

include hτ hsteady

theorem node (hn : t₀.node? id = some n) : ∃ σ name, σ.Decent measured ∧
    t₀.Models C σ name id ∧ n.Bears C σ.header name := by
  obtain ⟨p, hp⟩ := Tree.exists_position hsteady.wellFormed hn
  obtain ⟨σ, name, hpart, hm⟩ := hsteady.models.placed hp
  obtain ⟨m, hm', hbears⟩ := hm.live
  rw [hn] at hm'
  cases hm'
  exact ⟨σ, name, (hτ.decent.partAt hpart).self, hm, hbears⟩

theorem cell (hn : t₀.node? id = some n) : n.cell.Strict measured := by
  obtain ⟨σ, name, -, -, hbears⟩ := hτ.node hsteady hn
  exact hτ.strict _ hbears.cell

theorem action (hn : t₀.node? id = some n) {f : Transform} (hf : n.action = some f) :
    f.Strict measured := by
  obtain ⟨σ, name, hdecent, -, hbears⟩ := hτ.node hsteady hn
  exact hdecent.1 f (hbears.action.symm.trans hf)

theorem codec (hn : t₀.node? id = some n) {codec : Codec} (hk : n.kind = .leaf (.custom codec))
    (hmeasured : measured) : codec.Honest := by
  obtain ⟨σ, name, hdecent, hm, -⟩ := hτ.node hsteady hn
  cases σ with
  | leaf h kind =>
    obtain ⟨m, hm', -, hkind, -⟩ := hm
    rw [hn] at hm'
    cases hm'
    rw [hk] at hkind
    cases hkind
    exact hdecent.2 hmeasured
  | composite h fields =>
    obtain ⟨m, hm', -, hkind, -⟩ := hm
    rw [hn] at hm'
    cases hm'
    rw [hk] at hkind
    cases hkind
  | repeated h element rule =>
    obtain ⟨m, g, hm', -, hkind, -⟩ := hm
    rw [hn] at hm'
    cases hm'
    rw [hk] at hkind
    cases hkind

end Template.Reliable

namespace Reads

-- ---------------------------------------------------------------------------
-- Structure
-- ---------------------------------------------------------------------------

section

variable {α : Type}

theorem lookNode {f : Node → α} (hf : ∀ n, f n.bare = f n) :
    Reads τ measured t₀ x (TreeM.look (·.look id f)) fun _ a =>
      ∃ n, t₀.node? id = some n ∧ f n = a :=
  look fun _ _ ht ha _ _ => ht.look hf ha

end

theorem shownChildren (hsteady : t₀.Steady C τ) (hn : t₀.node? id = some n) :
    Reads τ measured t₀ x (TreeM.look (·.shownChildren id)) fun _ shown =>
      t₀.shownChildren id = .ok shown := by
  refine look fun t shown ht hshown _ _ => ?_
  rw [← hshown]
  exact ((ht.like.same hsteady.wellFormed).shown (Tree.isLive_iff_node?.mpr ⟨n, hn⟩)).symm

section

variable (hsteady : t₀.Steady C τ) (hτ : τ.Reliable C measured)

include hsteady hτ

theorem find (hbase : t₀.placed p = some base) (path : String) :
    Reads τ measured t₀ x (Tree.find base path) fun _ y => Tree.Leads τ t₀ p path y := by
  intro t ht
  obtain ⟨hwf, hm, hs⟩ := hsteady.like hτ.cells ht.like
  have hbase' := (ht.placed_iff hsteady.wellFormed).mpr hbase
  refine (Tree.find_leads hwf hm hs hbase' path).mono ?_
  rintro r t' ⟨rfl, hr⟩
  exact ⟨ht, fun _ _ hab => hab, fun y hy => ht.leads hsteady.wellFormed (hr y hy)⟩

theorem touch (id : NodeId) : Reads τ measured t₀ x (Tree.touch id) fun _ _ => True := by
  intro t ht
  refine (Tree.touch_settled (hsteady.like hτ.cells ht.like).settled id).mono ?_
  rintro r t' rfl
  exact ⟨ht, fun _ _ hab => hab, fun _ _ => trivial⟩

theorem count (id : NodeId) : Reads τ measured t₀ x (Tree.count id) fun _ k =>
    ∃ n, t₀.node? id = some n ∧ n.children.length = k := by
  intro t ht
  refine (Tree.count_settled (hsteady.like hτ.cells ht.like).settled id).mono ?_
  rintro r t' ⟨rfl, hr⟩
  refine ⟨ht, fun _ _ hab => hab, fun k hk => ?_⟩
  obtain ⟨n, hn, -, hlength⟩ := hr k hk
  obtain ⟨n₀, hn₀, hbare⟩ := ht.node? hn
  have hch := Node.children_of_bare hbare
  exact ⟨n₀, hn₀, (congrArg List.length hch).trans hlength⟩

theorem enclosing (hp : t₀.placed p = some id) :
    Reads τ measured t₀ x (TreeM.look (·.enclosing id)) fun _ base =>
      t₀.placed (τ.base p) = some base := by
  refine look fun t base ht hbase _ _ => ?_
  obtain ⟨hwf, hm, -⟩ := hsteady.like hτ.cells ht.like
  obtain ⟨base', hbase', hpos⟩ := Tree.enclosing_placed hwf hm
    ((ht.placed_iff hsteady.wellFormed).mpr hp)
  rw [hbase] at hbase'
  cases hbase'
  exact (ht.placed_iff hsteady.wellFormed).mp hpos

-- ---------------------------------------------------------------------------
-- Scripts
-- ---------------------------------------------------------------------------

theorem readNode (hp : t₀.placed p = some x) (hbase : t₀.placed (τ.base p) = some base)
    (path : String) : Reads τ measured t₀ x (Resolver.readNode base x path) fun F y =>
      Tree.Sees τ t₀ F x path y := by
  refine (find hsteady hτ hbase path).seq fun y hy => ?_
  obtain ⟨q, -, hplaced⟩ := id hy
  obtain ⟨n, hn⟩ := Tree.live_of_placed hsteady.wellFormed hplaced
  refine (note (Tree.isLive_iff_node?.mpr ⟨n, hn⟩)).bind (fun _ _ _ _ hF => hF y) fun _ _ => ?_
  exact pure fun F _ hFy => ⟨hFy, p, hp, hy⟩

omit hτ in
theorem noteRoot : Reads τ measured t₀ x (modify fun t : Tree => t.noteReader t.root x) fun F _ =>
    F t₀.root := by
  intro t ht
  obtain ⟨n, hn, -⟩ := hsteady.wellFormed.root
  have h := note (x := x) (Tree.isLive_iff_node?.mpr ⟨n, hn⟩) t ht
  rw [wp.modify] at h ⊢
  rw [ht.like.root]
  exact h

variable {ask : Resolver} (hask : Faithful τ measured t₀ ask)

include hask

theorem answer (hp : t₀.placed p = some x) (hbase : t₀.placed (τ.base p) = some base) {q : Query}
    (hq : q.Allowed measured) : Reads τ measured t₀ x (Resolver.answer ask base x q) fun F a =>
      Tree.Answers τ measured t₀ F (Denotes τ measured t₀ F) x q a := by
  have hread := readNode hsteady hτ hp hbase
  have hup : ∀ path, Upward x fun F y => Tree.Sees τ t₀ F x path y :=
    fun path F F' y _ hF h => ⟨hF y h.1, h.2⟩
  cases q with
  | bytes path =>
    refine (hread path).bind (hup path) fun y _ => (hask.reads x (.bytes y) trivial).mono ?_
    exact fun F b _ hb hy => ⟨y, hy, hb hy.1⟩
  | value path =>
    refine (hread path).bind (hup path) fun y _ => (hask.reads x (.value y) trivial).mono ?_
    exact fun F v _ hv hy => ⟨y, hy, hv hy.1⟩
  | count path =>
    refine (hread path).bind (hup path) fun y _ => (count hsteady hτ y).mono ?_
    exact fun F k _ ⟨n, hn, hk⟩ hy => ⟨y, n, hy, hn, hk⟩
  | length path =>
    refine (hread path).bind (hup path) fun y _ => (hask.reads x (.length y) hq).mono ?_
    exact fun F k _ hk hy => ⟨hq, y, hy, hk hy.1⟩
  | offset path =>
    refine (find hsteady hτ hbase path).seq fun y hy => ?_
    refine (noteRoot hsteady).bind (fun _ _ _ _ hF => hF _) fun _ _ => ?_
    refine (look (P := fun _ _ => True) fun _ _ _ _ _ _ => trivial).seq fun _ _ => ?_
    refine get_bind fun t ht => ?_
    rw [ht.like.root]
    obtain ⟨q, hq', hplaced⟩ := hy
    have hbelow := Tree.below_root hplaced
    refine (hask.reads x (.lengthUpTo t₀.root y) ⟨hq, hbelow⟩).downward hsteady.wellFormed ?_
    intro F k _ hdown hk hroot
    exact ⟨hq, y, hroot, ⟨hdown.of_path hroot hbelow, p, hp, q, hq', hplaced⟩, hk hroot⟩
  | generator =>
    obtain ⟨n, hn⟩ := Tree.live_of_placed hsteady.wellFormed hp
    refine look fun t g ht hg _ _ => ?_
    exact (ht.generator hsteady.wellFormed hn .closures).symm.trans hg
  | field path => exact hq.elim
  | fullName y => exact hq.elim
  | base => exact hq.elim
  | reader => exact hq.elim

theorem eval {α : Type} (hp : t₀.placed p = some x) (hbase : t₀.placed (τ.base p) = some base)
    {s : Script α} (hs : s.Strict measured) :
    Reads τ measured t₀ x (s.eval (Resolver.answer ask base x)) fun F v =>
      s.Yields (Tree.Answers τ measured t₀ F (Denotes τ measured t₀ F) x) v := by
  induction s with
  | done r =>
    refine lift fun v hv F _ => ?_
    rw [hv]
    exact .done v
  | ask q next ih =>
    obtain ⟨hq, herror, hnext⟩ := hs
    refine (answer hsteady hτ hask hp hbase hq).outcome.bind ?_ fun r _ => ?_
    · intro F F' r hx hF hr a ha
      exact (Tree.Same.refl F t₀).answers hF (fun _ _ hv => hv.mono hF) hx (hr a ha)
    · cases r with
      | ok a => exact (ih (.ok a) (hnext (.ok a))).mono fun F v _ hv ha => .ask (ha a rfl) hv
      | error e =>
        rw [herror e]
        exact throw

theorem runScript {α : Type} (hp : t₀.placed p = some id) {s : Script α}
    (hs : s.Strict measured) :
    Reads τ measured t₀ id (Resolver.runScript ask id s) fun F v =>
      s.Yields (Tree.Answers τ measured t₀ F (Denotes τ measured t₀ F) id) v :=
  (enclosing hsteady hτ hp).seq fun _ hbase => eval hsteady hτ hask hp hbase hs

-- ---------------------------------------------------------------------------
-- Cells
-- ---------------------------------------------------------------------------

omit hask in
theorem bindingTarget (hp : t₀.placed p = some id) (b : Binding) :
    Reads τ measured t₀ id (Resolver.bindingTarget id b) fun F y =>
      t₀.isLive y = true ∧ Tree.Points τ t₀ F id b y := by
  have hlive : ∀ {p path y}, Tree.Leads τ t₀ p path y → t₀.isLive y = true := by
    rintro p path y ⟨q, -, hplaced⟩
    obtain ⟨n, hn⟩ := Tree.live_of_placed hsteady.wellFormed hplaced
    exact Tree.isLive_iff_node?.mpr ⟨n, hn⟩
  cases b with
  | path path =>
    refine (enclosing hsteady hτ hp).seq fun base hbase => ?_
    refine (find hsteady hτ hbase path).outcome.seq fun r hr => ?_
    cases r with
    | ok y => exact pure fun _ _ => ⟨hlive (hr y rfl), p, hp, hr y rfl⟩
    | error e => exact get_bind fun _ _ => throw
  | element group index field =>
    refine get_bind fun t _ => get_bind fun t' ht' => ite (fun hgroup => ?_) fun _ => ?_
    · rw [ht'.isLive_iff] at hgroup
      refine (count hsteady hτ group).seq fun _ _ => (note hgroup).bind (fun _ _ _ _ hF => hF _)
        fun _ _ => (lookNode fun _ => rfl).seq ?_
      rintro _ ⟨n, hn, rfl⟩
      cases he : n.children[index]? with
      | none => exact get_bind fun _ _ => throw
      | some e =>
        obtain ⟨-, m, hm, -⟩ := hsteady.wellFormed.child hn (List.mem_of_getElem? he)
        refine ite (fun hfield => ?_) fun hfield => ?_
        · refine pure fun F _ hF => ⟨Tree.isLive_iff_node?.mpr ⟨m, hm⟩, hF, n, e, hn, he, ?_⟩
          exact .inl ⟨hfield, rfl⟩
        · obtain ⟨q, hq⟩ := Tree.exists_position hsteady.wellFormed hm
          refine (find hsteady hτ hq field).outcome.seq fun r hr => ?_
          cases r with
          | ok y =>
            refine pure fun F _ hF => ⟨hlive (hr y rfl), hF, n, e, hn, he, .inr ⟨?_, q, hq, hr y rfl⟩⟩
            simpa using hfield
          | error e => exact get_bind fun _ _ => throw
    · exact get_bind fun _ _ => seq (p := fun _ => False) throw fun _ h => h.elim

theorem cellValue (hn : t₀.node? id = some n) :
    Reads τ measured t₀ id (Resolver.cellValue ask id) fun F v =>
      Tree.Reduces τ measured t₀ F (Denotes τ measured t₀ F) id n.cell v := by
  obtain ⟨p, hp⟩ := Tree.exists_position hsteady.wellFormed hn
  have hstrict := hτ.cell hsteady hn
  refine (lookNode fun _ => rfl).seq ?_
  rintro _ ⟨m, hm, rfl⟩
  rw [hn] at hm
  cases hm
  cases hcell : n.cell with
  | unset => exact pure fun _ _ => rfl
  | literal v => exact pure fun _ _ => rfl
  | deferred s =>
    rw [hcell] at hstrict
    exact (runScript hsteady hτ hask hp hstrict).result fun F v _ hv => ⟨v, rfl, hv⟩
  | computed f sources =>
    rw [hcell] at hstrict
    refine (runScript hsteady hτ hask hp (Cell.compute_strict hstrict sources)).result ?_
    exact fun F v _ hv => ⟨v, rfl, hv⟩
  | bound b =>
    refine (bindingTarget hsteady hτ hp b).bind (fun F F' y _ hF h => ⟨h.1, h.2.mono hF⟩) fun y hy => ?_
    obtain ⟨-, -, hlive, -⟩ := hy
    refine (note hlive).bind (fun _ _ _ _ hF => hF _) fun _ _ => ?_
    refine (hask.reads id (.value y) trivial).result fun F v _ hv hy hpoints => ?_
    exact ⟨v, y, rfl, hy, hpoints.2, hv hy⟩

theorem leafContent (hn : t₀.node? id = some n) {kind : LeafKind} (hk : n.kind = .leaf kind) :
    Reads τ measured t₀ id (Resolver.leafContent ask id) fun F v =>
      Tree.Content τ measured t₀ F (Denotes τ measured t₀ F) id n.cell kind v := by
  refine (cellValue hsteady hτ hask hn).bind ?_ fun v _ => ?_
  · exact fun F F' v hx hF hv =>
      (Tree.Same.refl F t₀).reduces hF (fun _ _ hv => hv.mono hF) hx hv
  · cases v with
    | some v => exact pure fun F _ hv => .inl hv
    | none =>
      refine (lookNode fun _ => rfl).seq ?_
      rintro _ ⟨m, hm, rfl⟩
      rw [hn] at hm
      cases hm
      rw [hk]
      refine seq (p := fun g => t₀.generator id .defaults = .ok g) ?_ fun g hg => ?_
      · refine look fun t g ht hg _ _ => ?_
        exact (ht.generator hsteady.wellFormed hn .defaults).symm.trans hg
      · exact lift fun v hv F _ hnone => .inr ⟨hnone, g, hg, hv⟩

-- ---------------------------------------------------------------------------
-- Bytes
-- ---------------------------------------------------------------------------

omit hsteady hτ hask in
theorem encode (hn : t₀.node? id = some n) {kind : LeafKind} (hk : n.kind = .leaf kind) (v : Value) :
    Reads τ measured t₀ x (TreeM.look (Resolver.encode · id v)) fun _ b =>
      kind.encode "" v = .ok b := by
  refine look fun t b ht hb _ _ => ?_
  obtain ⟨m, hm, hbare⟩ := ht.like.node? hn
  have hkind := Node.kind_of_bare hbare
  unfold Resolver.encode at hb
  rw [Tree.node_eq_ok.mpr hm, ok_bind, show m.kind = .leaf kind from hkind.trans hk] at hb
  exact LeafKind.encode_ok hb

theorem rawBytes (hn : t₀.node? id = some n) :
    Reads τ measured t₀ id (Resolver.rawBytes ask id n.kind) fun F raw =>
      Tree.Raw τ measured t₀ F (Denotes τ measured t₀ F) id n raw := by
  unfold Resolver.rawBytes Tree.Raw
  cases hk : n.kind
  case leaf kind =>
    refine (leafContent hsteady hτ hask hn hk).bind ?_ fun v _ => (encode hn hk v).mono ?_
    · exact fun F F' v hx hF hv =>
        (Tree.Same.refl F t₀).content hF (fun _ _ hv => hv.mono hF) hx hv
    · exact fun F b _ hb hv => ⟨v, hv, hb⟩
  case' repeated => refine (touch hsteady hτ id).seq fun _ _ => ?_
  all_goals
    refine (cellValue hsteady hτ hask hn).bind ?_ fun v _ => ?_
    · exact fun F F' v hx hF hv =>
        (Tree.Same.refl F t₀).reduces hF (fun _ _ hv => hv.mono hF) hx hv
    · cases v with
      | some v => exact pure fun F _ hv => .inl ⟨v, hv, rfl⟩
      | none =>
        refine (shownChildren hsteady hn).seq fun shown hshown => ?_
        refine (mapM (P := fun c F b => Denotes τ measured t₀ F (.bytes c) b) (fun c hc => ?_)
          fun c F F' b _ hF hb => hb.mono hF).result fun F parts _ hparts hnone => ?_
        · refine (hask.reads id (.bytes c) trivial).downward hsteady.wellFormed ?_
          exact fun F b hx hdown hb => hb (hdown hx hn (Tree.mem_shownChildren hn hshown hc))
        · exact .inr ⟨hnone, shown, parts, hshown, hparts, rfl⟩

theorem freshBytes (id : NodeId) : Reads τ measured t₀ id (Resolver.freshBytes ask id) fun F b =>
    Denotes τ measured t₀ F (.bytes id) b := by
  refine (lookNode fun _ => rfl).seq ?_
  rintro _ ⟨n, hn, rfl⟩
  obtain ⟨p, hp⟩ := Tree.exists_position hsteady.wellFormed hn
  refine (rawBytes hsteady hτ hask hn).bind ?_ fun raw _ => (lookNode fun _ => rfl).seq ?_
  · exact fun F F' raw hx hF hraw =>
      (Tree.Same.refl F t₀).raw hF (fun _ _ hv => hv.mono hF) hx rfl rfl hraw
  rintro _ ⟨m, hm, rfl⟩
  rw [hn] at hm
  cases hm
  cases hf : n.action with
  | none =>
    refine pure fun F hx hraw => Tree.denotes_iff.mpr ⟨hx, n, hn, raw, hraw, ?_⟩
    rw [hf]
  | some f =>
    have hdone : ∀ F v b, F id → Tree.Raw τ measured t₀ F (Denotes τ measured t₀ F) id n raw →
        (f.run [raw]).Yields (Tree.Answers τ measured t₀ F (Denotes τ measured t₀ F) id) v →
        n.kind.present v = .ok b → Denotes τ measured t₀ F (.bytes id) b := by
      intro F v b hx hraw hv hb
      refine Tree.denotes_iff.mpr ⟨hx, n, hn, raw, hraw, ?_⟩
      rw [hf]
      exact ⟨v, hv, hb⟩
    have hother : ∀ v, (∀ b, v ≠ .bytes b) → Reads τ measured t₀ id
        (if n.kind.isLeaf then TreeM.look (Resolver.encode · id v) else return v.text)
        fun F b => n.kind.present v = .ok b := by
      intro v hv
      unfold NodeKind.present
      cases hk : n.kind with
      | leaf kind =>
        refine (encode hn hk v).mono fun F b _ hb => ?_
        cases v with
        | bytes b => exact absurd rfl (hv b)
        | int i => exact hb
        | bool b => exact hb
      | composite =>
        refine pure fun _ _ => ?_
        cases v with
        | bytes b => exact absurd rfl (hv b)
        | int i => rfl
        | bool b => rfl
      | repeated g =>
        refine pure fun _ _ => ?_
        cases v with
        | bytes b => exact absurd rfl (hv b)
        | int i => rfl
        | bool b => rfl
    have hstrict := Transform.Strict.run [raw] f (hτ.action hsteady hn hf)
    refine (runScript hsteady hτ hask hp hstrict).bind ?_ fun v _ => ?_
    · exact fun F F' v hx hF hv =>
        (Tree.Same.refl F t₀).yields hF (fun _ _ hv => hv.mono hF) hx hv
    · cases v with
      | bytes b => exact pure fun F hx hv hraw => hdone F _ b hx hraw hv rfl
      | int i =>
        exact (hother (.int i) fun _ h => by cases h).mono fun F b hx hb hv hraw =>
          hdone F _ b hx hraw hv hb
      | bool c =>
        exact (hother (.bool c) fun _ h => by cases h).mono fun F b hx hb hv hraw =>
          hdone F _ b hx hraw hv hb

theorem bytesStep (id : NodeId) : Reads τ measured t₀ id (Resolver.bytesStep ask id) fun F b =>
    Denotes τ measured t₀ F (.bytes id) b := by
  have hfresh : Reads τ measured t₀ id (Resolver.guarded id (Resolver.freshBytes ask id)) fun F b =>
      Denotes τ measured t₀ F (.bytes id) b :=
    (freshBytes hsteady hτ hask id).guarded fun F F' b _ hF hb => hb.mono hF
  intro t ht
  unfold Resolver.bytesStep
  rw [wp.bind, wp.look]
  cases hn : t.node id with
  | error e => exact ⟨ht, fun _ _ hab => hab, fun b hb => by cases hb⟩
  | ok n =>
    dsimp only
    cases hcache : n.cache with
    | none => exact hfresh.store t ht
    | some b =>
      refine ⟨ht, fun _ _ hab => hab, fun b' hb' => ?_⟩
      cases hb'
      exact ht.cached (Tree.node_eq_ok.mp hn) hcache

theorem valueStep (id : NodeId) : Reads τ measured t₀ id (Resolver.valueStep ask id) fun F v =>
    Denotes τ measured t₀ F (.value id) v := by
  refine (lookNode fun _ => rfl).seq ?_
  rintro _ ⟨n, hn, rfl⟩
  cases hk : n.kind with
  | leaf kind =>
    refine ((leafContent hsteady hτ hask hn hk).guarded fun F F' v hx hF hv =>
      (Tree.Same.refl F t₀).content hF (fun _ _ hv => hv.mono hF) hx hv).mono fun F v hx hv => ?_
    refine Tree.denotes_iff.mpr ⟨hx, n, hn, ?_⟩
    unfold Tree.Worth
    rw [hk]
    exact hv
  | composite =>
    refine (hask (.bytes id) trivial).result fun F b hx hb => Tree.denotes_iff.mpr ⟨hx, n, hn, ?_⟩
    unfold Tree.Worth
    rw [hk]
    exact ⟨b, hb, rfl⟩
  | repeated g =>
    refine (hask (.bytes id) trivial).result fun F b hx hb => Tree.denotes_iff.mpr ⟨hx, n, hn, ?_⟩
    unfold Tree.Worth
    rw [hk]
    exact ⟨b, hb, rfl⟩

-- ---------------------------------------------------------------------------
-- Lengths
-- ---------------------------------------------------------------------------

theorem lengthStep (hmeasured : measured) (id : NodeId) :
    Reads τ measured t₀ id (Resolver.lengthStep ask id) fun F k =>
      Denotes τ measured t₀ F (.length id) k := by
  intro t ht
  unfold Resolver.lengthStep
  rw [wp.bind, wp.look]
  cases hn : t.node id with
  | error e => exact ⟨ht, fun _ _ hab => hab, fun b hb => by cases hb⟩
  | ok n =>
    obtain ⟨n₀, hn₀, hbare⟩ := ht.node? (Tree.node_eq_ok.mp hn)
    have hkind := Node.kind_of_bare hbare
    have hcell := Node.cell_of_bare hbare
    have hrule : Resolver.lengthRule n₀ = Resolver.lengthRule n :=
      Resolver.lengthRule_of_fixture (congrArg Node.fixture hbare).symm hcell
    have hdone : ∀ {F k}, F id → Tree.Extent t₀ (Denotes τ measured t₀ F) id n₀ k →
        Denotes τ measured t₀ F (.length id) k :=
      fun hx hk => Tree.denotes_iff.mpr ⟨hmeasured, hx, n₀, hn₀, hk⟩
    unfold Tree.Extent at hdone
    rw [hrule] at hdone
    dsimp only
    cases hlength : Resolver.lengthRule n with
    | codec codec =>
      rw [hlength] at hdone
      exact lift (fun k hk F hx => hdone hx hk) t ht
    | fixed m =>
      rw [hlength] at hdone
      cases hcache : n.cache with
      | some b =>
        refine ⟨ht, fun _ _ hab => hab, fun k hk => ?_⟩
        cases hk
        exact hdone .refl (.inr ⟨b, ht.cached (Tree.node_eq_ok.mp hn) hcache, rfl⟩)
      | none => exact pure (fun F hx => hdone hx (.inl rfl)) t ht
    | encode =>
      rw [hlength] at hdone
      cases hcache : n.cache with
      | some b =>
        refine ⟨ht, fun _ _ hab => hab, fun k hk => ?_⟩
        cases hk
        exact hdone .refl ⟨b, ht.cached (Tree.node_eq_ok.mp hn) hcache, rfl⟩
      | none =>
        exact (hask (.bytes id) trivial).result (fun F b hx hb => hdone hx ⟨b, hb, rfl⟩) t ht
    | children =>
      rw [hlength] at hdone
      cases hcache : n.cache with
      | some b =>
        refine ⟨ht, fun _ _ hab => hab, fun k hk => ?_⟩
        cases hk
        exact hdone .refl (.inl ⟨b, ht.cached (Tree.node_eq_ok.mp hn) hcache, rfl⟩)
      | none =>
        have hsum : Reads τ measured t₀ id (do
            (← TreeM.look (·.shownChildren id)).foldlM (fun total child => do
              let n : Nat ← ask (.length child)
              return total + n) 0 : TreeM Nat) fun F k => Denotes τ measured t₀ F (.length id) k := by
          refine (shownChildren hsteady hn₀).seq fun shown hshown => ?_
          refine (sum (P := fun c F k => Denotes τ measured t₀ F (.length c) k) 0 (fun c hc => ?_)
            fun c F F' k _ hF hk => hk.mono hF).mono ?_
          · refine (hask.reads id (.length c) hmeasured).downward hsteady.wellFormed ?_
            exact fun F k hx hdown hk => hk (hdown hx hn₀ (Tree.mem_shownChildren hn₀ hshown hc))
          · rintro F k hx ⟨parts, hparts, hk⟩
            exact hdone hx (.inr ⟨shown, parts, hshown, hparts, by rw [hk, Nat.zero_add]⟩)
        dsimp only
        split
        · exact ((touch hsteady hτ id).seq fun _ _ => hsum) t ht
        · exact hsum t ht

omit hτ in
theorem lengthBefore (hmeasured : measured) (hn : t₀.node? id = some n) {y : NodeId}
    (hy : t₀.isLive y = true) {children : List NodeId} (hsub : ∀ c ∈ children, c ∈ n.children) :
    Reads τ measured t₀ id (Resolver.lengthBefore ask y children) fun F k =>
      Tree.Before t₀ (Denotes τ measured t₀ F) y children k := by
  induction children with
  | nil => exact pure fun _ _ => rfl
  | cons c rest ih =>
    have hc := hsub c List.mem_cons_self
    have hrest := ih fun c hc => hsub c (List.mem_cons_of_mem _ hc)
    unfold Resolver.lengthBefore Tree.Before
    refine ite (fun hcy => pure fun _ _ => ?_) fun hcy => get_bind fun t ht => ?_
    · rw [if_pos hcy]
    · simp only [if_neg hcy]
      rw [(ht.like.same hsteady.wellFormed).contains hy]
      refine ite (fun hcontains => ?_) fun hcontains => ?_
      · obtain ⟨m, hm⟩ := Tree.isLive_iff_node?.mp hy
        have hpath := (Tree.contains_iff hsteady.wellFormed hm).mp hcontains
        simp only [if_pos hcontains]
        refine (hask.reads id (.lengthUpTo c y) ⟨hmeasured, hpath⟩).downward hsteady.wellFormed ?_
        exact fun F k hx hdown hk => hk (hdown hx hn hc)
      · simp only [if_neg hcontains]
        refine seq (p := fun hidden => t₀.isHidden c = .ok hidden) ?_ fun hidden hhidden => ?_
        · refine look fun t hidden ht hhidden _ _ => ?_
          obtain ⟨l, hl, rfl⟩ := ht.look (fun _ => rfl) hhidden
          exact Tree.look_of_node? hl _
        · refine ite (fun hh => ?_) fun hh => ?_
          · refine hrest.result fun F b _ hb => ⟨0, b, .inl ⟨hh ▸ hhidden, rfl⟩, hb, rfl⟩
          · have hshown : t₀.isHidden c = .ok false := by
              rw [hhidden, Bool.not_eq_true] at *
              rw [hh]
            refine bind (P := fun F k => Denotes τ measured t₀ F (.length c) k) ?_
              (fun F F' k _ hF hk => hk.mono hF) fun a _ => ?_
            · refine (hask.reads id (.length c) hmeasured).downward hsteady.wellFormed ?_
              exact fun F k hx hdown hk => hk (hdown hx hn hc)
            · exact hrest.result fun F b _ hb ha => ⟨a, b, .inr ⟨hshown, ha⟩, hb, rfl⟩

theorem lengthUpToStep (hmeasured : measured) {within y : NodeId}
    (hpath : ReflTransGen t₀.Lists within y) :
    Reads τ measured t₀ within (Resolver.lengthUpToStep ask within y) fun F k =>
      Denotes τ measured t₀ F (.lengthUpTo within y) k := by
  refine ite (fun heq => ?_) fun hne => ?_
  · refine pure fun F hx => Tree.denotes_iff.mpr ⟨hmeasured, hx, heq ▸ hx, .inl ⟨heq, rfl⟩⟩
  · have hlive : t₀.isLive y = true := by
      rcases hpath.cases_tail with heq | ⟨z, -, m, hm, hc⟩
      · exact absurd heq.symm hne
      · obtain ⟨-, l, hl, -⟩ := hsteady.wellFormed.child hm hc
        exact Tree.isLive_iff_node?.mpr ⟨l, hl⟩
    have hbefore : Reads τ measured t₀ within (do
        Resolver.lengthBefore ask y (← TreeM.look (·.children within)) : TreeM Nat) fun F k =>
          Denotes τ measured t₀ F (.lengthUpTo within y) k := by
      refine (lookNode fun _ => rfl).seq ?_
      rintro _ ⟨n, hn, rfl⟩
      refine (lengthBefore hsteady hask hmeasured hn hlive fun _ hc => hc).downward
        hsteady.wellFormed ?_
      exact fun F k hx hdown hk => Tree.denotes_iff.mpr
        ⟨hmeasured, hx, hdown.of_path hx hpath, .inr ⟨hne, n, hn, hk⟩⟩
    refine (lookNode (f := (·.kind.isRepeated)) fun _ => rfl).seq fun isGroup _ => ?_
    exact ite (fun _ => (touch hsteady hτ within).seq fun _ _ => hbefore) fun _ => hbefore

-- ---------------------------------------------------------------------------
-- The knot
-- ---------------------------------------------------------------------------

theorem step : Faithful τ measured t₀ (Resolver.step ask) := by
  intro r hr
  cases r with
  | bytes id => exact bytesStep hsteady hτ hask id
  | value id => exact valueStep hsteady hτ hask id
  | length id => exact lengthStep hsteady hτ hask hr id
  | lengthUpTo within y => exact lengthUpToStep hsteady hτ hask hr.1 hr.2

omit hask in
theorem resolve (depth : Nat) : Faithful τ measured t₀ (Resolver.resolve depth) := by
  induction depth with
  | zero => exact fun _ _ => throw
  | succ depth ih => exact fun r hr => step hsteady hτ ih r hr

omit hask in
/-- Every answer is one that the tree denotes. -/
theorem answerAll : Faithful τ measured t₀ Resolver.answerAll :=
  fun r hr => get_bind fun _ _ => resolve hsteady hτ _ r hr

end

end Reads

end FormatFuzz
