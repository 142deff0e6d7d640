-- SUMMARY: The offset of a node is where its bytes stand in those of the root.
import FormatFuzz.Proofs.Lengths

/-!
# Offsets

An offset is the sum of the lengths in front of a node, on each level from the root down. Where nothing was
cached when the questions began, it is where the bytes of the node stand in those of the root
(`Tree.Reaches.bytes_at_offset`), if nothing on the way down is hidden, transformed or given a value of its
own. It does not matter in which order offset and bytes are asked for: all three results persist in a tree in
which both byte strings are cached. There everything on the way down is cached, and so is every visible node
in front of it, because bytes are cached from the leaves up; and a length is that of the bytes that are
cached (`Resolver.lengthUpTo_at`).
-/

namespace FormatFuzz

open TreeM

open FormatFuzz.Tree (Sane Grounds)

-- ---------------------------------------------------------------------------
-- Parts of byte strings
-- ---------------------------------------------------------------------------

namespace Bytes

variable {whole part inner front back : Bytes} {o o' : Nat}

/-- The part stands in the whole behind `o` bytes. -/
def At (whole part : Bytes) (o : Nat) : Prop :=
  ∃ front back, whole = front ++ part ++ back ∧ front.length = o

theorem At.self (part : Bytes) : At part part 0 := ⟨[], [], by simp, rfl⟩

theorem At.append (h : At whole part o) (back : Bytes) : At (whole ++ back) part o := by
  obtain ⟨before, behind, rfl, ho⟩ := h
  exact ⟨before, behind ++ back, by simp, ho⟩

theorem At.prepend (h : At whole part o) (front : Bytes) : At (front ++ whole) part (front.length + o) := by
  obtain ⟨before, behind, rfl, rfl⟩ := h
  exact ⟨front ++ before, behind, by simp, List.length_append⟩

theorem At.slice (h : At whole part o) :
    o + part.length ≤ whole.length ∧ (whole.drop o).take part.length = part := by
  obtain ⟨before, behind, rfl, rfl⟩ := h
  constructor
  · simp only [List.length_append]
    omega
  · rw [List.append_assoc, List.drop_left, List.take_left]

end Bytes

-- ---------------------------------------------------------------------------
-- Nodes that can be told by their offset
-- ---------------------------------------------------------------------------

namespace Tree

variable {t t' u v : Tree} {id x y : NodeId} {n : Node} {b : Bytes}

/-- Neither the node nor what it is in is hidden, the root excepted, and what it is in has neither an output
transform nor a value of its own. -/
def Exposed (t : Tree) (x : NodeId) : Prop :=
  ∀ ⦃y n⦄, t.node? y = some n → t.contains y x = true →
    (y ≠ t.root → n.hidden = false) ∧ (y ≠ x → n.action = none ∧ n.cell = .unset)

/-- In a tree at hand it can be checked whether a node is exposed. -/
theorem Exposed.of_all (h : (List.range t.nodes.size).all (fun i => (t.node? ⟨i⟩).all fun n =>
    t.contains ⟨i⟩ x → (⟨i⟩ ≠ t.root → n.hidden = false) ∧
      (⟨i⟩ ≠ x → n.action.isNone = true ∧ n.cell.isUnset = true)) = true) : t.Exposed x := by
  intro y n hn hy
  have hchecked := List.all_eq_true.mp h y.index (List.mem_range.mpr (lt_size hn))
  rw [hn, Option.all_some] at hchecked
  obtain ⟨hshown, hplain⟩ := of_decide_eq_true hchecked hy
  refine ⟨hshown, fun hne => ?_⟩
  obtain ⟨haction, hcell⟩ := hplain hne
  exact ⟨Option.isNone_iff_eq_none.mp haction, Cell.isUnset_iff.mp hcell⟩

theorem Exposed.of_rests (h : t.Exposed x) (hrests : t.Rests t') : t'.Exposed x := by
  intro y n' hn' hy
  have hsame : t'.contains y x = t.contains y x :=
    eq_of_outline (f := (·.contains y x)) (fun _ => contains_outline y) hrests.outline
  obtain ⟨n, hn, hbare⟩ := hrests.symm.node? hn'
  obtain ⟨hshown, hplain⟩ := h hn (hsame ▸ hy)
  have hhidden := congrArg Node.hidden hbare
  have haction := congrArg Node.action hbare
  have hcell := Node.cell_of_bare hbare
  refine ⟨fun hne => hhidden.symm.trans (hshown (hrests.root ▸ hne)), fun hne => ?_⟩
  exact ⟨haction.symm.trans (hplain hne).1, hcell.symm.trans (hplain hne).2⟩

theorem contains_self (t : Tree) (id : NodeId) : t.contains id id = true := by
  unfold contains
  cases id.index <;> simp [climbsTo]

/-- What is cached can be told the length of. -/
def Tallied (t : Tree) : Prop := ∀ ⦃x n b⦄, t.node? x = some n → n.cache = some b → t.Tallies x n b

theorem Uncached.tallied (hu : t.Uncached) (hfills : t.Fills t') : t'.Tallied := by
  intro x n b hn hb
  refine hfills.tallies ?_ hn hb
  cases hx : t.node? x with
  | none => rw [cacheOf, hx, Option.bind_none]
  | some m => exact (cacheOf_of_node? hx).trans (hu x m hx)

/-- Only composites and groups have children. -/
theorem Steady.isLeaf_eq_false {C : Cell → Prop} {τ : Template} (h : t.Steady C τ) (hn : t.node? id = some n)
    (hx : x ∈ n.children) : n.kind.isLeaf = false := by
  obtain ⟨p, hp⟩ := exists_position h.wellFormed hn
  obtain ⟨σ, name, -, hmodels⟩ := h.models.placed hp
  cases σ with
  | leaf h' kind =>
    obtain ⟨m, hm, -, -, hnone⟩ := hmodels
    rw [hn] at hm
    cases hm
    rw [hnone] at hx
    cases hx
  | composite h' fields =>
    obtain ⟨m, hm, -, hk, -⟩ := hmodels
    rw [hn] at hm
    cases hm
    rw [hk]
    rfl
  | repeated h' element rule =>
    obtain ⟨m, g, hm, -, hk, -⟩ := hmodels
    rw [hn] at hm
    cases hm
    rw [hk]
    rfl

/-- What an exposed node is in is made of its visible children, and the node is in one of these. -/
theorem Exposed.children {C : Cell → Prop} {τ : Template} {m : Node} (h : t.Exposed x)
    (hsteady : t.Steady C τ) (htallied : t.Tallied) (hx : t.node? x = some m) (hy : t.contains y x = true)
    (hne : y ≠ x) (hb : t.cacheOf y = some b) :
    ∃ n parts, t.node? y = some n ∧ (∃ c ∈ n.children, t.contains c x = true) ∧
      (∀ c ∈ n.children, t.contains c x = true → t.isHidden c = .ok false) ∧
      List.Forall₂ (fun c part => t.cacheOf c = some part)
        (n.children.filter fun c => t.isHidden c = .ok false) parts ∧ b = parts.flatten := by
  have hwf := hsteady.wellFormed
  obtain ⟨n, hn, hcache⟩ := cacheOf_eq_some.mp hb
  obtain ⟨haction, hcell⟩ := (h hn hy).2 hne
  obtain ⟨c, hc, hbelow⟩ : ∃ c ∈ n.children, t.contains c x = true := by
    rcases ((contains_iff hwf hx).mp hy).cases_head with heq | ⟨c, ⟨n', hn', hc⟩, hbelow⟩
    · exact absurd heq hne
    · rw [hn] at hn'
      cases hn'
      exact ⟨c, hc, (contains_iff hwf hx).mpr hbelow⟩
  have hrule : Resolver.lengthRule n = .children :=
    Node.lengthRule_eq_children.mpr ⟨haction, hsteady.isLeaf_eq_false hn hc, hcell⟩
  have htallies := htallied hn hcache
  unfold Tallies at htallies
  rw [hrule] at htallies
  obtain ⟨shown, parts, hshown, hparts, hflat⟩ := htallies
  rw [shownChildren_eq hn hshown] at hparts
  refine ⟨n, parts, hn, ⟨c, hc, hbelow⟩, fun c' hc' hbelow' => ?_, hparts, hflat⟩
  obtain ⟨-, l, hl, hparent⟩ := hwf.child hn hc'
  refine look_eq_ok.mpr ⟨l, hl, (h hl hbelow').1 ?_⟩
  rintro rfl
  obtain ⟨root, hroot, hnone⟩ := hwf.root
  rw [hl] at hroot
  cases hroot
  rw [hparent] at hnone
  cases hnone

end Tree

-- ---------------------------------------------------------------------------
-- The walk down
-- ---------------------------------------------------------------------------

namespace Resolver

variable {t u : Tree} {x c : NodeId} {rest : List NodeId} {ask : Resolver} {whole : Bytes}

/-- What is told is where the bytes of the node stand in the whole. -/
def Locates (t : Tree) (x : NodeId) (whole : Bytes) (r : Except TreeError Nat) : Prop :=
  ∀ o, r = .ok o → ∃ inner, t.cacheOf x = some inner ∧ Bytes.At whole inner o

theorem Locates.append {r : Except TreeError Nat} (h : Locates t x whole r) (back : Bytes) :
    Locates t x (whole ++ back) r := by
  intro o ho
  obtain ⟨inner, hinner, hat⟩ := h o ho
  exact ⟨inner, hinner, hat.append back⟩

theorem Locates.prepend {act : TreeM Nat} (h : wp act (fun r _ => Locates t x whole r) u) (front : Bytes) :
    wp (do return front.length + (← act)) (fun r _ => Locates t x (front ++ whole) r) u := by
  refine wp.bind.mpr (h.mono fun r _ h => ?_)
  cases r with
  | error e =>
    rintro _ ⟨⟩
  | ok o =>
    rintro _ ⟨⟩
    obtain ⟨inner, hinner, hat⟩ := h o rfl
    exact ⟨inner, hinner, hat.prepend front⟩

section

variable {Q : Except TreeError Nat → Tree → Prop}

theorem wp_lengthBefore_self : wp (lengthBefore ask x (x :: rest)) Q t ↔ Q (.ok 0) t := by
  unfold lengthBefore
  rw [if_pos rfl]
  rfl

theorem wp_lengthBefore_within (hne : c ≠ x) (hc : t.contains c x = true) :
    wp (lengthBefore ask x (c :: rest)) Q t ↔ wp (ask (.lengthUpTo c x)) Q t := by
  unfold lengthBefore
  rw [if_neg hne, wp.get_bind, hc]
  rfl

theorem wp_lengthBefore_passed (hc : t.contains c x = false) {hidden : Bool}
    (hhidden : t.isHidden c = .ok hidden) :
    wp (lengthBefore ask x (c :: rest)) Q t ↔ wp (do
      let n : Nat ← if hidden then pure 0 else ask (.length c)
      return n + (← lengthBefore ask x rest)) Q t := by
  have hne : c ≠ x := by
    rintro rfl
    rw [Tree.contains_self] at hc
    cases hc
  rw [lengthBefore, if_neg hne, wp.get_bind, hc]
  exact (wp.look_ok (f := (·.isHidden c)) hhidden).trans (by cases hidden <;> rfl)

end

/-- The lengths of visible children that are cached are summed up to the one that holds the target. -/
theorem lengthBefore_at (hsane : t.Sane) (depth : Nat) {children : List NodeId} {parts : List Bytes}
    (hlive : ∀ c ∈ children, t.isLive c = true)
    (hfound : ∃ c ∈ children, t.contains c x = true)
    (hshown : ∀ c ∈ children, t.contains c x = true → t.isHidden c = .ok false)
    (hparts : List.Forall₂ (fun c part => t.cacheOf c = some part)
      (children.filter fun c => t.isHidden c = .ok false) parts)
    (hask : ∀ c ∈ children, ∀ part, t.contains c x = true → t.cacheOf c = some part →
      wp (resolve depth (.lengthUpTo c x)) (fun r _ => Locates t x part r) t) :
    wp (lengthBefore (resolve depth) x children) (fun r _ => Locates t x parts.flatten r) t := by
  induction children generalizing parts with
  | nil =>
    obtain ⟨c, hc, -⟩ := hfound
    cases hc
  | cons c rest ih =>
    cases hc : t.contains c x with
    | true =>
      -- A child that holds the target is visible, so that its bytes come first.
      rw [List.filter_cons_of_pos (by simp [hshown c List.mem_cons_self hc])] at hparts
      cases hparts with
      | @cons _ part _ parts' hpart _ =>
        by_cases heq : c = x
        · subst heq
          refine wp_lengthBefore_self.mpr ?_
          rintro _ ⟨⟩
          exact ⟨part, hpart, (Bytes.At.self part).append parts'.flatten⟩
        · refine (wp_lengthBefore_within heq hc).mpr ?_
          exact (hask c List.mem_cons_self part hc hpart).mono fun _ _ h => h.append parts'.flatten
    | false =>
      have hrest : ∀ {parts' : List Bytes}, List.Forall₂ (fun c part => t.cacheOf c = some part)
          (rest.filter fun c => t.isHidden c = .ok false) parts' →
          wp (lengthBefore (resolve depth) x rest) (fun r _ => Locates t x parts'.flatten r) t := by
        intro parts' hparts'
        obtain ⟨d, hd, hx⟩ := hfound
        have hmem : d ∈ rest := by
          rcases List.mem_cons.mp hd with rfl | hmem
          · exact absurd hx (Bool.not_eq_true _ ▸ hc)
          · exact hmem
        exact ih (fun c hc => hlive c (List.mem_cons_of_mem _ hc)) ⟨d, hmem, hx⟩
          (fun c hc => hshown c (List.mem_cons_of_mem _ hc)) hparts'
          fun c hc => hask c (List.mem_cons_of_mem _ hc)
      obtain ⟨n, hn⟩ := Tree.isLive_iff_node?.mp (hlive c List.mem_cons_self)
      have hhidden : t.isHidden c = .ok n.hidden := Tree.look_of_node? hn _
      refine (wp_lengthBefore_passed hc hhidden).mpr ?_
      cases hflag : n.hidden with
      | true =>
        rw [List.filter_cons_of_neg (by simp [hhidden, hflag])] at hparts
        exact Locates.prepend (hrest hparts) []
      | false =>
        rw [List.filter_cons_of_pos (by simp [hhidden, hflag])] at hparts
        cases hparts with
        | @cons _ part _ parts' hpart hparts' =>
          refine wp.bind.mpr (((length_idle hpart depth).and
            ((recurrent_resolve depth).length c hsane)).mono ?_)
          rintro (e | k) _ ⟨rfl, hafter⟩
          · rintro _ ⟨⟩
          · obtain rfl := hafter.told rfl hpart
            exact Locates.prepend (hrest hparts') part

/-- Where the bytes of a node and of all visible nodes below it are cached, the offset of a node in it is
where the bytes of that node stand. -/
theorem lengthUpTo_at {C : Cell → Prop} {τ : Template} {m : Node} (hsane : t.Sane) (hsteady : t.Steady C τ)
    (htallied : t.Tallied) (hexposed : t.Exposed x) (hx : t.node? x = some m) {y : NodeId} {b : Bytes}
    (hy : t.contains y x = true) (hb : t.cacheOf y = some b) (depth : Nat) :
    wp (resolve depth (.lengthUpTo y x)) (fun r _ => Locates t x b r) t := by
  induction depth generalizing y b with
  | zero =>
    rintro o ⟨⟩
  | succ depth ih =>
    suffices h : wp (lengthUpToStep (resolve depth) y x) (fun r _ => Locates t x b r) t from h
    unfold lengthUpToStep
    split
    · rename_i heq
      subst heq
      rintro _ ⟨⟩
      exact ⟨b, hb, .self b⟩
    rename_i hne
    obtain ⟨n, parts, hn, hfound, hshown, hparts, rfl⟩ := hexposed.children hsteady htallied hx hy hne hb
    have hlive : ∀ c ∈ n.children, t.isLive c = true := fun c hc => by
      obtain ⟨-, l, hl, -⟩ := hsteady.wellFormed.child hn hc
      exact Tree.isLive_iff_node?.mpr ⟨l, hl⟩
    have hbelow := lengthBefore_at hsane depth hlive hfound hshown hparts fun c _ part hc hpart => ih hc hpart
    have hgroup : t.isGroup y = .ok n.kind.isRepeated := Tree.look_of_node? hn _
    have hchildren : t.children y = .ok n.children := Tree.look_of_node? hn _
    rw [wp.look_ok hgroup]
    split
    case' isTrue hrepeated =>
      refine wp.bind.mpr ((Tree.touch_ok hsane.settled (hrepeated ▸ hgroup)).mono ?_)
      rintro _ _ ⟨rfl, rfl⟩
      dsimp only
    all_goals
      rw [wp.look_ok hchildren]
      exact hbelow

end Resolver

-- ---------------------------------------------------------------------------
-- Questions in a row
-- ---------------------------------------------------------------------------

theorem Tree.persists_offset (id : NodeId) : Persists (Tree.offset id) (Tree.offset id) :=
  Persists.readRules.live (b := do Resolver.answerAll (.lengthUpTo (← get).root id)) <|
    Persists.readRules.state (fun _ => rfl) (fun _ => rfl) fun t =>
      Resolver.persists_answerAll (.lengthUpTo t.root id)

namespace Tree

open Resolver

variable {t t' u v : Tree} {x : NodeId}

theorem grounds_offset (id : NodeId) : Preserves Grounds Grounds (Tree.offset id) :=
  .bind .look fun _ => .bind .get fun t => grounds_answerAll (.lengthUpTo t.root id)

theorem Call.grounds (c : Call) (hc : c.Asks) (t : Tree) : Grounds t (c.run t) := by
  cases c with
  | find start path => exact (scopeLaws_grounds.find start path).run t
  | bytes id => exact (grounds_answerAll (.bytes id)).run t
  | value id => exact (grounds_answerAll (.value id)).run t
  | byteLength id => exact (grounds_answerAll (.length id)).run t
  | offset id => exact (grounds_offset id).run t
  | count id => exact (scopeLaws_grounds.count id).run t
  | resize id n => exact hc.elim
  | replaceCell id cell => exact hc.elim
  | invalidate id => exact hc.elim
  | invalidateAll => exact hc.elim

theorem Queried.founds (h : t.Queried t') (hsane : t.Sane) : t.Founds t' := by
  suffices hgrounds : Grounds t t' from hgrounds hsane
  clear hsane
  induction h with
  | refl => exact refl_of Grounds t
  | tail _ hstep ih =>
    refine trans_of Grounds ih ?_
    rcases hstep with ⟨c, hc, rfl⟩ | ⟨c, rfl⟩
    · exact c.grounds hc _
    · intro hsane
      have htargets := c.targets_settled hsane.settled
      unfold wp at htargets
      rw [htargets.1]
      exact .refl _

/-- While nothing but questions was asked between the two trees, the operation came out with `a`. -/
def Tells {α : Type} (t v : Tree) (act : TreeM α) (a : α) : Prop :=
  ∃ u, t.Queried u ∧ (act.run u).1 = .ok a ∧ (act.run u).2.Queried v

/-- What questions have come out with, they come out with later on. -/
theorem Tells.persists {α : Type} {act : TreeM α} {a : α} (h : t.Tells v act a) (hsane : t.Sane)
    (hact : Persists act act) (hgrounds : Preserves Grounds Grounds act) :
    t.Founds v ∧ ∀ w, v.Founds w → (act.run w).1 = .ok a := by
  obtain ⟨u, htu, ha, huv⟩ := h
  have hfounds := htu.founds hsane
  have hsaneu := hfounds.sane hsane
  have hasked : u.Founds (act.run u).2 := (hgrounds u).rel hsaneu
  have hlater := hasked.trans (huv.founds (hasked.sane hsaneu))
  exact ⟨hfounds.trans hlater, fun w hvw => (hact u w ((hlater.trans hvw).eases hsaneu) a ha).1⟩

/-- Whatever has been done to a tree, while all its groups are ready and nothing is cached: if closures fail
once a read of them fails, and codecs are honest, the bytes of an exposed node stand at its offset in those of
the root. Offset and bytes may be asked for in any order, and anything else may be asked in between. -/
theorem Reaches.bytes_at_offset {allowed : Tree → Call → Prop} {τ : Template} {seed : UInt64} {t₀ : Tree}
    (hbuild : build τ seed = .ok t₀) (h : Reaches allowed t₀ t) (hs : t.Settled) (hstraight : t.Straight)
    (hu : t.Uncached) (hexposed : t.Exposed x) {o : Nat} {b c : Bytes} (ho : t.Tells v (offset x) o)
    (hb : t.Tells v (bytes t.root) b) (hc : t.Tells v (bytes x) c) :
    o + c.length ≤ b.length ∧ (b.drop o).take c.length = c := by
  have hsane : t.Sane := ⟨hs, hstraight, h.encoded hbuild⟩
  have hsteady : t.Steady (fun _ => True) τ := ⟨h.wellFormed hbuild, h.models hbuild, hs⟩
  obtain ⟨hfounds, ho⟩ := ho.persists hsane (persists_offset x) (grounds_offset x)
  obtain ⟨-, hb⟩ := hb.persists hsane (persists_answerAll _) (grounds_answerAll _)
  obtain ⟨-, hc⟩ := hc.persists hsane (persists_answerAll _) (grounds_answerAll _)
  -- When all bytes have been asked for once more, they are cached.
  have hsanev := hfounds.sane hsane
  generalize hv₁ : ((bytes t.root).run v).2 = v₁
  generalize hv₂ : ((bytes x).run v₁).2 = v₂
  have hfounds₁ : v.Founds v₁ := hv₁ ▸ (grounds_answerAll (.bytes t.root) v).rel hsanev
  have hsane₁ := hfounds₁.sane hsanev
  have hfounds₂ : v₁.Founds v₂ := hv₂ ▸ (grounds_answerAll (.bytes x) v₁).rel hsane₁
  have hrootCached : v₂.cacheOf t.root = some b :=
    hfounds₂.kept (hv₁ ▸ (hsanev.bytes_cached t.root).cached (hb v (.refl v)))
  have hxCached : v₂.cacheOf x = some c := hv₂ ▸ (hsane₁.bytes_cached x).cached (hc v₁ hfounds₁)
  have hlast : t.Founds v₂ := hfounds.trans (hfounds₁.trans hfounds₂)
  have hsteady₂ := hsteady.like τ.cellsIn_true hlast.toLike
  obtain ⟨n, hn, -⟩ := cacheOf_eq_some.mp hxCached
  obtain ⟨p, hp⟩ := exists_position hsteady₂.wellFormed hn
  have hroot : v₂.contains v₂.root x = true := (contains_iff hsteady₂.wellFormed hn).mpr (below_root hp)
  have hat : wp (offset x) (fun r _ => Locates v₂ x b r) v₂ := by
    unfold offset
    rw [wp.look_ok (node_eq_ok.mpr hn)]
    refine wp.get_bind.mpr ((wp_answerAll (.lengthUpTo v₂.root x)).mpr ?_)
    exact lengthUpTo_at (hlast.sane hsane) hsteady₂ (hu.tallied hlast.toFills)
      (hexposed.of_rests hlast.toRests) hn hroot (hlast.root ▸ hrootCached) _
  obtain ⟨inner, hinner, hat⟩ := hat o (ho v₂ (hfounds₁.trans hfounds₂))
  rw [hxCached] at hinner
  cases hinner
  exact hat.slice

theorem Reaches.bytes_at_offset_framed : ∃ t₀ b c, build framed 7 = .ok t₀ ∧
    let t := ((Call.resize ⟨2⟩ 3).run ((Call.bytes ⟨0⟩).run t₀)).invalidateAll
    let v := (Call.bytes t.root).run ((Call.offset ⟨7⟩).run ((Call.bytes ⟨7⟩).run t))
    t.Settled ∧ t.Straight ∧ t.Uncached ∧ t.Exposed ⟨7⟩ ∧ t.Tells v (offset ⟨7⟩) 3 ∧
      t.Tells v (bytes t.root) b ∧ t.Tells v (bytes ⟨7⟩) c ∧
      3 + c.length ≤ b.length ∧ (b.drop 3).take c.length = c := by
  have hruns : (build framed 7).toOption.any (fun t₀ =>
      let t := ((Call.resize ⟨2⟩ 3).run ((Call.bytes ⟨0⟩).run t₀)).invalidateAll
      let u := (Call.bytes ⟨7⟩).run t
      ((bytes ⟨7⟩).run t).1 = .ok [1] ∧ ((offset ⟨7⟩).run u).1 = .ok 3 ∧
        ((bytes t.root).run ((Call.offset ⟨7⟩).run u)).1 = .ok [3, 1, 1, 1] ∧
        (List.range t.nodes.size).all (fun i => (t.node? ⟨i⟩).all fun n => t.contains ⟨i⟩ ⟨7⟩ →
          (⟨i⟩ ≠ t.root → n.hidden = false) ∧
            (⟨i⟩ ≠ (⟨7⟩ : NodeId) → n.action.isNone = true ∧ n.cell.isUnset = true)) = true) = true := by
    decide +kernel
  obtain ⟨t₀, hbuild, hruns⟩ := exists_build hruns
  obtain ⟨hc, ho, hb, hexposed⟩ := of_decide_eq_true hruns
  have hreach : Reaches (fun _ c => c.Writes (Cell.Strict True)) t₀
      ((Call.resize ⟨2⟩ 3).run ((Call.bytes ⟨0⟩).run t₀)).invalidateAll :=
    .call .invalidateAll (.call (.resize ⟨2⟩ 3) (.call (.bytes ⟨0⟩) (.refl t₀) trivial) trivial) trivial
  obtain ⟨hs, hstraight⟩ := hreach.straight_framed hbuild
  have hu := ((Call.resize ⟨2⟩ 3).run ((Call.bytes ⟨0⟩).run t₀)).uncached_invalidateAll
  have hexposed : Exposed _ ⟨7⟩ := .of_all hexposed
  refine ⟨t₀, [3, 1, 1, 1], [1], hbuild, ?_⟩
  generalize ((Call.resize ⟨2⟩ 3).run ((Call.bytes ⟨0⟩).run t₀)).invalidateAll = t at *
  have hbytes : ∀ id t, Queried t ((Call.bytes id).run t) := fun id t =>
    .single (.inl ⟨.bytes id, trivial, rfl⟩)
  have hoffset : t.Queried ((Call.offset ⟨7⟩).run ((Call.bytes ⟨7⟩).run t)) :=
    (hbytes _ t).tail (.inl ⟨.offset ⟨7⟩, trivial, rfl⟩)
  intro t v
  have hc : t.Tells v (bytes ⟨7⟩) [1] := ⟨t, .refl, hc, .tail (.single (.inl ⟨.offset ⟨7⟩, trivial, rfl⟩))
    (.inl ⟨.bytes t.root, trivial, rfl⟩)⟩
  have ho : t.Tells v (offset ⟨7⟩) 3 := ⟨_, hbytes ⟨7⟩ t, ho, hbytes _ _⟩
  have hb : t.Tells v (bytes t.root) [3, 1, 1, 1] := ⟨_, hoffset, hb, .refl⟩
  exact ⟨hs, hstraight, hu, hexposed, ho, hb, hc,
    Reaches.bytes_at_offset hbuild hreach hs hstraight hu hexposed ho hb hc⟩

end Tree

end FormatFuzz
