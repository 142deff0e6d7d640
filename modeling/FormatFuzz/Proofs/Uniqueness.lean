-- SUMMARY: A tree denotes one answer to a request.
import FormatFuzz.Proofs.Resolution

/-!
# Uniqueness

Nodes can be worked out in more than one way, because a length may be known without the bytes. With
honest codecs all ways lead to the same answer, and a length is that of the bytes
(`Tree.Means.fits`).

The proof compares the answers to one tree's requests with a closed meaning `B`. `Tree.Fits B` is
the largest meaning that agrees with it, and it is closed under the rules as well.
-/

namespace FormatFuzz

namespace Tree

variable {C : Cell → Prop} {τ : Template} {measured : Prop} {t : Tree} {F G : NodeId → Prop}
  {A B D : Meaning} {id x y : NodeId} {n : Node}

-- ---------------------------------------------------------------------------
-- Agreement
-- ---------------------------------------------------------------------------

/-- The answers that agree with those of `B`. -/
def Fits (B : Meaning) : Meaning
  | .bytes id, b =>
    (∀ b', B (.bytes id) b' → b = b') ∧ ∀ k : Nat, B (.length id) k → List.length b = k
  | .value id, v => ∀ v', B (.value id) v' → v = v'
  | .length id, k =>
    (∀ k', B (.length id) k' → k = k') ∧ ∀ b : Bytes, B (.bytes id) b → b.length = k
  | .lengthUpTo within x, k => ∀ k', B (.lengthUpTo within x) k' → k = k'

theorem forall₂_unique {α β : Type} {P Q : α → β → Prop} {xs : List α} {ys zs : List β}
    (hys : List.Forall₂ P xs ys) (hzs : List.Forall₂ Q xs zs)
    (h : ∀ x y z, P x y → Q x z → y = z) : ys = zs := by
  induction hys generalizing zs with
  | nil =>
    cases hzs
    rfl
  | cons hy _ ih =>
    cases hzs with
    | cons hz hzs => rw [h _ _ _ hy hz, ih hzs]

theorem sum_eq_length {α : Type} {P : α → Bytes → Prop} {Q : α → Nat → Prop} {xs : List α}
    {parts : List Bytes} {lengths : List Nat} (hparts : List.Forall₂ P xs parts)
    (hlengths : List.Forall₂ Q xs lengths) (h : ∀ x b k, P x b → Q x k → b.length = k) :
    parts.flatten.length = lengths.sum := by
  induction hparts generalizing lengths with
  | nil =>
    cases hlengths
    rfl
  | cons hb _ ih =>
    cases hlengths with
    | cons hk hlengths =>
      rw [List.flatten_cons, List.length_append, List.sum_cons, h _ _ _ hb hk, ih hlengths]

-- ---------------------------------------------------------------------------
-- Scripts and cells
-- ---------------------------------------------------------------------------

section

variable (hwf : t.WellFormed)

include hwf

theorem Sees.unique {path : String} (hx : Sees τ t F id path x) (hy : Sees τ t G id path y) :
    x = y := by
  obtain ⟨-, p, hp, hx⟩ := hx
  obtain ⟨-, q, hq, hy⟩ := hy
  cases placed_inj hwf hp hq
  exact hx.unique hy

theorem Points.unique {b : Binding} (hx : Points τ t F id b x) (hy : Points τ t G id b y) :
    x = y := by
  cases b with
  | path path =>
    obtain ⟨p, hp, hx⟩ := hx
    obtain ⟨q, hq, hy⟩ := hy
    cases placed_inj hwf hp hq
    exact hx.unique hy
  | element group index field =>
    obtain ⟨-, n, e, hn, he, hx⟩ := hx
    obtain ⟨-, n', e', hn', he', hy⟩ := hy
    rw [hn] at hn'
    cases hn'
    rw [he] at he'
    cases he'
    rcases hx with ⟨hempty, rfl⟩ | ⟨hfield, p, hp, hx⟩
    · rcases hy with ⟨-, rfl⟩ | ⟨hfield, -⟩
      · rfl
      · rw [hempty] at hfield
        cases hfield
    · rcases hy with ⟨hempty, -⟩ | ⟨-, q, hq, hy⟩
      · rw [hempty] at hfield
        cases hfield
      · cases placed_inj hwf hp hq
        exact hx.unique hy

theorem Answers.unique {q : Query} {a b : q.Answer}
    (ha : Answers τ measured t F (Fits B) id q a) (hb : Answers τ measured t G B id q b) :
    a = b := by
  cases q with
  | bytes path =>
    obtain ⟨x, hx, ha⟩ := ha
    obtain ⟨y, hy, hb⟩ := hb
    cases hx.unique hwf hy
    exact ha.1 b hb
  | value path =>
    obtain ⟨x, hx, ha⟩ := ha
    obtain ⟨y, hy, hb⟩ := hb
    cases hx.unique hwf hy
    exact ha b hb
  | count path =>
    obtain ⟨x, n, hx, hn, rfl⟩ := ha
    obtain ⟨y, m, hy, hm, rfl⟩ := hb
    cases hx.unique hwf hy
    rw [hn] at hm
    cases hm
    rfl
  | length path =>
    obtain ⟨-, x, hx, ha⟩ := ha
    obtain ⟨-, y, hy, hb⟩ := hb
    cases hx.unique hwf hy
    exact ha.1 b hb
  | offset path =>
    obtain ⟨-, x, -, hx, ha⟩ := ha
    obtain ⟨-, y, -, hy, hb⟩ := hb
    cases hx.unique hwf hy
    exact ha b hb
  | generator => exact Except.ok.inj (ha.symm.trans hb)
  | field path => exact ha.elim
  | fullName z => exact ha.elim
  | base => exact ha.elim
  | reader => exact ha.elim

theorem Yields.unique {α : Type} {s : Script α} {v w : α}
    (hv : s.Yields (Answers τ measured t F (Fits B) id) v)
    (hw : s.Yields (Answers τ measured t G B id) w) : v = w :=
  Script.Yields.unique hv hw fun _ _ _ => Answers.unique hwf

theorem Reduces.unique {cell : Cell} {v w : Option Value}
    (hv : Reduces τ measured t F (Fits B) id cell v) (hw : Reduces τ measured t G B id cell w) :
    v = w := by
  cases cell with
  | unset => exact hv.trans hw.symm
  | literal v => exact hv.trans hw.symm
  | deferred s =>
    obtain ⟨v, rfl, hv⟩ := hv
    obtain ⟨w, rfl, hw⟩ := hw
    rw [Yields.unique hwf hv hw]
  | computed f sources =>
    obtain ⟨v, rfl, hv⟩ := hv
    obtain ⟨w, rfl, hw⟩ := hw
    rw [Yields.unique hwf hv hw]
  | bound b =>
    obtain ⟨v, x, rfl, -, hx, hv⟩ := hv
    obtain ⟨w, y, rfl, -, hy, hw⟩ := hw
    cases hx.unique hwf hy
    rw [hv w hw]

theorem Content.unique {cell : Cell} {kind : LeafKind} {v w : Value}
    (hv : Content τ measured t F (Fits B) id cell kind v)
    (hw : Content τ measured t G B id cell kind w) : v = w := by
  rcases hv with hv | ⟨hnone, g, hg, hv⟩
  · rcases hw with hw | ⟨hnone, -⟩
    · exact Option.some.inj (hv.unique hwf hw)
    · cases hv.unique hwf hnone
  · rcases hw with hw | ⟨-, g', hg', hw⟩
    · cases hnone.unique hwf hw
    · rw [hg] at hg'
      cases hg'
      rw [hv] at hw
      exact Except.ok.inj hw

-- ---------------------------------------------------------------------------
-- Bytes
-- ---------------------------------------------------------------------------

theorem Raw.unique {a b : Bytes} (ha : Raw τ measured t F (Fits B) id n a)
    (hb : Raw τ measured t G B id n b) : a = b := by
  unfold Raw at ha hb
  cases hk : n.kind.leaf? with
  | some kind =>
    rw [hk] at ha hb
    obtain ⟨v, hv, ha⟩ := ha
    obtain ⟨w, hw, hb⟩ := hb
    cases hv.unique hwf hw
    rw [ha] at hb
    exact Except.ok.inj hb
  | none =>
    rw [hk] at ha hb
    rcases ha with ⟨v, hv, rfl⟩ | ⟨hnone, shown, parts, hshown, hparts, rfl⟩
    · rcases hb with ⟨w, hw, rfl⟩ | ⟨hnone, -⟩
      · cases hv.unique hwf hw
        rfl
      · cases hv.unique hwf hnone
    · rcases hb with ⟨w, hw, -⟩ | ⟨-, shown', parts', hshown', hparts', rfl⟩
      · cases hnone.unique hwf hw
      · rw [hshown] at hshown'
        cases hshown'
        rw [forall₂_unique hparts hparts' fun _ _ _ h h' => h.1 _ h']

theorem Fresh.unique {a b : Bytes} (ha : Fresh τ measured t F (Fits B) id n a)
    (hb : Fresh τ measured t G B id n b) : a = b := by
  obtain ⟨raw, hraw, ha⟩ := ha
  obtain ⟨raw', hraw', hb⟩ := hb
  cases hraw.unique hwf hraw'
  cases hf : n.action with
  | none =>
    rw [hf] at ha hb
    exact ha.trans hb.symm
  | some f =>
    rw [hf] at ha hb
    obtain ⟨v, hv, ha⟩ := ha
    obtain ⟨w, hw, hb⟩ := hb
    cases Yields.unique hwf hv hw
    rw [ha] at hb
    exact Except.ok.inj hb

theorem Worth.unique {v w : Value} (hv : Worth τ measured t F (Fits B) id n v)
    (hw : Worth τ measured t G B id n w) : v = w := by
  unfold Worth at hv hw
  cases hk : n.kind.leaf? with
  | some kind =>
    rw [hk] at hv hw
    exact hv.unique hwf hw
  | none =>
    rw [hk] at hv hw
    obtain ⟨b, hb, rfl⟩ := hv
    obtain ⟨b', hb', rfl⟩ := hw
    rw [hb.1 b' hb']

end

-- ---------------------------------------------------------------------------
-- Lengths
-- ---------------------------------------------------------------------------

theorem LeafKind.length_of_fixed {kind : LeafKind} {v : Value} {b : Bytes} {m : Nat}
    (hfixed : kind.fixedLength? = some m) (hb : kind.encode "" v = .ok b) : b.length = m := by
  cases kind with
  | int spec =>
    cases hfixed
    unfold LeafKind.encode at hb
    dsimp only at hb
    cases hv : v.int? with
    | none =>
      rw [hv] at hb
      cases hb
    | some i =>
      rw [hv] at hb
      cases hb
      exact spec.packing.length_pack i
  | str spec => cases hfixed
  | bool =>
    cases hfixed
    cases v with
    | bytes b => cases hb
    | int i =>
      cases hb
      rfl
    | bool c =>
      cases hb
      rfl
  | custom codec => cases hfixed

/-- What the rule for a node's length says about its bytes. -/
theorem Fresh.by_rule {b : Bytes} (hb : Fresh τ measured t F D id n b) :
    match Resolver.lengthRule n with
    | .codec codec => n.kind = .leaf (.custom codec) ∧ ∃ v, codec.encode v = .ok b
    | .fixed m => b.length = m
    | .encode => True
    | .children => ∃ shown parts, t.shownChildren id = .ok shown ∧
        List.Forall₂ (fun c b => D (.bytes c) b) shown parts ∧ b = parts.flatten := by
  obtain ⟨raw, hraw, hb⟩ := hb
  unfold Resolver.lengthRule
  cases hf : n.action with
  | some f => trivial
  | none =>
    rw [hf] at hb
    subst hb
    have hchildren : ∀ {kind : NodeKind}, n.kind = kind → kind.leaf? = none →
        match (if n.cell.isUnset then Resolver.LengthRule.children else .encode) with
        | .codec codec => kind = .leaf (.custom codec) ∧ ∃ v, codec.encode v = .ok b
        | .fixed m => b.length = m
        | .encode => True
        | .children => ∃ shown parts, t.shownChildren id = .ok shown ∧
            List.Forall₂ (fun c b => D (.bytes c) b) shown parts ∧ b = parts.flatten := by
      intro kind hk hleaf
      unfold Raw at hraw
      rw [hk, hleaf] at hraw
      cases hcell : n.cell with
      | unset =>
        rw [hcell] at hraw
        rcases hraw with ⟨v, hv, -⟩ | ⟨-, hparts⟩
        · cases hv
        · exact hparts
      | literal v => trivial
      | deferred s => trivial
      | computed f sources => trivial
      | bound b => trivial
    cases hk : n.kind with
    | leaf kind =>
      unfold Raw at hraw
      rw [hk] at hraw
      obtain ⟨v, -, henc⟩ := hraw
      cases kind with
      | int spec => exact LeafKind.length_of_fixed rfl henc
      | str spec => trivial
      | bool => exact LeafKind.length_of_fixed rfl henc
      | custom codec => exact ⟨rfl, v, henc⟩
    | composite => exact hchildren hk rfl
    | repeated g => exact hchildren hk rfl

section

variable (hcodec : ∀ codec, n.kind = .leaf (.custom codec) → codec.Honest)

include hcodec

/-- Bytes that agree with `B` agree with its lengths. -/
theorem Fresh.length_eq {b : Bytes} {k : Nat} (hb : Fresh τ measured t F (Fits B) id n b)
    (hbytes : ∀ b', B (.bytes id) b' → b = b') (hk : Extent t B id n k) : b.length = k := by
  have hrule := hb.by_rule
  unfold Extent at hk
  cases hlength : Resolver.lengthRule n with
  | codec codec =>
    rw [hlength] at hrule hk
    obtain ⟨hkind, v, hv⟩ := hrule
    exact hcodec codec hkind v k b hk hv
  | fixed m =>
    rw [hlength] at hrule hk
    rcases hk with rfl | ⟨b', hb', rfl⟩
    · exact hrule
    · rw [hbytes b' hb']
  | encode =>
    rw [hlength] at hk
    obtain ⟨b', hb', rfl⟩ := hk
    rw [hbytes b' hb']
  | children =>
    rw [hlength] at hrule hk
    rcases hk with ⟨b', hb', rfl⟩ | ⟨shown', lengths, hshown', hlengths, rfl⟩
    · rw [hbytes b' hb']
    · obtain ⟨shown, parts, hshown, hparts, rfl⟩ := hrule
      rw [hshown] at hshown'
      cases hshown'
      exact sum_eq_length hparts hlengths fun _ _ _ hb hk => hb.2 _ hk

/-- Lengths that agree with `B` agree with its bytes. -/
theorem Extent.length_eq {b : Bytes} {k : Nat} (hk : Extent t (Fits B) id n k)
    (hB : B (.bytes id) b) (hb : Fresh τ measured t G B id n b) : b.length = k := by
  have hrule := hb.by_rule
  have hbytes : (∃ b', Fits B (.bytes id) b' ∧ k = List.length b') → b.length = k := by
    rintro ⟨b', hb', rfl⟩
    rw [hb'.1 b hB]
  unfold Extent at hk
  cases hlength : Resolver.lengthRule n with
  | codec codec =>
    rw [hlength] at hrule hk
    obtain ⟨hkind, v, hv⟩ := hrule
    exact hcodec codec hkind v k b hk hv
  | fixed m =>
    rw [hlength] at hrule hk
    rcases hk with rfl | hk
    · exact hrule
    · exact hbytes hk
  | encode =>
    rw [hlength] at hk
    exact hbytes hk
  | children =>
    rw [hlength] at hrule hk
    rcases hk with hk | ⟨shown', lengths, hshown', hlengths, rfl⟩
    · exact hbytes hk
    · obtain ⟨shown, parts, hshown, hparts, rfl⟩ := hrule
      rw [hshown] at hshown'
      cases hshown'
      exact sum_eq_length hparts hlengths fun _ _ _ hb hk => hk.2 _ hb

end

theorem Extent.unique {k k' : Nat} (hk : Extent t (Fits B) id n k)
    (hbytes : ∀ b : Bytes, B (.bytes id) b → b.length = k) (hB : B (.length id) k')
    (hk' : Extent t B id n k') : k = k' := by
  have hfits : (∃ b, Fits B (.bytes id) b ∧ k = List.length b) → k = k' := by
    rintro ⟨b, hb, rfl⟩
    exact hb.2 k' hB
  have hof : (∃ b, B (.bytes id) b ∧ k' = List.length b) → k = k' := by
    rintro ⟨b, hb, rfl⟩
    exact (hbytes b hb).symm
  unfold Extent at hk hk'
  cases hlength : Resolver.lengthRule n with
  | codec codec =>
    rw [hlength] at hk hk'
    exact Except.ok.inj (hk.symm.trans hk')
  | fixed m =>
    rw [hlength] at hk hk'
    rcases hk with rfl | hk
    · rcases hk' with rfl | hk'
      · rfl
      · exact hof hk'
    · exact hfits hk
  | encode =>
    rw [hlength] at hk
    exact hfits hk
  | children =>
    rw [hlength] at hk hk'
    rcases hk with hk | ⟨shown, lengths, hshown, hlengths, rfl⟩
    · exact hfits hk
    · rcases hk' with hk' | ⟨shown', lengths', hshown', hlengths', rfl⟩
      · exact hof hk'
      · rw [hshown] at hshown'
        cases hshown'
        rw [forall₂_unique hlengths hlengths' fun _ _ _ hk hk' => hk.1 _ hk']

theorem Before.unique {children : List NodeId} {k k' : Nat} (hk : Before t (Fits B) x children k)
    (hk' : Before t B x children k') : k = k' := by
  induction children generalizing k k' with
  | nil => exact Eq.trans hk hk'.symm
  | cons c rest ih =>
    unfold Before at hk hk'
    split at hk
    · rename_i hc
      rw [if_pos hc] at hk'
      exact hk.trans hk'.symm
    · rename_i hc
      rw [if_neg hc] at hk'
      split at hk
      · rename_i hcontains
        rw [if_pos hcontains] at hk'
        exact hk k' hk'
      · rename_i hcontains
        rw [if_neg hcontains] at hk'
        obtain ⟨a, b, ha, hb, rfl⟩ := hk
        obtain ⟨a', b', ha', hb', rfl⟩ := hk'
        rw [ih hb hb']
        congr 1
        rcases ha with ⟨hh, rfl⟩ | ⟨hh, ha⟩
        · rcases ha' with ⟨-, rfl⟩ | ⟨hh', -⟩
          · rfl
          · rw [hh] at hh'
            cases hh'
        · rcases ha' with ⟨hh', -⟩ | ⟨-, ha'⟩
          · rw [hh] at hh'
            cases hh'
          · exact ha.1 a' ha'

-- ---------------------------------------------------------------------------
-- Denotation
-- ---------------------------------------------------------------------------

/-- Answers that agree with those of the tree lead to answers that do. -/
theorem Means.fits (hwf : t.WellFormed) (hcodec : measured → ∀ {id n codec}, t.node? id = some n →
      n.kind = .leaf (.custom codec) → codec.Honest) {r : Request} {v : r.Answer}
    (hv : Means τ measured t F (Fits (Denotes τ measured t G)) r v) :
    Fits (Denotes τ measured t G) r v := by
  cases r with
  | bytes id =>
    obtain ⟨-, n, hn, hb⟩ := hv
    have hbytes : ∀ b', Denotes τ measured t G (.bytes id) b' → v = b' := by
      intro b' hb'
      obtain ⟨-, n', hn', hb'⟩ := denotes_iff.mp hb'
      rw [hn] at hn'
      cases hn'
      exact hb.unique hwf hb'
    refine ⟨hbytes, fun k hk => ?_⟩
    obtain ⟨hmeasured, -, n', hn', hk⟩ := denotes_iff.mp hk
    rw [hn] at hn'
    cases hn'
    exact hb.length_eq (fun codec => hcodec hmeasured hn) hbytes hk
  | value id =>
    obtain ⟨-, n, hn, hv⟩ := hv
    intro v' hv'
    obtain ⟨-, n', hn', hv'⟩ := denotes_iff.mp hv'
    rw [hn] at hn'
    cases hn'
    exact hv.unique hwf hv'
  | length id =>
    obtain ⟨hmeasured, -, n, hn, hk⟩ := hv
    have hbytes : ∀ b : Bytes, Denotes τ measured t G (.bytes id) b → b.length = v := by
      intro b hb
      obtain ⟨-, n', hn', hb'⟩ := denotes_iff.mp hb
      rw [hn] at hn'
      cases hn'
      exact hk.length_eq (fun codec => hcodec hmeasured hn) hb hb'
    refine ⟨fun k' hk' => ?_, hbytes⟩
    obtain ⟨-, -, n', hn', hextent⟩ := denotes_iff.mp hk'
    rw [hn] at hn'
    cases hn'
    exact hk.unique hbytes hk' hextent
  | lengthUpTo within x =>
    obtain ⟨-, -, -, hcase⟩ := hv
    intro k' hk'
    obtain ⟨-, -, -, hcase'⟩ := denotes_iff.mp hk'
    rcases hcase with ⟨heq, rfl⟩ | ⟨hne, n, hn, hk⟩
    · rcases hcase' with ⟨-, rfl⟩ | ⟨hne, -⟩
      · rfl
      · exact absurd heq hne
    · rcases hcase' with ⟨heq, -⟩ | ⟨-, n', hn', hk'⟩
      · exact absurd heq hne
      · rw [hn] at hn'
        cases hn'
        exact hk.unique hk'

/-- A node stands for one byte string at most. -/
theorem Denotes.unique (hwf : t.WellFormed)
    (hcodec : measured → ∀ {id n codec}, t.node? id = some n →
      n.kind = .leaf (.custom codec) → codec.Honest) {b b' : Bytes}
    (hb : Denotes τ measured t F (.bytes id) b) (hb' : Denotes τ measured t G (.bytes id) b') :
    b = b' :=
  (hb.induct (D := Fits (Denotes τ measured t G)) fun _ _ => Means.fits hwf hcodec).1 b' hb'

end Tree

end FormatFuzz
