-- SUMMARY: Which group a group follows and which nodes it binds, and what keeps to this while paths are followed.
import FormatFuzz.Proofs.Paths
import FormatFuzz.Proofs.Ties

/-!
# Links

The rule of a bound group has a path to the group that it follows, and pairs of fields, by which what is in its
elements is bound to the elements of that group. Both are read off the template (`Template.source`,
`Template.Binds`), and so are the groups that are touched on the way (`Template.Touches`).

Following paths changes the tree, and each binding is made in the tree that the paths before it have left. What is
kept by touching the groups on the way and by each binding is kept by all of it (`Tree.LinkRules.linkElementsWith`).
-/

namespace FormatFuzz

open TreeM

namespace Template

variable {τ : Template} {p q : Position} {path : String} {fields : List (String × String)} {min max : Nat}

/-- The rule of the group at a position. -/
def ruleAt (τ : Template) (p : Position) : Option Multiplicity :=
  match τ.partAt p with
  | some (.repeated _ _ rule, _) => some rule
  | _ => none

/-- A pair of the rule of the group at `p` binds what is at `r` to a field of the element `i` of the source. -/
def Binds (τ : Template) (p : Position) (i : Nat) (pair : String × String) (r : Position) : Prop :=
  ∃ path fields min max, τ.ruleAt p = some (.bound path fields min max) ∧ pair ∈ fields ∧
    τ.follow (i :: p) pair.1 = some r

/-- What a pair binds is found in the element, on a way that does not come back to the group at `p`. -/
def Inner (τ : Template) (p : Position) (i : Nat) (own : String) (r : Position) : Prop :=
  i :: p <:+ r ∧ p ∉ τ.touched (i :: p) own

/-- To initialize a group at the first position may mean to touch one at the second: the group that it follows, or one
on the paths of its rule. -/
inductive Touches (τ : Template) : Position → Position → Prop
  | source {p q : Position} (hsource : τ.source p = some q) : Touches τ p q
  | way {p q : Position} {path : String} {fields : List (String × String)} {min max : Nat}
      (hrule : τ.ruleAt p = some (.bound path fields min max)) (htouched : q ∈ τ.touched (τ.base p) path) :
      Touches τ p q
  | pair {p q : Position} {path : String} {fields : List (String × String)} {min max i : Nat}
      {pair : String × String} (hrule : τ.ruleAt p = some (.bound path fields min max)) (hpair : pair ∈ fields)
      (htouched : q ∈ τ.touched (i :: p) pair.1) : Touches τ p q

theorem ruleAt_eq_some {rule : Multiplicity} : τ.ruleAt p = some rule ↔
    ∃ header element name, τ.partAt p = some (.repeated header element rule, name) := by
  unfold ruleAt
  constructor
  · intro h
    split at h
    · rename_i header element rule' name hpart
      cases h
      exact ⟨header, element, name, hpart⟩
    · cases h
  · rintro ⟨header, element, name, hpart⟩
    rw [hpart]

theorem source_of_rule (h : τ.ruleAt p = some (.bound path fields min max)) :
    τ.source p = τ.follow (τ.base p) path := by
  obtain ⟨header, element, name, hpart⟩ := ruleAt_eq_some.mp h
  rw [source, hpart]

theorem exists_rule_of_source (h : τ.source p = some q) :
    ∃ path fields min max, τ.ruleAt p = some (.bound path fields min max) := by
  unfold source at h
  split at h
  · rename_i hpart
    exact ⟨_, _, _, _, ruleAt_eq_some.mpr ⟨_, _, _, hpart⟩⟩
  · cases h

end Template

namespace Tree

variable {τ : Template} {t s : Tree} {x id : NodeId} {n : Node} {g : Group} {p q : Position}

/-- A group has the rule that the template has where it is. -/
theorem Models.ruleAt (hm : t.Models (fun _ => True) τ τ.name t.root) (hp : t.placed p = some x)
    (hn : t.node? x = some n) (hk : n.kind = .repeated g) : τ.ruleAt p = some g.rule := by
  obtain ⟨header, name, hpart⟩ := hm.rule hp hn hk
  exact Template.ruleAt_eq_some.mpr ⟨header, g.element, name, hpart⟩

/-- Where the template has a rule there is a group with this rule. -/
theorem Models.exists_group {rule : Multiplicity} (hm : t.Models (fun _ => True) τ τ.name t.root)
    (hp : t.placed p = some x) (hrule : τ.ruleAt p = some rule) :
    ∃ n g, t.node? x = some n ∧ n.kind = .repeated g ∧ g.rule = rule := by
  obtain ⟨header, element, name, hpart⟩ := Template.ruleAt_eq_some.mp hrule
  obtain ⟨σ, name', hpart', hmodels⟩ := hm.placed hp
  cases hpart.symm.trans hpart'
  obtain ⟨n, g, hn, -, hk, -, hrule', -⟩ := hmodels
  exact ⟨n, g, hn, hk, hrule'⟩

-- ---------------------------------------------------------------------------
-- Sources
-- ---------------------------------------------------------------------------

section

variable {C : Cell → Prop} {init : NodeId → TreeM Unit} {A : Position → Prop} {I : Tree → Position → Prop}
  {E : Tree → Prop}

/-- The path to the source of a group is followed from the composite around the group. -/
theorem PathRules.sourceWith (rules : PathRules C τ init A I E) {path : String} (hwf : t.WellFormed)
    (hm : t.Models C τ τ.name t.root) (hp : t.placed p = some id) (hA : ∀ q ∈ τ.touched (τ.base p) path, A q)
    (h : I t (τ.base p)) (hroot : I t []) :
    wp (TreeM.sourceWith init id path) (Arrives I E (τ.follow (τ.base p) path)) t := by
  obtain ⟨base, hbase, hpos⟩ := enclosing_placed hwf hm hp
  unfold TreeM.sourceWith
  rw [wp.look_ok hbase, wp.bind, wp.outcome]
  refine (rules.find hpos hA h hroot).mono ?_
  rintro (e | source) t' ⟨hok, herror⟩
  · simp only [wp.bind, wp.get, wp.throw]
    exact .of_error (herror e rfl)
  · obtain ⟨q, hq, hplace, hI⟩ := hok source rfl
    simp only [wp.bind, wp.look]
    cases t'.isGroup source with
    | error e => exact .of_error (rules.fail hI)
    | ok isGroup =>
      cases isGroup with
      | true =>
        simp only [if_true, wp.pure]
        exact .of_ok hq hplace hI
      | false =>
        simp only [Bool.false_eq_true, if_false, wp.bind, wp.look]
        cases t'.fullName source <;> exact .of_error (rules.fail hI)

end

-- ---------------------------------------------------------------------------
-- Bindings
-- ---------------------------------------------------------------------------

/-- What has to be kept so that `P` holds while the group at a position binds what is in its elements, and `R`
relates the trees on the way, or `E` if a path leads nowhere. -/
structure LinkRules (τ : Template) (init : NodeId → TreeM Unit) (p : Position) (P : Tree → Prop)
    (R E : Tree → Tree → Prop) : Prop where
  paths : ∀ {s}, P s → PathRules (fun _ => True) τ init (τ.Touches p) (fun u _ => P u ∧ R s u) (E s)
  evolves : ∀ {s u}, R s u → Evolves (fun _ => True) s u
  refl : ∀ {s}, P s → R s s
  trans : ∀ {s u v}, P s → R s u → R u v → R s v
  left : ∀ {s u v}, P s → R s u → E u v → E s v
  /-- The source was found before, and may have gone since. -/
  bind : ∀ {s u : Tree} {source target : NodeId} {i : Nat} {own field : String} {q r : Position}, P s →
    s.placed q = some source → s.isGroup source = .ok true → R s u → P u → u.placed r = some target →
    τ.source p = some q → τ.Binds p i (own, field) r →
    (τ.Inner p i own r → ∃ element, s.placed (i :: p) = some element ∧ u.placed (i :: p) = some element) →
      let u' := (u.putCell target (.bound (.element source i field))).invalidate target
      P u' ∧ R u u'

namespace LinkRules

variable {init : NodeId → TreeM Unit} {P : Tree → Prop} {R E : Tree → Tree → Prop} (rules : LinkRules τ init p P R E)
  {path : String} {fields : List (String × String)} {min max i : Nat} {source element : NodeId}
  (hrule : τ.ruleAt p = some (.bound path fields min max))

include rules

theorem spare (h : P s) (hR : R s t) (ht : P t) : E s t := (rules.paths h).fail (p := []) ⟨ht, hR⟩

theorem wellFormed (h : P t) : t.WellFormed := (rules.paths h).wellFormed (p := []) ⟨h, rules.refl h⟩

include hrule

/-- A way that ends in an element and does not come back to the group has stayed in the same element. -/
theorem inner (h : P s) (element : NodeId) (i : Nat) (own : String) : PathRules (fun _ => True) τ init
    (fun r => τ.Touches p r ∧ (p ∉ τ.touched (i :: p) own → r ≠ p))
    (fun u r => (P u ∧ R s u) ∧ (τ.Inner p i own r → u.placed (i :: p) = some element)) (E s) where
  wellFormed := fun hu => rules.wellFormed hu.1.1
  models := fun hu => (rules.paths h).models (p := []) hu.1
  fail := fun hu => rules.spare h hu.1.2 hu.1.1
  climb := fun ⟨hu, hkept⟩ habove =>
    ⟨hu, fun ⟨hsuffix, hway⟩ => hkept ⟨hsuffix.trans (Template.above_suffix habove), hway⟩⟩
  descend := by
    rintro u r r' name ⟨hu, hkept⟩ hdescend
    refine ⟨hu, fun ⟨hsuffix, hway⟩ => ?_⟩
    obtain ⟨⟨j, rfl⟩, hrep⟩ := Template.descend_eq_some hdescend
    rcases List.suffix_cons_iff.mp hsuffix with he | hsuffix
    · cases he
      obtain ⟨header, element, name, hpart⟩ := Template.ruleAt_eq_some.mp hrule
      rw [hpart] at hrep
      cases hrep
    · exact hkept ⟨hsuffix, hway⟩
  touch := by
    rintro u r id ⟨⟨hu, hsu⟩, hkept⟩ ⟨htouches, hback⟩ hr hgroup
    refine ((rules.paths hu).touch ⟨hu, rules.refl hu⟩ htouches hr hgroup).mono ?_
    rintro out v ⟨hok, herror⟩
    refine ⟨fun hout => ?_, fun e he => rules.left h hsu (herror e he)⟩
    obtain ⟨⟨hv, huv⟩, hr', -⟩ := hok hout
    have hkept' : τ.Inner p i own r → v.placed (i :: p) = some element := by
      rintro ⟨⟨w, rfl⟩, hway⟩
      exact ((rules.evolves huv).grows (rules.wellFormed hu)).placed_above (rules.wellFormed hu)
        (rules.wellFormed hv) hr (isLive_of_placed (rules.wellFormed hv) hr') (hkept ⟨⟨w, rfl⟩, hway⟩)
    have hstate := And.intro hv (rules.trans h hsu huv)
    refine ⟨⟨hstate, hkept'⟩, hr', fun j => ⟨hstate, fun ⟨hsuffix, hway⟩ => ?_⟩⟩
    rcases List.suffix_cons_iff.mp hsuffix with he | hsuffix
    · cases he
      exact absurd rfl (hback hway)
    · exact hkept' ⟨hsuffix, hway⟩

/-- The pairs are gone through one after the other. The element may be lost on the way. -/
theorem linkElementWith (h : P t) (hsource : τ.source p = some q) (hq : t.placed q = some source)
    (hgroup : t.isGroup source = .ok true) (hR : R t s) (hs : P s) (hold : t.placed (i :: p) = some element) :
    wp (TreeM.linkElementWith init source element i fields) (Related (fun s u => P u ∧ R s u) E s) s := by
  have hwf := rules.wellFormed h
  refine wp.linkElementWith (fun rest u => rest ⊆ fields ∧ P u ∧ R s u) ⟨fun _ hx => hx, hs, rules.refl hs⟩
    (fun u hu => hu.2) fun own field rest u ⟨hsub, hu, hsu⟩ => ?_
  have hplace : u.isLive element = true → u.placed (i :: p) = some element :=
    ((rules.evolves (rules.trans h hR hsu)).grows hwf).placed hwf (rules.wellFormed hu) hold
  have hfound : wp (if own.isEmpty then Pure.pure element else TreeM.findWith init element own)
      (fun r v => (∀ target, r = .ok target → P v ∧ R s v ∧ (v.isLive target = true → ∃ r, v.placed r = some target ∧
        τ.follow (i :: p) own = some r ∧ (τ.Inner p i own r → v.placed (i :: p) = some element))) ∧
        ∀ e, r = .error e → E s v) u := by
    split
    · rename_i hempty
      refine ⟨?_, fun _ he => absurd he.symm error_ne_ok⟩
      rintro _ ⟨⟩
      refine ⟨hu, hsu, fun hlive => ⟨_, hplace hlive, ?_, fun _ => hplace hlive⟩⟩
      rw [String.isEmpty_iff.mp hempty]
      rfl
    · have htouched : ∀ r ∈ τ.touched (i :: p) own, τ.Touches p r ∧ (p ∉ τ.touched (i :: p) own → r ≠ p) :=
        fun r hr => ⟨.pair hrule (hsub List.mem_cons_self) hr, fun hback he => hback (he ▸ hr)⟩
      have hroot : ¬ τ.Inner p i own [] := fun hinner => absurd hinner.1.length_le (by simp)
      refine ((rules.inner hrule hu element i own).find_live hplace htouched
        (fun hlive => ⟨⟨hu, rules.refl hu⟩, fun _ => hplace hlive⟩)
        ⟨⟨hu, rules.refl hu⟩, fun hinner => absurd hinner hroot⟩).mono ?_
      rintro out v ⟨hok, herror⟩
      refine ⟨fun target hout => ?_, fun e he => rules.left hs hsu (herror e he)⟩
      obtain ⟨r, hfollow, hr, ⟨hv, huv⟩, hinner⟩ := hok target hout
      exact ⟨hv, rules.trans hs hsu huv, fun _ => ⟨r, hr, hfollow, hinner⟩⟩
  refine hfound.mono ?_
  rintro (e | target) v ⟨hok, herror⟩
  · exact herror e rfl
  obtain ⟨hv, hsv, htarget⟩ := hok target rfl
  dsimp only
  cases hn : v.node target with
  | error e => exact rules.spare hs hsv hv
  | ok n =>
    obtain ⟨r, hr, hfollow, hinner⟩ := htarget (isLive_iff_node?.mpr ⟨n, node_eq_ok.mp hn⟩)
    obtain ⟨hv', hR'⟩ := rules.bind h hq hgroup (rules.trans h hR hsv) hv hr hsource
      ⟨path, fields, min, max, hrule, hsub List.mem_cons_self, hfollow⟩ fun h => ⟨element, hold, hinner h⟩
    exact ⟨fun _ hx => hsub (List.mem_cons_of_mem _ hx), hv', rules.trans hs hsv hR'⟩

omit hrule in
/-- A group goes through its elements, and binds what its rule says in each. -/
theorem linkElementsWith (h : P t) (hp : t.placed p = some x) :
    wp (TreeM.linkElementsWith init x) (Related (fun s u => P u ∧ R s u) E t) t := by
  have hwf := rules.wellFormed h
  have hm : t.Models (fun _ => True) τ τ.name t.root := (rules.paths h).models (p := []) ⟨h, rules.refl h⟩
  unfold TreeM.linkElementsWith
  cases hg : t.group x with
  | error e => exact (wp.look_error hg).mpr (rules.spare h (rules.refl h) h)
  | ok g => ?_
  obtain ⟨n, hn, hk⟩ := group_eq_ok.mp hg
  have hruleAt := hm.ruleAt hp hn hk
  rw [wp.look_ok hg]
  split
  case h_2 => exact ⟨h, rules.refl h⟩
  rename_i path fields min max hrule
  rw [hrule] at hruleAt
  split
  · exact ⟨h, rules.refl h⟩
  rw [wp.bind]
  refine (((rules.paths h).sourceWith hwf hm hp (fun _ hr => .way hruleAt hr) ⟨h, rules.refl h⟩ ⟨h, rules.refl h⟩).and
    (GroupLaws.sourceWith_isGroup x path t)).mono ?_
  rintro (e | source) s ⟨⟨hok, herror⟩, hgroup⟩
  · exact herror e rfl
  obtain ⟨q, hq, hplace, hs, hts⟩ := hok source rfl
  have hwf' := rules.wellFormed hs
  simp only [wp.bind, wp.look]
  cases hch : s.children x with
  | error e => exact rules.spare h hts hs
  | ok children =>
    obtain ⟨n', hn', rfl⟩ := look_eq_ok.mp hch
    have hp' := ((rules.evolves hts).grows hwf).placed hwf hwf' hp (isLive_iff_node?.mpr ⟨n', hn'⟩)
    refine wp.forIn (fun rest u => rest ⊆ n'.children.zipIdx ∧ P u ∧ R s u) ⟨fun _ hx => hx, hs, rules.refl hs⟩
      (fun u hu => ⟨hu.2.1, rules.trans h hts hu.2.2⟩) ?_
    rintro ⟨element, i⟩ rest u ⟨hsub, hu, hsu⟩
    have hchild : s.placed (i :: p) = some element :=
      placed_cons.mpr ⟨x, n', hp', hn', List.mk_mem_zipIdx_iff_getElem?.mp (hsub List.mem_cons_self)⟩
    rw [wp.bind]
    refine (rules.linkElementWith hruleAt hs ((Template.source_of_rule hruleAt).trans hq) hplace (hgroup source rfl)
      hsu hu hchild).mono ?_
    rintro (e | _) v hv
    · exact rules.left h hts (rules.left hs hsu hv)
    · exact ⟨fun _ hx => hsub (List.mem_cons_of_mem _ hx), hv.1, rules.trans hs hsu hv.2⟩

end LinkRules

end Tree

end FormatFuzz
