-- SUMMARY: Paths in trees whose groups are all ready.
import FormatFuzz.Proofs.GroupLaws
import FormatFuzz.Proofs.Positions

/-!
# Paths

When all groups of a tree are ready, following a path changes nothing, and it ends where the
template says that it leads (`Tree.find_leads`).
-/

namespace FormatFuzz

-- ---------------------------------------------------------------------------
-- Names in paths
-- ---------------------------------------------------------------------------

/-- The name in a step has no bracket. -/
def Step.Plain : Step → Prop
  | .descend name _ => '[' ∉ name.toList
  | _ => True

theorem Path.readStep_plain (text : List Char) : (readStep text).Plain := by
  unfold readStep
  split
  · trivial
  · cases h : splitBrackets text with
    | none => trivial
    | some step =>
      obtain ⟨name, indices⟩ := step
      unfold splitBrackets at h
      obtain ⟨indices', -, heq⟩ := Option.bind_eq_some_iff.mp h
      cases heq
      intro hmem
      rw [String.toList_ofList] at hmem
      have hall := List.all_takeWhile (p := (· ≠ '[')) (l := text)
      rw [List.all_eq_true] at hall
      exact absurd (hall '[' hmem) (by decide)

theorem Path.parse_plain {text : String} {step : Step} (h : step ∈ (parse text).steps) :
    step.Plain := by
  have hread : ∀ {text : List Char}, step ∈ readSteps text → step.Plain := by
    intro text h
    obtain ⟨piece, -, rfl⟩ := List.mem_map.mp h
    exact readStep_plain piece
  unfold parse at h
  split at h
  · exact hread h
  · exact hread h

/-- The names of elements have one. -/
theorem bracket_mem_element (name : String) (i : Nat) : '[' ∈ (s!"{name}[{i}]").toList := by
  simp [String.toList_append, ToString.toString]

namespace Tree

variable {C : Cell → Prop} {τ : Template} {t : Tree} {id : NodeId} {n : Node} {p q : Position}

-- ---------------------------------------------------------------------------
-- Enclosing composites
-- ---------------------------------------------------------------------------

theorem compositeAbove_none (fuel : Nat) : t.compositeAbove fuel none = .ok none := by
  cases fuel <;> rfl

theorem compositeAbove_placed (hwf : t.WellFormed) (hm : t.Models C τ τ.name t.root) {fuel : Nat} (i : Nat)
    (hp : t.placed p = some id) (hfuel : p.length < fuel) :
    t.compositeAbove fuel (some id) = .ok ((τ.above (i :: p)).bind t.placed) := by
  induction p generalizing id fuel i with
  | nil =>
    obtain ⟨fuel, rfl⟩ : ∃ f, fuel = f + 1 := ⟨fuel - 1, by omega⟩
    obtain ⟨n, hn, hnone⟩ := hwf.root
    cases hp
    obtain ⟨σ, name, hpart, hmodels⟩ := hm.placed (p := []) rfl
    rw [compositeAbove, node_eq_ok.mpr hn, ok_bind, (hmodels.kind hn).1, Template.above, hpart,
      Option.any_some]
    cases σ.isComposite with
    | true => rfl
    | false =>
      rw [hnone]
      exact compositeAbove_none fuel
  | cons j p ih =>
    obtain ⟨fuel, rfl⟩ : ∃ f, fuel = f + 1 := ⟨fuel - 1, by omega⟩
    obtain ⟨above, m, hpa, hma, hi⟩ := placed_cons.mp hp
    obtain ⟨-, n, hn, hparent⟩ := hwf.child hma (List.mem_of_getElem? hi)
    obtain ⟨σ, name, hpart, hmodels⟩ := hm.placed hp
    rw [compositeAbove, node_eq_ok.mpr hn, ok_bind, (hmodels.kind hn).1, Template.above, hpart,
      Option.any_some]
    cases σ.isComposite with
    | true =>
      simp [hp]
    | false =>
      rw [hparent]
      exact ih j hpa (by rw [List.length_cons] at hfuel; omega)

theorem placed_above (hp : t.placed p = some id) (hq : τ.above p = some q) :
    ∃ x, t.placed q = some x := by
  induction p generalizing id with
  | nil => cases hq
  | cons i p ih =>
    obtain ⟨above, m, hpa, -, -⟩ := placed_cons.mp hp
    rw [Template.above] at hq
    split at hq
    · cases hq
      exact ⟨above, hpa⟩
    · exact ih hpa hq

/-- The composite around a node is where the template says. -/
theorem enclosing_placed (hwf : t.WellFormed) (hm : t.Models C τ τ.name t.root)
    (hp : t.placed p = some id) :
    ∃ base, t.enclosing id = .ok base ∧ t.placed (τ.base p) = some base := by
  obtain ⟨n, hn⟩ := live_of_placed hwf hp
  have habove : t.compositeAbove (id.index + 1) n.parent = .ok ((τ.above p).bind t.placed) := by
    cases p with
    | nil =>
      cases hp
      obtain ⟨r, hr, hnone⟩ := hwf.root
      rw [hn] at hr
      cases hr
      rw [hnone]
      exact compositeAbove_none _
    | cons i p =>
      obtain ⟨above, m, hpa, hma, hi⟩ := placed_cons.mp hp
      have hparent := hwf.parent_of_mem hma (List.mem_of_getElem? hi) hn
      have hlt := (hwf.child hma (List.mem_of_getElem? hi)).1
      have hle := length_le_index hwf hpa
      rw [hparent]
      exact compositeAbove_placed hwf hm i hpa (by omega)
  unfold enclosing Template.base
  rw [node_eq_ok.mpr hn, ok_bind, habove, ok_bind]
  cases hq : τ.above p with
  | none => exact ⟨id, rfl, hp⟩
  | some q =>
    obtain ⟨x, hx⟩ := placed_above hp hq
    exact ⟨x, by simp [hx], hx⟩

-- ---------------------------------------------------------------------------
-- Settled trees
-- ---------------------------------------------------------------------------

/-- All groups have their elements. -/
def Settled (t : Tree) : Prop :=
  ∀ ⦃id n g⦄, t.node? id = some n → n.kind = .repeated g → g.phase = .ready

/-- In a tree at hand, nodes can be checked one after the other. -/
theorem holds_of_all {p : Node → Bool} (h : t.nodes.all (·.all p) = true) (hn : t.node? id = some n) :
    p n = true := by
  have hlt := lt_size hn
  have hchecked := Array.all_eq_true.mp h id.index hlt
  unfold node? at hn
  rw [Array.getElem?_eq_getElem hlt, Option.join_some] at hn
  rwa [hn, Option.all_some] at hchecked

theorem Settled.of_all (h : t.nodes.all (·.all fun n => n.kind.group?.all (·.phase = .ready)) = true) :
    t.Settled := by
  intro id n g hn hk
  have hready := holds_of_all h hn
  simpa [hk, NodeKind.group?] using hready

theorem Settled.group (h : t.Settled) {g : Group} (hg : t.group id = .ok g) : g.phase = .ready := by
  obtain ⟨n, hn, hk⟩ := group_eq_ok.mp hg
  exact h hn hk

/-- A path leads from a node to another one, whose position is where the path leads
in the template. -/
def Leads (τ : Template) (t : Tree) (p : Position) (path : String) (target : NodeId) : Prop :=
  ∃ q, τ.follow p path = some q ∧ t.placed q = some target

section

variable {init : NodeId → TreeM Unit}

theorem touchWith_settled (h : t.Settled) (id : NodeId) :
    wp (TreeM.touchWith init id) (fun _ t' => t' = t) t := by
  unfold TreeM.touchWith
  simp only [wp.bind, wp.look]
  cases hg : t.group id with
  | error e => trivial
  | ok g =>
    dsimp only
    rw [h.group hg]
    trivial

theorem countWith_settled (h : t.Settled) (id : NodeId) :
    wp (TreeM.countWith init id) (fun r t' => t' = t ∧ ∀ k, r = .ok k →
      ∃ n, t.node? id = some n ∧ n.kind.isRepeated = true ∧ n.children.length = k) t := by
  unfold TreeM.countWith
  simp only [wp.bind, wp.look]
  cases hg : t.group id with
  | error e => exact ⟨trivial, fun k hk => by cases hk⟩
  | ok g =>
    dsimp only
    rw [h.group hg]
    obtain ⟨n, hn, hk⟩ := group_eq_ok.mp hg
    simp only [wp.bind, wp.look, children, look_of_node? hn, wp.pure]
    refine ⟨trivial, fun k hk' => ?_⟩
    cases hk'
    exact ⟨n, hn, NodeKind.isRepeated_iff.mpr ⟨g, hk⟩, rfl⟩

/-- The child of a composite by its name is the field by its name. -/
theorem ModelsAll.find? {τs : List Template} {ids : List NodeId} {name : String} {x : NodeId}
    (h : t.ModelsAll C τs ids)
    (hx : ids.find? (fun child => (t.node? child).any (·.name = name)) = some x) :
    ∃ i, τs.findIdx? (·.name = name) = some i ∧ ids[i]? = some x := by
  induction τs generalizing ids with
  | nil =>
    cases h
    cases hx
  | cons σ rest ih =>
    obtain ⟨id, ids', rfl, hid, hrest⟩ := h
    obtain ⟨n, hn, hb⟩ := hid.live
    rw [List.find?_cons, hn, Option.any_some, hb.name] at hx
    rw [List.findIdx?_cons]
    by_cases hname : σ.name = name
    · simp only [hname, decide_true] at hx ⊢
      cases hx
      exact ⟨0, rfl, rfl⟩
    · simp only [hname, decide_false] at hx ⊢
      obtain ⟨i, hi, hget⟩ := ih hrest hx
      exact ⟨i + 1, by simp [hi], hget⟩

theorem childNamed_placed (hm : t.Models C τ τ.name t.root) (hp : t.placed p = some id)
    {name : String} (hplain : '[' ∉ name.toList) {x : NodeId}
    (hx : t.childNamed id name = .ok (some x)) :
    ∃ q, τ.descend name p = some q ∧ t.placed q = some x := by
  obtain ⟨σ, own, hpart, hmodels⟩ := hm.placed hp
  unfold childNamed children at hx
  cases σ with
  | leaf h kind =>
    obtain ⟨n, hn, -, -, hch⟩ := hmodels
    rw [look_of_node? hn, hch] at hx
    cases hx
  | composite h fields =>
    obtain ⟨n, hn, -, -, hch⟩ := hmodels
    rw [look_of_node? hn, ok_bind, pure_eq_ok] at hx
    obtain ⟨i, hi, hget⟩ := hch.find? (Except.ok.inj hx)
    refine ⟨i :: p, ?_, placed_cons.mpr ⟨id, n, hp, hn, hget⟩⟩
    rw [Template.descend, hpart]
    simp [hi]
  | repeated h element rule =>
    obtain ⟨n, g, hn, -, -, -, -, hch⟩ := hmodels
    rw [look_of_node? hn, ok_bind, pure_eq_ok] at hx
    have hfound := Except.ok.inj hx
    obtain ⟨i, hi⟩ := List.mem_iff_getElem?.mp (List.mem_of_find?_eq_some hfound)
    obtain ⟨m, hm', hb⟩ := (hch i x hi).live
    have hname := List.find?_some hfound
    rw [hm', Option.any_some, decide_eq_true_iff, hb.name] at hname
    exact absurd (hname ▸ bracket_mem_element own i) hplain

end

-- ---------------------------------------------------------------------------
-- Following paths
-- ---------------------------------------------------------------------------

/-- Whatever groups of `A` are initialized on the way, `I` holds of the tree and the position that a path has led to
so far, and `E` holds where it ends without success. -/
structure PathRules (C : Cell → Prop) (τ : Template) (init : NodeId → TreeM Unit) (A : Position → Prop)
    (I : Tree → Position → Prop) (E : Tree → Prop) : Prop where
  wellFormed : ∀ {t p}, I t p → t.WellFormed
  models : ∀ {t p}, I t p → t.Models C τ τ.name t.root
  fail : ∀ {t p}, I t p → E t
  climb : ∀ {t p q}, I t p → τ.above p = some q → I t q
  descend : ∀ {t p q name}, I t p → τ.descend name p = some q → I t q
  /-- A group is touched before one of its elements is picked. -/
  touch : ∀ {t p id}, I t p → A p → t.placed p = some id → t.isGroup id = .ok true →
    wp (TreeM.touchWith init id) (fun r t' => (r = .ok () → I t' p ∧ t'.placed p = some id ∧ ∀ i, I t' (i :: p)) ∧
      ∀ e, r = .error e → E t') t

/-- What is known of a path that has been followed. -/
def Arrives (I : Tree → Position → Prop) (E : Tree → Prop) (target : Option Position)
    (r : Except TreeError NodeId) (t : Tree) : Prop :=
  (∀ x, r = .ok x → ∃ q, target = some q ∧ t.placed q = some x ∧ I t q) ∧ ∀ e, r = .error e → E t

section

variable {init : NodeId → TreeM Unit} {A : Position → Prop} {I : Tree → Position → Prop} {E : Tree → Prop}
  {target : Option Position}

theorem Arrives.of_error {e : TreeError} (h : E t) : Arrives I E target (.error e) t :=
  ⟨fun _ hx => absurd hx error_ne_ok, fun _ _ => h⟩

theorem Arrives.of_ok (hq : target = some q) (hid : t.placed q = some id) (h : I t q) :
    Arrives I E target (.ok id) t := by
  refine ⟨fun x hx => ?_, fun e he => absurd he.symm error_ne_ok⟩
  cases hx
  exact ⟨q, hq, hid, h⟩

namespace PathRules

variable (rules : PathRules C τ init A I E)

include rules

theorem pickWith (failure : Tree → TreeError) (h : I t p) (hA : A p) (hp : t.placed p = some id) (i : Nat) :
    wp (TreeM.pickWith init failure id i) (Arrives I E (τ.pick p i)) t := by
  obtain ⟨n, hn⟩ := live_of_placed (rules.wellFormed h) hp
  obtain ⟨σ, name, hpart, hmodels⟩ := (rules.models h).placed hp
  unfold TreeM.pickWith
  simp only [wp.bind, wp.look, isGroup, look_of_node? hn]
  cases hrep : n.kind.isRepeated with
  | false =>
    simp only [Bool.false_eq_true, if_false, wp.bind, wp.get, wp.throw]
    exact .of_error (rules.fail h)
  | true =>
    simp only [if_true, wp.bind]
    have hgroup : t.isGroup id = .ok true := by rw [isGroup, look_of_node? hn, hrep]
    refine (rules.touch h hA hp hgroup).mono ?_
    rintro (e | _) t' ⟨hok, herror⟩
    · exact .of_error (herror e rfl)
    · obtain ⟨h', hp', helement⟩ := hok rfl
      obtain ⟨n', hn'⟩ := live_of_placed (rules.wellFormed h') hp'
      simp only [wp.look, children, look_of_node? hn']
      cases hi : n'.children[i]? with
      | none =>
        simp only [wp.bind, wp.get, wp.throw]
        exact .of_error (rules.fail h')
      | some x =>
        refine .of_ok (q := i :: p) ?_ (placed_cons.mpr ⟨id, n', hp', hn', hi⟩) (helement i)
        rw [Template.pick, hpart, Option.any_some, ← (hmodels.kind hn).2, hrep]
        rfl

theorem picks (failure : Tree → TreeError) (indices : List Nat) (h : I t p)
    (hA : ∀ q ∈ Template.picked p indices, A q) (hp : t.placed p = some id) :
    wp (indices.foldlM (TreeM.pickWith init failure) id) (Arrives I E (indices.foldlM τ.pick p)) t := by
  refine wp.foldlM (fun rest y s => ∃ q, s.placed q = some y ∧ I s q ∧ (∀ r ∈ Template.picked q rest, A r) ∧
      rest.foldlM τ.pick q = indices.foldlM τ.pick p) ⟨p, hp, h, hA, rfl⟩ ?_ ?_
  · rintro y s ⟨q, hq, hs, -, hfold⟩
    exact .of_ok hfold.symm hq hs
  · rintro i rest y s ⟨q, hq, hs, hA, hfold⟩
    refine (rules.pickWith failure hs (hA q List.mem_cons_self) hq i).mono ?_
    rintro (e | z) s' ⟨hok, herror⟩
    · exact .of_error (herror e rfl)
    · obtain ⟨q', hpick, hq', hs'⟩ := hok z rfl
      cases Template.pick_eq_some hpick
      refine ⟨i :: q, hq', hs', fun r hr => hA r (List.mem_cons_of_mem _ hr), ?_⟩
      rw [← hfold, List.foldlM_cons, hpick]
      rfl

theorem stepWith (failure : Tree → TreeError) (h : I t p) (hp : t.placed p = some id) {step : Step}
    (hA : ∀ q ∈ τ.touchedAt p step, A q) (hstep : step.Plain) :
    wp (TreeM.stepWith init failure id step) (Arrives I E (τ.followStep p step)) t := by
  have hwf := rules.wellFormed h
  have hm := rules.models h
  cases step with
  | malformed =>
    unfold TreeM.stepWith
    simp only [wp.bind, wp.get, wp.throw]
    exact .of_error (rules.fail h)
  | climb =>
    obtain ⟨base, hbase, hpos⟩ := enclosing_placed hwf hm hp
    unfold TreeM.stepWith
    simp only [wp.bind, wp.look, hbase]
    split
    · simp only [wp.bind, wp.get, wp.throw]
      exact .of_error (rules.fail h)
    · rename_i hne
      cases hq : τ.above p with
      | none =>
        rw [Template.base, hq, Option.getD_none, hp] at hpos
        exact absurd (Option.some.inj hpos).symm hne
      | some q =>
        rw [Template.base, hq, Option.getD_some] at hpos
        exact .of_ok hq hpos (rules.climb h hq)
  | descend name indices =>
    unfold TreeM.stepWith
    dsimp only
    split
    · rename_i hempty
      have hpicked : ∀ q ∈ Template.picked p indices, A q := by
        simpa [Template.touchedAt, hempty] using hA
      simp only [wp.bind, wp.pure]
      simpa [Template.followStep, hempty] using rules.picks failure indices h hpicked hp
    · rename_i hempty
      simp only [wp.bind, wp.look]
      cases hchild : t.childNamed id name with
      | error e => exact .of_error (rules.fail h)
      | ok child =>
        cases child with
        | none =>
          simp only [wp.bind, wp.get, wp.throw]
          exact .of_error (rules.fail h)
        | some child =>
          obtain ⟨q, hdescend, hq⟩ := childNamed_placed hm hp hstep hchild
          have hpicked : ∀ r ∈ Template.picked q indices, A r := by
            simpa [Template.touchedAt, hempty, hdescend] using hA
          simp only [wp.bind, wp.pure]
          simpa [Template.followStep, hempty, hdescend]
            using rules.picks failure indices (rules.descend h hdescend) hpicked hq

/-- A path that can be followed leads where the template says. -/
theorem findWith {path : String} (h : I t p) (hA : ∀ q ∈ τ.touchedAlong p (Path.parse path).steps, A q)
    (hp : t.placed p = some (if (Path.parse path).fromRoot then t.root else id)) :
    wp (TreeM.findWith init id path) (Arrives I E ((Path.parse path).steps.foldlM τ.followStep p)) t := by
  unfold TreeM.findWith
  simp only [wp.bind, wp.get, wp.look]
  obtain ⟨n, hn⟩ := live_of_placed (rules.wellFormed h) hp
  rw [node_eq_ok.mpr hn]
  dsimp only
  refine wp.foldlM (fun rest y s => (∀ step ∈ rest, step.Plain) ∧ ∃ q, s.placed q = some y ∧ I s q ∧
      (∀ r ∈ τ.touchedAlong q rest, A r) ∧
      rest.foldlM τ.followStep q = (Path.parse path).steps.foldlM τ.followStep p)
    ⟨fun step hstep => Path.parse_plain hstep, p, hp, h, hA, rfl⟩ ?_ ?_
  · rintro y s ⟨-, q, hq, hs, -, hfold⟩
    exact .of_ok hfold.symm hq hs
  · rintro step rest y s ⟨hplain, q, hq, hs, hA, hfold⟩
    rw [Template.touchedAlong, List.forall_mem_append] at hA
    refine (rules.stepWith _ hs hq hA.1 (hplain step List.mem_cons_self)).mono ?_
    rintro (e | z) s' ⟨hok, herror⟩
    · exact .of_error (herror e rfl)
    · obtain ⟨q', hstep, hq', hs'⟩ := hok z rfl
      rw [hstep] at hA
      refine ⟨fun s hs => hplain s (List.mem_cons_of_mem _ hs), q', hq', hs', hA.2, ?_⟩
      rw [← hfold, List.foldlM_cons, hstep]
      rfl

/-- A path starts from a node or from the root. -/
theorem find {path : String} (hp : t.placed p = some id) (hA : ∀ q ∈ τ.touched p path, A q) (h : I t p)
    (hroot : I t []) : wp (TreeM.findWith init id path) (Arrives I E (τ.follow p path)) t := by
  refine rules.findWith (p := if (Path.parse path).fromRoot then [] else p) ?_ hA ?_
  · split
    · exact hroot
    · exact h
  · split
    · rfl
    · exact hp

/-- A path from a node that is gone leads nowhere, unless it starts from the root. -/
theorem find_live {path : String} (hp : t.isLive id = true → t.placed p = some id)
    (hA : ∀ q ∈ τ.touched p path, A q) (h : t.isLive id = true → I t p) (hroot : I t []) :
    wp (TreeM.findWith init id path) (Arrives I E (τ.follow p path)) t := by
  cases hlive : t.isLive id with
  | true => exact rules.find (hp hlive) hA (h hlive) hroot
  | false =>
    cases hfrom : (Path.parse path).fromRoot with
    | true =>
      have hfollow : τ.follow p path = (Path.parse path).steps.foldlM τ.followStep [] := by
        rw [Template.follow, hfrom]
        rfl
      rw [Template.touched, hfrom] at hA
      rw [hfollow]
      exact rules.findWith hroot hA (by rw [hfrom]; rfl)
    | false =>
      have hdead : t.node? id = none := by
        rw [isLive, Option.isSome_eq_false_iff] at hlive
        exact Option.isNone_iff_eq_none.mp hlive
      obtain ⟨e, he⟩ := node_eq_error.mpr hdead
      unfold TreeM.findWith
      rw [wp.get_bind]
      dsimp only
      rw [hfrom, if_neg Bool.false_ne_true, wp.look_error he]
      exact .of_error (rules.fail hroot)

end PathRules

end

theorem pathRules_settled {init : NodeId → TreeM Unit} (hwf : t.WellFormed) (hm : t.Models C τ τ.name t.root)
    (h : t.Settled) : PathRules C τ init (fun _ => True) (fun t' _ => t' = t) (· = t) where
  wellFormed := fun ht => ht ▸ hwf
  models := fun ht => ht ▸ hm
  fail := id
  climb := fun ht _ => ht
  descend := fun ht _ => ht
  touch := by
    rintro _ p id rfl - hp -
    refine (touchWith_settled h id).mono ?_
    rintro r t' rfl
    exact ⟨fun _ => ⟨rfl, hp, fun _ => rfl⟩, fun _ _ => rfl⟩

theorem findWith_placed {init : NodeId → TreeM Unit} (hwf : t.WellFormed) (hm : t.Models C τ τ.name t.root)
    (h : t.Settled) {path : String}
    (hp : t.placed p = some (if (Path.parse path).fromRoot then t.root else id)) :
    wp (TreeM.findWith init id path) (fun r t' => t' = t ∧ ∀ x, r = .ok x →
      ∃ q, (Path.parse path).steps.foldlM τ.followStep p = some q ∧ t.placed q = some x) t := by
  refine ((pathRules_settled hwf hm h).findWith rfl (fun _ _ => trivial) hp).mono ?_
  rintro (e | x) t' ⟨hok, herror⟩
  · exact ⟨herror e rfl, fun x hx => absurd hx error_ne_ok⟩
  · obtain ⟨q, hfold, hq, rfl⟩ := hok x rfl
    refine ⟨rfl, fun y hy => ?_⟩
    cases hy
    exact ⟨q, hfold, hq⟩

-- ---------------------------------------------------------------------------
-- Operations
-- ---------------------------------------------------------------------------

theorem touch_settled (h : t.Settled) (id : NodeId) : wp (touch id) (fun _ t' => t' = t) t :=
  touchWith_settled h id

theorem touch_ok (h : t.Settled) {id : NodeId} (hgroup : t.isGroup id = .ok true) :
    wp (touch id) (fun r t' => r = .ok () ∧ t' = t) t := by
  obtain ⟨n, hn, hrep⟩ := look_eq_ok.mp hgroup
  obtain ⟨g, hk⟩ := NodeKind.isRepeated_iff.mp hrep
  have hg := group_eq_ok.mpr ⟨n, hn, hk⟩
  unfold touch TreeM.touchWith
  rw [wp.bind, wp.look, hg]
  dsimp only
  rw [h.group hg]
  exact ⟨rfl, rfl⟩

theorem count_settled (h : t.Settled) (id : NodeId) :
    wp (count id) (fun r t' => t' = t ∧ ∀ k, r = .ok k →
      ∃ n, t.node? id = some n ∧ n.kind.isRepeated = true ∧ n.children.length = k) t :=
  countWith_settled h id

/-- A path that can be followed leads where the template says, and following it changes
nothing. -/
theorem find_leads (hwf : t.WellFormed) (hm : t.Models C τ τ.name t.root) (h : t.Settled)
    (hp : t.placed p = some id) (path : String) :
    wp (find id path) (fun r t' => t' = t ∧ ∀ x, r = .ok x → Leads τ t p path x) t := by
  refine findWith_placed (p := if (Path.parse path).fromRoot then [] else p) hwf hm h ?_
  split
  · rfl
  · exact hp

/-- Following a path changes nothing, whatever it starts from. -/
theorem find_settled (hwf : t.WellFormed) (hm : t.Models C τ τ.name t.root) (h : t.Settled)
    (start : NodeId) (path : String) : wp (find start path) (fun _ t' => t' = t) t := by
  obtain ⟨id, hid⟩ : ∃ id, (if (Path.parse path).fromRoot then t.root else start) = id := ⟨_, rfl⟩
  cases hn : t.node? id with
  | none =>
    obtain ⟨e, he⟩ := node_eq_error.mpr hn
    unfold find TreeM.findWith
    simp only [wp.bind, wp.get, wp.look, hid, he]
  | some n =>
    obtain ⟨p, hp⟩ := exists_position hwf hn
    exact (findWith_placed hwf hm h (hid ▸ hp)).mono fun _ _ hr => hr.1

theorem Leads.unique {path : String} {x y : NodeId} (hx : Leads τ t p path x)
    (hy : Leads τ t p path y) : x = y := by
  obtain ⟨q, hq, hpos⟩ := hx
  obtain ⟨q', hq', hpos'⟩ := hy
  rw [hq] at hq'
  cases hq'
  rw [hpos] at hpos'
  exact Option.some.inj hpos'

end Tree

end FormatFuzz
