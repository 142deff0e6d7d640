-- SUMMARY: Without a limit, a fuzz run delivers every choice for every subset of a new key, once and in order.
import Mathlib.Data.List.Sort
import FormatFuzz.Proofs.Trials

/-!
# Coverage

A run without a limit and with a sink that never fails hands over one trial for each pick that its plan
asks for, in order, unless a subset with the same key comes before (`Campaign.run_covers`). Fields of
different names tell subsets apart by their keys if no name is empty, ends with a dash or has two dashes in a
row (`eq_of_keyOf`). For other names two subsets can share a key, and the later one is not walked
(`Campaign.run_overlooks`).
-/

namespace FormatFuzz

-- ---------------------------------------------------------------------------
-- Keys
-- ---------------------------------------------------------------------------

section Keys

variable {names names' : List String}

/-- The name is not empty, and even with one dash behind it, no two dashes stand in a row in it. -/
def Separable (name : String) : Prop := name ≠ "" ∧ ¬ ['-', '-'] <:+: name.toList ++ ['-']

instance (name : String) : Decidable (Separable name) := inferInstanceAs (Decidable (_ ∧ _))

theorem insertName_perm (name : String) (names : List String) :
    (insertName name names).Perm (name :: names) := by
  induction names with
  | nil => exact .refl _
  | cons other rest ih =>
    unfold insertName
    split
    · exact .refl _
    · exact (ih.cons other).trans (.swap name other rest)

theorem sorted_perm (names : List String) : (names.foldr insertName []).Perm names := by
  induction names with
  | nil => exact .refl _
  | cons name rest ih => exact (insertName_perm name _).trans (ih.cons name)

/-- The two dashes behind a name can be found again. -/
theorem Separable.append_inj {a b : String} (ha : Separable a) (hb : Separable b) {x y : List Char}
    (h : a.toList ++ (['-', '-'] ++ x) = b.toList ++ (['-', '-'] ++ y)) : a = b ∧ x = y := by
  -- What a longer name has more than a shorter one starts with dashes.
  have hlonger : ∀ {short long : String} {c x y : List Char}, Separable long →
      long.toList = short.toList ++ c → ['-', '-'] ++ x = c ++ (['-', '-'] ++ y) → c = [] := by
    intro short long c x y hlong hc hx
    match c, hx with
    | [], _ => rfl
    | [_], hx =>
      injection hx with hdash _
      subst hdash
      refine absurd ?_ hlong.2
      rw [hc]
      exact ⟨short.toList, [], by simp⟩
    | _ :: _ :: c, hx =>
      injection hx with hdash hx
      injection hx with hdash' _
      subst hdash hdash'
      refine absurd ?_ hlong.2
      rw [hc]
      exact ⟨short.toList, c ++ ['-'], by simp⟩
  rcases List.append_eq_append_iff.mp h with ⟨c, hc, hx⟩ | ⟨c, hc, hx⟩
  · obtain rfl := hlonger hb hc hx
    rw [List.append_nil] at hc
    injection hx with _ hx
    injection hx with _ hx
    exact ⟨(String.toList_inj.mp hc).symm, hx⟩
  · obtain rfl := hlonger ha hc hx
    rw [List.append_nil] at hc
    injection hx with _ hx
    injection hx with _ hx
    exact ⟨String.toList_inj.mp hc, hx.symm⟩

/-- The names with two dashes behind each. -/
def marked (names : List String) : List Char := names.flatMap (·.toList ++ ['-', '-'])

theorem marked_eq (hne : names ≠ []) : marked names = ("--".intercalate names).toList ++ ['-', '-'] := by
  induction names with
  | nil => exact absurd rfl hne
  | cons name rest ih =>
    rw [marked, List.flatMap_cons]
    cases rest with
    | nil => rw [String.intercalate_singleton, List.flatMap_nil, List.append_nil]
    | cons other rest =>
      rw [String.intercalate_cons_cons, String.toList_append, String.toList_append, List.append_assoc,
        List.append_assoc, List.append_assoc, ← ih (List.cons_ne_nil _ _)]
      rfl

theorem eq_of_marked (h : ∀ name ∈ names, Separable name) (h' : ∀ name ∈ names', Separable name)
    (heq : marked names = marked names') : names = names' := by
  induction names generalizing names' with
  | nil =>
    cases names' with
    | nil => rfl
    | cons name' rest' => simp [marked] at heq
  | cons name rest ih =>
    cases names' with
    | nil => simp [marked] at heq
    | cons name' rest' =>
      rw [marked, marked, List.flatMap_cons, List.flatMap_cons, List.append_assoc, List.append_assoc] at heq
      obtain ⟨rfl, hrest⟩ :=
        (h name List.mem_cons_self).append_inj (h' name' List.mem_cons_self) heq
      rw [ih (fun x hx => h x (List.mem_cons_of_mem _ hx))
        (fun x hx => h' x (List.mem_cons_of_mem _ hx)) hrest]

theorem intercalate_ne_empty (h : ∀ name ∈ names, Separable name) (hne : names ≠ []) :
    "--".intercalate names ≠ "" := by
  intro hempty
  have hmarked := marked_eq hne
  rw [hempty] at hmarked
  obtain ⟨name, rest, rfl⟩ := List.exists_cons_of_ne_nil hne
  have hlength := congrArg List.length hmarked
  rw [marked, List.flatMap_cons, List.length_append, List.length_append] at hlength
  have hzero : name.toList.length = 0 := by
    have hdashes : ("".toList ++ ['-', '-']).length = ['-', '-'].length := rfl
    omega
  have hname : name = "" := String.toList_inj.mp (List.length_eq_zero_iff.mp hzero)
  exact (h name List.mem_cons_self).1 hname

/-- Joined names can be taken apart. -/
theorem eq_of_intercalate (h : ∀ name ∈ names, Separable name) (h' : ∀ name ∈ names', Separable name)
    (heq : "--".intercalate names = "--".intercalate names') : names = names' := by
  by_cases hnil : names = []
  · subst hnil
    by_contra hne
    exact intercalate_ne_empty h' (Ne.symm hne) heq.symm
  · by_cases hnil' : names' = []
    · subst hnil'
      exact absurd heq (intercalate_ne_empty h hnil)
    · refine eq_of_marked h h' ?_
      rw [marked_eq hnil, marked_eq hnil', heq]

/-- A key tells which names it stands for. -/
theorem perm_of_subsetKey (h : ∀ name ∈ names, Separable name) (h' : ∀ name ∈ names', Separable name)
    (heq : subsetKey names = subsetKey names') : names.Perm names' := by
  have hsorted := eq_of_intercalate
    (fun x hx => h x ((sorted_perm names).mem_iff.mp hx))
    (fun x hx => h' x ((sorted_perm names').mem_iff.mp hx)) heq
  exact (sorted_perm names).symm.trans (hsorted ▸ sorted_perm names')

end Keys

-- ---------------------------------------------------------------------------
-- Subsets
-- ---------------------------------------------------------------------------

/-- Smaller subsets come first, and those of one size in lexicographic order. -/
def Sooner (u v : List Nat) : Prop := u.length < v.length ∨ u.length = v.length ∧ u < v

theorem Sooner.asymm {u v : List Nat} (h : Sooner u v) : ¬ Sooner v u := by
  rintro (hlt | ⟨heq, hlt⟩)
  · rcases h with h | ⟨h, -⟩ <;> omega
  · rcases h with h | ⟨-, h⟩
    · omega
    · exact lt_asymm h hlt

namespace Plan

variable {plan : Plan} {n : Nat} {u : List Nat}

theorem mem_asked : u ∈ plan.asked n ↔ plan.minSubset ≤ u.length ∧ u.length ≤ plan.maxSubset ∧
    u.Pairwise (· < ·) ∧ ∀ i ∈ u, i < n := by
  have hsizes : ∀ k, k ∈ plan.sizes n ↔ plan.minSubset ≤ k ∧ k ≤ plan.maxSubset ∧ k ≤ n := by
    intro k
    simp only [sizes, List.mem_filter, List.mem_range, decide_eq_true_iff]
    omega
  simp only [asked, List.mem_flatMap, hsizes, Subsets.mem_all (Nat.le_refl n), Nat.sub_self,
    Nat.zero_le, true_and]
  constructor
  · rintro ⟨_, ⟨hmin, hmax, -⟩, rfl, hsorted, hbound⟩
    exact ⟨hmin, hmax, hsorted, hbound⟩
  · rintro ⟨hmin, hmax, hsorted, hbound⟩
    refine ⟨u.length, ⟨hmin, hmax, ?_⟩, rfl, hsorted, hbound⟩
    -- A list of all subsets of this size that holds one of them is not empty.
    have hmem : u ∈ Subsets.all n n u.length :=
      (Subsets.mem_all (Nat.le_refl n)).mpr ⟨rfl, hsorted, fun i hi => ⟨by omega, hbound i hi⟩⟩
    by_contra hlarge
    have hnone := Subsets.length_all n n u.length
    rw [Nat.choose_eq_zero_of_lt (Nat.lt_of_not_le hlarge)] at hnone
    rw [List.length_eq_zero_iff.mp hnone] at hmem
    cases hmem

theorem asked_pairwise (plan : Plan) (n : Nat) : (plan.asked n).Pairwise Sooner := by
  have hsize : ∀ {k u}, u ∈ Subsets.all n n k → u.length = k :=
    fun hu => ((Subsets.mem_all (Nat.le_refl n)).mp hu).1
  refine List.pairwise_flatMap.mpr ⟨fun k _ => ?_, ?_⟩
  · exact (Subsets.all_pairwise (Nat.le_refl n)).imp_of_mem fun hu hv hlt =>
      .inr ⟨(hsize hu).trans (hsize hv).symm, hlt⟩
  · refine (List.pairwise_lt_range.filter _).imp fun hlt u hu v hv => .inl ?_
    rw [hsize hu, hsize hv]
    exact hlt

end Plan

namespace Campaign

variable {targets : List Target} {subsets : List (List Nat)}

theorem unmet_sublist (targets : List Target) (walked : List String) (subsets : List (List Nat)) :
    (unmet targets walked subsets).Sublist subsets := by
  induction subsets generalizing walked with
  | nil => exact .slnil
  | cons u rest ih =>
    unfold unmet
    split
    · exact (ih walked).cons u
    · exact (ih _).cons_cons u

/-- A subset is walked unless its key is that of one walked before or of one that comes sooner. -/
theorem mem_unmet {walked : List String} (hsorted : subsets.Pairwise Sooner) {u : List Nat} :
    u ∈ unmet targets walked subsets ↔ u ∈ subsets ∧ keyOf targets u ∉ walked ∧
      ∀ v ∈ subsets, Sooner v u → keyOf targets v ≠ keyOf targets u := by
  induction subsets generalizing walked with
  | nil => simp [unmet]
  | cons a rest ih =>
    obtain ⟨hfirst, hrest⟩ := List.pairwise_cons.mp hsorted
    unfold unmet
    split
    · rename_i hmet
      rw [ih hrest]
      constructor
      · rintro ⟨hu, hnew, hsooner⟩
        refine ⟨List.mem_cons_of_mem _ hu, hnew, fun v hv => ?_⟩
        rcases List.mem_cons.mp hv with rfl | hv
        · exact fun _ heq => hnew (heq ▸ hmet)
        · exact hsooner v hv
      · rintro ⟨hu, hnew, hsooner⟩
        rcases List.mem_cons.mp hu with rfl | hu
        · exact absurd hmet hnew
        · exact ⟨hu, hnew, fun v hv => hsooner v (List.mem_cons_of_mem _ hv)⟩
    · rename_i hmet
      rw [List.mem_cons, ih hrest]
      constructor
      · rintro (rfl | ⟨hu, hnew, hsooner⟩)
        · refine ⟨List.mem_cons_self, hmet, fun v hv hvu => ?_⟩
          rcases List.mem_cons.mp hv with rfl | hv
          · exact absurd hvu hvu.asymm
          · exact absurd hvu (hfirst v hv).asymm
        · rw [List.mem_cons, not_or] at hnew
          refine ⟨List.mem_cons_of_mem _ hu, hnew.2, fun v hv hvu => ?_⟩
          rcases List.mem_cons.mp hv with rfl | hv
          · exact Ne.symm hnew.1
          · exact hsooner v hv hvu
      · rintro ⟨hu, hnew, hsooner⟩
        rcases List.mem_cons.mp hu with rfl | hu
        · exact .inl rfl
        · refine .inr ⟨hu, ?_, fun v hv => hsooner v (List.mem_cons_of_mem _ hv)⟩
          rw [List.mem_cons, not_or]
          exact ⟨Ne.symm (hsooner a List.mem_cons_self (hfirst u hu)), hnew⟩

theorem members_eq {u : List Nat} (hbound : ∀ i ∈ u, i < targets.length) :
    (members targets u).map (·.name) = u.map fun i => (targets.map (·.name)).getD i "" := by
  induction u with
  | nil => rfl
  | cons i rest ih =>
    have hi := hbound i List.mem_cons_self
    have ih := ih fun j hj => hbound j (List.mem_cons_of_mem _ hj)
    rw [members, List.filterMap_cons_some (List.getElem?_eq_getElem hi), List.map_cons, List.map_cons, ← ih]
    simp [members, hi]

/-- Fields of different names that can be separated tell subsets apart by their keys. -/
theorem eq_of_keyOf (hnames : (targets.map (·.name)).Nodup) (hseparable : ∀ x ∈ targets, Separable x.name)
    {u v : List Nat} (hu : u.Pairwise (· < ·)) (hv : v.Pairwise (· < ·))
    (hubound : ∀ i ∈ u, i < targets.length) (hvbound : ∀ i ∈ v, i < targets.length)
    (heq : keyOf targets u = keyOf targets v) : u = v := by
  have hmembers : ∀ w : List Nat, ∀ name ∈ (members targets w).map (·.name), Separable name := by
    intro w name hname
    obtain ⟨x, hx, rfl⟩ := List.mem_map.mp hname
    obtain ⟨i, -, hi⟩ := List.mem_filterMap.mp hx
    exact hseparable x (List.mem_of_getElem? hi)
  have hperm := perm_of_subsetKey (hmembers u) (hmembers v) heq
  rw [members_eq hubound, members_eq hvbound] at hperm
  have hinj : ∀ i < targets.length, ∀ j < targets.length,
      (targets.map (·.name)).getD i "" = (targets.map (·.name)).getD j "" → i = j := by
    intro i hi j hj h
    rw [← List.length_map (f := fun x : Target => x.name)] at hi hj
    rw [List.getD_eq_getElem _ _ hi, List.getD_eq_getElem _ _ hj] at h
    exact (hnames.getElem_inj_iff).mp h
  refine hu.eq_of_mem_iff hv fun i => ?_
  constructor
  · intro hi
    obtain ⟨j, hj, hij⟩ := List.mem_map.mp (hperm.mem_iff.mp (List.mem_map_of_mem hi))
    exact hinj j (hvbound j hj) i (hubound i hi) hij ▸ hj
  · intro hi
    obtain ⟨j, hj, hij⟩ := List.mem_map.mp (hperm.mem_iff.mpr (List.mem_map_of_mem hi))
    exact hinj j (hubound j hj) i (hvbound i hi) hij ▸ hj

end Campaign

-- ---------------------------------------------------------------------------
-- Picks
-- ---------------------------------------------------------------------------

/-- A subset of the targets, as places, with a place among the candidates of each member. -/
structure Pick where
  subset : List Nat
  choice : List Nat

namespace Pick

/-- The plan asks for the pick. -/
structure Fits (plan : Plan) (targets : List Target) (p : Pick) : Prop where
  atLeast : plan.minSubset ≤ p.subset.length
  atMost : p.subset.length ≤ plan.maxSubset
  ascending : p.subset.Pairwise (· < ·)
  within : List.Forall₂ (fun i j => ∃ x, targets[i]? = some x ∧ j < x.candidates.length)
    p.subset p.choice

/-- A subset with the same key comes sooner. -/
def Shadowed (plan : Plan) (targets : List Target) (p : Pick) : Prop :=
  ∃ u ∈ plan.asked targets.length,
    Sooner u p.subset ∧ Campaign.keyOf targets u = Campaign.keyOf targets p.subset

/-- The order of trials. -/
def Before (p q : Pick) : Prop := Sooner p.subset q.subset ∨ p.subset = q.subset ∧ p.choice < q.choice

/-- The names of the members with the candidates picked. -/
def content (targets : List Target) (p : Pick) : List String × List Value :=
  Campaign.contentOf (Campaign.choose (Campaign.members targets p.subset) p.choice)

variable {plan : Plan} {targets : List Target} {p : Pick}

theorem within_iff {u choice : List Nat} :
    List.Forall₂ (fun i j => ∃ x, targets[i]? = some x ∧ j < x.candidates.length) u choice ↔
      (∀ i ∈ u, i < targets.length) ∧
        choice ∈ Choices.all ((Campaign.members targets u).map (·.candidates.length)) := by
  rw [Choices.mem_all]
  induction u generalizing choice with
  | nil => simp [Campaign.members, List.forall₂_nil_left_iff]
  | cons i rest ih =>
    constructor
    · intro h
      obtain ⟨j, choice, ⟨x, hx, hj⟩, hrest, rfl⟩ := List.forall₂_cons_left_iff.mp h
      obtain ⟨hbound, hchoice⟩ := ih.mp hrest
      refine ⟨List.forall_mem_cons.mpr ⟨(List.getElem?_eq_some_iff.mp hx).1, hbound⟩, ?_⟩
      rw [Campaign.members, List.filterMap_cons_some hx, List.map_cons]
      exact .cons hj hchoice
    · rintro ⟨hbound, h⟩
      obtain ⟨hi, hbound⟩ := List.forall_mem_cons.mp hbound
      have hx := List.getElem?_eq_getElem hi
      rw [Campaign.members, List.filterMap_cons_some hx, List.map_cons] at h
      obtain ⟨j, choice, hj, hchoice, rfl⟩ := List.forall₂_cons_right_iff.mp h
      exact .cons ⟨_, hx, hj⟩ (ih.mpr ⟨hbound, hchoice⟩)

theorem fits_iff : p.Fits plan targets ↔ p.subset ∈ plan.asked targets.length ∧
    p.choice ∈ Choices.all ((Campaign.members targets p.subset).map (·.candidates.length)) := by
  rw [Plan.mem_asked]
  constructor
  · rintro ⟨hmin, hmax, hsorted, hwithin⟩
    obtain ⟨hbound, hchoice⟩ := within_iff.mp hwithin
    exact ⟨⟨hmin, hmax, hsorted, hbound⟩, hchoice⟩
  · rintro ⟨⟨hmin, hmax, hsorted, hbound⟩, hchoice⟩
    exact ⟨hmin, hmax, hsorted, within_iff.mpr ⟨hbound, hchoice⟩⟩

/-- No subset shadows another if the names of the fields differ and can be separated. -/
theorem Fits.not_shadowed (h : p.Fits plan targets) (hnames : (targets.map (·.name)).Nodup)
    (hseparable : ∀ x ∈ targets, Separable x.name) : ¬ p.Shadowed plan targets := by
  rintro ⟨u, hu, hsooner, hkey⟩
  obtain ⟨-, -, husorted, hubound⟩ := Plan.mem_asked.mp hu
  have hsame := Campaign.eq_of_keyOf hnames hseparable husorted h.ascending hubound
    (within_iff.mp h.within).1 hkey
  exact absurd (hsame ▸ hsooner) (hsame ▸ hsooner).asymm

/-- The picks that a run with the plan makes of its targets. -/
def all (plan : Plan) (targets : List Target) : List Pick :=
  (Campaign.unmet targets [] (plan.asked targets.length)).flatMap fun u =>
    (Choices.all ((Campaign.members targets u).map (·.candidates.length))).map (Pick.mk u)

theorem mem_all : p ∈ all plan targets ↔ p.Fits plan targets ∧ ¬ p.Shadowed plan targets := by
  have hunmet : p.subset ∈ Campaign.unmet targets [] (plan.asked targets.length) ↔
      p.subset ∈ plan.asked targets.length ∧ ¬ p.Shadowed plan targets := by
    rw [Campaign.mem_unmet (plan.asked_pairwise targets.length)]
    simp [Shadowed]
  rw [fits_iff, and_right_comm, ← hunmet, all, List.mem_flatMap]
  constructor
  · rintro ⟨u, hu, hp⟩
    obtain ⟨choice, hchoice, rfl⟩ := List.mem_map.mp hp
    exact ⟨hu, hchoice⟩
  · rintro ⟨hu, hchoice⟩
    exact ⟨p.subset, hu, List.mem_map_of_mem hchoice⟩

theorem all_pairwise (plan : Plan) (targets : List Target) : (all plan targets).Pairwise Before := by
  refine List.pairwise_flatMap.mpr ⟨fun u _ => ?_, ?_⟩
  · exact List.pairwise_map.mpr ((Choices.all_pairwise _).imp fun hlt => .inr ⟨rfl, hlt⟩)
  · refine ((plan.asked_pairwise targets.length).sublist
      (Campaign.unmet_sublist targets [] _)).imp fun hsooner p hp q hq => .inl ?_
    obtain ⟨_, -, rfl⟩ := List.mem_map.mp hp
    obtain ⟨_, -, rfl⟩ := List.mem_map.mp hq
    exact hsooner

theorem map_content_all (c : Campaign) :
    (all c.plan targets).map (content targets) = (c.schedule targets).map Campaign.contentOf := by
  simp only [all, Campaign.schedule, Campaign.scheduled, Campaign.choicesOf, List.map_flatMap,
    List.map_map]
  rfl

end Pick

-- ---------------------------------------------------------------------------
-- Runs
-- ---------------------------------------------------------------------------

namespace Campaign

open FormatFuzz.Tree (Reaches)

variable {σ : Type} {allowed : Tree → Tree.Call → Prop} {template : Template} {seed : UInt64}
  {t₀ t : Tree}

/-- Let a run have no limit and a sink that never fails and asks questions only, over a tree whose groups
are ready. It hands over one trial for each pick that the plan asks for and that is not shadowed, and no
other, smaller subsets first, those of one size in lexicographic order, and the choices for each likewise. If
the names of the fields differ and can be separated, these are all picks. -/
theorem run_covers (hbuild : Tree.build template seed = .ok t₀) (hreach : Reaches allowed t₀ t)
    (hs : t.Settled) (c : Campaign) (hroot : t.isLive c.root = true)
    (hlimit : c.plan.maxTrials = none) (sink : Sink σ) (hasks : sink.Asks) (htakes : sink.Takes) (s : σ) :
    ∃ (targets : List Target) (picks : List Pick), c.targets.run t = (.ok targets, t) ∧
      (c.record sink s t).delivered.map Delivery.content = picks.map (Pick.content targets) ∧
      picks.Pairwise Pick.Before ∧
      (∀ p, p ∈ picks ↔ p.Fits c.plan targets ∧ ¬ p.Shadowed c.plan targets) ∧
      ((targets.map (·.name)).Nodup → (∀ x ∈ targets, Separable x.name) →
        ∀ p, p ∈ picks ↔ p.Fits c.plan targets) := by
  obtain ⟨targets, hselect, hsel⟩ := c.exists_selected (hreach.wellFormed hbuild) hs hroot
  refine ⟨targets, Pick.all c.plan targets, hselect, ?_, Pick.all_pairwise c.plan targets,
    fun _ => Pick.mem_all, fun hnames hseparable p => ?_⟩
  · rw [record_unlimited hsel hselect hasks htakes hlimit s, Pick.map_content_all]
  · rw [Pick.mem_all]
    exact and_iff_left_of_imp fun hfits => hfits.not_shadowed hnames hseparable

/-- A run over single fields and pairs. -/
def pairwise : Campaign := { root := ⟨0⟩, plan := { minSubset := 1, maxSubset := 2 } }

theorem run_covers_flags :
    ∃ t, Tree.build Tree.flags 7 = .ok t ∧
      (pairwise.record observer 0 t).delivered.length = 8 ∧
      ∃ (targets : List Target) (picks : List Pick),
        (pairwise.record observer 0 t).delivered.map Delivery.content =
          picks.map (Pick.content targets) ∧
        picks.Pairwise Pick.Before ∧ ∀ p, p ∈ picks ↔ p.Fits pairwise.plan targets := by
  have hok : ((Tree.build Tree.flags 7).toOption.any fun t => t.isLive ⟨0⟩ &&
      (pairwise.record observer 0 t).delivered.length = 8 &&
      ((pairwise.targets.run t).1.toOption.any fun targets =>
        (targets.map (·.name)).Nodup ∧ ∀ x ∈ targets, Separable x.name)) = true := by
    decide +kernel
  obtain ⟨t, hbuild, hchecked⟩ := Tree.exists_build hok
  simp only [Bool.and_eq_true, decide_eq_true_iff] at hchecked
  obtain ⟨⟨hlive, hlength⟩, hnames⟩ := hchecked
  have hunbound : Tree.flags.Every Template.Unbound := ⟨trivial, trivial⟩
  have hreach : Reaches (fun _ _ => True) t t := .refl t
  obtain ⟨targets, picks, hselect, hcontents, hsorted, -, hall⟩ :=
    run_covers hbuild hreach (Tree.build_settled hunbound hbuild).1 pairwise hlive rfl observer
      observer_asks (fun _ _ _ => rfl) 0
  rw [hselect] at hnames
  obtain ⟨hnodup, hseparable⟩ := of_decide_eq_true hnames
  exact ⟨t, hbuild, hlength, targets, picks, hcontents, hsorted, hall hnodup hseparable⟩

/-- Three truth values, the last of which is named like the first two joined. -/
def joined : Template :=
  .composite { name := "joined" } [.boolean "a", .boolean "b", .boolean "a--b"]

/-- The pair of `a` and `b` is not walked, since it has the key of `a--b`, although no two names are
equal. -/
theorem run_overlooks :
    ∃ t targets, Tree.build joined 7 = .ok t ∧ t.Settled ∧
      pairwise.targets.run t = (.ok targets, t) ∧ (targets.map (·.name)).Nodup ∧
      (⟨[0, 1], [0, 0]⟩ : Pick).Fits pairwise.plan targets ∧
      Pick.content targets ⟨[0, 1], [0, 0]⟩ ∉
        (pairwise.record observer 0 t).delivered.map Delivery.content := by
  have hok : ((Tree.build joined 7).toOption.any fun t => t.isLive ⟨0⟩ &&
      ((pairwise.targets.run t).1.toOption.any fun targets =>
        targets.map (·.name) = ["a", "b", "a--b"] ∧
        targets.map (·.candidates.length) = [2, 2, 2] ∧
        ["a", "b"] ∉ (pairwise.record observer 0 t).delivered.map (·.trial.fields))) = true := by
    decide +kernel
  obtain ⟨t, hbuild, hchecked⟩ := Tree.exists_build hok
  simp only [Bool.and_eq_true] at hchecked
  obtain ⟨hlive, htargets⟩ := hchecked
  have hunbound : joined.Every Template.Unbound := ⟨trivial, trivial, trivial, trivial, trivial⟩
  have hs := (Tree.build_settled hunbound hbuild).1
  have hreach : Reaches (fun _ _ => True) t t := .refl t
  obtain ⟨targets, hselect, -⟩ := pairwise.exists_selected (hreach.wellFormed hbuild) hs hlive
  rw [hselect] at htargets
  obtain ⟨hnames, hcandidates, hmissing⟩ := of_decide_eq_true htargets
  have hlength := congrArg List.length hnames
  rw [List.length_map] at hlength
  obtain ⟨x, y, z, rfl⟩ := List.length_eq_three.mp hlength
  simp only [List.map_cons, List.map_nil, List.cons.injEq, and_true] at hnames hcandidates
  obtain ⟨hx, hy, hz⟩ := hnames
  refine ⟨t, _, hbuild, hs, hselect, ?_, ⟨by decide, by decide, by decide, ?_⟩, ?_⟩
  · simp only [List.map_cons, List.map_nil, hx, hy, hz]
    decide
  · exact .cons ⟨x, rfl, by omega⟩ (.cons ⟨y, rfl, by omega⟩ .nil)
  · intro hmem
    obtain ⟨d, hd, hcontent⟩ := List.mem_map.mp hmem
    refine hmissing (List.mem_map.mpr ⟨d, hd, (congrArg Prod.fst hcontent).trans ?_⟩)
    change [x.name, y.name] = ["a", "b"]
    rw [hx, hy]

end Campaign

end FormatFuzz
