-- SUMMARY: A fuzz run selects the leaves that no node on the way to them excludes, in the order of their bytes.
import FormatFuzz.Proofs.Deliveries
import FormatFuzz.Proofs.Positions
import FormatFuzz.Proofs.Readiness

/-!
# Selections

Selecting goes down from the root of a run and turns back where the options of a node say so, so that these
decide about everything below. Seen from a leaf, it is selected if none of the nodes on the path to it is
barred (`Tree.Open`). Where all groups are ready, the targets are exactly the leaves of the walk from the root
for which that is so, in its order (`Tree.Reaches.targets_exact`).
-/

namespace FormatFuzz

open TreeM
open Relation (ReflTransGen)

namespace Tree

variable {t : Tree} {patches : Patches} {root id x y c : NodeId} {n : Node}

-- ---------------------------------------------------------------------------
-- Paths
-- ---------------------------------------------------------------------------

/-- The options of the node exclude it and everything below it, once the patch for its name is applied. -/
def Barred (patches : Patches) (t : Tree) (x : NodeId) : Prop :=
  ∃ n name, t.node? x = some n ∧ t.fullName x = .ok name ∧
    (Selection.effectiveOptions patches name n.fuzz).enabled = false

/-- No node on the path from `id` to `x` is barred, unless it is the root of the run. -/
def Open (patches : Patches) (root : NodeId) (t : Tree) (id x : NodeId) : Prop :=
  ∀ y, ReflTransGen t.Lists id y → ReflTransGen t.Lists y x → y ≠ root → ¬ t.Barred patches y

/-- The nodes that a run from `root` selects at or below `id`, if it comes there. -/
def Chosen (patches : Patches) (root : NodeId) (t : Tree) (id x : NodeId) : Prop :=
  t.isLeaf x = .ok true ∧ t.Open patches root id x

/-- The path to a node leads through one of the children. -/
theorem open_child (hwf : t.WellFormed) (hn : t.node? id = some n) (hid : id ≠ root → ¬ t.Barred patches id)
    (hc : c ∈ n.children) (hx : ReflTransGen t.Lists c x) :
    t.Open patches root id x ↔ t.Open patches root c x := by
  have hlists : t.Lists id c := ⟨n, hn, hc⟩
  refine ⟨fun h y hy => h y (.head hlists hy), fun h y hy hyx => ?_⟩
  rcases hy.cases_head with rfl | ⟨c', hc', hy⟩
  · exact hid
  · have hsame : c' = c := Lists.eq_of_paths hwf hc' hlists (hy.trans hyx) hx
    exact h y (hsame ▸ hy) hyx

section

open scoped Classical

/-- The selected nodes at or below a node, in the order of the walk. -/
noncomputable def chosen (patches : Patches) (root : NodeId) (t : Tree) (id : NodeId) : List NodeId :=
  (t.preorder id).filter fun x => t.Chosen patches root id x

theorem mem_chosen : x ∈ t.chosen patches root id ↔ x ∈ t.preorder id ∧ t.Chosen patches root id x := by
  rw [chosen, List.mem_filter, decide_eq_true_iff]

theorem chosen_sublist : (t.chosen patches root id).Sublist (t.preorder id) := List.filter_sublist

/-- A barred node keeps everything below it from being selected. -/
theorem chosen_barred (hwf : t.WellFormed) (hn : t.node? id = some n) (hid : id ≠ root)
    (hbarred : t.Barred patches id) : t.chosen patches root id = [] := by
  refine List.eq_nil_iff_forall_not_mem.mpr fun x hx => ?_
  obtain ⟨hx, -, hopen⟩ := mem_chosen.mp hx
  exact hopen id .refl ((mem_preorder hwf hn).mp hx) hid hbarred

theorem chosen_leaf (hwf : t.WellFormed) (hn : t.node? id = some n) (hleaf : n.kind.isLeaf = true)
    (hchildren : n.children = []) (hid : id ≠ root → ¬ t.Barred patches id) :
    t.chosen patches root id = [id] := by
  have hchosen : t.Chosen patches root id id := by
    refine ⟨by rw [isLeaf, look_of_node? hn, hleaf], fun y hy _ => ?_⟩
    rcases hy.cases_head with rfl | ⟨c, ⟨m, hm, hc⟩, -⟩
    · exact hid
    · rw [hn] at hm
      cases hm
      rw [hchildren] at hc
      cases hc
  rw [chosen, preorder_eq hwf hn, hchildren, List.flatMap_nil]
  refine List.filter_eq_self.mpr fun x hx => ?_
  rw [List.mem_singleton.mp hx]
  exact decide_eq_true hchosen

theorem chosen_branch (hwf : t.WellFormed) (hn : t.node? id = some n) (hleaf : n.kind.isLeaf = false)
    (hid : id ≠ root → ¬ t.Barred patches id) :
    t.chosen patches root id = n.children.flatMap (t.chosen patches root) := by
  have hnot : ¬ t.Chosen patches root id id := by
    rintro ⟨h, -⟩
    rw [isLeaf, look_of_node? hn, hleaf] at h
    cases h
  rw [chosen, preorder_eq hwf hn, List.filter_cons_of_neg (by simpa using hnot), List.filter_flatMap]
  refine List.flatMap_congr fun c hc => List.filter_congr fun x hx => ?_
  obtain ⟨-, m, hm, -⟩ := hwf.child hn hc
  have hpath := (mem_preorder hwf hm).mp hx
  exact decide_eq_decide.mpr (and_congr_right fun _ => open_child hwf hn hid hc hpath)

end

end Tree

-- ---------------------------------------------------------------------------
-- What targets carry
-- ---------------------------------------------------------------------------

/-- The target is a leaf under its full name, with its cell and the candidates for its effective options. -/
def Target.Aims (patches : Patches) (filler : UInt8) (t : Tree) (x : Target) : Prop :=
  ∃ n kind, t.node? x.id = some n ∧ n.kind = .leaf kind ∧ t.fullName x.id = .ok x.name ∧ n.cell = x.saved ∧
    x.candidates = Candidates.ofLeaf (Selection.effectiveOptions patches x.name n.fuzz) filler kind

namespace Selection

variable {t t₁ t' : Tree} {patches : Patches} {filler : UInt8} {root id : NodeId}

theorem touches_evolves (h : t.Touches t') : Tree.Evolves (fun _ => True) t t' :=
  h.keeps (Tree.groupLaws_evolves .any).touch

theorem flatten_aims {select : NodeId → TreeM (List Target)} {ids : List NodeId}
    (h : ∀ c t, t.WellFormed → wp (select c) (Gathers (Target.Aims patches filler) t) t) (hwf : t.WellFormed) :
    wp (return (← ids.mapM select).flatten) (Gathers (Target.Aims patches filler) t) t := by
  rw [wp.bind]
  refine (mapM_gathers (fun htouches => (touches_evolves htouches).wellFormed) h hwf).mono ?_
  rintro (e | parts) t' hparts <;> exact hparts

/-- Whether groups are ready or not, by induction on the depth. -/
theorem targetsAt_aims (patches : Patches) (filler : UInt8) (root : NodeId) (depth : Nat) (id : NodeId)
    (hwf : t.WellFormed) :
    wp (targetsAt patches filler root depth id) (Gathers (Target.Aims patches filler) t) t := by
  induction depth generalizing id t with
  | zero => exact .of_error .refl
  | succ depth ih =>
    unfold targetsAt
    rw [wp.bind, wp.look]
    cases hname : t.fullName id with
    | error e => exact .of_error .refl
    | ok name =>
      dsimp only
      rw [wp.bind, wp.look]
      cases hn : t.node? id with
      | none =>
        obtain ⟨e, he⟩ := Tree.node_eq_error.mpr hn
        rw [Tree.options, Tree.look, he]
        exact .of_error .refl
      | some n =>
        rw [Tree.options, Tree.look_of_node? hn]
        dsimp only
        split
        · exact .nil
        rw [wp.bind, wp.look, Tree.isGroup, Tree.look_of_node? hn]
        dsimp only
        cases hrep : n.kind.isRepeated with
        | false =>
          rw [if_neg Bool.false_ne_true, wp.bind, wp.look, Tree.node_eq_ok.mpr hn]
          dsimp only
          cases hk : n.kind with
          | leaf kind => exact Gathers.singleton ⟨n, kind, hn, hk, hname, rfl, rfl⟩
          | composite => exact flatten_aims (fun c t => @ih t c) hwf
          | repeated g =>
            rw [hk] at hrep
            cases hrep
        | true =>
          rw [if_pos rfl, wp.bind]
          refine (touch_gathers id t).mono ?_
          rintro (e | _) t₁ hstep
          · exact .of_error hstep
          dsimp only
          refine wp.mono (Q := Gathers (Target.Aims patches filler) t₁) ?_ fun r t' => .after hstep
          have hev := touches_evolves hstep
          rw [wp.bind, wp.look]
          cases hn₁ : t₁.node id with
          | error e => exact .of_error .refl
          | ok n₁ =>
            -- A group is still one when its elements have been made, so no target comes from here.
            have hfixture := (hev.grows hwf).fixture hn (Tree.node_eq_ok.mp hn₁)
            have hrep₁ := (Node.isRepeated_of_fixture hfixture).symm.trans hrep
            dsimp only
            cases hk : n₁.kind with
            | leaf kind =>
              rw [hk] at hrep₁
              cases hrep₁
            | composite =>
              rw [hk] at hrep₁
              cases hrep₁
            | repeated g => exact flatten_aims (fun c t => @ih t c) (hev.wellFormed hwf)

-- ---------------------------------------------------------------------------
-- Which nodes are selected
-- ---------------------------------------------------------------------------

open FormatFuzz.Tree (chosen)

/-- The targets are these nodes, in order. -/
def Selects (t : Tree) (ids : List NodeId) (r : Except TreeError (List Target)) (t' : Tree) : Prop :=
  t' = t ∧ ∀ targets, r = .ok targets → targets.map (·.id) = ids

theorem mapM_selects {select : NodeId → TreeM (List Target)} {ids : List NodeId} {parts : NodeId → List NodeId}
    (h : ∀ c ∈ ids, wp (select c) (Selects t (parts c)) t) :
    wp (return (← ids.mapM select).flatten) (Selects t (ids.flatMap parts)) t := by
  rw [wp.bind]
  induction ids with
  | nil =>
    refine ⟨rfl, fun targets htargets => ?_⟩
    cases htargets
    rfl
  | cons c rest ih =>
    rw [List.mapM_cons, wp.bind]
    refine (h c List.mem_cons_self).mono ?_
    rintro (e | part) _ ⟨rfl, hpart⟩
    · exact ⟨rfl, fun _ htargets => absurd htargets error_ne_ok⟩
    dsimp only
    rw [wp.bind]
    refine (ih fun c' hc' => h c' (List.mem_cons_of_mem _ hc')).mono ?_
    rintro (e | parts') _ ⟨rfl, hrest⟩
    · exact ⟨rfl, fun _ htargets => absurd htargets error_ne_ok⟩
    refine ⟨rfl, fun targets htargets => ?_⟩
    cases htargets
    have hids := hrest parts'.flatten rfl
    rw [List.flatten_cons, List.map_append, hpart part rfl, hids, List.flatMap_cons]

/-- Where all groups are ready, selecting at a node finds what is selected at or below it. -/
theorem targetsAt_selects (patches : Patches) (filler : UInt8) (root : NodeId) (depth : Nat) (hwf : t.WellFormed)
    (hs : t.Settled) (hleaves : ∀ {id n}, t.node? id = some n → n.kind.isLeaf = true → n.children = [])
    (hlive : t.isLive id = true) :
    wp (targetsAt patches filler root depth id) (Selects t (t.chosen patches root id)) t := by
  induction depth generalizing id with
  | zero => exact ⟨rfl, fun _ h => absurd h error_ne_ok⟩
  | succ depth ih =>
    obtain ⟨n, hn⟩ := Tree.isLive_iff_node?.mp hlive
    obtain ⟨name, hname⟩ := Tree.fullName_ok hwf hn
    have hbarred : t.Barred patches id ↔ (effectiveOptions patches name n.fuzz).enabled = false := by
      refine ⟨?_, fun h => ⟨n, name, hn, hname, h⟩⟩
      rintro ⟨m, name', hm, hname', h⟩
      rw [hn] at hm
      rw [hname] at hname'
      cases hm
      cases hname'
      exact h
    refine targetsAt_settled hs hn hname (fun hdisabled hne => ?skip) (fun kind hk hgo => ?leaf)
      fun hleaf hgo => ?below
    case skip =>
      refine ⟨rfl, fun targets htargets => ?_⟩
      cases htargets
      rw [Tree.chosen_barred hwf hn hne (hbarred.mpr hdisabled)]
      rfl
    case leaf =>
      have hleaf : n.kind.isLeaf = true := by rw [hk]; rfl
      refine ⟨rfl, fun targets htargets => ?_⟩
      cases htargets
      rw [Tree.chosen_leaf hwf hn hleaf (hleaves hn hleaf) fun hne h => hne (hgo (hbarred.mp h))]
      rfl
    case below =>
      rw [Tree.chosen_branch hwf hn hleaf fun hne h => hne (hgo (hbarred.mp h))]
      refine mapM_selects fun c hc => ih ?_
      obtain ⟨-, m, hm, -⟩ := hwf.child hn hc
      exact Tree.isLive_iff_node?.mpr ⟨m, hm⟩

end Selection

-- ---------------------------------------------------------------------------
-- Runs
-- ---------------------------------------------------------------------------

namespace Tree

variable {τ : Template} {seed : UInt64} {t₀ t : Tree} {allowed : Tree → Call → Prop} {id : NodeId} {n : Node}

/-- Only groups and composites have children. -/
theorem Models.children_leaf (hm : t.Models (fun _ => True) τ τ.name t.root) (hwf : t.WellFormed)
    (hn : t.node? id = some n) (hleaf : n.kind.isLeaf = true) : n.children = [] := by
  obtain ⟨p, hp⟩ := exists_position hwf hn
  obtain ⟨σ, name, -, hσ⟩ := hm.placed hp
  cases σ with
  | leaf h kind =>
    obtain ⟨m, hm, -, -, hchildren⟩ := hσ
    rw [hn] at hm
    cases hm
    exact hchildren
  | composite h fields =>
    obtain ⟨m, hm, -, hk, -⟩ := hσ
    rw [hn] at hm
    cases hm
    rw [hk] at hleaf
    cases hleaf
  | repeated h element rule =>
    obtain ⟨m, g, hm, -, hk, -⟩ := hσ
    rw [hn] at hm
    cases hm
    rw [hk] at hleaf
    cases hleaf

/-- The targets of a run in any reachable tree, and what they carry. -/
theorem Reaches.targets_aimed (hbuild : build τ seed = .ok t₀) (h : Reaches allowed t₀ t) (c : Campaign) :
    wp c.targets (Selection.Gathers (Target.Aims c.patches c.plan.filler) t) t := by
  unfold Campaign.targets Selection.targets
  rw [wp.bind, wp.get]
  exact Selection.targetsAt_aims c.patches c.plan.filler c.root _ c.root (h.wellFormed hbuild)

/-- In any reachable tree whose groups are ready, a run from any live node selects its fields without a change
to the tree: each leaf at or below the root of the run once, in the order of the walk, if no node on the path to
it but the root has effective options that disable it, and no other nodes. It tells their full names. -/
theorem Reaches.targets_exact (hbuild : build τ seed = .ok t₀) (h : Reaches allowed t₀ t) (hs : t.Settled)
    (c : Campaign) (hlive : t.isLive c.root = true) :
    ∃ (ids : List NodeId) (names : List String), c.targetNames.run t = (.ok names, t) ∧ ids.map t.fullName = names.map .ok ∧
      ids.Sublist (t.preorder c.root) ∧ ids.Nodup ∧
      ∀ x, x ∈ ids ↔ t.isLeaf x = .ok true ∧ t.contains c.root x = true ∧
        ∀ y, t.contains c.root y = true → t.contains y x = true → y ≠ c.root → ¬ t.Barred c.patches y := by
  have hwf := h.wellFormed hbuild
  obtain ⟨n, hn⟩ := isLive_iff_node?.mp hlive
  obtain ⟨targets, hrun, hsel⟩ := c.exists_selected hwf hs hlive
  obtain ⟨-, haims⟩ := (h.targets_aimed hbuild c).of_run hrun
  have hselects := Selection.targetsAt_selects c.patches c.plan.filler c.root (nestingReserve + t.weight) hwf hs
    ((h.models hbuild).children_leaf hwf) hlive
  have hids := (hselects.of_run hrun).2 targets rfl
  refine ⟨targets.map (·.id), targets.map (·.name), ?_, ?_, hids ▸ chosen_sublist, hsel.nodup, fun x => ?_⟩
  · have h : wp c.targetNames (fun r t' => r = .ok (targets.map (·.name)) ∧ t' = t) t := by
      unfold Campaign.targetNames
      rw [wp.bind]
      refine wp.of_eq hrun ?_
      exact ⟨rfl, rfl⟩
    exact Prod.ext h.1 h.2
  · rw [List.map_map, List.map_map]
    refine List.map_congr_left fun x hx => ?_
    obtain ⟨v, hv, -, -, -, -, -, hname, -⟩ := haims targets rfl x hx
    rwa [hv.settled hs] at hname
  · have hlive' : ∀ {y}, t.isLeaf x = .ok true → ReflTransGen t.Lists y x → ∃ m, t.node? y = some m := by
      intro y hleaf hyx
      obtain ⟨m, hm, -⟩ := look_eq_ok.mp hleaf
      exact Lists.live_of_path hyx (isLive_iff_node?.mpr ⟨m, hm⟩)
    rw [hids, mem_chosen, mem_preorder hwf hn]
    constructor
    · rintro ⟨hx, hleaf, hopen⟩
      obtain ⟨m, hm⟩ := hlive' hleaf .refl
      refine ⟨hleaf, (contains_iff hwf hm).mpr hx, fun y hy hyx => ?_⟩
      rw [contains_iff hwf hm] at hyx
      obtain ⟨l, hl⟩ := hlive' hleaf hyx
      exact hopen y ((contains_iff hwf hl).mp hy) hyx
    · rintro ⟨hleaf, hx, hopen⟩
      obtain ⟨m, hm⟩ := hlive' hleaf .refl
      rw [contains_iff hwf hm] at hx
      refine ⟨hx, hleaf, fun y hy hyx => ?_⟩
      obtain ⟨l, hl⟩ := hlive' hleaf hyx
      exact hopen y ((contains_iff hwf hl).mpr hy) ((contains_iff hwf hm).mpr hyx)

/-- A record with a part that is left out, a hidden flag, a group of flags, and a flag that is left out. -/
def sheltered : Template :=
  .composite { name := "record" } [
    .composite { name := "frozen", fuzz := { enabled := false } } [.boolean "flag"],
    .leaf { name := "seen", hidden := true } .bool,
    .group "flags" (.boolean "flag") (.fixed 2),
    .leaf { name := "off", fuzz := { enabled := false } } .bool]

/-- Patches leave out one of the flags in the group and let the last flag in. -/
def shelteredRun : Campaign where
  root := ⟨0⟩
  patches := [("flags[0]", { enabled := some false }), ("off", { enabled := some true })]

theorem Reaches.targets_exact_sheltered : ∃ (t₀ : Tree) (ids : List NodeId), build sheltered 7 = .ok t₀ ∧ t₀.Settled ∧
    shelteredRun.targetNames.run t₀ = (.ok ["seen", "flags[1]", "off"], t₀) ∧
    ids.map t₀.fullName = [.ok "seen", .ok "flags[1]", .ok "off"] ∧
    ∀ x, x ∈ ids ↔ t₀.isLeaf x = .ok true ∧ t₀.contains ⟨0⟩ x = true ∧
      ∀ y, t₀.contains ⟨0⟩ y = true → t₀.contains y x = true → y ≠ ⟨0⟩ →
        ¬ t₀.Barred shelteredRun.patches y := by
  have hall : (build sheltered 7).toOption.any (fun t =>
      t.nodes.all (·.all fun n => n.kind.group?.all (·.phase = .ready)) && t.isLive ⟨0⟩ &&
        (shelteredRun.targetNames.run t).1.toOption = some ["seen", "flags[1]", "off"]) = true := by
    decide +kernel
  obtain ⟨t₀, hbuild, hall⟩ := exists_build hall
  simp only [Bool.and_eq_true, decide_eq_true_iff] at hall
  obtain ⟨⟨hready, hlive⟩, hnames⟩ := hall
  have hs : t₀.Settled := .of_all hready
  have hreach : Reaches (fun _ _ => True) t₀ t₀ := .refl t₀
  obtain ⟨ids, names, hrun, hfull, -, -, hmem⟩ := hreach.targets_exact hbuild hs shelteredRun hlive
  rw [hrun] at hnames
  cases hnames
  exact ⟨t₀, ids, hbuild, hs, hrun, hfull, hmem⟩

end Tree

end FormatFuzz
