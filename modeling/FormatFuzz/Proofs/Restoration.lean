-- SUMMARY: Fuzz runs put back what they change.
import FormatFuzz.Proofs.Readiness

/-!
# Restoration

Every trial of a run ends with the restoration of the tree, whether the values could be written
or not and whatever the sink says and does. So after a run that went as far as a trial, the
selected leaves hold the cells that they were selected with, and no node has a cache. This takes
that no leaf is selected twice (`Selection.targetsAt_nodup`).

If all groups are ready and the sink asks questions only, the run leaves the tree as it was,
except for caches and readers (`Tree.Intact`).
-/

namespace FormatFuzz

open TreeM
open Relation (ReflTransGen reflTransGen_swap)

-- ---------------------------------------------------------------------------
-- Siblings
-- ---------------------------------------------------------------------------

namespace Tree

variable {t t' : Tree} {id x a b : NodeId} {n : Node}

theorem Lists.live_of_path (hpath : ReflTransGen t.Lists a x) (hx : t.isLive x = true) :
    ∃ m, t.node? a = some m := by
  rcases hpath.cases_head with rfl | ⟨c, ⟨m, hm, -⟩, -⟩
  · exact isLive_iff_node?.mp hx
  · exact ⟨m, hm⟩

/-- Nothing is below two children of one node. -/
theorem Lists.eq_of_paths (hwf : t.WellFormed) (ha : t.Lists id a) (hb : t.Lists id b)
    (hax : ReflTransGen t.Lists a x) (hbx : ReflTransGen t.Lists b x) : a = b := by
  have hparent : ∀ {p q c}, t.Lists p c → t.Lists q c → p = q := by
    rintro p q c ⟨m, hm, hc⟩ ⟨l, hl, hc'⟩
    obtain ⟨-, k, hk, hp⟩ := hwf.child hm hc
    have hq := hwf.parent_of_mem hl hc' hk
    rw [hp] at hq
    exact Option.some.inj hq
  have hlt : ∀ {c}, t.Lists id c → id.index < c.index := by
    rintro c ⟨m, hm, hc⟩
    exact (hwf.child hm hc).1
  -- A path between the two would have come through `id`, which is in front of both.
  have hup : ∀ {a b}, t.Lists id a → t.Lists id b → ReflTransGen t.Lists a b → a = b := by
    intro a b ha hb hab
    rcases hab.cases_tail with heq | ⟨p, hap, hpb⟩
    · exact heq.symm
    · cases hparent hpb hb
      have hle := Below.le hwf hap
      have hlt := hlt ha
      omega
  have hunique : Relator.RightUnique (Function.swap t.Lists) := fun _ _ _ h h' => hparent h h'
  rcases ReflTransGen.total_of_right_unique hunique (reflTransGen_swap.mpr hax)
    (reflTransGen_swap.mpr hbx) with hba | hab
  · exact (hup hb ha (reflTransGen_swap.mp hba)).symm
  · exact hup ha hb (reflTransGen_swap.mp hab)

/-- A child of `id`, as long as it lives. -/
def Child (t : Tree) (id c : NodeId) : Prop :=
  c.index < t.nodes.size ∧ ∀ m, t.node? c = some m → m.parent = some id

namespace Child

variable {c : NodeId}

theorem of_mem (hwf : t.WellFormed) (hn : t.node? id = some n) (hc : c ∈ n.children) :
    t.Child id c := by
  obtain ⟨-, m, hm, hp⟩ := hwf.child hn hc
  refine ⟨lt_size hm, fun m' hm' => ?_⟩
  rw [hm] at hm'
  cases hm'
  exact hp

theorem grows (h : t.Child id c) (hgrows : t.Grows t') : t'.Child id c := by
  refine ⟨h.1.trans_le hgrows.size, fun m' hm' => ?_⟩
  obtain ⟨m, hm, hf, -⟩ := hgrows.old h.1 hm'
  exact (Node.parent_of_fixture hf).symm.trans (h.2 m hm)

theorem lists (h : t.Child id c) (hwf : t.WellFormed) {m : Node} (hm : t.node? c = some m) :
    t.Lists id c := by
  obtain ⟨-, p, hp, -⟩ := hwf.of_parent hm (h.2 m hm)
  exact ⟨p, hp, hwf.mem_children hm (h.2 m hm) hp⟩

end Child

end Tree

-- ---------------------------------------------------------------------------
-- Selection
-- ---------------------------------------------------------------------------

namespace Selection

open FormatFuzz.Tree (Evolves Child)

/-- Between the two trees there was one with `x` at or below `id`. -/
def Met (id : NodeId) (t t' : Tree) (x : NodeId) : Prop :=
  ∃ v, Evolves (fun _ => True) t v ∧ Evolves (fun _ => True) v t' ∧ v.isLive x = true ∧
    ReflTransGen v.Lists id x

/-- The targets are different nodes, which have been at or below `id`. -/
def Apart (id : NodeId) (t : Tree) (r : Except TreeError (List Target)) (t' : Tree) : Prop :=
  Evolves (fun _ => True) t t' ∧ (t.WellFormed → ∀ targets, r = .ok targets →
    (targets.map (·.id)).Nodup ∧ ∀ x ∈ targets, Met id t t' x.id)

variable {t t₁ t₂ : Tree} {id c x : NodeId}

theorem Met.left (h : Evolves (fun _ => True) t t₁) (hx : Met id t₁ t₂ x) : Met id t t₂ x := by
  obtain ⟨v, hv, hv', hlive, hpath⟩ := hx
  exact ⟨v, h.trans hv, hv', hlive, hpath⟩

theorem Met.right (hx : Met id t t₁ x) (h : Evolves (fun _ => True) t₁ t₂) : Met id t t₂ x := by
  obtain ⟨v, hv, hv', hlive, hpath⟩ := hx
  exact ⟨v, hv, hv'.trans h, hlive, hpath⟩

theorem Met.of_child (hwf : t.WellFormed) (hc : t.Child id c) (hx : Met c t t₁ x) :
    Met id t t₁ x := by
  obtain ⟨v, hv, hv', hlive, hpath⟩ := hx
  obtain ⟨m, hm⟩ := Tree.Lists.live_of_path hpath hlive
  have hlists := (hc.grows (hv.grows hwf)).lists (hv.wellFormed hwf) hm
  exact ⟨v, hv, hv', hlive, .head hlists hpath⟩

/-- What has been met below two children was below the same one. -/
theorem Met.unique {c' : NodeId} (hwf : t.WellFormed) (hc : t.Child id c) (hc' : t.Child id c')
    (hx : Met c t t₁ x) (hx' : Met c' t₁ t₂ x) : c = c' := by
  obtain ⟨v, hv, hvt₁, hlive, hpath⟩ := hx
  obtain ⟨w, ht₁w, -, hlive', hpath'⟩ := hx'
  have hwf_v := hv.wellFormed hwf
  have hvw := hvt₁.trans ht₁w
  have hwf_w := hvw.wellFormed hwf_v
  have hgrows := (hv.trans hvw).grows hwf
  obtain ⟨m, hm⟩ := Tree.isLive_iff_node?.mp hlive
  obtain ⟨m', hm'⟩ := Tree.isLive_iff_node?.mp hlive'
  have hpath_w := ((hvw.grows hwf_v).path_iff hwf_v hwf_w c hm hm').mpr hpath
  obtain ⟨k, hk⟩ := Tree.Lists.live_of_path hpath_w hlive'
  obtain ⟨k', hk'⟩ := Tree.Lists.live_of_path hpath' hlive'
  exact Tree.Lists.eq_of_paths hwf_w ((hc.grows hgrows).lists hwf_w hk)
    ((hc'.grows hgrows).lists hwf_w hk') hpath_w hpath'

/-- Selecting below different children gives different targets. -/
theorem mapM_apart {select : NodeId → TreeM (List Target)}
    (hselect : ∀ c t, wp (select c) (Apart c t) t) {ids : List NodeId} (hids : ids.Nodup)
    (hwf : t.WellFormed) (hchild : ∀ c ∈ ids, t.Child id c) :
    wp (ids.mapM select) (fun r t' => Evolves (fun _ => True) t t' ∧ ∀ parts, r = .ok parts →
      (parts.flatten.map (·.id)).Nodup ∧
        ∀ x ∈ parts.flatten, ∃ c ∈ ids, Met c t t' x.id) t := by
  induction ids generalizing t with
  | nil =>
    refine ⟨.refl _ t, fun parts h => ?_⟩
    cases h
    exact ⟨List.nodup_nil, fun x hx => by cases hx⟩
  | cons c rest ih =>
    rw [List.mapM_cons, wp.bind]
    refine (hselect c t).mono ?_
    rintro (e | part) t₁ ⟨hev, hpart⟩
    · exact ⟨hev, fun _ h => absurd h error_ne_ok⟩
    obtain ⟨hnodup, hmet⟩ := hpart hwf part rfl
    dsimp only
    rw [wp.bind]
    have hcons := List.nodup_cons.mp hids
    refine (ih hcons.2 (hev.wellFormed hwf) fun c' hc' => ?_).mono ?_
    · exact (hchild c' (List.mem_cons_of_mem _ hc')).grows (hev.grows hwf)
    rintro (e | parts) t₂ ⟨hev', hparts⟩
    · exact ⟨hev.trans hev', fun _ h => absurd h error_ne_ok⟩
    obtain ⟨hnodup', hmet'⟩ := hparts parts rfl
    refine ⟨hev.trans hev', fun _ h => ?_⟩
    cases h
    rw [List.flatten_cons, List.map_append]
    refine ⟨hnodup.append hnodup' fun y hy hy' => ?_, fun x hx => ?_⟩
    · obtain ⟨x, hx, rfl⟩ := List.mem_map.mp hy
      obtain ⟨x', hx', heq⟩ := List.mem_map.mp hy'
      obtain ⟨c', hc', hbelow⟩ := hmet' x' hx'
      have hsame : c = c' := (hmet x hx).unique hwf (hchild c List.mem_cons_self)
        (hchild c' (List.mem_cons_of_mem _ hc')) (heq ▸ hbelow)
      exact hcons.1 (hsame ▸ hc')
    · rcases List.mem_append.mp hx with hx | hx
      · exact ⟨c, List.mem_cons_self, (hmet x hx).right hev'⟩
      · obtain ⟨c', hc', hbelow⟩ := hmet' x hx
        exact ⟨c', List.mem_cons_of_mem _ hc', hbelow.left hev⟩

/-- No node is selected twice. -/
theorem targetsAt_nodup (patches : Patches) (filler : UInt8) (root : NodeId) (depth : Nat)
    (id : NodeId) (t : Tree) : wp (targetsAt patches filler root depth id) (Apart id t) t := by
  refine targetsAt_rule (P := Apart) ?fail ?skip ?leaf ?touch ?below patches filler root depth id t
  case fail => exact fun _ t e => ⟨.refl _ t, fun _ _ h => absurd h error_ne_ok⟩
  case skip =>
    refine fun _ t => ⟨.refl _ t, fun _ targets h => ?_⟩
    cases h
    exact ⟨List.nodup_nil, fun x hx => by cases hx⟩
  case leaf =>
    refine fun id t n name candidates hn _ => ⟨.refl _ t, fun _ targets h => ?_⟩
    cases h
    refine ⟨List.nodup_singleton _, fun x hx => ?_⟩
    cases List.mem_singleton.mp hx
    exact ⟨t, .refl _ t, .refl _ t, Tree.isLive_iff_node?.mpr ⟨n, hn⟩, .refl⟩
  case touch =>
    have hlaws := Tree.groupLaws_evolves .any
    refine fun id t => (hlaws.touch id t).mono ?_
    rintro (e | _) t₁ hev
    · exact ⟨hev, fun _ _ h => absurd h error_ne_ok⟩
    · rintro r t' ⟨hev', hapart⟩
      refine ⟨trans_of _ hev hev', fun hwf targets h => ?_⟩
      obtain ⟨hnodup, hmet⟩ := hapart (hev.wellFormed hwf) targets h
      exact ⟨hnodup, fun x hx => (hmet x hx).left hev⟩
  case below =>
    intro id t n select hn hselect
    by_cases hwf : t.WellFormed
    · have hchild : ∀ c ∈ n.children, t.Child id c := fun c hc => .of_mem hwf hn hc
      refine (mapM_apart hselect (hwf.nodup_children hn) hwf hchild).mono ?_
      rintro (e | parts) t' ⟨hev, hparts⟩
      · exact ⟨hev, fun _ _ h => absurd h error_ne_ok⟩
      · refine ⟨hev, fun _ targets h => ?_⟩
        cases h
        obtain ⟨hnodup, hmet⟩ := hparts parts rfl
        refine ⟨hnodup, fun x hx => ?_⟩
        obtain ⟨c, hc, hbelow⟩ := hmet x hx
        exact hbelow.of_child hwf (hchild c hc)
    · have hev : Preserves (Evolves fun _ => True) (Evolves fun _ => True) (n.children.mapM select) :=
        .mapM fun c _ t => (hselect c t).mono fun r t' h => by cases r <;> exact h.1
      refine (hev t).mono fun r t' h => ?_
      cases r <;> exact ⟨h, fun h => absurd h hwf⟩

end Selection

-- ---------------------------------------------------------------------------
-- Putting back the saved cells
-- ---------------------------------------------------------------------------

namespace Campaign

variable {t : Tree} {targets : List Target} {id : NodeId}

/-- Targets that are still there hold the cells that they have saved, and nothing is cached. -/
structure Restored (targets : List Target) (t : Tree) : Prop where
  cell : ∀ x ∈ targets, ∀ n, t.node? x.id = some n → n.cell = x.saved
  cache : ∀ id n, t.node? id = some n → n.cache = none

private theorem node?_putCells_of_not_mem (hid : id ∉ targets.map (·.id)) :
    (targets.foldl (fun t x => t.putCell x.id x.saved) t).node? id = t.node? id := by
  induction targets generalizing t with
  | nil => rfl
  | cons x rest ih =>
    rw [List.map_cons, List.mem_cons, not_or] at hid
    rw [List.foldl_cons, ih hid.2, Tree.putCell, Tree.node?_modify_ne _ hid.1]

private theorem node?_putCells_of_mem (hnodup : (targets.map (·.id)).Nodup) {x : Target}
    (hx : x ∈ targets) :
    (targets.foldl (fun t x => t.putCell x.id x.saved) t).node? x.id =
      (t.node? x.id).map ({ · with cell := x.saved }) := by
  induction targets generalizing t with
  | nil => cases hx
  | cons y rest ih =>
    rw [List.map_cons, List.nodup_cons] at hnodup
    rw [List.foldl_cons]
    rcases List.mem_cons.mp hx with rfl | hx
    · rw [node?_putCells_of_not_mem hnodup.1, Tree.putCell, Tree.node?_modify_self]
    · have hne : x.id ≠ y.id := fun heq => hnodup.1 (heq ▸ List.mem_map_of_mem hx)
      rw [ih hnodup.2 hx, Tree.putCell, Tree.node?_modify_ne _ hne]

/-- The restoration puts every saved cell back, whatever has been done to the tree. -/
theorem restored_restore (hnodup : (targets.map (·.id)).Nodup) (t : Tree) :
    Restored targets (restore targets t) where
  cell := by
    intro x hx n hn
    unfold restore at hn
    rw [Tree.node?_invalidateAll, node?_putCells_of_mem hnodup hx] at hn
    obtain ⟨m, hm, rfl⟩ := Option.map_eq_some_iff.mp hn
    obtain ⟨l, -, rfl⟩ := Option.map_eq_some_iff.mp hm
    rfl
  cache := by
    intro id n hn
    unfold restore at hn
    rw [Tree.node?_invalidateAll] at hn
    obtain ⟨m, -, rfl⟩ := Option.map_eq_some_iff.mp hn
    rfl

end Campaign

-- ---------------------------------------------------------------------------
-- Trees that are left as they were
-- ---------------------------------------------------------------------------

namespace Tree

variable {τ : Template} {t t₁ t' : Tree} {id : NodeId}

/-- The trees differ in caches, readers and the stack at most. -/
structure Intact (t t' : Tree) : Prop extends Like t t' where
  counters : t'.counters = t.counters

theorem Intact.refl (t : Tree) : t.Intact t := ⟨.refl t, rfl⟩

theorem Intact.trans (h : t.Intact t₁) (h' : t₁.Intact t') : t.Intact t' :=
  ⟨h.toLike.trans h'.toLike, h'.counters.trans h.counters⟩

/-- The operation leaves trees intact that follow `τ` and whose groups are all ready. -/
def Spares (τ : Template) (t t' : Tree) : Prop := t.Steady (fun _ => True) τ → t.Intact t'

instance : IsPreorder Tree (Spares τ) where
  refl t _ := .refl t
  trans _ _ _ := fun h h' hs => (h hs).trans (h' (hs.like τ.cellsIn_true (h hs).toLike))

/-- Resolution changes caches, readers and the stack only. -/
theorem resolverLaws_spares : ResolverLaws (Spares τ) where
  find start path := .of_run fun t hs => by
    have heq : ((Tree.find start path).run t).2 = t :=
      find_settled hs.wellFormed hs.models hs.settled start path
    rw [heq]
    exact .refl t
  touch id := .of_run fun t hs => by
    have heq : ((Tree.touch id).run t).2 = t := touch_settled hs.settled id
    rw [heq]
    exact .refl t
  count id := .of_run fun t hs => by
    have heq : ((Tree.count id).run t).2 = t := (count_settled hs.settled id).1
    rw [heq]
    exact .refl t
  note t source reader _ := by
    refine ⟨.of_noteReader source reader, ?_⟩
    unfold noteReader
    split <;> rfl
  store t id b _ := ⟨.of_modify fun _ => rfl, rfl⟩
  stack t resolving _ := ⟨⟨rfl, rfl, rfl, fun _ => rfl⟩, rfl⟩

/-- The call is a question about the tree. -/
def Call.Asks : Call → Prop
  | .find .. | .bytes _ | .value _ | .byteLength _ | .offset _ | .count _ => True
  | .resize .. | .replaceCell .. | .invalidate _ | .invalidateAll => False

/-- Questions lead from one tree to the other. Which fields a run would change is one, too. -/
def Queried : Tree → Tree → Prop :=
  ReflTransGen fun t t' => (∃ c : Call, c.Asks ∧ t' = c.run t) ∨
    ∃ c : Campaign, t' = (c.targets.run t).2

theorem Call.spares (c : Call) (hc : c.Asks) (t : Tree) : Spares τ t (c.run t) := by
  cases c with
  | find start path => exact (resolverLaws_spares.find start path).run t
  | bytes id => exact (resolverLaws_spares.answerAll (.bytes id)).run t
  | value id => exact (resolverLaws_spares.answerAll (.value id)).run t
  | byteLength id => exact (resolverLaws_spares.answerAll (.length id)).run t
  | offset id => exact (resolverLaws_spares.offset id).run t
  | count id => exact (resolverLaws_spares.count id).run t
  | resize id n => exact hc.elim
  | replaceCell id cell => exact hc.elim
  | invalidate id => exact hc.elim
  | invalidateAll => exact hc.elim

theorem Queried.spares (h : t.Queried t') : Spares τ t t' := by
  induction h with
  | refl => exact refl_of (Spares τ) t
  | tail _ hstep ih =>
    rcases hstep with ⟨c, hc, rfl⟩ | ⟨c, rfl⟩
    · exact trans_of (Spares τ) ih (c.spares hc _)
    · exact trans_of (Spares τ) ih ((resolverLaws_spares.campaignTargets c).run _)

-- ---------------------------------------------------------------------------
-- Trees in the middle of a trial
-- ---------------------------------------------------------------------------

/-- The trees differ in the cells of some nodes, and in caches, readers and the stack. -/
structure Varies (D : NodeId → Prop) (t t' : Tree) : Prop where
  root : t'.root = t.root
  seed : t'.seed = t.seed
  size : t'.nodes.size = t.nodes.size
  counters : t'.counters = t.counters
  varied : ∀ id, (t'.node? id).map (fun n => { n.bare with cell := .unset }) =
    (t.node? id).map fun n => { n.bare with cell := .unset }
  kept : ∀ id, ¬ D id → (t'.node? id).map Node.bare = (t.node? id).map Node.bare

namespace Varies

variable {D : NodeId → Prop}

theorem of_intact (h : t.Intact t') : Varies D t t' where
  root := h.root
  seed := h.seed
  size := h.size
  counters := h.counters
  varied := by
    intro id
    have hid := congrArg (Option.map fun n : Node => { n with cell := .unset }) (h.nodes id)
    rwa [Option.map_map, Option.map_map] at hid
  kept := fun id _ => h.nodes id

theorem trans (h : Varies D t t₁) (h' : Varies D t₁ t') : Varies D t t' where
  root := h'.root.trans h.root
  seed := h'.seed.trans h.seed
  size := h'.size.trans h.size
  counters := h'.counters.trans h.counters
  varied := fun id => (h'.varied id).trans (h.varied id)
  kept := fun id hid => (h'.kept id hid).trans (h.kept id hid)

theorem of_putCell {cell : Cell} (hid : D id) : Varies D t (t.putCell id cell) where
  root := rfl
  seed := rfl
  size := size_modify _
  counters := rfl
  varied := by
    intro x
    unfold putCell
    rw [node?_modify]
    split
    · rename_i hx
      subst hx
      rw [Option.map_map]
      rfl
    · rfl
  kept := by
    intro x hx
    have hne : x ≠ id := by
      rintro rfl
      exact hx hid
    unfold putCell
    rw [node?_modify_ne _ hne]

theorem steady (h : Varies D t t') (hs : t.Steady (fun _ => True) τ) :
    t'.Steady (fun _ => True) τ := by
  have halike : t.Alike t' := by
    refine ⟨h.root, h.seed, h.size, fun id => ?_⟩
    have hid := congrArg (Option.map Node.skeleton) (h.varied id)
    rwa [Option.map_map, Option.map_map] at hid
  have hev : Evolves (fun _ => True) t t' := .of_alike halike fun _ _ _ _ _ _ => trivial
  refine ⟨halike.wellFormed hs.wellFormed, ?_, hs.settled.of_sameKinds fun id n' hn' => ?_⟩
  · obtain ⟨n, hn, -⟩ := (halike.wellFormed hs.wellFormed).root
    rw [h.root] at hn ⊢
    exact hev.models hs.wellFormed τ _ _ τ.cellsIn_true hs.models (isLive_iff_node?.mpr ⟨n, hn⟩)
  · have hid := h.varied id
    rw [hn'] at hid
    obtain ⟨n, hn, heq⟩ := Option.map_eq_some_iff.mp hid.symm
    have hkind := congrArg Node.kind heq
    exact ⟨n, hn, hkind⟩

end Varies

end Tree

-- ---------------------------------------------------------------------------
-- Runs
-- ---------------------------------------------------------------------------

namespace Campaign

open FormatFuzz.Tree (Intact Queried Reaches Steady Varies)

variable {σ : Type} {sink : Sink σ} {s : σ} {t t₁ t' : Tree} {targets : List Target}

/-- Putting the saved cells back undoes what a trial has changed, if they are the cells of before. -/
theorem intact_restore (hsaved : ∀ x ∈ targets, ∃ n, t.node? x.id = some n ∧ n.cell = x.saved)
    (hnodup : (targets.map (·.id)).Nodup) (h : Varies (· ∈ targets.map (·.id)) t t') :
    t.Intact (restore targets t') := by
  have hframe : ∀ (targets : List Target) (t : Tree),
      let t' := targets.foldl (fun t x => t.putCell x.id x.saved) t
      t'.root = t.root ∧ t'.seed = t.seed ∧ t'.nodes.size = t.nodes.size ∧
        t'.counters = t.counters := by
    intro targets
    induction targets with
    | nil => exact fun _ => ⟨rfl, rfl, rfl, rfl⟩
    | cons x rest ih =>
      intro t
      obtain ⟨hr, hs, hn, hc⟩ := ih (t.putCell x.id x.saved)
      exact ⟨hr, hs, hn.trans (Tree.size_modify _), hc⟩
  obtain ⟨hroot, hseed, hsize, hcounters⟩ := hframe targets t'
  refine ⟨⟨hroot.trans h.root, hseed.trans h.seed, ?_, fun id => ?_⟩, hcounters.trans h.counters⟩
  · unfold restore
    rw [Tree.size_invalidateAll]
    exact hsize.trans h.size
  · unfold restore
    rw [Tree.node?_invalidateAll, Option.map_map]
    by_cases hid : id ∈ targets.map (·.id)
    · obtain ⟨x, hx, rfl⟩ := List.mem_map.mp hid
      obtain ⟨n, hn, hcell⟩ := hsaved x hx
      have hvaried := h.varied x.id
      rw [hn] at hvaried
      obtain ⟨n', hn', heq⟩ := Option.map_eq_some_iff.mp hvaried
      rw [node?_putCells_of_mem hnodup hx, hn', hn, ← hcell]
      have hput := congrArg (fun m : Node => some { m with cell := n.cell }) heq
      exact hput
    · rw [node?_putCells_of_not_mem hid]
      exact h.kept id hid

/-- The run has got as far as a trial: it has finished one, or one has failed. -/
def Attempts (c : Campaign) (sink : Sink σ) (s : σ) (t : Tree) : Prop :=
  ∃ targets t₁, c.targets.run t = (.ok targets, t₁) ∧
    (0 < (c.trials sink s targets t₁).2.report.trials ∨
      ∃ e, (c.trials sink s targets t₁).1 = .error (.failure e))

/-- A run that reports trials has attempted some. -/
theorem attempts_of_report {c : Campaign} {report : Report} (h : (c.run sink s t).1 = .ok report)
    (htrials : 0 < report.trials) : c.Attempts sink s t := by
  unfold run at h
  rcases hselect : c.targets.run t with ⟨r, t₁⟩
  rw [hselect] at h
  cases r with
  | error e => cases h
  | ok targets =>
    refine ⟨targets, t₁, hselect, ?_⟩
    dsimp only at h
    unfold trials start
    generalize (c.tryAll sink targets).run { tree := t₁, sink := s, number := c.plan.firstTrial } = out
      at h ⊢
    obtain ⟨(_ | e) | _, s'⟩ := out
    case ok.error.failure => cases h
    all_goals
      dsimp only at h
      split at h
      · cases h
        exact .inl htrials
      · cases h

/-- Every trial of a run restores the tree, so after a run that went as far as a trial, however it
has ended and whatever the sink has done, each selected leaf that is still there holds the cell that
it was selected with, and nothing is cached. If all groups were ready and the sink has asked questions
only, everything but caches and readers is as it was before the run. -/
theorem run_restores {allowed : Tree → Tree.Call → Prop} {template : Template} {seed : UInt64}
    {t₀ : Tree} (hbuild : Tree.build template seed = .ok t₀) (hreach : Reaches allowed t₀ t)
    (c : Campaign) (sink : Sink σ) (s : σ) (hattempts : c.Attempts sink s t) :
    ∃ targets t₁, c.targets.run t = (.ok targets, t₁) ∧
      (∀ x ∈ targets, ∃ v n, t.Touches v ∧ v.Touches t₁ ∧ v.node? x.id = some n ∧
        n.kind.isLeaf = true ∧ n.cell = x.saved) ∧
      Restored targets (c.run sink s t).2.2 ∧
      (t.Settled → (∀ trial s (v : Tree), v.Queried (sink.accept trial s v).2.2) →
        t.Intact (c.run sink s t).2.2) := by
  obtain ⟨targets, t₁, hselect, htrials⟩ := hattempts
  have hbuilt := Tree.build_wellFormed (C := fun _ => True)
    ⟨fun _ => trivial, fun _ _ _ => trivial⟩ hbuild
  have hwf := hreach.evolves.wellFormed hbuilt.1
  have hsaved := (Selection.targetsAt_saved c.patches c.plan.filler c.root _ c.root t).of_run hselect
  have hapart := (Selection.targetsAt_nodup c.patches c.plan.filler c.root _ c.root t).of_run hselect
  obtain ⟨hnodup, -⟩ := hapart.2 hwf targets rfl
  refine ⟨targets, t₁, hselect, hsaved.2 targets rfl, ?_, fun hs hsink => ?_⟩ <;>
    rw [c.run_tree s hselect]
  · have hleaves : wp (c.tryAll sink targets) (Leaves (Restored targets) (c.start s t₁))
        (c.start s t₁) :=
      c.tryAll_leaves (W := fun _ => True) (fun _ _ _ _ _ _ _ => trivial) (fun _ _ _ _ => trivial)
        (fun t _ => restored_restore hnodup t) (fun _ _ => trivial) trivial
    rcases hleaves with h | ⟨-, hnone, hfail⟩
    · exact h
    · rcases htrials with htrial | ⟨e, he⟩
      · exact absurd hnone htrial.ne'
      · exact absurd he (hfail e)
  · obtain ⟨rfl, hcells⟩ := (c.targets_settled hs).of_run hselect
    have hsteady : t₁.Steady (fun _ => True) template := by
      refine ⟨hwf, ?_, hs⟩
      have hroot := (hreach.evolves.grows hbuilt.1).root
      obtain ⟨n, hn, -⟩ := hwf.root
      rw [hroot] at hn ⊢
      exact hreach.evolves.models hbuilt.1 template _ _ template.cellsIn_true
        (hbuilt.2 template.cellsIn_true) (Tree.isLive_iff_node?.mpr ⟨n, hn⟩)
    have hleaves : wp (c.tryAll sink targets) (Leaves t₁.Intact (c.start s t₁)) (c.start s t₁) := by
      refine c.tryAll_leaves (W := Varies (· ∈ targets.map (·.id)) t₁) ?write ?sink
        (fun _ h => intact_restore (hcells targets rfl) hnodup h) (fun _ h => .of_intact h)
        (.of_intact (.refl t₁))
      case write =>
        intro t t' v x hx h ht'
        rw [Tree.setCell_eq_ok ht']
        have hinvalidate : t.Intact (t.invalidate x.id) := ⟨.of_invalidate, Tree.counters_invalidate⟩
        exact (h.trans (.of_intact hinvalidate)).trans (.of_putCell (List.mem_map_of_mem hx))
      case sink =>
        exact fun trial s t h => h.trans (.of_intact ((hsink trial s t).spares (h.steady hsteady)))
    rcases hleaves with h | ⟨htree, -⟩
    · exact h
    · unfold trials
      rw [htree]
      exact .refl t₁

/-- A sink that counts the trials and looks at the bytes of each. -/
def observer : Sink Nat where
  accept _ count t := (.ok (), count + 1, (Tree.Call.bytes ⟨0⟩).run t)

theorem run_restores_flags :
    ∃ t targets, Tree.build Tree.flags 7 = .ok t ∧ (targets.map Target.id) = [⟨1⟩, ⟨2⟩] ∧
      Restored targets (({ root := ⟨0⟩ } : Campaign).run observer 0 t).2.2 ∧
      t.Intact (({ root := ⟨0⟩ } : Campaign).run observer 0 t).2.2 := by
  have hok : ((Tree.build Tree.flags 7).toOption.any fun t =>
      ((({ root := ⟨0⟩ } : Campaign).run observer 0 t).1.toOption.any fun r => 0 < r.trials) &&
      ((({ root := ⟨0⟩ } : Campaign).targets.run t).1.toOption.any fun targets =>
        targets.map Target.id = [⟨1⟩, ⟨2⟩])) = true := by decide +kernel
  cases hbuild : Tree.build Tree.flags 7 with
  | error e =>
    rw [hbuild] at hok
    cases hok
  | ok t =>
    rw [hbuild, Except.toOption, Option.any_some, Bool.and_eq_true] at hok
    obtain ⟨hreport, hids⟩ := hok
    have hattempts : ({ root := ⟨0⟩ } : Campaign).Attempts observer 0 t := by
      cases hrun : (({ root := ⟨0⟩ } : Campaign).run observer 0 t).1 with
      | error e =>
        rw [hrun] at hreport
        cases hreport
      | ok report =>
        rw [hrun, Except.toOption, Option.any_some, decide_eq_true_iff] at hreport
        exact attempts_of_report hrun hreport
    have hreach : Reaches (fun _ _ => True) t t := .refl t
    obtain ⟨targets, t₁, hselect, -, hrestored, hintact⟩ :=
      run_restores hbuild hreach { root := ⟨0⟩ } observer 0 hattempts
    rw [hselect, Except.toOption, Option.any_some, decide_eq_true_iff] at hids
    have hunbound : Tree.flags.Every Template.Unbound := ⟨trivial, trivial⟩
    refine ⟨t, targets, rfl, hids, hrestored, hintact (Tree.build_settled hunbound hbuild).1 ?_⟩
    exact fun _ _ _ => .single (.inl ⟨.bytes ⟨0⟩, trivial, rfl⟩)

end Campaign

end FormatFuzz
