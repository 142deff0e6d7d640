-- SUMMARY: What a group that could not be resized is left with, and which nodes stay as they were.
import FormatFuzz.Proofs.Assembly
import FormatFuzz.Proofs.Ownership
import FormatFuzz.Proofs.Retries

/-!
# After a failure

Resizing a group may fail when its new elements are already in place: groups in them cannot be initialized, or
their fields cannot be bound. Nothing is taken back then. The group has the new elements, and what is neither
below it nor told of them is as before (`Tree.Reaches.resize_fails`).
-/

namespace FormatFuzz

open TreeM

namespace Tree

variable {τ : Template} {t t' t₀ t₁ : Tree} {id x : NodeId} {n : Node} {g : Group} {count : Nat}

-- ---------------------------------------------------------------------------
-- The same count
-- ---------------------------------------------------------------------------

/-- Fields have been bound to those of elements, and caches have been dropped; all else is as before. -/
structure Rebound (t t' : Tree) : Prop where
  outline : t'.outline = t.outline
  cell : ∀ {x n n'}, t.node? x = some n → t'.node? x = some n' →
    n'.cell = n.cell ∨ ∃ group index field, n'.cell = .bound (.element group index field)

namespace Rebound

theorem refl (t : Tree) : t.Rebound t where
  outline := rfl
  cell := by
    intro x n n' hn hn'
    rw [hn] at hn'
    cases hn'
    exact .inl rfl

theorem node? (h : t.Rebound t') (hn : t.node? x = some n) :
    ∃ n', t'.node? x = some n' ∧ n'.outline = n.outline := by
  have hx := (outline_eq_iff.mp h.outline).2.2.2 x
  rw [hn] at hx
  obtain ⟨n', hn', houtline⟩ := Option.map_eq_some_iff.mp hx
  exact ⟨n', hn', houtline⟩

theorem trans (h : t.Rebound t₁) (h' : t₁.Rebound t') : t.Rebound t' where
  outline := h'.outline.trans h.outline
  cell := by
    intro x n n' hn hn'
    obtain ⟨n₁, hn₁, -⟩ := h.node? hn
    rcases h'.cell hn₁ hn' with hsame | hbound
    · rw [hsame]
      exact h.cell hn hn₁
    · exact .inr hbound

theorem of_bind {group : NodeId} {index : Nat} {field : String} :
    t.Rebound ((t.putCell id (.bound (.element group index field))).invalidate id) where
  outline := outline_bind t id _
  cell := by
    intro x n n' hn hn'
    have hlike : (t.putCell id (.bound (.element group index field))).Like
        ((t.putCell id (.bound (.element group index field))).invalidate id) := .of_invalidate
    have hx := hlike.nodes x
    rw [hn'] at hx
    obtain ⟨m, hm, hbare⟩ := Option.map_eq_some_iff.mp hx.symm
    have hcell : n'.cell = m.cell := (Node.cell_of_bare hbare).symm
    rw [hcell]
    rw [putCell, node?_modify] at hm
    split at hm
    · rename_i hid
      rw [hid] at hn
      rw [hn] at hm
      cases hm
      exact .inr ⟨group, index, field, rfl⟩
    · rw [hn] at hm
      cases hm
      exact .inl rfl

end Rebound

/-- While all groups are ready, fields are bound anew and nothing else is done. -/
def Rebinds (t t' : Tree) : Prop := t.Settled → t.Rebound t'

instance : IsPreorder Tree Rebinds where
  refl t := fun _ => .refl t
  trans _ _ _ h h' := fun hs => (h hs).trans (h' (hs.of_outline (h hs).outline))

theorem linkElements_rebinds (id : NodeId) : Preserves Rebinds Rebinds (linkElementsWith init id) := by
  refine GroupLaws.linkElementsWith (fun x => .of_run fun t hs => ?_) (fun s t x source index field _ h => ?_) id
  · have htouched : ((touchWith init x).run t).2 = t := touchWith_settled hs x
    rw [htouched]
    exact .refl t
  · exact fun hs => (h hs).trans .of_bind

/-- A group that is given the count that it has stays as it is. Only fields of its elements may be bound
anew. -/
theorem resize_same (hs : t.Settled) (hn : t.node? id = some n) (hk : n.kind = .repeated g) :
    wp (resize id n.children.length)
      (fun r t' => t.Rebound t' ∧ ∀ e, r = .error e → g.rule.Links) t := by
  rw [wp_resize_same hs hn hk]
  by_cases hlinks : g.rule.Links
  · refine (linkElements_rebinds id t).mono fun r t' h => ⟨h.rel hs, fun _ _ => hlinks⟩
  · refine ((linkElements_rebinds id t).and (linkElements_unlinked hn hk hlinks)).mono ?_
    rintro _ t' ⟨h, rfl⟩
    exact ⟨h hs, nofun⟩

-- ---------------------------------------------------------------------------
-- Other counts
-- ---------------------------------------------------------------------------

/-- The group `id` has been entered with is told when it gets other elements, and what is below a group that
is told may go, or be told in turn. -/
inductive Stirs (t : Tree) (id : NodeId) : NodeId → Prop where
  | told {w : NodeId} (h : t.Watches w id) : t.Stirs id w
  | under {x y : NodeId} (hx : t.Stirs id x) (h : t.Under x y) : t.Stirs id y
  | onward {w x : NodeId} (hx : t.Stirs id x) (h : t.Watches w x) : t.Stirs id w

theorem shut_stirs : Shut (t.Stirs id) t := ⟨.under, .onward⟩

theorem Stirs.exists_told (h : t.Stirs id x) : ∃ w, t.Watches w id := by
  induction h with
  | told h => exact ⟨_, h⟩
  | under _ _ ih => exact ih
  | onward _ _ ih => exact ih

/-- A group that is given another count gets new elements, whatever comes of it. From then on only new groups
are active, and those that are told. -/
theorem resize_apart (hwf : t.WellFormed) (hs : t.Settled) (hn : t.node? id = some n)
    (hk : n.kind = .repeated g) (hne : n.children.length ≠ count) :
    wp (resize id count) (fun _ t' => ∃ elements t₁, elements.length = count ∧
      Swapped (fun _ => True) id g.element elements t t₁ ∧
        Confined (fun x => t.nodes.size ≤ x.index ∨ t.Stirs id x) (fun _ => False) t₁ t') t := by
  rw [wp_resize hs hn hk, wp.bind]
  refine replaceElements_rule hwf (fun hnone => ?_) (fun m hm hcount => ?_) ?_
  · rw [states_of_node? hn hk] at hnone
    cases hnone
  · rw [hn] at hm
    cases hm
    exact absurd hcount hne
  intro m g' elements t₁ hm hk' _ hcount hswap
  rw [hn] at hm
  cases hm
  rw [hk] at hk'
  cases hk'
  have hready : ∀ {x phase c}, ¬ t.Stirs id x → t.states x = some (phase, c) → phase = .ready := by
    intro x phase c _ hstates
    obtain ⟨m, g, hm, hk, rfl, -⟩ := states_eq_some.mp hstates
    exact hs hm hk
  have hrealm := hswap.realm hwf hn hk rfl shut_stirs hready
  refine ⟨Confined (fun x => t.nodes.size ≤ x.index ∨ t.Stirs id x) (fun _ => False) t₁,
    hswap.confined shut_stirs, fun x s h => ?_, fun s h => ?_⟩
  · refine (visit_confined hrealm x s).mono fun r s' h' => ?_
    cases r with
    | ok _ => exact h' h
    | error e => exact ⟨elements, t₁, hcount, hswap, h' h⟩
  · have htell : Confines (fun x => t.nodes.size ≤ x.index ∨ t.Stirs id x) (fun _ => False) t₁
        (notify g.watchers) :=
      GroupLaws.notify fun s w hw h => h.markStale (.inr (.told ((watches_iff hn hk).mpr hw)))
    refine (htell _).mono fun r s' h' => ?_
    have hs' := h'.rel (Confined.shallow.of_like .of_invalidate h)
    cases r with
    | error e => exact ⟨elements, t₁, hcount, hswap, hs'⟩
    | ok _ =>
      refine (linkElements_confined (touch_confined hrealm) id s').mono fun r s'' h'' => ?_
      exact ⟨elements, t₁, hcount, hswap, h''.rel hs'⟩

-- ---------------------------------------------------------------------------
-- Caches
-- ---------------------------------------------------------------------------

/-- Groups get other elements without any bytes being worked out. -/
theorem groupLaws_keeps_any : GroupLaws (Keeps fun _ => True) (fun _ => Keeps fun _ => True)
    (Keeps fun _ => True) where
  phase t id phase := .of_modifyGroup _
  watch t id watcher := .of_modifyGroup _
  stale t id := .trans (.of_modifyGroup _) .of_invalidate
  link s t id source index field _ h := by
    have hput : Keeps (fun _ => True) t (t.putCell id (.bound (.element source index field))) :=
      .of_modify (fun _ => ⟨rfl, rfl⟩) fun _ hnot => absurd trivial hnot
    exact h.trans (hput.trans .of_invalidate)
  swap t id n g count _ _ := by
    refine (swapElements_keeps id g.element n.children count t).mono fun r t' h => ?_
    cases r <;> exact Keeps.mono h fun _ _ => trivial
  swapped := .trans
  settle h := h.trans .of_invalidate
  spoil := .trans

/-- Bytes that are cached after a group has been resized, or has not, were cached before. -/
theorem cacheOf_resize {r : Except TreeError Unit} {b : Bytes} (hrun : (resize id count).run t = (r, t'))
    (hb : t'.cacheOf x = some b) : t.cacheOf x = some b := by
  obtain ⟨n', hn', hcache⟩ := cacheOf_eq_some.mp hb
  have hkeeps := ((groupLaws_keeps_any.resize id count t).of_run hrun).rel
  obtain ⟨⟨n, hn, hbefore⟩, -⟩ := hkeeps.cached hn' hcache
  exact cacheOf_eq_some.mpr ⟨n, hn, hbefore⟩

-- ---------------------------------------------------------------------------
-- Failures
-- ---------------------------------------------------------------------------

/-- A group that cannot be resized while all groups are ready has its elements still if it has been given the
count that it has, and then fields of its elements may have been bound anew. Otherwise its old elements are
gone, and it has as many new ones as it has been given, unless it is told of itself. All nodes that are
neither below it nor told of it have the elements and children that they have had. Bytes that are still
cached are answered as before. -/
theorem Reaches.resize_fails {allowed : Tree → Call → Prop} {seed : UInt64} {e : TreeError}
    (hbuild : build τ seed = .ok t₀) (h : Reaches allowed t₀ t) (hs : t.Settled) (hn : t.node? id = some n)
    (hk : n.kind = .repeated g) (herr : (resize id count).run t = (.error e, t')) :
    (n.children.length = count → g.rule.Links ∧ t.Rebound t' ∧ t'.Owns id n.children) ∧
    (n.children.length ≠ count →
      (∀ x, t.Under id x → t'.node? x = none) ∧
      (¬ t.Stirs id id → ∃ elements, elements.length = count ∧
        (∀ c ∈ elements, t.nodes.size ≤ c.index) ∧ t'.Owns id elements) ∧
      ∀ x m, t.node? x = some m → x ≠ id → ¬ t.Under id x → ¬ t.Stirs id x →
        t'.states x = t.states x ∧ t'.children x = .ok m.children) ∧
    ∀ x b, t'.cacheOf x = some b → (bytes x).run t = (.ok b, t) ∧ (bytes x).run t' = (.ok b, t') := by
  have hwf := h.wellFormed hbuild
  have hm := h.models hbuild
  have hev := ((groupLaws_evolves (C := fun _ => True) ⟨fun _ => trivial, fun _ _ _ => trivial⟩).resize
    id count t).of_run herr |>.rel
  have hwf' := hev.wellFormed hwf
  have hm' := hm.evolve hwf τ.cellsIn_true hev
  have hready := hs hn hk
  refine ⟨?_, fun hne => ?_, fun x b hb => ?_⟩
  · rintro rfl
    obtain ⟨hrebound, hlinks⟩ := (resize_same hs hn hk).of_run herr
    obtain ⟨n', hn', houtline⟩ := hrebound.node? hn
    have hkind := congrArg Node.kind houtline
    have hchildren : n'.children = n.children := by
      have h := congrArg Node.children houtline
      exact h
    have howns := owns_of_ready hm' hwf' hn' (hkind.trans hk) hready
    exact ⟨hlinks e rfl, hrebound, hchildren ▸ howns⟩
  · obtain ⟨elements, t₁, hcount, hswap, hconfined⟩ := (resize_apart hwf hs hn hk hne).of_run herr
    have hwf₁ := hswap.wellFormed hwf
    have hkept : ∀ {x}, x.index < t.nodes.size → ¬ t.Stirs id x → t'.states x = t₁.states x ∧
        (t'.node? x).map Node.children = (t₁.node? x).map Node.children := by
      intro x hx hstill
      have hout : ¬ (t.nodes.size ≤ x.index ∨ t.Stirs id x) := fun h =>
        h.elim (Nat.not_le.mpr hx) hstill
      rcases hconfined.kept hout with ⟨hfalse, -⟩ | hkept
      · exact hfalse.elim
      · exact hkept
    refine ⟨fun x hx => ?_, fun hstill => ?_, fun x m hm hne hunder hstill => ?_⟩
    · obtain ⟨m, hm⟩ := hx.live hwf
      exact (hconfined.evolves.grows hwf₁).dead ((lt_size hm).trans_le hswap.size) (hswap.gone hx)
    · obtain ⟨m, n₁, hm, hn₁, hbare⟩ := hswap.self
      rw [hn] at hm
      cases hm
      have hk₁ : n₁.kind = .repeated g := by
        have h := congrArg Node.kind hbare
        exact h.trans hk
      have hch₁ : n₁.children = elements := by
        have h := congrArg Node.children hbare
        exact h
      obtain ⟨hstates, hchildren⟩ := hkept (lt_size hn) hstill
      rw [states_of_node? hn₁ hk₁, hready] at hstates
      rw [hn₁, Option.map_some, hch₁] at hchildren
      obtain ⟨n', g', hn', hk', hphase, -⟩ := states_eq_some.mp hstates
      rw [hn', Option.map_some] at hchildren
      have howns := owns_of_ready hm' hwf' hn' hk' hphase
      rw [Option.some.inj hchildren] at howns
      exact ⟨elements, hcount, fun c hc => (hswap.roots hc).1, howns⟩
    · obtain ⟨hstates, hchildren⟩ := hkept (lt_size hm) hstill
      have hbare := hswap.kept (lt_size hm) hne hunder
      have hsame := congrArg (Option.map Node.children) hbare
      rw [Option.map_map, Option.map_map] at hsame
      have hchildren' := hchildren.trans hsame
      rw [hm] at hchildren'
      obtain ⟨m', hm', hch⟩ := Option.map_eq_some_iff.mp hchildren'
      exact ⟨hstates.trans (states_congr hbare), (look_of_node? hm' _).trans (congrArg _ hch)⟩
  · exact ⟨run_bytes_cached (cacheOf_resize herr hb), run_bytes_cached hb⟩

theorem Reaches.resize_fails_hollow : ∃ t₀ e elements, build hollow 7 = .ok t₀ ∧
    let t' := (Call.resize ⟨1⟩ 1).run t₀
    (Call.resize ⟨1⟩ 1).failure t₀ = some e ∧ elements.length = 1 ∧ t'.Owns ⟨1⟩ elements := by
  have hruns : (build hollow 7).toOption.any (fun t =>
      ((resize ⟨1⟩ 1).run t).1.isOk = false ∧ t.children ⟨1⟩ = .ok [] ∧
      (t.group ⟨1⟩).toOption.any (·.watchers.isEmpty) = true ∧
      t.nodes.all (·.all fun n => n.kind.group?.all (·.phase = .ready)) = true) = true := by
    decide +kernel
  obtain ⟨t₀, hbuild, hruns⟩ := exists_build hruns
  obtain ⟨hfails, hempty, hunheard, hready⟩ := of_decide_eq_true hruns
  rcases hresize : (resize ⟨1⟩ 1).run t₀ with ⟨e | _, t'⟩
  · cases hg : t₀.group ⟨1⟩ with
    | error e =>
      rw [hg] at hunheard
      cases hunheard
    | ok g =>
      obtain ⟨n, hn, hk⟩ := group_eq_ok.mp hg
      rw [hg] at hunheard
      have hstart : Reaches (fun _ _ => True) t₀ t₀ := .refl t₀
      have hchildren : n.children = [] := by
        rw [children, look_of_node? hn] at hempty
        exact Except.ok.inj hempty
      have hstill : ¬ t₀.Stirs ⟨1⟩ ⟨1⟩ := by
        intro h
        obtain ⟨w, hw⟩ := h.exists_told
        rw [watches_iff hn hk, List.isEmpty_iff.mp hunheard] at hw
        cases hw
      obtain ⟨-, hother, -⟩ := Reaches.resize_fails hbuild hstart (.of_all hready) hn hk hresize
      obtain ⟨-, hnew, -⟩ := hother (by rw [hchildren]; decide)
      obtain ⟨elements, hlength, -, howns⟩ := hnew hstill
      refine ⟨t₀, e, elements, hbuild, ?_, hlength, ?_⟩
      · show failureOf ((resize ⟨1⟩ 1).run t₀).1 = some e
        rw [hresize]
        rfl
      · show ((resize ⟨1⟩ 1).run t₀).2.Owns ⟨1⟩ elements
        rw [hresize]
        exact howns
  · rw [hresize] at hfails
    cases hfails

/-- A group that cannot initialize what is in its new elements is left with them. -/
theorem resize_unrestored : ∃ t₀, build hollow 7 = .ok t₀ ∧ t₀.Settled ∧
    let t' := (Call.resize ⟨1⟩ 1).run t₀
    (Call.resize ⟨1⟩ 1).failure t₀ = some (.bindingUnresolved "outer[0].inner" "nowhere") ∧
      ((Tree.count ⟨1⟩).run t₀).1.toOption = some 0 ∧ ((Tree.count ⟨1⟩).run t').1.toOption = some 1 := by
  have hruns : (build hollow 7).toOption.any (fun t =>
      t.nodes.all (·.all fun n => n.kind.group?.all (·.phase = .ready)) = true ∧
      (Call.resize ⟨1⟩ 1).failure t = some (.bindingUnresolved "outer[0].inner" "nowhere") ∧
      ((Tree.count ⟨1⟩).run t).1.toOption = some 0 ∧
      ((Tree.count ⟨1⟩).run ((Call.resize ⟨1⟩ 1).run t)).1.toOption = some 1) = true := by
    decide +kernel
  obtain ⟨t₀, hbuild, hruns⟩ := exists_build hruns
  obtain ⟨hready, hcounts⟩ := of_decide_eq_true hruns
  exact ⟨t₀, hbuild, .of_all hready, hcounts⟩

end Tree

end FormatFuzz
