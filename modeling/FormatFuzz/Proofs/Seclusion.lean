-- SUMMARY: While new elements of a group are initialized, the groups that are ready stay as they are.
import FormatFuzz.Proofs.Confinement

/-!
# Seclusion

New nodes are behind all others. If the groups from before are ready, none of them is initialized
any more, so that none of them is entered as a watcher either, and the new groups only have
watchers among themselves. So when new elements are visited, the groups in them come and go
among themselves (`Tree.Swapped.realm`), and a group has as many elements as it has been given
(`Tree.replaceElements_counts`). The same can be said if some of the old groups are not ready, as long as
no others are below them and watch them (`Tree.Shut`).
-/

namespace FormatFuzz

open TreeM

namespace Tree

variable {S : NodeId → Prop} {t t₁ : Tree} {id : NodeId} {n : Node} {g : Group} {element : Template}
  {elements : List NodeId}

-- ---------------------------------------------------------------------------
-- New elements
-- ---------------------------------------------------------------------------

/-- What is below a node of `S` is in `S`, too, and so are the groups that watch one. -/
structure Shut (S : NodeId → Prop) (t : Tree) : Prop where
  below : ∀ {x y}, S x → t.Under x y → S y
  heard : ∀ {w x}, S x → t.Watches w x → S w

theorem shut_false : Shut (fun _ => False) t := ⟨fun h => h.elim, fun h => h.elim⟩

/-- A node that is there before and after is under another one if it was before. -/
theorem Grows.under {t' : Tree} {a x : NodeId} (h : t.Grows t') (hwf : t.WellFormed) (hwf' : t'.WellFormed)
    (hlt : x.index < t.nodes.size) (hunder : t'.Under a x) : t.Under a x := by
  obtain ⟨n', hn'⟩ := hunder.live hwf'
  obtain ⟨n, hn, -⟩ := h.old hlt hn'
  have hbehind := hunder.lt hwf'
  obtain ⟨m', hm', r, hr, hrest⟩ := hunder
  have hpath := (h.path_iff hwf hwf' a hn hn').mp (.head ⟨m', hm', hr⟩ hrest)
  rcases hpath.cases_head with rfl | ⟨c, ⟨m, hm, hc⟩, hrest⟩
  · exact absurd hbehind (Nat.lt_irrefl _)
  · exact ⟨m, hm, c, hc, hrest⟩

namespace Swapped

variable (hswap : Swapped (fun _ => True) id element elements t t₁)

include hswap

/-- The new groups have no watchers, and the old ones do not watch them. -/
theorem confined (hS : Shut S t) :
    Confined (fun x => t.nodes.size ≤ x.index ∨ S x) (fun _ => False) t₁ t₁ := by
  refine .refl ?_
  rintro w x ⟨m, g', hm, hk', hw⟩ hx
  rcases hswap.group_cases hm hk' with ⟨hlt, l, hl, hlk⟩ | ⟨-, -, hnone⟩
  · rcases hx with hge | hx
    · omega
    · exact .inr (hS.heard hx ⟨l, g', hl, hlk, hw⟩)
  · rw [hnone] at hw
    cases hw

/-- If all groups are ready, only the new ones are active. -/
theorem realm (hwf : t.WellFormed) (hn : t.node? id = some n) (hk : n.kind = .repeated g)
    (helement : g.element = element) (hS : Shut S t)
    (hready : ∀ {x phase c}, ¬ S x → t.states x = some (phase, c) → phase = .ready) :
    Realm (fun x => t.nodes.size ≤ x.index ∨ S x) (fun _ => False) t₁ where
  wellFormed := hswap.wellFormed hwf
  fresh := fun hx => .inl (hswap.size.trans hx)
  under := by
    intro t₂ a x hev ha hunder
    have hwf₂ := hev.wellFormed (hswap.wellFormed hwf)
    have hgrows := ((hswap.evolves hn hk helement).trans hev).grows hwf
    rcases Nat.lt_or_ge x.index t.nodes.size with hlt | hge
    · rcases ha with hfresh | ha
      · exact absurd (hfresh.trans (hunder.lt hwf₂).le) (Nat.not_le.mpr hlt)
      · exact .inl (.inr (hS.below ha (hgrows.under hwf hwf₂ hlt hunder)))
    · exact .inl (.inl hge)
  quiet := by
    intro x phase c hx hstates
    obtain ⟨hlt, hx⟩ := not_or.mp hx
    obtain ⟨m, g', hm, hk', rfl, -⟩ := states_eq_some.mp hstates
    rcases hswap.group_cases hm hk' with ⟨-, l, hl, hlk⟩ | ⟨hge, -⟩
    · exact .inl (hready hx (states_of_node? hl hlk))
    · exact absurd hge hlt

end Swapped

-- ---------------------------------------------------------------------------
-- Counts
-- ---------------------------------------------------------------------------

/-- Telling watchers changes no elements and no rules. -/
theorem notify_kept (hn : t.node? id = some n) (watchers : List NodeId) :
    wp (notify watchers) (fun r t' => r = .ok ⟨⟩ ∧ ∃ n', t'.node? id = some n' ∧
      n.fixture = n'.fixture ∧ n'.children = n.children) t := by
  unfold notify
  rw [wp.bind]
  refine wp.forIn (fun _ s => ∃ n', s.node? id = some n' ∧ n.fixture = n'.fixture ∧
    n'.children = n.children) ⟨n, hn, rfl, rfl⟩ (fun _ h => ⟨rfl, h⟩) ?_
  rintro w rest s ⟨n', hn', hfixture, hchildren⟩
  rw [wp.bind, wp.get]
  dsimp only
  split
  · have hmark : s.Alike (s.markStale w) := .of_modifyGroup fun g => by split <;> rfl
    obtain ⟨m, hm, hfixture₁, hchildren₁⟩ := hmark.node? hn'
    have hdrop : (s.markStale w).Alike ((s.markStale w).invalidate w) := .of_invalidate
    obtain ⟨m', hm', hfixture₂, hchildren₂⟩ := hdrop.node? hm
    exact ⟨m', hm', hfixture.trans (hfixture₁.trans hfixture₂),
      hchildren₂.trans (hchildren₁.trans hchildren)⟩
  · exact ⟨n', hn', hfixture, hchildren⟩

/-- If all groups are ready, a group has as many elements as it has been given when these have been
initialized. -/
theorem replaceElements_counts (hwf : t.WellFormed) (hready : t.Settled) (hn : t.node? id = some n)
    (count : Nat) :
    wp (replaceElementsWith (fun id => perform (.visit id)) id count) (fun r t' => r = .ok () →
      ∃ n', t'.node? id = some n' ∧ n.fixture = n'.fixture ∧ n'.children.length = count) t := by
  refine replaceElements_rule hwf (fun _ e h => absurd h error_ne_ok) (fun n' hn' hcount _ => ?_) ?_
  · rw [hn] at hn'
    cases hn'
    exact ⟨n, hn, rfl, hcount⟩
  intro n' g' elements t₁ hn' hk' _ hcount hswap
  rw [hn] at hn'
  cases hn'
  have hrealm := hswap.realm hwf hn hk' rfl shut_false fun {x phase c} _ hstates => by
    obtain ⟨m, g, hm, hk, rfl, -⟩ := states_eq_some.mp hstates
    exact hready hm hk
  refine ⟨Confined (fun x => t.nodes.size ≤ x.index ∨ False) (fun _ => False) t₁,
    hswap.confined shut_false, fun x s hs => ?_, fun s hs => ?_⟩
  · refine (visit_confined hrealm x s).mono fun r s' h' => ?_
    cases r with
    | ok _ => exact h' hs
    | error e => exact fun h => absurd h error_ne_ok
  · obtain ⟨n₁, hn₁, -, hch₁⟩ := hswap.exchanged hn
    have hold : ¬ (t.nodes.size ≤ id.index ∨ False) := fun h =>
      h.elim (Nat.not_le.mpr (lt_size hn)) False.elim
    rcases hs.kept hold with ⟨hfalse, -⟩ | ⟨-, hchildren⟩
    · exact hfalse.elim
    rw [hn₁] at hchildren
    obtain ⟨n₂, hn₂, hch₂⟩ := Option.map_eq_some_iff.mp hchildren
    have hev := (hswap.evolves hn hk' rfl).trans hs.evolves
    have hfixture₂ := (hev.grows hwf).fixture hn hn₂
    have hdrop : s.Alike (s.invalidate id) := .of_invalidate
    obtain ⟨n₃, hn₃, hfixture₃, hch₃⟩ := hdrop.node? hn₂
    refine (notify_kept hn₃ g'.watchers).mono ?_
    rintro _ t₃ ⟨rfl, n₄, hn₄, hfixture₄, hch₄⟩ -
    refine ⟨n₄, hn₄, hfixture₂.trans (hfixture₃.trans hfixture₄), ?_⟩
    rw [hch₄, hch₃, hch₂, hch₁, hcount]

end Tree

end FormatFuzz
