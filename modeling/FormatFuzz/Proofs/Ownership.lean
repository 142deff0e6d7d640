-- SUMMARY: The elements of a group that follows no other one are those that it has been given by its caller.
import FormatFuzz.Proofs.Guards
import FormatFuzz.Proofs.Tidiness

/-!
# Elements of unbound groups

A group that follows no other one has its elements from whoever has resized it last, and keeps them as long as
it is there, whatever happens to other groups (`Tree.Reaches.resize_owns`).
-/

namespace FormatFuzz

open TreeM

namespace Tree

variable {X : NodeId → Prop} {τ : Template} {t t' t₀ t₁ : Tree} {id : NodeId} {n : Node} {g : Group} {count : Nat}

-- ---------------------------------------------------------------------------
-- Elements of a group
-- ---------------------------------------------------------------------------

/-- The group has these elements, with the names that go with its own, and is ready to count them. -/
structure Owns (t : Tree) (id : NodeId) (elements : List NodeId) : Prop where
  children : t.children id = .ok elements
  counted : (Tree.count id).run t = (.ok elements.length, t)
  named : ∃ name, t.name id = .ok name ∧
    ∀ (i : Nat) c, elements[i]? = some c → t.isLive c = true ∧ t.name c = .ok s!"{name}[{i}]"

theorem Models.named (hm : t.Models (fun _ => True) τ τ.name t.root) (hwf : t.WellFormed)
    (hn : t.node? id = some n) (hk : n.kind = .repeated g) {i : Nat} {c : NodeId}
    (hc : n.children[i]? = some c) : ∃ m, t.node? c = some m ∧ m.name = s!"{n.name}[{i}]" := by
  obtain ⟨p, hp⟩ := exists_position hwf hn
  obtain ⟨σ, name, hpart, hσ⟩ := hm.placed hp
  obtain ⟨header, name', hpart'⟩ := hm.rule hp hn hk
  cases hpart.symm.trans hpart'
  obtain ⟨n', g', hn', hb, -, -, -, helements⟩ := hσ
  cases hn.symm.trans hn'
  obtain ⟨m, hm', hb'⟩ := (helements i c hc).live
  exact ⟨m, hm', by rw [hb'.name, hb.name]⟩

theorem owns_of_ready (hm : t.Models (fun _ => True) τ τ.name t.root) (hwf : t.WellFormed)
    (hn : t.node? id = some n) (hk : n.kind = .repeated g) (hready : g.phase = .ready) :
    t.Owns id n.children where
  children := look_of_node? hn _
  counted := by
    suffices h : wp (Tree.count id) (fun r t' => r = .ok n.children.length ∧ t' = t) t from Prod.ext h.1 h.2
    unfold Tree.count countWith
    rw [wp.look_ok (group_eq_ok.mpr ⟨n, hn, hk⟩), hready]
    dsimp only
    rw [wp.look_ok (look_of_node? hn Node.children)]
    exact ⟨rfl, rfl⟩
  named := by
    refine ⟨n.name, look_of_node? hn _, fun i c hc => ?_⟩
    obtain ⟨m, hm', hname⟩ := hm.named hwf hn hk hc
    exact ⟨isLive_iff_node?.mpr ⟨m, hm'⟩, (look_of_node? hm' _).trans (congrArg _ hname)⟩

-- ---------------------------------------------------------------------------
-- Resizing
-- ---------------------------------------------------------------------------

/-- A group that is ready is left alone by what others do if it follows none. -/
theorem Tidy.held_of_ready (h : t.Tidy X) (hwf : t.WellFormed) (hn : t.node? id = some n)
    (hk : n.kind = .repeated g) (hunbound : g.rule.isBound = false) (hready : g.phase = .ready) :
    t.Held id where
  wellFormed := hwf
  index := lt_size hn
  quiet := by
    intro phase c hstates
    rw [states_of_node? hn hk] at hstates
    cases hstates
    exact .inl hready
  unheard := by
    intro x hw
    have hbound := (h.heard hw).2 hn hk
    rw [hunbound] at hbound
    cases hbound

/-- Resizing a group that is not ready yet first gives it the elements of its rule. They are kept if they are
as many as they should be. -/
theorem Refilled.trans {n₁ n₂ : Node} {count₁ : Nat} (h₁ : t.Refilled n count₁ n₁)
    (h₂ : t₁.Refilled n₁ count n₂) (hsize : t.nodes.size ≤ t₁.nodes.size)
    (hfilled : n.children = [] ∨ n.children.length = count₁) : t.Refilled n count n₂ where
  length := h₂.length
  same := by
    intro hcount
    rcases hfilled with hempty | hfilled
    · rw [hempty] at hcount ⊢
      exact List.eq_nil_of_length_eq_zero (h₂.length.trans hcount.symm)
    · have hsame := h₁.same hfilled
      exact (h₂.same (hsame ▸ hcount)).trans hsame
  fresh := by
    intro hne c hc
    by_cases hcount : n₁.children.length = count
    · rw [h₂.same hcount] at hc
      exact h₁.fresh (fun h => hne (h.trans (h₁.length.symm.trans hcount))) c hc
    · exact hsize.trans (h₂.fresh hcount c hc)

theorem resize_unbound (h : t.Tidy X) (hwf : t.WellFormed) (hn : t.node? id = some n)
    (hk : n.kind = .repeated g) (hunbound : g.rule.isBound = false) (hidle : g.phase ≠ .initializing)
    (count : Nat) :
    wp (resize id count) (fun r t' => r = .ok () → ∃ n' g', t'.node? id = some n' ∧
      n'.kind = .repeated g' ∧ g'.phase = .ready ∧ t.Refilled n count n') t := by
  unfold resize
  rw [wp.bind]
  refine ((touch_unbound h hwf hn hk hunbound).and (touch_tidies (X := X) id t)).mono fun r t₁ h₁ => ?_
  obtain ⟨htouched, htidies⟩ := h₁
  obtain ⟨hev, htidy⟩ := htidies.rel hwf h
  clear htidies
  cases r with
  | error e => exact fun h => absurd h error_ne_ok
  | ok _ =>
    have hwf₁ := hev.wellFormed hwf
    obtain ⟨n₁, g₁, hn₁, hk₁, hready, hcompose⟩ : ∃ n₁ g₁, t₁.node? id = some n₁ ∧
        n₁.kind = .repeated g₁ ∧ g₁.phase = .ready ∧
          ∀ n₂, t₁.Refilled n₁ count n₂ → t.Refilled n count n₂ := by
      rcases htouched rfl with ⟨rfl, hphase⟩ | ⟨huninit, n₁, g₁, hn₁, hk₁, hready, h₁⟩
      · exact ⟨n, g, hn, hk, hphase.resolve_right hidle, fun _ h => h⟩
      · refine ⟨n₁, g₁, hn₁, hk₁, hready, fun n₂ h₂ => h₁.trans h₂ (hev.grows hwf).size ?_⟩
        refine ((h.unbound hn hk hunbound).2 huninit).imp_right fun hcount => ?_
        exact (Except.ok.inj ((provisionalCount_eq hwf hn hk).symm.trans hcount)).symm
    obtain ⟨g', hk', hrule⟩ := Node.rule_of_fixture ((hev.grows hwf).fixture hn hn₁) hk
    rw [hk₁] at hk'
    cases hk'
    have hunbound₁ : g₁.rule.isBound = false := hrule ▸ hunbound
    have hheld := htidy.held_of_ready hwf₁ hn₁ hk₁ hunbound₁ hready
    have hgrows := GroupLaws.replaceElementsWith
      (groupLaws_evolves .any).swaps
      (fun x => (groupLaws_evolves .any).perform (.visit x)) id count t₁
    dsimp only
    rw [wp.bind]
    refine ((replaceElements_held hheld hn₁ hk₁ (fun _ hs => visit_confined hs.realm) count).and hgrows).mono
      fun r t₂ h₂ => ?_
    obtain ⟨hdone, hgrows⟩ := h₂
    cases r with
    | error e => exact fun h => absurd h error_ne_ok
    | ok _ =>
      refine (linkElements_unbound fun {n' g'} hn' hk' => ?_).mono ?_
      · obtain ⟨g₂, hk₂, hrule₂⟩ :=
          Node.rule_of_fixture ((hgrows.rel.grows hwf₁).fixture hn₁ hn') hk₁
        rw [hk'] at hk₂
        cases hk₂
        exact hrule₂ ▸ hunbound₁
      · rintro r _ ⟨rfl, hlive⟩ hok
        obtain ⟨n₂, hn₂⟩ := hlive hok
        obtain ⟨hrefilled, g₂, hk₂, hphase⟩ := hdone n₂ hn₂
        exact ⟨n₂, g₂, hn₂, hk₂, hphase.trans hready, hcompose n₂ hrefilled⟩

/-- When a group that follows no other one has been resized, it has as many elements as it has been given, with
their names in order. These are its old elements if it had as many, and new ones otherwise. It has them in all
later states in which it is there, until it is resized again. -/
theorem Reaches.resize_owns {allowed : Tree → Call → Prop} {seed : UInt64}
    (hbuild : build τ seed = .ok t₀) (h : Reaches allowed t₀ t) (hn : t.node? id = some n)
    (hk : n.kind = .repeated g) (hunbound : g.rule.isBound = false)
    (hok : (resize id count).run t = (.ok (), t₁)) :
    ∃ elements, elements.length = count ∧ t₁.Owns id elements ∧
      (if n.children.length = count then elements = n.children
        else ∀ c ∈ elements, t.nodes.size ≤ c.index) ∧
      ∀ t₂, Reaches (fun _ c => ∀ m, c ≠ .resize id m) t₁ t₂ → t₂.isLive id = true →
        t₂.Owns id elements := by
  have hwf := h.wellFormed hbuild
  have hidle : g.phase ≠ .initializing := fun hbusy =>
    (h.unwinds.idle (build_idle hbuild)).busy id ⟨n, g, hn, hk, hbusy⟩
  obtain ⟨n₁, g₁, hn₁, hk₁, hready, hrefilled⟩ :=
    (resize_unbound (h.tidy hbuild) hwf hn hk hunbound hidle count).of_run hok rfl
  have htidies := (resize_tidies (X := fun _ => False) not_false count t).of_run hok
  obtain ⟨hev, htidy⟩ := htidies.rel hwf (h.tidy hbuild)
  have hwf₁ := hev.wellFormed hwf
  have hm₁ := (h.models hbuild).evolve hwf τ.cellsIn_true hev
  obtain ⟨g', hk', hrule⟩ := Node.rule_of_fixture ((hev.grows hwf).fixture hn hn₁) hk
  rw [hk₁] at hk'
  cases hk'
  have hheld := htidy.held_of_ready hwf₁ hn₁ hk₁ (hrule ▸ hunbound) hready
  refine ⟨n₁.children, hrefilled.length, owns_of_ready hm₁ hwf₁ hn₁ hk₁ hready, ?_, fun t₂ h₂ hlive => ?_⟩
  · split
    · exact hrefilled.same ‹_›
    · exact hrefilled.fresh ‹_›
  · obtain ⟨n₂, hn₂⟩ := isLive_iff_node?.mp hlive
    have hconfined := hheld.confined.reaches hheld.realm (fun t x m hc he => hc m (he ▸ rfl)) h₂
    rcases hconfined.kept (not_not.mpr rfl) with ⟨-, hdead⟩ | ⟨hstates, hchildren⟩
    · rw [hn₂] at hdead
      cases hdead
    rw [hn₂, hn₁] at hchildren
    rw [states_of_node? hn₁ hk₁] at hstates
    obtain ⟨m, g₂, hm, hk₂, hphase, -⟩ := states_eq_some.mp hstates
    rw [hn₂] at hm
    cases hm
    have hm₂ := hm₁.evolve hwf₁ τ.cellsIn_true h₂.evolves
    have howns := owns_of_ready hm₂ (h₂.evolves.wellFormed hwf₁) hn₂ hk₂ (hphase.trans hready)
    exact Option.some.inj hchildren ▸ howns

/-- A group, and one that follows it. -/
def trailed : Template :=
  .composite { name := "record" } [
    .group "flags" (.boolean "flag") (.fixed 2),
    .group "copies" (.boolean "copy") (.bound "flags" [] 0 9)]

theorem Reaches.resize_owns_trailed : ∃ t₀ t₁ elements, build trailed 7 = .ok t₀ ∧
    (resize ⟨1⟩ 3).run t₀ = (.ok (), t₁) ∧ elements.length = 3 ∧
    ((Call.resize ⟨2⟩ 0).run t₁).Owns ⟨1⟩ elements := by
  have hruns : (build trailed 7).toOption.any (fun t =>
      ((resize ⟨1⟩ 3).run t).1.isOk = true ∧
      (t.group ⟨1⟩).toOption.any (·.rule.isBound = false) = true ∧
      ((Call.resize ⟨2⟩ 0).run ((resize ⟨1⟩ 3).run t).2).isLive ⟨1⟩ = true) = true := by
    decide +kernel
  obtain ⟨t₀, hbuild, hruns⟩ := exists_build hruns
  obtain ⟨hok, hrule, hlive⟩ := of_decide_eq_true hruns
  rcases hresize : (resize ⟨1⟩ 3).run t₀ with ⟨e | _, t₁⟩
  · rw [hresize] at hok
    cases hok
  rw [hresize] at hlive
  cases hg : t₀.group ⟨1⟩ with
  | error e =>
    rw [hg] at hrule
    cases hrule
  | ok g =>
    obtain ⟨n, hn, hk⟩ := group_eq_ok.mp hg
    rw [hg] at hrule
    have hstart : Reaches (fun _ _ => True) t₀ t₀ := .refl t₀
    obtain ⟨elements, hlength, -, -, hlater⟩ :=
      Reaches.resize_owns hbuild hstart hn hk (of_decide_eq_true hrule) hresize
    have hother : ∀ m, Call.resize ⟨2⟩ 0 ≠ .resize ⟨1⟩ m := nofun
    exact ⟨t₀, t₁, elements, hbuild, hresize, hlength, hlater _ (.call _ (.refl t₁) hother) hlive⟩

end Tree

end FormatFuzz
