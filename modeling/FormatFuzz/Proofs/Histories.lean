-- SUMMARY: Lengths and offsets are the same after bytes have been cached, if no blind nodes are among them.
import FormatFuzz.Proofs.Failures
import FormatFuzz.Proofs.Offsets

/-!
# Histories

Lengths and offsets do not hang on what bytes have been asked for before, with two exceptions
(`Tree.Reaches.length_after_bytes`). If bytes have been cached of a composite with a leaf whose codec does not
tell the length, then the length of the composite is told where it was not before (`Tree.bytes_unveil`). And a
circle that was an error before may be gone. Until the first of such composites is cached, no length of one is
told (`Resolver.length_unknown`).
-/

namespace FormatFuzz

open TreeM

open FormatFuzz.Tree (Sane Grounds Echoes)

namespace Tree

variable {t t' : Tree} {x c : NodeId} {n : Node}

-- ---------------------------------------------------------------------------
-- Nodes of unknown length
-- ---------------------------------------------------------------------------

/-- The length of the node is that of visible children, and so on down to a leaf that does not tell its
length. -/
inductive Obscured (t : Tree) : NodeId → Prop
  | of_untold {x c : NodeId} : t.Sums x c → t.Untold c → Obscured t x
  | of_sums {x c : NodeId} : t.Sums x c → Obscured t c → Obscured t x

/-- Bytes have been cached of an obscured node. -/
def Shown (t₀ t : Tree) : Prop := ∃ x, t₀.Obscured x ∧ t.cacheOf x ≠ none

/-- Bytes have been cached of a blind node for which `P` holds. -/
def Unveils (P : NodeId → Prop) (t t' : Tree) : Prop :=
  ∃ x, P x ∧ t.Blind x ∧ t.cacheOf x = none ∧ t'.cacheOf x ≠ none

theorem Shown.mono {t₀ : Tree} (h : Shown t₀ t) (hfills : t.Fills t') : Shown t₀ t' := by
  obtain ⟨x, hx, hcached⟩ := h
  obtain ⟨b, hb⟩ := Option.ne_none_iff_exists'.mp hcached
  exact ⟨x, hx, by simp [hfills.kept hb]⟩

end Tree

namespace Resolver

variable {t₀ : Tree} {x c : NodeId} {depth : Nat}

open FormatFuzz.Tree (Shown)

/-- If one of the children does not tell its length unless an obscured node is cached, their sum is not told
either. -/
theorem shownLength_unknown (hc : t₀.Sums x c) (hask : ∀ u, t₀.Like u → u.Sane →
      wp (resolve depth (.length c)) (fun r u' => ∀ k : Nat, r = .ok k → Shown t₀ u') u)
    {u : Tree} (hlike : t₀.Like u) (hsane : u.Sane) (isRepeated : Bool) :
    wp (shownLength (resolve depth) x isRepeated) (fun r u' => ∀ k, r = .ok k → Shown t₀ u') u := by
  obtain ⟨-, shown, -, -, hshown, hmem⟩ := hc.of_like hlike
  refine wp_shownLength hsane.settled (by simp) fun shown' hshown' => ?_
  rw [hshown] at hshown'
  cases hshown'
  refine wp.foldlM (fun rest _ v => u.Stores v ∧ (c ∈ rest ∨ Shown t₀ v)) ⟨.refl u, .inl hmem⟩ ?_ ?_
  · rintro _ v ⟨-, hmem | htold⟩ _ -
    · cases hmem
    · exact htold
  · rintro c' rest total v ⟨hstores, hleft⟩
    have hsanev := hstores.sane hsane
    have hreplays := (recurrent_resolve depth).replays (.length c') v hsanev
    have htold : wp (resolve depth (.length c')) (fun r w => ∀ k : Nat, r = .ok k →
        c ∈ rest ∨ c' = c ∧ Shown t₀ w ∨ Shown t₀ v) v := by
      by_cases heq : c' = c
      · subst heq
        exact (hask v (hlike.trans hstores.toLike) hsanev).mono fun _ _ h k hk => .inr (.inl ⟨rfl, h k hk⟩)
      · refine hreplays.mono fun _ _ _ k _ => ?_
        rcases hleft with hmem | htold
        · rcases List.mem_cons.mp hmem with heq' | hmem
          · exact absurd heq'.symm heq
          · exact .inl hmem
        · exact .inr (.inr htold)
    refine wp.bind.mpr ((hreplays.and htold).mono fun r w h => ?_)
    obtain ⟨⟨hstores', -⟩, htold⟩ := h
    cases r with
    | error e =>
      rintro _ ⟨⟩
    | ok k =>
      refine ⟨hstores.trans hstores', ?_⟩
      rcases htold k rfl with hmem | ⟨-, htold⟩ | htold
      · exact .inl hmem
      · exact .inr htold
      · exact .inr (htold.mono hstores'.toFills)

/-- The length of an obscured node is only told if one is cached by then. -/
theorem length_unknown (h : t₀.Obscured x) (depth : Nat) {u : Tree} (hlike : t₀.Like u) (hsane : u.Sane) :
    wp (resolve depth (.length x)) (fun r u' => ∀ k : Nat, r = .ok k → Shown t₀ u') u := by
  induction depth generalizing x u with
  | zero =>
    rintro k ⟨⟩
  | succ depth ih =>
    obtain ⟨c, hc, hask⟩ : ∃ c, t₀.Sums x c ∧ ∀ u, t₀.Like u → u.Sane →
        wp (resolve depth (.length c)) (fun r u' => ∀ k : Nat, r = .ok k → Shown t₀ u') u := by
      cases h with
      | of_sums hc h => exact ⟨_, hc, fun u hlike hsane => ih h hlike hsane⟩
      | of_untold hc huntold =>
        refine ⟨_, hc, fun u hlike _ => ?_⟩
        obtain ⟨n, codec, e, hn, hrule, he⟩ := huntold.of_like hlike
        cases depth with
        | zero =>
          rintro k ⟨⟩
        | succ depth =>
          refine (wp_lengthStep_codec hn hrule).mpr ?_
          rw [he]
          rintro k ⟨⟩
    obtain ⟨n, -, hn, hrule, -⟩ := hc.of_like hlike
    cases hcache : n.cache with
    | some b =>
      refine (wp_lengthStep_cached hn (by simp [hrule]) hcache).mpr fun _ _ => ⟨x, h, ?_⟩
      rw [Tree.cacheOf_of_node? hn, hcache]
      exact Option.some_ne_none b
    | none =>
      exact (wp_lengthStep_children hn hrule hcache).mpr (shownLength_unknown hc hask hlike hsane _)

end Resolver

-- ---------------------------------------------------------------------------
-- Before and after
-- ---------------------------------------------------------------------------

namespace Tree

open Resolver

variable {measured : Prop} {t t' : Tree} {id x c : NodeId}

theorem Sums.lists (h : t.Sums x c) : t.Lists x c := by
  obtain ⟨n, shown, hn, -, hshown, hc⟩ := h
  rw [shownChildren_eq hn hshown] at hc
  exact ⟨n, hn, List.mem_of_mem_filter hc⟩

/-- What questions have left behind makes the same questions end in the same way, as long as no blind node has
been cached that matters. -/
theorem Founds.echoes (h : t.Founds t') (hsane : t.Sane) {B : NodeId → Prop} (hveiled : ¬ t.Unveils B t') :
    Echoes t B t t' where
  toEases := h.eases hsane
  base := .refl t
  known {x} hB hblind hnone := by
    by_contra hcached
    exact hveiled ⟨x, hB, hblind, hnone, hcached⟩

/-- The nodes in a node are measured for its length. -/
theorem concurs_byteLength (hwf : t.WellFormed) (hcandid : t.Candid measured) (id : NodeId) :
    Concurs t (fun x => measured ∨ t.contains id x = true) (byteLength id) (byteLength id) := by
  have hclosed : ∀ x c, (measured ∨ t.contains id x = true) → t.Sums x c →
      measured ∨ t.contains id c = true := by
    rintro x c (hmeasured | hx) hc
    · exact .inl hmeasured
    · obtain ⟨n, hn, hmem⟩ := hc.lists
      obtain ⟨-, m, hm, -⟩ := hwf.child hn hmem
      exact .inr ((contains_iff hwf hm).mpr (((contains_iff hwf hn).mp hx).tail hc.lists))
  refine .get (fun u => by rw [depthFor_outline]) fun u _ => ?_
  exact concurs_resolve (hcandid.mono fun h _ => .inl h) hclosed (Nat.le_refl _) (.length id)
    (.inr (contains_self t id))

/-- The nodes that a node is not in are measured for its offset. -/
theorem concurs_offset (hwf : t.WellFormed) (hcandid : t.Candid measured) (id : NodeId) :
    Concurs t (fun x => measured ∨ t.contains x id = false) (offset id) (offset id) := by
  cases hn : t.node? id with
  | none =>
    intro u v huv
    obtain ⟨-, hu⟩ := node_error_of_like huv.base hn
    obtain ⟨-, hv⟩ := node_error_of_like (huv.base.trans huv.like) hn
    unfold offset
    rw [wp.look_error hu, wp.look_error hv]
    exact .inr rfl
  | some n =>
    have hclosed : ∀ x c, (measured ∨ t.contains x id = false) → t.Sums x c →
        measured ∨ t.contains c id = false := by
      rintro x c (hmeasured | hx) hc
      · exact .inl hmeasured
      · refine .inr (Bool.eq_false_iff.mpr fun hin => ?_)
        rw [(contains_iff hwf hn).mpr (((contains_iff hwf hn).mp hin).head hc.lists)] at hx
        cases hx
    refine Concurs.readRules.live (b := do Resolver.answerAll (.lengthUpTo (← get).root id)) ?_
    refine .get (fun _ => rfl) fun u _ => .get (fun v => by rw [depthFor_outline]) fun v _ => ?_
    exact concurs_lengthUpTo (hcandid.mono fun h _ => .inl h) hclosed (fun _ => .inr) (Nat.le_refl _) u.root

/-- Whatever has been done to a tree, while all its groups are ready: if closures hand errors on and codecs
are honest, lengths and offsets that are told before bytes are cached are told afterwards. Errors stay the
same, unless a circle was the reason, or a blind node that is measured has been cached. The length of an
obscured node is not told, neither before nor afterwards, as long as none of them is cached. -/
theorem Reaches.length_after_bytes {allowed : Tree → Call → Prop} {τ : Template} {seed : UInt64} {t₀ : Tree}
    (hbuild : build τ seed = .ok t₀) (h : Reaches allowed t₀ t) (hs : t.Settled) (hcandid : t.Candid measured)
    (id m : NodeId) :
    let t' := (Call.bytes m).run t
    (∀ k, ((byteLength id).run t).1 = .ok k → ((byteLength id).run t').1 = .ok k) ∧
    (∀ o, ((offset id).run t).1 = .ok o → ((offset id).run t').1 = .ok o) ∧
    (¬ t.Unveils (fun x => measured ∨ t.contains id x = true) t' → ∀ e : TreeError, ¬ e.Vague →
      ((byteLength id).run t).1 = .error e → ((byteLength id).run t').1 = .error e) ∧
    (¬ t.Unveils (fun x => measured ∨ t.contains x id = false) t' → ∀ e : TreeError, ¬ e.Vague →
      ((offset id).run t).1 = .error e → ((offset id).run t').1 = .error e) ∧
    (t.Obscured id → ∀ u, u = t ∨ u = t' → ¬ t.Shown ((Call.byteLength id).run u) →
      ∀ k, ((byteLength id).run u).1 ≠ .ok k) := by
  intro t'
  have hsane : t.Sane := ⟨hs, hcandid.straight, h.encoded hbuild⟩
  have hwf := h.wellFormed hbuild
  have hfounds : t.Founds t' := (grounds_answerAll (.bytes m) t).rel hsane
  have heases := hfounds.eases hsane
  refine ⟨fun k hk => (persists_answerAll (.length id) t t' heases k hk).1,
    fun o ho => (persists_offset id t t' heases o ho).1, fun hveiled e he hfails => ?_,
    fun hveiled e he hfails => ?_, fun hobscured u hu hshown k hk => ?_⟩
  · exact (concurs_byteLength hwf hcandid id).fails_again (hfounds.echoes hsane hveiled) hfails he
  · exact (concurs_offset hwf hcandid id).fails_again (hfounds.echoes hsane hveiled) hfails he
  · have hknown : t.Founds u := by
      rcases hu with rfl | rfl
      · exact .refl u
      · exact hfounds
    have hunknown := (wp_answerAll (.length id)).mpr
      (length_unknown hobscured (depthFor u) hknown.toLike (hknown.sane hsane))
    exact hshown (hunknown k hk)

/-- A record whose first part has a leaf with a codec that does not tell the length. -/
def wrapped : Template :=
  .composite { name := "record" } [
    .composite { name := "part" } [
      .leaf { name := "payload", cell := .literal (.ofString "zz") }
        (.custom { name := "tag", encode := fun v => .ok v.text })],
    .leaf { name := "size", cell := .literal (.int 1) } (.int { packing := .ofWidth 1 .big false })]

theorem Reaches.length_after_bytes_wrapped : ∃ t, build wrapped 7 = .ok t ∧ t.Settled ∧ t.Candid False ∧
    let t' := (Call.bytes ⟨0⟩).run t
    ((byteLength ⟨2⟩).run t').1 = .error (.notImplemented "tag" "fixed_len") ∧
    ((offset ⟨2⟩).run t').1 = .ok 0 ∧ ∀ k, ((byteLength ⟨1⟩).run t).1 ≠ .ok k := by
  have hruns : (build wrapped 7).toOption.any (fun t =>
      ((byteLength ⟨2⟩).run t).1 = .error (.notImplemented "tag" "fixed_len") ∧
      ((offset ⟨2⟩).run t).1 = .ok 0 ∧
      t.nodes.all (·.all Node.isPlain) = true ∧
      t.nodes.all (·.all fun n => n.kind.group?.all (·.phase = .ready)) = true ∧
      ((Call.byteLength ⟨1⟩).run t).nodes.all (·.all (·.cache.isNone)) = true ∧
      t.shownChildren ⟨1⟩ = .ok [⟨2⟩] ∧
      (t.node? ⟨1⟩).any (fun n => n.action.isNone && !n.kind.isLeaf && n.cell.isUnset) = true ∧
      (t.node? ⟨2⟩).any (fun n => n.children.isEmpty && match lengthRule n with
        | .codec codec => !codec.fixedLength.isOk
        | _ => false) = true) = true := by
    decide +kernel
  obtain ⟨t, hbuild, hruns⟩ := exists_build hruns
  obtain ⟨hfails, hoffset, hplain, hready, hcaches, hshown, hpart, hpayload⟩ := of_decide_eq_true hruns
  obtain ⟨part, hn, hpart⟩ := (Option.any_eq_true _ _).mp hpart
  obtain ⟨payload, hm, hpayload⟩ := (Option.any_eq_true _ _).mp hpayload
  rw [Bool.and_eq_true] at hpayload
  obtain ⟨hempty, hcodec⟩ := hpayload
  simp only [Bool.and_eq_true, Bool.not_eq_true', Option.isNone_iff_eq_none] at hpart
  obtain ⟨⟨haction, hleaf⟩, hunset⟩ := hpart
  have hs : t.Settled := .of_all hready
  have hcandid : t.Candid False := .of_all hplain
  have hreach : Reaches (fun _ _ => True) t t := .refl t
  have hwf := hreach.wellFormed hbuild
  have hveiled : ¬ t.Unveils (fun x => False ∨ t.contains ⟨2⟩ x = true) ((Call.bytes ⟨0⟩).run t) := by
    have hchildless : ∀ c, ¬ t.Lists ⟨2⟩ c := by
      rintro c ⟨n, hn, hc⟩
      cases hm.symm.trans hn
      rw [List.isEmpty_iff.mp hempty] at hc
      cases hc
    rintro ⟨x, hfalse | hx, ⟨c, hc, -⟩, -⟩
    · exact hfalse
    · obtain ⟨n, hn, -⟩ := hc.lists
      rcases ((contains_iff hwf hn).mp hx).cases_head with rfl | ⟨c', hc', -⟩
      · exact hchildless c hc.lists
      · exact hchildless c' hc'
  have hobscured : t.Obscured ⟨1⟩ := by
    refine .of_untold (c := ⟨2⟩) ⟨part, _, hn, ?_, hshown, List.mem_singleton_self _⟩ ?_
    · exact Node.lengthRule_eq_children.mpr ⟨haction, hleaf, Cell.isUnset_iff.mp hunset⟩
    · cases hrule : lengthRule payload with
      | codec codec =>
        rw [hrule] at hcodec
        cases hlength : codec.fixedLength with
        | ok k =>
          dsimp only at hcodec
          rw [hlength] at hcodec
          cases hcodec
        | error e => exact ⟨payload, codec, e, hm, hrule, hlength⟩
      | _ =>
        rw [hrule] at hcodec
        cases hcodec
  have hnoneShown : ¬ t.Shown ((Call.byteLength ⟨1⟩).run t) := by
    rintro ⟨x, -, hcached⟩
    obtain ⟨b, hb⟩ := Option.ne_none_iff_exists'.mp hcached
    obtain ⟨n, hn, hcache⟩ := cacheOf_eq_some.mp hb
    have hnone := holds_of_all hcaches hn
    rw [hcache] at hnone
    cases hnone
  obtain ⟨-, hsame, herror, -⟩ := Reaches.length_after_bytes hbuild hreach hs hcandid ⟨2⟩ ⟨0⟩
  obtain ⟨-, -, -, -, hunknown⟩ := Reaches.length_after_bytes hbuild hreach hs hcandid ⟨1⟩ ⟨0⟩
  exact ⟨t, hbuild, hs, hcandid, herror hveiled _ (fun hvague => hvague) hfails, hsame 0 hoffset,
    hunknown hobscured t (.inl rfl) hnoneShown⟩

/-- When bytes of the whole record have been cached, the length of its first part is told, and so is the
offset behind it. -/
theorem bytes_unveil : ((build wrapped 7).toOption.map fun t =>
    let t' := (Call.bytes ⟨0⟩).run t
    let untold : Except TreeError Nat := .error (.notImplemented "tag" "fixed_len")
    (((byteLength ⟨1⟩).run t).1 = untold ∧ ((byteLength ⟨1⟩).run t').1 = .ok 2 ∧
      ((offset ⟨3⟩).run t).1 = untold ∧ ((offset ⟨3⟩).run t').1 = .ok 2 : Bool)) = some true := by
  decide +kernel

/-- Two fields, of which one looks at the bytes of the other, and that at the value of the first. -/
def entangled : Template :=
  let text (name : String) (looks : Script Bool) : Template :=
    let action : Transform := .choose (.when looks (.action .identity) .nothing)
    .leaf { name, cell := .literal (.ofString name), action } (.str {})
  .composite { name := "record" } [
    text "first" do
      let _ ← Script.bytes "second"
      return true,
    text "second" do
      let _ ← Script.value "first"
      return true]

-- The first field is in a circle until bytes of the second one are cached, which is in none.
example : ((build entangled 7).toOption.map fun t =>
    (((byteLength ⟨1⟩).run t).1, ((byteLength ⟨1⟩).run ((Call.bytes ⟨2⟩).run t)).1)) =
      some (.error (.cyclicDependency "first"), .ok 5) := by
  decide +kernel

end Tree

end FormatFuzz
