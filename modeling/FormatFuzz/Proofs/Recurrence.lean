-- SUMMARY: A question that is asked again is answered as before.
import FormatFuzz.Proofs.Replays
import FormatFuzz.Proofs.Uniqueness

/-!
# Recurrence

A question that is asked again comes upon the caches that it has filled itself. That makes no
difference, by induction on the depth of the question (`Resolver.Recurrent.step`): bytes that have been
asked for are cached, bytes that could not be worked out are not, and a length is not told by the
cache of a node while a length further down is still unknown.
-/

namespace FormatFuzz

open TreeM

open FormatFuzz.Tree (Sane Stores Fills Twins Awaits)

namespace Resolver

-- ---------------------------------------------------------------------------
-- What is cached
-- ---------------------------------------------------------------------------

/-- What is cached after the bytes of a node have been asked for: its own bytes if there are any, and
nothing for a node that waits for them if there are not. -/
structure AfterBytes (id : NodeId) (t : Tree) (r : Except TreeError Bytes) (t' : Tree) : Prop where
  cached : ∀ {b}, r = .ok b → t'.cacheOf id = some b
  uncached : ∀ {e}, r = .error e → t.cacheOf id = none → t'.cacheOf id = none
  awaited : ∀ {p}, p ≠ id → t.Awaits p id → t'.cacheOf p = none

/-- What is cached after the length of a node has been asked for, and what has been before. -/
structure AfterLength (id : NodeId) (t : Tree) (r : Except TreeError Nat) (t' : Tree) : Prop where
  awaited : ∀ {p}, t.Awaits p id → t'.cacheOf p = none
  told : ∀ {k b}, r = .ok k → t.cacheOf id = some b → b.length = k

theorem AfterBytes.of_error (id : NodeId) (t : Tree) (e : TreeError) : AfterBytes id t (.error e) t :=
  ⟨by simp, fun _ h => h, fun _ h => h.uncached⟩

theorem AfterLength.of_error (id : NodeId) (t : Tree) (e : TreeError) : AfterLength id t (.error e) t :=
  ⟨fun h => h.uncached, by simp⟩

/-- Questions can be repeated, and caches are filled from the leaves up. -/
structure Recurrent (ask : Resolver) : Prop where
  replays : ∀ r, Replays (ask r)
  bytes : ∀ id {t : Tree}, t.Sane → wp (ask (.bytes id)) (AfterBytes id t) t
  length : ∀ id {t : Tree}, t.Sane → wp (ask (.length id)) (AfterLength id t) t

-- ---------------------------------------------------------------------------
-- Steps over a node that is known
-- ---------------------------------------------------------------------------

section

variable {ask : Resolver} {id : NodeId} {t : Tree} {n : Node} {b : Bytes}

theorem wp_lengthStep_codec (hn : t.node? id = some n) {codec : Codec}
    (hrule : lengthRule n = .codec codec) {Q : Except TreeError Nat → Tree → Prop} :
    wp (lengthStep ask id) Q t ↔ Q codec.fixedLength t := by
  unfold lengthStep
  rw [wp.look_ok (Tree.node_eq_ok.mpr hn), hrule]
  exact wp.lift

theorem wp_lengthStep_cached (hn : t.node? id = some n) (hrule : ∀ codec, lengthRule n ≠ .codec codec)
    (hb : n.cache = some b) {Q : Except TreeError Nat → Tree → Prop} :
    wp (lengthStep ask id) Q t ↔ Q (.ok b.length) t := by
  unfold lengthStep
  rw [wp.look_ok (Tree.node_eq_ok.mpr hn), hb]
  cases hn : lengthRule n with
  | codec codec => exact absurd hn (hrule codec)
  | fixed k => exact wp.pure
  | encode => exact wp.pure
  | children => exact wp.pure

theorem wp_lengthStep_fixed (hn : t.node? id = some n) {k : Nat} (hrule : lengthRule n = .fixed k)
    (hnone : n.cache = none) {Q : Except TreeError Nat → Tree → Prop} :
    wp (lengthStep ask id) Q t ↔ Q (.ok k) t := by
  unfold lengthStep
  rw [wp.look_ok (Tree.node_eq_ok.mpr hn), hrule, hnone]
  exact wp.pure

theorem wp_lengthStep_encode (hn : t.node? id = some n) (hrule : lengthRule n = .encode)
    (hnone : n.cache = none) {Q : Except TreeError Nat → Tree → Prop} :
    wp (lengthStep ask id) Q t ↔ wp (do
      let b : Bytes ← ask (.bytes id)
      return b.length) Q t := by
  unfold lengthStep
  rw [wp.look_ok (Tree.node_eq_ok.mpr hn), hrule, hnone]

/-- The length of a node as its visible children tell it. -/
def shownLength (ask : Resolver) (id : NodeId) (isRepeated : Bool) : TreeM Nat := do
  if isRepeated then
    Tree.touch id
  (← TreeM.look (·.shownChildren id)).foldlM (fun total child => do
    let n : Nat ← ask (.length child)
    return total + n) 0

theorem wp_lengthStep_children (hn : t.node? id = some n) (hrule : lengthRule n = .children)
    (hnone : n.cache = none) {Q : Except TreeError Nat → Tree → Prop} :
    wp (lengthStep ask id) Q t ↔ wp (shownLength ask id n.kind.isRepeated) Q t := by
  unfold lengthStep
  rw [wp.look_ok (Tree.node_eq_ok.mpr hn), hrule, hnone]
  rfl

/-- What is left to do when it is known which children are visible. -/
theorem wp_shownLength (hs : t.Settled) {isRepeated : Bool} {Q : Except TreeError Nat → Tree → Prop}
    (herror : ∀ e, Q (.error e) t) (hshown : ∀ shown, t.shownChildren id = .ok shown →
      wp (shown.foldlM (fun total child => do
        let n : Nat ← ask (.length child)
        return total + n) 0) Q t) : wp (shownLength ask id isRepeated) Q t := by
  have hrest : wp (do
      (← TreeM.look (·.shownChildren id)).foldlM (fun total child => do
        let n : Nat ← ask (.length child)
        return total + n) 0) Q t := by
    rw [wp.bind, wp.look]
    cases h : t.shownChildren id with
    | error e => exact herror e
    | ok shown => exact hshown shown h
  unfold shownLength
  cases isRepeated with
  | false => exact hrest
  | true =>
    obtain ⟨r, hr⟩ := Tree.touch_surveys id t hs
    refine wp.bind.mpr ((hr t rfl).mono ?_)
    rintro r t ⟨rfl, rfl⟩
    cases r with
    | error e => exact herror e
    | ok _ => exact hrest

end

namespace Recurrent

variable {ask : Resolver} (h : Recurrent ask) {t : Tree} {id : NodeId} {n : Node}

include h

theorem caching (c : NodeId) : Caching Sane c (ask (.bytes c)) := by
  refine fun t hsane => ((h.replays (.bytes c) t hsane).and (h.bytes c hsane)).mono fun r t' h => ?_
  obtain ⟨⟨hstores, -⟩, hafter⟩ := h
  exact ⟨⟨hstores.sane hsane, hstores.toRests, fun _ _ => hstores.kept⟩, fun _ => hafter.cached⟩

theorem freshBytes_tallies (hsane : t.Sane) (hn : t.node? id = some n) :
    wp (freshBytes ask id) (fun r t' => ∀ b, r = .ok b → t'.Tallies id n b) t := by
  have hscripts := replays_scriptRules h.replays
  have hkept : ∀ {α : Type} {act : TreeM α}, Replays act → wp act (fun _ t' =>
      ∀ n', t'.node? id = some n' → n'.bare = n.bare) t := by
    intro α act hact
    refine (hact t hsane).mono fun r t' h n' hn' => ?_
    obtain ⟨m, hm, hbare⟩ := h.1.node? hn
    rw [hn'] at hm
    cases hm
    exact hbare
  have hfresh : n.action = none → ∀ {Q : Bytes → Tree → Prop},
      wp (rawBytes ask id n.kind) (fun r t' => ∀ b, r = .ok b → Q b t') t →
        wp (freshBytes ask id) (fun r t' => ∀ b, r = .ok b → Q b t') t := by
    intro haction Q hraw
    refine freshBytes_of_rawBytes hn ((hkept (Replays.readRules.rawBytes h.replays hscripts id n.kind)).mono
      fun _ _ h n' hn' => ?_) hraw
    have hsame := congrArg Node.action (h n' hn')
    exact hsame.trans haction
  have hleaf : ∀ {kind}, n.kind = .leaf kind → wp (rawBytes ask id n.kind) (fun r _ =>
      ∀ b, r = .ok b → ∃ name v, kind.encode name v = .ok b) t := by
    intro kind hkind
    rw [hkind]
    refine rawBytes_leaf ((hkept (Replays.readRules.leafContent h.replays hscripts id)).mono
      fun _ _ h n' hn' => ?_)
    have hsame := congrArg Node.kind (h n' hn')
    exact hsame.trans hkind
  have hruled := n.ruled
  unfold Tree.Tallies
  generalize lengthRule n = rule at hruled
  cases hruled with
  | encode => exact fun _ _ => trivial
  | fixed haction hkind hfixed =>
    refine hfresh haction ((hleaf hkind).mono fun r _ hraw b hb => ?_)
    obtain ⟨name, v, hv⟩ := hraw b hb
    exact Tree.LeafKind.length_of_fixed hfixed (LeafKind.encode_ok hv)
  | codec haction hkind =>
    refine hfresh haction ((hleaf hkind).mono fun r _ hraw b hb => ?_)
    obtain ⟨name, v, hv⟩ := hraw b hb
    exact ⟨v, hv⟩
  | children haction hbranch hcell => exact hfresh haction (rawBytes_branch h.caching hsane.settled hsane hn hbranch hcell)

-- ---------------------------------------------------------------------------
-- Bytes
-- ---------------------------------------------------------------------------

omit h in
theorem recalls_cached {b : Bytes} (hsettled : t.Settled) (hb : t.cacheOf id = some b) :
    Recalls (bytesStep ask id) t (.ok b) := by
  intro u hu
  obtain ⟨m, hm, hcache⟩ := Tree.cacheOf_eq_some.mp (hu.kept hb)
  rw [wp_bytesStep_cached hm hcache]
  exact ⟨rfl, .refl (hu.settled hsettled)⟩

theorem bytesStep_fresh (hsane : t.Sane) (hn : t.node? id = some n) (hnone : n.cache = none) :
    wp (bytesStep ask id) (fun r t' =>
      (t.Stores t' ∧ Recalls (bytesStep ask id) t' r) ∧ AfterBytes id t r t') t := by
  have hfresh : Replays (freshBytes ask id) :=
    Replays.readRules.freshBytes h.replays (replays_scriptRules h.replays) id
  have htallies : wp (guarded id (freshBytes ask id)) (fun r t' =>
      ∀ b : Bytes, r = .ok b → t'.Tallies id n b) t := by
    rw [wp.guarded]
    split
    · simp
    · exact (h.freshBytes_tallies (t := { t with resolving := id :: t.resolving })
        ⟨hsane.settled, hsane.straight, hsane.encoded⟩ hn).mono fun _ _ h b hb => h b hb
  rw [wp_bytesStep_fresh hn hnone, wp.bind]
  refine ((guarded_replays id hfresh hsane).and htallies).mono fun r t₁ h₁ => ?_
  obtain ⟨⟨⟨hstores, hrecalls⟩, hunset, hid⟩, htallies⟩ := h₁
  have hnone₁ : t₁.cacheOf id = none := hunset ((Tree.cacheOf_of_node? hn).trans hnone)
  have hawaits : ∀ {p}, t.Awaits p id → t₁.cacheOf p = none := fun hp =>
    hp.uncached_of_child hstores.toFills hnone₁
  obtain ⟨n₁, hn₁, hbare⟩ := hstores.node? hn
  have hcache₁ : n₁.cache = none := (Tree.cacheOf_of_node? hn₁).symm.trans hnone₁
  cases r with
  | error e =>
    refine ⟨⟨hstores, fun u hu => ?_⟩, by simp, fun _ _ => hnone₁, fun _ => hawaits⟩
    obtain ⟨m, hm, hsame⟩ := hu.fills.node? hn₁
    have hcache : m.cache = none := by
      rw [← Tree.cacheOf_of_node? hm, hu.cacheOf_eq, hnone₁]
    rw [wp_bytesStep_fresh hm hcache, wp.bind]
    refine (hrecalls u hu).mono ?_
    rintro _ _ rfl
    rfl
  | ok b =>
    have hid₁ : id ∉ t₁.resolving := hstores.resolving ▸ hid b rfl
    have hstored := Stores.of_store hn₁ hcache₁ ((htallies b rfl).mono rfl (fun h => h) hbare) hid₁
    have hb : (t₁.modify id ({ · with cache := some b })).cacheOf id = some b := by
      rw [Tree.cacheOf_store hn₁, if_pos rfl]
    have hafter : AfterBytes id t (.ok b) (t₁.modify id ({ · with cache := some b })) := by
      refine ⟨?_, by simp, fun hne hp => ?_⟩
      · rintro _ ⟨⟩
        exact hb
      · rw [Tree.cacheOf_store hn₁, if_neg hne]
        exact hawaits hp
    dsimp only
    rw [wp.bind, wp.update, Tree.node_eq_ok.mpr hn₁]
    exact ⟨⟨hstores.trans hstored, recalls_cached ((hstores.trans hstored).settled hsane.settled) hb⟩,
      hafter⟩

/-- The bytes of a node can be asked for again, and are cached if there are any. -/
theorem bytesStep (hsane : t.Sane) (id : NodeId) : wp (Resolver.bytesStep ask id) (fun r t' =>
    (t.Stores t' ∧ Recalls (Resolver.bytesStep ask id) t' r) ∧ AfterBytes id t r t') t := by
  cases hn : t.node? id with
  | none =>
    obtain ⟨e, he⟩ := Tree.node_eq_error.mpr hn
    unfold Resolver.bytesStep
    rw [wp.look_error he]
    refine ⟨⟨.refl t, fun u hu => ?_⟩, .of_error id t e⟩
    rcases hu.node_cases id with ⟨e', he', hu'⟩ | ⟨m, _, hm, -⟩
    · rw [he] at he'
      cases he'
      rw [wp.look_error hu']
    · rw [he] at hm
      cases hm
  | some n =>
    cases hcache : n.cache with
    | none => exact h.bytesStep_fresh hsane hn hcache
    | some b =>
      have hb : t.cacheOf id = some b := (Tree.cacheOf_of_node? hn).trans hcache
      rw [wp_bytesStep_cached hn hcache]
      refine ⟨⟨.refl t, recalls_cached hsane.settled hb⟩, ?_, by simp, fun _ h => h.uncached⟩
      rintro _ ⟨⟩
      exact hb

-- ---------------------------------------------------------------------------
-- Lengths
-- ---------------------------------------------------------------------------

/-- While the lengths of its children are being asked for, nothing is cached for a node. -/
theorem shownLength_awaited (hsane : t.Sane) {p : NodeId} {shown : List NodeId}
    (hp : ∀ c ∈ shown, t.Awaits p c) (hnone : t.cacheOf p = none) :
    wp (shown.foldlM (fun total child => do
      let n : Nat ← ask (.length child)
      return total + n) 0) (fun _ t' => t'.cacheOf p = none) t := by
  refine wp.foldlM (fun rest _ u => rest ⊆ shown ∧ t.Stores u ∧ u.cacheOf p = none)
    ⟨fun _ hc => hc, .refl t, hnone⟩ (fun _ _ hu => hu.2.2) ?_
  rintro c rest total u ⟨hsub, hstores, hu⟩
  have hsaneu := hstores.sane hsane
  have hawaits : u.Awaits p c := (hp c (hsub List.mem_cons_self)).mono hstores.toFills hu
  refine wp.bind.mpr (((h.replays (.length c) u hsaneu).and (h.length c hsaneu)).mono fun r v hv => ?_)
  have hnone' : v.cacheOf p = none := hv.2.awaited hawaits
  cases r with
  | error e => exact hnone'
  | ok k => exact ⟨fun _ hc => hsub (List.mem_cons_of_mem _ hc), hstores.trans hv.1.1, hnone'⟩

/-- Children whose bytes are cached have the lengths of these. -/
theorem shownLength_told (hsane : t.Sane) {shown : List NodeId} {parts : List Bytes}
    (hparts : List.Forall₂ (fun c part => t.cacheOf c = some part) shown parts) :
    wp (shown.foldlM (fun total child => do
      let n : Nat ← ask (.length child)
      return total + n) 0) (fun r _ => ∀ k, r = .ok k → parts.flatten.length = k) t := by
  refine wp.foldlM (fun rest total u => u.Sane ∧ ∃ left,
    List.Forall₂ (fun c part => u.cacheOf c = some part) rest left ∧
      parts.flatten.length = total + left.flatten.length) ?_ ?_ ?_
  · exact ⟨hsane, parts, hparts, by rw [Nat.zero_add]⟩
  · rintro total u ⟨-, left, hleft, htotal⟩ _ ⟨⟩
    cases hleft
    exact htotal
  · rintro c rest total u ⟨hu, left, hleft, htotal⟩
    cases hleft with
    | @cons _ part _ left hc hrest =>
      refine wp.bind.mpr (((h.replays (.length c) u hu).and (h.length c hu)).mono fun r v hv => ?_)
      cases r with
      | error e =>
        rintro _ ⟨⟩
      | ok m =>
        obtain rfl : part.length = m := hv.2.told rfl hc
        refine ⟨hv.1.1.sane hu, left, hrest.imp fun _ _ => hv.1.1.kept, ?_⟩
        rw [htotal, List.flatten_cons, List.length_append, Nat.add_assoc]

theorem lengthStep_children (hsane : t.Sane) (hn : t.node? id = some n)
    (hrule : lengthRule n = .children) (hnone : n.cache = none) : wp (lengthStep ask id) (fun r t' =>
      (t.Stores t' ∧ Recalls (lengthStep ask id) t' r) ∧ AfterLength id t r t') t := by
  have hnone' : t.cacheOf id = none := (Tree.cacheOf_of_node? hn).trans hnone
  have hreplays : Replays (shownLength ask id n.kind.isRepeated) := by
    unfold shownLength
    split
    · exact .bind (Replays.readRules.touch id) fun _ => Replays.readRules.shownLength h.replays id
    · exact Replays.readRules.shownLength h.replays id
  have hkept : wp (shownLength ask id n.kind.isRepeated) (fun _ t' => t'.cacheOf id = none) t :=
    wp_shownLength hsane.settled (fun _ => hnone') fun shown hshown =>
      h.shownLength_awaited hsane (fun c hc => ⟨hnone', n, shown, hn, hrule, hshown, hc⟩) hnone'
  -- Asked again, the children tell the length unless bytes have been cached in the meantime.
  have hsame : ∀ {u : Tree}, t.Fills u → ∃ m, u.node? id = some m ∧ lengthRule m = .children ∧
      m.kind = n.kind := by
    intro u hu
    obtain ⟨m, hm, hbare⟩ := hu.node? hn
    have hkind := Node.kind_of_bare hbare
    exact ⟨m, hm, (Tree.lengthRule_of_bare hbare).trans hrule, hkind⟩
  have hagain : ∀ {u : Tree} {Q}, t.Fills u → u.cacheOf id = none →
      wp (shownLength ask id n.kind.isRepeated) Q u → wp (lengthStep ask id) Q u := by
    intro u Q hu hnoneu hQ
    obtain ⟨m, hm, hrulem, hkind⟩ := hsame hu
    rw [Tree.cacheOf_of_node? hm] at hnoneu
    rwa [wp_lengthStep_children hm hrulem hnoneu, hkind]
  rw [wp_lengthStep_children hn hrule hnone]
  refine ((hreplays t hsane).and hkept).mono fun r t₁ h₁ => ?_
  obtain ⟨⟨hstores, hrecalls⟩, hnone₁⟩ := h₁
  refine ⟨⟨hstores, ?_⟩, fun hp => hp.uncached_of_child hstores.toFills hnone₁, fun _ hb => ?_⟩
  · cases r with
    | error e =>
      exact fun u hu => hagain (hstores.toFills.trans hu.fills) (hu.cacheOf_eq.trans hnone₁) (hrecalls u hu)
    | ok k =>
      intro u hu
      have hfills : t.Fills u := hstores.toFills.trans hu
      cases hb : u.cacheOf id with
      | none => exact hagain hfills hb (hrecalls u hu)
      | some b =>
        obtain ⟨m, hm, hrulem, -⟩ := hsame hfills
        rw [Tree.cacheOf_of_node? hm] at hb
        have htallies := hfills.tallies hnone' hm hb
        unfold Tree.Tallies at htallies
        rw [hrulem] at htallies
        obtain ⟨shown, parts, hshown, hparts, rfl⟩ := htallies
        have htold : wp (shownLength ask id n.kind.isRepeated) (fun r _ =>
            ∀ k, r = .ok k → parts.flatten.length = k) u := by
          refine wp_shownLength (hfills.settled hsane.settled) (by simp) fun shown' hshown' => ?_
          rw [hshown] at hshown'
          cases hshown'
          exact h.shownLength_told (hfills.sane hsane) hparts
        obtain ⟨⟨hk, -⟩, htold⟩ := (hrecalls u hu).and htold
        rw [wp_lengthStep_cached hm (by simp [hrulem]) hb, htold k hk]
        exact ⟨rfl, .refl (hfills.settled hsane.settled)⟩
  · rw [hnone'] at hb
    cases hb

theorem lengthStep_encode (hsane : t.Sane) (hn : t.node? id = some n) (hrule : lengthRule n = .encode)
    (hnone : n.cache = none) : wp (lengthStep ask id) (fun r t' =>
      (t.Stores t' ∧ Recalls (lengthStep ask id) t' r) ∧ AfterLength id t r t') t := by
  have hnone' : t.cacheOf id = none := (Tree.cacheOf_of_node? hn).trans hnone
  have hne : ∀ {p}, t.Awaits p id → p ≠ id := by
    rintro p ⟨-, m, -, hm, hchildren, -, -⟩ rfl
    rw [hn] at hm
    cases hm
    rw [hrule] at hchildren
    cases hchildren
  rw [wp_lengthStep_encode hn hrule hnone]
  refine wp.bind.mpr (((h.replays (.bytes id) t hsane).and (h.bytes id hsane)).mono fun r t₁ h₁ => ?_)
  obtain ⟨⟨hstores, hrecalls⟩, hafter⟩ := h₁
  have htold : ∀ {k : Nat} {b}, t.cacheOf id = some b → List.length b = k := by simp [hnone']
  cases r with
  | error e =>
    refine ⟨⟨hstores, fun u hu => ?_⟩, fun hp => hafter.awaited (hne hp) hp, fun _ => htold⟩
    obtain ⟨m, hm, hbare⟩ := (hstores.toFills.trans hu.fills).node? hn
    have hcache : m.cache = none := by
      rw [← Tree.cacheOf_of_node? hm, hu.cacheOf_eq, hafter.uncached rfl hnone']
    rw [wp_lengthStep_encode hm ((Tree.lengthRule_of_bare hbare).trans hrule) hcache]
    refine wp.bind.mpr ((hrecalls u hu).mono ?_)
    rintro _ _ rfl
    rfl
  | ok b =>
    refine ⟨⟨hstores, fun u hu => ?_⟩, fun hp => hafter.awaited (hne hp) hp, fun _ => htold⟩
    have hfills : t.Fills u := hstores.toFills.trans hu
    obtain ⟨m, hm, hbare⟩ := hfills.node? hn
    have hb : m.cache = some b := (Tree.cacheOf_of_node? hm).symm.trans (hu.kept (hafter.cached rfl))
    have hrulem : lengthRule m = .encode := (Tree.lengthRule_of_bare hbare).trans hrule
    rw [wp_lengthStep_cached hm (by simp [hrulem]) hb]
    exact ⟨rfl, .refl (hfills.settled hsane.settled)⟩

omit h in
/-- Where nothing has to be asked, the length is known already. -/
theorem lengthStep_known (hsane : t.Sane) {r : Except TreeError Nat}
    (hknown : ∀ {u : Tree} {Q}, t.Fills u → Q r u → wp (lengthStep ask id) Q u)
    (htold : ∀ {k b}, r = .ok k → t.cacheOf id = some b → b.length = k) :
    wp (lengthStep ask id) (fun r t' =>
      (t.Stores t' ∧ Recalls (lengthStep ask id) t' r) ∧ AfterLength id t r t') t := by
  refine hknown (.refl t) ⟨⟨.refl t, ?_⟩, fun hp => hp.uncached, htold⟩
  cases r with
  | error e => exact fun u hu => hknown hu.fills rfl
  | ok k => exact fun u hu => hknown hu ⟨rfl, .refl (hu.settled hsane.settled)⟩

omit h in
theorem lengthStep_fixed (hsane : t.Sane) (hn : t.node? id = some n) {k : Nat}
    (hrule : lengthRule n = .fixed k) (hnone : n.cache = none) : wp (lengthStep ask id) (fun r t' =>
      (t.Stores t' ∧ Recalls (lengthStep ask id) t' r) ∧ AfterLength id t r t') t := by
  have hnone' : t.cacheOf id = none := (Tree.cacheOf_of_node? hn).trans hnone
  refine lengthStep_known hsane (r := .ok k) (fun {u Q} hu hQ => ?_) (by simp [hnone'])
  obtain ⟨m, hm, hbare⟩ := hu.node? hn
  have hrulem : lengthRule m = .fixed k := (Tree.lengthRule_of_bare hbare).trans hrule
  cases hb : m.cache with
  | none => rwa [wp_lengthStep_fixed hm hrulem hb]
  | some b =>
    have htallies := hu.tallies hnone' hm hb
    unfold Tree.Tallies at htallies
    rw [hrulem] at htallies
    rwa [wp_lengthStep_cached hm (by simp [hrulem]) hb, htallies]

omit h in
theorem lengthStep_cached (hsane : t.Sane) (hn : t.node? id = some n)
    (hrule : ∀ codec, lengthRule n ≠ .codec codec) {b : Bytes} (hb : n.cache = some b) :
    wp (lengthStep ask id) (fun r t' =>
      (t.Stores t' ∧ Recalls (lengthStep ask id) t' r) ∧ AfterLength id t r t') t := by
  have hb' : t.cacheOf id = some b := (Tree.cacheOf_of_node? hn).trans hb
  refine lengthStep_known hsane (r := .ok b.length) (fun {u Q} hu hQ => ?_) fun hk hc => ?_
  · obtain ⟨m, hm, hbare⟩ := hu.node? hn
    have hbm : m.cache = some b := (Tree.cacheOf_of_node? hm).symm.trans (hu.kept hb')
    rwa [wp_lengthStep_cached hm (by rwa [Tree.lengthRule_of_bare hbare]) hbm]
  · rw [hb'] at hc
    cases hc
    exact Except.ok.inj hk

omit h in
theorem lengthStep_codec (hsane : t.Sane) (hn : t.node? id = some n) {codec : Codec}
    (hrule : lengthRule n = .codec codec) : wp (lengthStep ask id) (fun r t' =>
      (t.Stores t' ∧ Recalls (lengthStep ask id) t' r) ∧ AfterLength id t r t') t := by
  refine lengthStep_known hsane (r := codec.fixedLength) (fun {u Q} hu hQ => ?_) fun hk hb => ?_
  · obtain ⟨m, hm, hbare⟩ := hu.node? hn
    rwa [wp_lengthStep_codec hm ((Tree.lengthRule_of_bare hbare).trans hrule)]
  · obtain ⟨v, hv⟩ := hsane.encoded hn ((Tree.cacheOf_of_node? hn).symm.trans hb) hrule
    exact (hsane.straight hn).codec _ (Node.lengthRule_eq_codec.mp hrule).2 v _ _ hk hv

/-- The length of a node can be asked for again, and is that of its bytes if these are cached. -/
theorem lengthStep (hsane : t.Sane) (id : NodeId) : wp (Resolver.lengthStep ask id) (fun r t' =>
    (t.Stores t' ∧ Recalls (Resolver.lengthStep ask id) t' r) ∧ AfterLength id t r t') t := by
  cases hn : t.node? id with
  | none =>
    refine lengthStep_known hsane (r := .error (.unknownNode id.index)) (fun {u Q} hu hQ => ?_) (by simp)
    have hdead : u.node id = .error (.unknownNode id.index) := by
      have hsame := hu.nodes id
      rw [hn, Option.map_none, Option.map_eq_none_iff] at hsame
      rw [Tree.node, hsame]
    unfold Resolver.lengthStep
    rwa [wp.look_error hdead]
  | some n =>
    cases hcache : n.cache with
    | none =>
      cases hrule : lengthRule n with
      | codec codec => exact lengthStep_codec hsane hn hrule
      | fixed k => exact lengthStep_fixed hsane hn hrule hcache
      | encode => exact h.lengthStep_encode hsane hn hrule hcache
      | children => exact h.lengthStep_children hsane hn hrule hcache
    | some b =>
      cases hrule : lengthRule n with
      | codec codec => exact lengthStep_codec hsane hn hrule
      | _ => exact lengthStep_cached hsane hn (by simp [hrule]) hcache

-- ---------------------------------------------------------------------------
-- All questions
-- ---------------------------------------------------------------------------

theorem valueStep (id : NodeId) : Replays (Resolver.valueStep ask id) := by
  refine Replays.readRules.survey (fun _ => Tree.isLeaf_outline) fun isLeaf => ?_
  cases isLeaf with
  | true =>
    have hcontent : Replays (leafContent ask id) :=
      Replays.readRules.leafContent h.replays (replays_scriptRules h.replays) id
    exact fun t hsane => (guarded_replays id hcontent hsane).mono fun _ _ h => h.1
  | false => exact .bind (h.replays (.bytes id)) fun _ => .pure

theorem step : Recurrent (Resolver.step ask) where
  replays
    | .bytes id => fun _ hsane => (h.bytesStep hsane id).mono fun _ _ h => h.1
    | .value id => h.valueStep id
    | .length id => fun _ hsane => (h.lengthStep hsane id).mono fun _ _ h => h.1
    | .lengthUpTo within target => Replays.readRules.lengthUpToStep h.replays within target
  bytes id _ hsane := (h.bytesStep hsane id).mono fun _ _ h => h.2
  length id _ hsane := (h.lengthStep hsane id).mono fun _ _ h => h.2

end Recurrent

theorem recurrent_resolve (depth : Nat) : Recurrent (resolve depth) := by
  induction depth with
  | zero =>
    exact ⟨fun _ => .throw, fun id t _ => .of_error id t .nestingLimit,
      fun id t _ => .of_error id t .nestingLimit⟩
  | succ depth ih => exact ih.step

theorem replays_answerAll (r : Request) : Replays (answerAll r) :=
  Replays.readRules.state (fun _ => by rw [Tree.depthFor_outline]) fun _ => (recurrent_resolve _).replays r

end Resolver

theorem Tree.replays_offset (id : NodeId) : Replays (Tree.offset id) :=
  Replays.readRules.live (Replays.readRules.state (fun _ => rfl) fun t =>
    Resolver.replays_answerAll (.lengthUpTo t.root id))

end FormatFuzz
