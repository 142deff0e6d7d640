-- SUMMARY: The bytes of a composite or group are those of its visible children in a row, transformed once.
import FormatFuzz.Proofs.Annotations
import FormatFuzz.Proofs.Inverses
import FormatFuzz.Proofs.Resolution

/-!
# Assembly

A composite or group without a value of its own takes the bytes of its visible children in their order and
transforms the whole once. Where all groups are ready, all these children are cached when that is done, so
that they can be told from the state that is left (`Tree.Settled.bytes_assembled`). Whatever the children
do with their own bytes, a lossless transform of the whole can be undone and shows them again.
-/

namespace FormatFuzz

open TreeM

open FormatFuzz.Tree (Scribbles)

-- ---------------------------------------------------------------------------
-- What bytes are made of
-- ---------------------------------------------------------------------------

/-- The visible children of the node are cached, and what they have in a row is the node's bytes if it has no
output transform, and comes out again if it has one that can be undone. -/
def Tree.Assembled (t : Tree) (id : NodeId) (n : Node) (b : Bytes) : Prop :=
  ∃ shown parts, t.shownChildren id = .ok shown ∧
    List.Forall₂ (fun c part => t.cacheOf c = some part) shown parts ∧
    (n.action = none → b = parts.flatten) ∧
    ∀ a : Action, a.Lossless → n.action = some (.action a) → a.invert b = .ok parts.flatten

theorem Tree.Assembled.mono {t t' : Tree} {id : NodeId} {n : Node} {b : Bytes} (h : t.Assembled id n b)
    (hrests : t.Rests t') (hkept : ∀ x b, t.cacheOf x = some b → t'.cacheOf x = some b) :
    t'.Assembled id n b := by
  obtain ⟨shown, parts, hshown, hparts, hb⟩ := h
  exact ⟨shown, parts, (hrests.shownChildren_eq id).trans hshown, hparts.imp fun c => hkept c, hb⟩

namespace Resolver

variable {ask : Resolver} {id : NodeId} {t : Tree} {n : Node} {b : Bytes}

/-- Bytes that have been asked for are cached. -/
theorem bytesStep_cached (id : NodeId) (t : Tree) :
    wp (bytesStep ask id) (fun r t' => ∀ b, r = .ok b → t'.cacheOf id = some b) t := by
  cases hn : t.node id with
  | error e =>
    unfold bytesStep
    rw [wp.look_error hn]
    rintro _ ⟨⟩
  | ok n =>
    have hn := Tree.node_eq_ok.mp hn
    cases hcache : n.cache with
    | some b =>
      rw [wp_bytesStep_cached hn hcache]
      rintro _ ⟨⟩
      exact (Tree.cacheOf_of_node? hn).trans hcache
    | none =>
      rw [wp_bytesStep_fresh hn hcache, wp.bind]
      refine wp.mono (Q := fun _ _ => True) trivial fun r t₁ _ => ?_
      cases r with
      | error e =>
        rintro _ ⟨⟩
      | ok b =>
        dsimp only
        cases hm : t₁.node id with
        | error e =>
          rw [wp.bind, wp.update, hm]
          rintro _ ⟨⟩
        | ok m =>
          refine (wp_store (Tree.node_eq_ok.mp hm)).mpr ?_
          rintro _ ⟨⟩
          rw [Tree.cacheOf_store (Tree.node_eq_ok.mp hm), if_pos rfl]

/-- What a lossless action has made of bytes can be undone. -/
theorem runScript_undone (f : Transform) (raw : Bytes) :
    wp (runScript ask id (f.run [raw])) (fun r _ => ∀ v, r = .ok v →
      ∀ a : Action, a.Lossless → f = .action a → ∃ b, v = .bytes b ∧ a.invert b = .ok raw) t := by
  unfold runScript
  rw [wp.bind, wp.look]
  cases t.enclosing id with
  | error e =>
    rintro _ ⟨⟩
  | ok base =>
    cases f with
    | choose c => exact fun _ _ _ _ h => by cases h
    | action a =>
      refine wp.lift.mpr ?_
      rintro v hv a' hlossless ⟨⟩
      obtain ⟨b, hb, hundone⟩ := hlossless.invert [raw]
      rw [hb] at hv
      cases hv
      rw [List.flatten_singleton] at hundone
      exact ⟨b, rfl, hundone⟩

section

variable (hask : ∀ r, Preserves Scribbles Scribbles (ask r))

include hask

theorem freshBytes_assembled (hcaching : ∀ c, Caching Tree.Settled c (ask (.bytes c))) (hs : t.Settled)
    (hn : t.node? id = some n) (hleaf : n.kind.isLeaf = false) (hcell : n.cell = .unset) :
    wp (freshBytes ask id) (fun r t' => ∀ b, r = .ok b → t'.Assembled id n b) t := by
  have hkind : t.look id (·.kind) = .ok n.kind := Tree.look_eq_ok.mpr ⟨n, hn, rfl⟩
  have hrules := Tree.scopeLaws_scribbles.readRules
  have hraw := hrules.rawBytes hask (Tree.scopeLaws_scribbles.scriptRules hask) id n.kind
  unfold freshBytes
  rw [wp.look_ok hkind, wp.bind]
  refine ((hraw t).and (rawBytes_branch hcaching hs hs hn hleaf hcell)).mono fun r t₁ h₁ => ?_
  obtain ⟨hscribbles, hparts⟩ := h₁
  cases r with
  | error e =>
    rintro _ ⟨⟩
  | ok raw =>
    have hannotates := hscribbles.rel hs
    obtain ⟨shown, parts, hshown, hparts, hflat⟩ := hparts raw rfl
    obtain ⟨n₁, hn₁, hbare⟩ := hannotates.node? hn
    have hsame : n₁.bare.action = n.bare.action := congrArg Node.action hbare
    have haction : t₁.look id (·.action) = .ok n.action := Tree.look_eq_ok.mpr ⟨n₁, hn₁, hsame⟩
    dsimp only
    rw [wp.look_ok haction]
    cases hf : n.action with
    | none =>
      rintro _ ⟨⟩
      exact ⟨shown, parts, hshown, hparts, fun _ => hflat, by simp [hf]⟩
    | some f =>
      have hscript := Tree.scopeLaws_scribbles.runScript hask id (f.run [raw])
      dsimp only
      rw [wp.bind]
      refine ((hscript t₁).and (runScript_undone f raw)).mono fun r t₂ h₂ => ?_
      obtain ⟨hscribbles', hundone⟩ := h₂
      have hannotates' := hscribbles'.rel (hannotates.settled hs)
      cases r with
      | error e =>
        rintro _ ⟨⟩
      | ok v =>
        have hmade : t₂.Assembled id n v.text := by
          refine Tree.Assembled.mono ⟨shown, parts, hshown, hparts, by simp [hf], fun a hlossless ha => ?_⟩
            hannotates'.toRests fun _ _ => hannotates'.kept
          obtain ⟨b, rfl, hinvert⟩ := hundone v rfl a hlossless (Option.some.inj (hf.symm.trans ha))
          exact hflat ▸ hinvert
        -- The text of bytes is these bytes.
        cases v with
        | bytes b =>
          rintro _ ⟨⟩
          exact hmade
        | _ =>
          dsimp only
          rw [hleaf, if_neg Bool.false_ne_true]
          rintro _ ⟨⟩
          exact hmade

theorem bytesStep_assembled (hcaching : ∀ c, Caching Tree.Settled c (ask (.bytes c))) (hs : t.Settled)
    (hn : t.node? id = some n) (hleaf : n.kind.isLeaf = false) (hcell : n.cell = .unset)
    (hcache : n.cache = none) :
    wp (bytesStep ask id) (fun r t' => ∀ b, r = .ok b → t'.Assembled id n b) t := by
  have hfresh : wp (guarded id (freshBytes ask id)) (fun r t' =>
      ∀ b, r = .ok b → t'.Assembled id n b) t := by
    rw [wp.guarded]
    split
    · simp
    · exact freshBytes_assembled (t := { t with resolving := id :: t.resolving }) hask hcaching hs hn hleaf
        hcell
  have hguarded := Tree.annotates_guarded id (Tree.scopeLaws_scribbles.freshBytes hask id) hs
  rw [wp_bytesStep_fresh hn hcache, wp.bind]
  refine (hguarded.and hfresh).mono fun r t₁ h₁ => ?_
  obtain ⟨⟨hannotates, hunset, -⟩, hassembled⟩ := h₁
  cases r with
  | error e =>
    rintro _ ⟨⟩
  | ok b =>
    obtain ⟨m, hm, -⟩ := hannotates.node? hn
    have hnone : m.cache = none := by
      rw [← Tree.cacheOf_of_node? hm]
      exact hunset ((Tree.cacheOf_of_node? hn).trans hcache)
    refine (wp_store hm).mpr ?_
    rintro _ ⟨⟩
    exact (hassembled b rfl).mono .of_store fun _ _ => Tree.kept_store hm hnone

/-- Where all groups are ready, bytes that have been asked for are cached, whatever else happens on the
way. -/
theorem bytesStep_caching (id : NodeId) : Caching Tree.Settled id (bytesStep ask id) := by
  intro t hs
  refine ((Tree.scribbles_bytesStep hask id t).and (bytesStep_cached id t)).mono fun r t' h => ?_
  have hannotates := h.1.rel hs
  exact ⟨⟨hannotates.settled hs, hannotates.toRests, fun _ _ => hannotates.kept⟩, h.2⟩

end

theorem resolve_caching (depth : Nat) (id : NodeId) :
    Caching Tree.Settled id (resolve depth (.bytes id)) := by
  cases depth with
  | zero => exact fun t hs => ⟨⟨hs, .refl t, fun _ _ hb => hb⟩, by rintro _ ⟨⟩⟩
  | succ depth =>
    exact bytesStep_caching (Tree.scopeLaws_scribbles.resolve (fun _ => Tree.scribbles_bytesStep) depth) id

theorem resolve_assembled (depth : Nat) (hs : t.Settled) (hn : t.node? id = some n)
    (hleaf : n.kind.isLeaf = false) (hcell : n.cell = .unset) (hcache : n.cache = none) :
    wp (resolve depth (.bytes id)) (fun r t' => ∀ b, r = .ok b → t'.Assembled id n b) t := by
  cases depth with
  | zero => rintro _ ⟨⟩
  | succ depth =>
    exact bytesStep_assembled (Tree.scopeLaws_scribbles.resolve (fun _ => Tree.scribbles_bytesStep) depth)
      (resolve_caching depth) hs hn hleaf hcell hcache

end Resolver

-- ---------------------------------------------------------------------------
-- Trees whose groups are ready
-- ---------------------------------------------------------------------------

namespace Tree

open Resolver

variable {t t' : Tree} {id : NodeId} {n : Node} {b : Bytes}

/-- Cached bytes are answered without further ado. -/
theorem run_bytes_cached (hb : t.cacheOf id = some b) : (bytes id).run t = (.ok b, t) := by
  obtain ⟨depth, hdepth⟩ := exists_depthFor t
  obtain ⟨n, hn, hcache⟩ := cacheOf_eq_some.mp hb
  suffices h : wp (bytes id) (fun r t' => r = .ok b ∧ t' = t) t from Prod.ext h.1 h.2
  refine (wp_answerAll (.bytes id)).mpr ?_
  rw [hdepth]
  exact (wp_bytesStep_cached hn hcache).mpr ⟨rfl, rfl⟩

/-- Whatever has been done to a tree, while all its groups are ready: if the bytes of a composite or group
can be worked out, and neither its cell is set nor its bytes are cached, then those of its visible children
can be asked for in the state that is left. Without an output transform, they are what there is in a row.
A lossless action has been applied once to the whole of them, and can be undone. -/
theorem Settled.bytes_assembled (hs : t.Settled) (hn : t.node? id = some n)
    (hleaf : n.kind.isLeaf = false) (hcell : n.cell = .unset) (hcache : n.cache = none)
    (hb : (bytes id).run t = (.ok b, t')) :
    ∃ parts, List.Forall₂ (fun c part => (bytes c).run t' = (.ok part, t'))
        (n.children.filter fun c => t.isHidden c = .ok false) parts ∧
      (n.action = none → b = parts.flatten) ∧
      ∀ a : Action, a.Lossless → n.action = some (.action a) →
        Transform.invert (.action a) b = .ok parts.flatten := by
  have hassembled : t'.Assembled id n b := by
    have h := (wp_answerAll (.bytes id)).mpr (resolve_assembled (depthFor t) hs hn hleaf hcell hcache)
    exact h.of_run hb b rfl
  have hrests : t.Rests t' := by
    have h := ((Call.bytes id).scribbles trivial t hs).toRests
    rwa [Call.run, hb] at h
  obtain ⟨shown, parts, hshown, hparts, hbytes⟩ := hassembled
  rw [hrests.shownChildren_eq] at hshown
  refine ⟨parts, ?_, hbytes⟩
  rw [← shownChildren_eq hn hshown]
  exact hparts.imp fun c part => run_bytes_cached

/-- Two flags that are each widened, with a hidden field before them, all in base64. -/
def sealed : Template :=
  .composite { name := "sealed", action := some (.action .base64) } [
    .leaf { name := "key", cell := .literal (.int 7), hidden := true }
      (.int { packing := .ofWidth 1 .big false }),
    .repeated { name := "flags" }
      (.leaf { name := "flag", cell := .literal (.bool true), action := some (.action .widen) } .bool)
      (.fixed 2)]

theorem Settled.bytes_assembled_sealed : ∃ t₀ t' n b parts, build sealed 7 = .ok t₀ ∧ t₀.Settled ∧
    t₀.node? ⟨0⟩ = some n ∧ n.cell = .unset ∧ n.cache = none ∧ (bytes ⟨0⟩).run t₀ = (.ok b, t') ∧
    List.Forall₂ (fun c part => (bytes c).run t' = (.ok part, t'))
      (n.children.filter fun c => t₀.isHidden c = .ok false) parts ∧
    Transform.invert (.action .base64) b = .ok parts.flatten := by
  have hready : (build sealed 7).toOption.any (fun t =>
      t.nodes.all (·.all fun n => n.kind.group?.all (·.phase = .ready)) = true ∧
        (t.node? ⟨0⟩).any (fun n => n.cell.isUnset && n.cache.isNone) = true ∧ t.root = ⟨0⟩ ∧
        ((bytes ⟨0⟩).run t).1 = .ok (Bytes.ofString "AQABAA==")) = true := by
    decide +kernel
  obtain ⟨t₀, hbuild, hready⟩ := exists_build hready
  obtain ⟨hready, hfresh, hroot, hb⟩ := of_decide_eq_true hready
  have hs : t₀.Settled := .of_all hready
  have hmodels := (build_wellFormed (C := fun _ => True) ⟨fun _ => trivial, fun _ _ _ => trivial⟩ hbuild).2
    ⟨trivial, trivial, ⟨trivial, trivial⟩, trivial⟩
  obtain ⟨n, hn, hbears, hkind, -⟩ := hmodels
  rw [hroot] at hn
  rw [hn, Option.any_some, Bool.and_eq_true] at hfresh
  have hcell : n.cell = .unset := Cell.isUnset_iff.mp hfresh.1
  have hcache : n.cache = none := Option.isNone_iff_eq_none.mp hfresh.2
  have hrun : (bytes ⟨0⟩).run t₀ = (.ok (Bytes.ofString "AQABAA=="), ((bytes ⟨0⟩).run t₀).2) :=
    Prod.ext hb rfl
  obtain ⟨parts, hparts, -, hundone⟩ :=
    hs.bytes_assembled hn (by rw [hkind]; rfl) hcell hcache hrun
  exact ⟨t₀, _, n, _, parts, hbuild, hs, hn, hcell, hcache, hrun, hparts,
    hundone .base64 trivial hbears.action⟩

end Tree

end FormatFuzz
