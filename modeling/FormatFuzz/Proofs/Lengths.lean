-- SUMMARY: The length that a node is said to have is that of its bytes.
import FormatFuzz.Proofs.Persistence
import FormatFuzz.Proofs.Retries

/-!
# Lengths

The length of a node is worked out without its bytes, with a shortcut for each kind of node. If closures
are brittle and codecs honest, what comes out is the length of its bytes nevertheless
(`Tree.Reaches.length_accurate`). Where the bytes are cached, that is known from the caches already
(`Resolver.AfterLength.told`). Otherwise the bytes are asked for as well, and the length persists when they
have been cached, be it that both questions are asked of one tree, or one after the other.
-/

namespace FormatFuzz

open TreeM

open FormatFuzz.Tree (Sane Grounds)

-- ---------------------------------------------------------------------------
-- Answers
-- ---------------------------------------------------------------------------

namespace Resolver

variable {t : Tree}

theorem persists_answerAll (r : Request) : Persists (answerAll r) (answerAll r) :=
  Persists.readRules.state (fun _ => by rw [Tree.depthFor_outline]) (fun _ => by rw [Tree.depthFor_outline])
    fun _ => persists_resolve (Nat.le_refl _) r

theorem grounds_answerAll (r : Request) : Preserves Grounds Grounds (answerAll r) := by
  refine .of_run fun t => ?_
  suffices h : wp (answerAll r) (fun _ t' => Grounds t t') t from h
  exact (wp_answerAll r).mpr ((Tree.grounds_resolve _ r t).mono fun _ _ h => h.rel)

/-- A result comes out again when the question is asked of the tree that it has left. -/
theorem answerAll_again (hsane : t.Sane) {r : Request} {a : r.Answer}
    (ha : ((answerAll r).run t).1 = .ok a) :
    Sane ((answerAll r).run t).2 ∧ ((answerAll r).run ((answerAll r).run t).2).1 = .ok a := by
  obtain ⟨hstores, hrecalls⟩ := replays_answerAll r t hsane
  rw [ha] at hrecalls
  exact ⟨hstores.sane hsane, (hrecalls _ (.refl _)).1⟩

end Resolver

-- ---------------------------------------------------------------------------
-- Lengths and bytes
-- ---------------------------------------------------------------------------

namespace Tree

open Resolver

variable {t : Tree} {id : NodeId} {k : Nat} {b : Bytes}

theorem Sane.bytes_cached (hsane : t.Sane) (id : NodeId) : wp (bytes id) (AfterBytes id t) t :=
  (wp_answerAll (.bytes id)).mpr ((recurrent_resolve _).bytes id hsane)

theorem Sane.byteLength_told (hsane : t.Sane) (id : NodeId) : wp (byteLength id) (AfterLength id t) t :=
  (wp_answerAll (.length id)).mpr ((recurrent_resolve _).length id hsane)

/-- The length that one copy of the tree tells is that of the bytes that another one does. The length
would be the same after the bytes, and it would be that of the cache then. -/
theorem Sane.length_eq (hsane : t.Sane) (hk : ((byteLength id).run t).1 = .ok k)
    (hb : ((bytes id).run t).1 = .ok b) : b.length = k := by
  have hfounds : t.Founds ((bytes id).run t).2 := (grounds_answerAll (.bytes id) t).rel hsane
  have hcached := (hsane.bytes_cached id).cached hb
  obtain ⟨hagain, -⟩ := persists_answerAll (.length id) _ _ (hfounds.eases hsane) k hk
  exact ((hfounds.sane hsane).byteLength_told id).told hagain hcached

/-- Whatever has been done to a tree, while all its groups are ready: if closures fail once a read of them
fails, and codecs are honest, the length of a node is the number of its bytes. Both may be asked of copies of
the tree, or one after the other. -/
theorem Reaches.length_accurate {allowed : Tree → Call → Prop} {τ : Template} {seed : UInt64} {t₀ : Tree}
    (hbuild : build τ seed = .ok t₀) (h : Reaches allowed t₀ t) (hs : t.Settled)
    (hstraight : t.Straight) (id : NodeId) (k : Nat) (b : Bytes) :
    (((byteLength id).run t).1 = .ok k → ((bytes id).run t).1 = .ok b → b.length = k) ∧
    (((byteLength id).run t).1 = .ok k → ((bytes id).run ((byteLength id).run t).2).1 = .ok b →
      b.length = k) ∧
    (((bytes id).run t).1 = .ok b → ((byteLength id).run ((bytes id).run t).2).1 = .ok k →
      b.length = k) := by
  have hsane : t.Sane := ⟨hs, hstraight, h.encoded hbuild⟩
  refine ⟨hsane.length_eq, fun hk hb => ?_, fun hb hk => ?_⟩
  · obtain ⟨hsane', hk'⟩ := answerAll_again (r := .length id) hsane hk
    exact hsane'.length_eq hk' hb
  · obtain ⟨hsane', hb'⟩ := answerAll_again (r := .bytes id) hsane hb
    exact hsane'.length_eq hk hb'

/-- In all states of a frame, all groups are ready and all nodes are straight. -/
theorem Reaches.straight_framed {t₀ : Tree} (hbuild : build framed 7 = .ok t₀)
    (h : Reaches (fun _ c => c.Writes (Cell.Strict True)) t₀ t) : t.Settled ∧ t.Straight := by
  have hunbound : framed.Every Template.Unbound := ⟨trivial, trivial, ⟨trivial, trivial⟩, trivial⟩
  have hreliable : framed.Reliable (Cell.Strict True) True := by
    have hsize : (do return .ofNat (← Script.length "flags") : Script Value).Strict True :=
      Script.Strict.bind (.get (q := .length "flags") trivial) fun _ => trivial
    have hnone : ∀ f : Transform, none = some f → f.Strict True := fun _ h => by cases h
    exact ⟨⟨trivial, hsize, ⟨trivial, trivial⟩, trivial⟩, fun _ h => h,
      ⟨hnone, trivial⟩, ⟨hnone, trivial⟩, ⟨⟨hnone, trivial⟩, hnone, trivial⟩, trivial⟩
  have hupright := h.upright (permits_strict True) hreliable hunbound trivial
    (build_upright (permits_strict True) hreliable.cells hunbound hbuild)
  exact ⟨hupright.settled, hreliable.straight ⟨hupright.wellFormed, hupright.models, hupright.settled⟩⟩

theorem Reaches.length_accurate_framed : ∃ t₀ b, build framed 7 = .ok t₀ ∧
    let t := (Call.resize ⟨2⟩ 3).run ((Call.bytes ⟨0⟩).run t₀)
    t.Settled ∧ t.Straight ∧ ((byteLength ⟨0⟩).run t).1 = .ok 4 ∧ ((bytes ⟨0⟩).run t).1 = .ok b ∧
      b.length = 4 := by
  have hruns : (build framed 7).toOption.any (fun t₀ =>
      let t := (Call.resize ⟨2⟩ 3).run ((Call.bytes ⟨0⟩).run t₀)
      ((byteLength ⟨0⟩).run t).1 = .ok 4 ∧ ((bytes ⟨0⟩).run t).1 = .ok [3, 1, 1, 1]) = true := by
    decide +kernel
  obtain ⟨t₀, hbuild, hruns⟩ := exists_build hruns
  obtain ⟨hk, hb⟩ := of_decide_eq_true hruns
  have hreach : Reaches (fun _ c => c.Writes (Cell.Strict True)) t₀
      ((Call.resize ⟨2⟩ 3).run ((Call.bytes ⟨0⟩).run t₀)) :=
    .call (.resize ⟨2⟩ 3) (.call (.bytes ⟨0⟩) (.refl t₀) trivial) trivial
  obtain ⟨hs, hstraight⟩ := hreach.straight_framed hbuild
  exact ⟨t₀, _, hbuild, hs, hstraight, hk, hb,
    (Reaches.length_accurate hbuild hreach hs hstraight ⟨0⟩ 4 _).1 hk hb⟩

end Tree

end FormatFuzz
