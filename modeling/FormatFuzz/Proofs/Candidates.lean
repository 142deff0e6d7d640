-- SUMMARY: The candidates of a leaf honour the options of its field.
import FormatFuzz.Proofs.FirstOccurrences
import FormatFuzz.Proofs.Selections

/-!
# Candidates

The options of a field may replace the generated candidates or add to them. Integers, texts and the leaves of
codecs all combine the two in the same way (`Candidates.combine_honours`); a boolean leaf has both values
whatever its options say. What a run tries in a field are the candidates for the options that the field had
when it was selected (`Tree.Reaches.candidates_exact`).
-/

namespace FormatFuzz

open TreeM

namespace Candidates

-- ---------------------------------------------------------------------------
-- Options
-- ---------------------------------------------------------------------------

theorem mem_removeAll {xs ys : List Value} {v : Value} : v ∈ xs.removeAll ys ↔ v ∈ xs ∧ v ∉ ys := by
  simp [List.removeAll]

/-- The values are those of the override, if there is one. Otherwise they are the generated ones and then the
extra ones that are not among these, each once, in the order in which they first occur. -/
structure Honours (options : FieldOptions) (generated values : List Value) : Prop where
  override : ∀ vs, options.values = some vs → values = vs
  split : options.values = none → ∃ own added, values = own ++ added ∧ (∀ v, v ∈ own ↔ v ∈ generated) ∧
    ∀ v, v ∈ added ↔ v ∈ options.extra ∧ v ∉ generated
  nodup : options.values = none → values.Nodup
  order : options.values = none → values.Pairwise fun v w =>
    (generated ++ options.extra).idxOf v < (generated ++ options.extra).idxOf w

theorem combine_honours (options : FieldOptions) (generated : List Value) :
    Honours options generated (combine options generated) := by
  have hnone : options.values = none → combine options generated = (generated ++ options.extra).eraseDups := by
    intro h
    rw [combine, h]
  refine ⟨fun vs h => by rw [combine, h], fun h => ?_, fun h => ?_, fun h => ?_⟩ <;> rw [hnone h]
  · refine ⟨_, _, List.eraseDups_append, fun v => List.mem_eraseDups, fun v => ?_⟩
    rw [List.mem_eraseDups, mem_removeAll]
  · exact nodup_eraseDups _
  · exact eraseDups_pairwise _

-- ---------------------------------------------------------------------------
-- Kinds
-- ---------------------------------------------------------------------------

variable {options : FieldOptions} {filler : UInt8} {kind : LeafKind}

/-- The candidates that a leaf has of its own. -/
def generated (options : FieldOptions) (filler : UInt8) : LeafKind → List Value
  | .int spec => boundaries spec.packing
  | .str _ => ramp (options.maxLength.getD defaultMaxLength) filler
  | .bool => ofBool
  | .custom codec => codec.candidates

/-- A boolean leaf is not asked for anything but its two values. -/
def Serves (options : FieldOptions) (kind : LeafKind) : Prop :=
  kind = .bool → (∀ vs, options.values = some vs → vs = ofBool) ∧
    (options.values = none → ∀ v ∈ options.extra, v ∈ ofBool)

/-- Every kind of leaf combines what it has of its own with the options, boolean ones by not looking at them. -/
theorem ofLeaf_eq_combine (h : Serves options kind) :
    ofLeaf options filler kind = combine options (generated options filler kind) := by
  cases kind with
  | int spec => rfl
  | str spec => rfl
  | custom codec => rfl
  | bool =>
    obtain ⟨hvalues, hextra⟩ := h rfl
    show ofBool = combine options ofBool
    cases hv : options.values with
    | some vs => rw [combine, hv, hvalues vs hv]
    | none =>
      have hnone : options.extra.removeAll ofBool = [] := by
        refine List.eq_nil_iff_forall_not_mem.mpr fun v hmem => ?_
        obtain ⟨hmem, hnot⟩ := mem_removeAll.mp hmem
        exact hnot (hextra hv v hmem)
      rw [combine, hv]
      dsimp only
      rw [List.eraseDups_append, hnone]
      rfl

/-- No generated text is longer than the options allow. -/
theorem length_le_of_mem_generated (hkind : ∀ codec, kind ≠ .custom codec) {b : Bytes}
    (h : .bytes b ∈ generated options filler kind) : b.length ≤ options.maxLength.getD defaultMaxLength := by
  cases kind with
  | int spec =>
    obtain ⟨i, -, hi⟩ := List.mem_map.mp h
    cases hi
  | bool => simp [generated, ofBool] at h
  | custom codec => exact absurd rfl (hkind codec)
  | str spec =>
    rcases List.mem_append.mp h with h | h
    · obtain ⟨n, hn, hb⟩ := List.mem_map.mp h
      cases hb
      rw [List.length_replicate]
      exact of_decide_eq_true (List.mem_filter.mp hn).2
    · cases List.mem_singleton.mp h
      exact Nat.zero_le _

end Candidates

-- ---------------------------------------------------------------------------
-- Runs
-- ---------------------------------------------------------------------------

namespace Tree

open Candidates

variable {τ : Template} {seed : UInt64} {t₀ t t' : Tree} {allowed : Tree → Call → Prop}

/-- What a run tries in a field, in any reachable tree, are the candidates for the kind of the leaf and the
options that it had when it was selected, with the patch for its name. For all kinds and all options, these
honour the options, except that boolean leaves have their two values in any case; and no text is generated that
is longer than allowed. -/
theorem Reaches.candidates_exact (hbuild : build τ seed = .ok t₀) (h : Reaches allowed t₀ t) (c : Campaign) :
    (∀ targets t', c.targets.run t = (.ok targets, t') → ∀ x ∈ targets, ∃ v n kind, t.Touches v ∧ v.Touches t' ∧
      v.node? x.id = some n ∧ n.kind = .leaf kind ∧ v.fullName x.id = .ok x.name ∧
      x.candidates = ofLeaf (Selection.effectiveOptions c.patches x.name n.fuzz) c.plan.filler kind) ∧
    ∀ (options : FieldOptions) (filler : UInt8) (kind : LeafKind),
      (Serves options kind → Honours options (generated options filler kind) (ofLeaf options filler kind)) ∧
      ((∀ codec, kind ≠ .custom codec) → ∀ b, .bytes b ∈ generated options filler kind →
        b.length ≤ options.maxLength.getD defaultMaxLength) := by
  refine ⟨fun targets t' hrun x hx => ?_, fun options filler kind => ⟨fun hserves => ?_, fun hkind b => ?_⟩⟩
  · obtain ⟨v, hv, hv', n, kind, hn, hk, hname, -, hcandidates⟩ :=
      ((h.targets_aimed hbuild c).of_run hrun).2 targets rfl x hx
    exact ⟨v, n, kind, hv, hv', hn, hk, hname, hcandidates⟩
  · rw [ofLeaf_eq_combine hserves]
    exact combine_honours _ _
  · exact length_le_of_mem_generated hkind

/-- Two texts, one with extra values and one with other values, and a flag. -/
def stocked : Template :=
  .composite { name := "record" } [
    .leaf { name := "text", fuzz := { extra := [.bytes [65], .int 3, .int 3], maxLength := some 2 } } (.str {}),
    .string "name",
    .boolean "flag"]

def stockedRun : Campaign where
  root := ⟨0⟩
  patches := [("name", { values := some [.bool true, .bool true] })]

theorem Reaches.candidates_exact_stocked : ∃ t₀ targets t', build stocked 7 = .ok t₀ ∧
    stockedRun.targets.run t₀ = (.ok targets, t') ∧
    targets.map (·.candidates) = [[.bytes [65], .bytes [65, 65], .bytes [], .int 3], [.bool true, .bool true],
      [.bool true, .bool false]] ∧
    (∀ x ∈ targets, ∃ v n kind, t₀.Touches v ∧ v.Touches t' ∧ v.node? x.id = some n ∧ n.kind = .leaf kind ∧
      v.fullName x.id = .ok x.name ∧
      x.candidates = ofLeaf (Selection.effectiveOptions stockedRun.patches x.name n.fuzz) defaultFiller kind) ∧
    Honours { extra := [.int 3, .int 3] } (generated {} 65 (.str {}))
      (ofLeaf { extra := [.int 3, .int 3] } 65 (.str {})) := by
  have hall : (build stocked 7).toOption.any (fun t =>
      (stockedRun.targets.run t).1.toOption.any fun targets => targets.map (·.candidates) =
        [[.bytes [65], .bytes [65, 65], .bytes [], .int 3], [.bool true, .bool true],
          [.bool true, .bool false]]) = true := by
    decide +kernel
  obtain ⟨t₀, hbuild, hall⟩ := exists_build hall
  have hreach : Reaches (fun _ _ => True) t₀ t₀ := .refl t₀
  obtain ⟨htargets, hoptions⟩ := hreach.candidates_exact hbuild stockedRun
  rcases hrun : stockedRun.targets.run t₀ with ⟨_ | targets, t'⟩ <;> rw [hrun] at hall
  · cases hall
  · have hserves : Serves { extra := [.int 3, .int 3] } (.str {}) := fun h => by cases h
    exact ⟨t₀, targets, t', hbuild, hrun, of_decide_eq_true hall, htargets targets t' hrun,
      (hoptions { extra := [.int 3, .int 3] } 65 (.str {})).1 hserves⟩

/-- A boolean field whose options ask for one value only is tried with both. -/
theorem targets_unheeding :
    ((build (.leaf { name := "flag", fuzz := { values := some [.bool true] } } .bool) 7).toOption.map fun t =>
      (({ root := ⟨0⟩ } : Campaign).targets.run t).1.toOption.map fun targets => targets.map (·.candidates)) =
      some (some [[.bool true, .bool false]]) := by
  decide +kernel

end Tree

end FormatFuzz
