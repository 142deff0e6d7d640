-- SUMMARY: Draws stay in their ranges, and the random values of leaves in those of their fields.
import Mathlib.Algebra.Group.Int.Defs
import Mathlib.Algebra.Group.Nat.Defs
import Mathlib.Data.Int.Order.Basic
import Mathlib.Data.List.GetD
import Mathlib.Order.MinMax
import FormatFuzz.Random.Range
import FormatFuzz.Tree.Resolve

/-!
# Draws

A draw is scaled to the span of its range by a multiplication, and a second draw may carry into the answer.
It stays below the span even then (`Generator.scaled_lt`). So every draw from a range is a number of the range,
as long as the words of a draw can tell its numbers apart.

The bounds of a field may be given in either order. Once they are put in order, no draw is made from a range or
an alphabet that has nothing in it: draws that refuse these give a leaf the same random value
(`LeafKind.draw?_eq`).
-/

namespace FormatFuzz

theorem inOrder_eq {α : Type} [LinearOrder α] (a b : α) : inOrder a b = (min a b, max a b) := by
  unfold inOrder
  split
  · next h => rw [min_eq_left h, max_eq_right h]
  · next h => rw [min_eq_right (le_of_not_ge h), max_eq_left (le_of_not_ge h)]

namespace Generator

variable {span lo hi : Nat} {alphabet : Bytes}

-- ---------------------------------------------------------------------------
-- Scaled draws
-- ---------------------------------------------------------------------------

theorem nextWords_lt (n : Nat) (g : Generator) : (g.nextWords n).1 < 2 ^ (32 * n) := by
  induction n generalizing g with
  | zero => exact Nat.one_pos
  | succ n ih =>
    have hlow : g.nextWord.1.toNat < 2 ^ 32 := g.nextWord.1.toNat_lt
    have hpow : (2 : Nat) ^ (32 * (n + 1)) = 2 ^ 32 * 2 ^ (32 * n) := by
      rw [Nat.mul_succ, Nat.pow_add, Nat.mul_comm]
    have hhigh : 2 ^ 32 * (g.nextWord.2.nextWords n).1 + 2 ^ 32 ≤ 2 ^ 32 * 2 ^ (32 * n) := by
      rw [← Nat.mul_succ]
      exact Nat.mul_le_mul_left _ (ih g.nextWord.2)
    show g.nextWord.1.toNat + 2 ^ 32 * (g.nextWord.2.nextWords n).1 < _
    omega

/-- Even with the carry of a finer draw, a scaled draw stays below its span. -/
theorem carry_lt {modulus draw finer : Nat} (hdraw : draw < modulus) (hfiner : finer < modulus)
    (hcarry : modulus ≤ draw * span % modulus + finer * span / modulus) :
    draw * span / modulus + 1 < span := by
  have hspan : 0 < span := by
    refine Nat.pos_of_ne_zero fun hzero => ?_
    rw [hzero, Nat.mul_zero, Nat.mul_zero, Nat.zero_mod, Nat.zero_div] at hcarry
    omega
  have hfine : finer * span / modulus < span :=
    Nat.div_lt_of_lt_mul (Nat.mul_lt_mul_of_pos_right hfiner hspan)
  have hwhole : (draw + 1) * span ≤ modulus * span := Nat.mul_le_mul_right span hdraw
  have hparts := Nat.div_add_mod (draw * span) modulus
  rw [Nat.succ_mul] at hwhole
  refine Nat.lt_of_mul_lt_mul_left (a := modulus) ?_
  rw [Nat.mul_succ]
  omega

theorem scaled_lt (words : Nat) (hspan : 0 < span) (g : Generator) : (g.scaled words span).1 < span := by
  have hdraw := nextWords_lt words g
  have hhigh : (g.nextWords words).1 * span / 2 ^ (32 * words) < span :=
    Nat.div_lt_of_lt_mul (Nat.mul_lt_mul_of_pos_right hdraw hspan)
  have hpow : Nat.pow 2 (32 * words) = 2 ^ (32 * words) := rfl
  unfold scaled
  dsimp only
  rw [hpow]
  split
  · split
    · next hcarry => exact carry_lt hdraw (nextWords_lt words _) hcarry
    · exact hhigh
  · exact hhigh

-- ---------------------------------------------------------------------------
-- Ranges
-- ---------------------------------------------------------------------------

theorem natIn_mem (hle : lo ≤ hi) (hhi : hi < 2 ^ 64) (g : Generator) :
    lo ≤ (g.natIn lo hi).1 ∧ (g.natIn lo hi).1 ≤ hi := by
  obtain ⟨words, hwords, hfits⟩ : ∃ words, (if hi < 2 ^ 32 then 1 else 2) = words ∧ hi < 2 ^ (32 * words) := by
    refine ⟨_, rfl, ?_⟩
    split
    · assumption
    · exact hhi
  have hpow : ∀ k, Nat.pow 2 k = 2 ^ k := fun _ => rfl
  unfold natIn
  simp only [hpow, hwords]
  split
  · -- The span of all numbers of so many words is one too large for them.
    next hspan =>
    have hwhole : 2 ^ (32 * words) ≤ hi - lo + 1 := by
      by_contra hlt
      rw [Nat.mod_eq_of_lt (Nat.lt_of_not_le hlt)] at hspan
      omega
    have hdraw := nextWords_lt words g
    omega
  · next hspan =>
    have hlt : hi - lo + 1 < 2 ^ (32 * words) := by
      by_contra hge
      have heq : hi - lo + 1 = 2 ^ (32 * words) := by omega
      rw [heq, Nat.mod_self] at hspan
      exact hspan rfl
    rw [Nat.mod_eq_of_lt hlt]
    have hoffset : (g.scaled words (hi - lo + 1)).1 < hi - lo + 1 := scaled_lt words (Nat.succ_pos _) g
    dsimp only
    omega

theorem intIn_mem {lo hi : Int} (hlo : -2 ^ 127 ≤ lo) (hle : lo ≤ hi) (hhi : hi < 2 ^ 127) (g : Generator) :
    lo ≤ (g.intIn lo hi).1 ∧ (g.intIn lo hi).1 ≤ hi := by
  have hpow : Int.pow 2 128 = 2 ^ 128 := rfl
  unfold intIn
  simp only [hpow]
  split
  · next hspan =>
    have hwhole : hi - lo + 1 = 2 ^ 128 := by omega
    have hlow := Int.le_bmod (x := ((g.nextWords 4).1 : Int)) (m := Nat.pow 2 128) (by decide)
    have hhigh := Int.bmod_lt (x := ((g.nextWords 4).1 : Int)) (m := Nat.pow 2 128) (by decide)
    have hpow' : ((Nat.pow 2 128 : Nat) : Int) = 2 ^ 128 := rfl
    rw [hpow'] at hlow hhigh
    omega
  · next hspan =>
    have hspan' : ((hi - lo + 1) % 2 ^ 128).toNat = (hi - lo + 1).toNat := by
      rw [Int.emod_eq_of_lt] <;> omega
    rw [hspan']
    have hoffset : (g.scaled 4 (hi - lo + 1).toNat).1 < (hi - lo + 1).toNat := scaled_lt 4 (by omega) g
    dsimp only
    omega

theorem picks_mem (hne : alphabet ≠ []) (hfits : alphabet.length ≤ 2 ^ 64) (n : Nat) (g : Generator) :
    (g.picks alphabet n).1.length = n ∧ ∀ b ∈ (g.picks alphabet n).1, b ∈ alphabet := by
  induction n generalizing g with
  | zero => exact ⟨rfl, fun _ h => absurd h List.not_mem_nil⟩
  | succ n ih =>
    have hpos := List.length_pos_iff.mpr hne
    obtain ⟨-, hindex⟩ := natIn_mem (Nat.zero_le (alphabet.length - 1)) (by omega) g
    obtain ⟨hlength, hmem⟩ := ih (g.natIn 0 (alphabet.length - 1)).2
    show (_ :: ((g.natIn 0 (alphabet.length - 1)).2.picks alphabet n).1).length = n + 1 ∧
      ∀ b ∈ alphabet.getD (g.natIn 0 (alphabet.length - 1)).1 0 ::
        ((g.natIn 0 (alphabet.length - 1)).2.picks alphabet n).1, b ∈ alphabet
    refine ⟨congrArg (· + 1) hlength, List.forall_mem_cons.mpr ⟨?_, hmem⟩⟩
    rw [List.getD_eq_getElem _ _ (by omega)]
    exact List.getElem_mem _

-- ---------------------------------------------------------------------------
-- Draws that refuse
-- ---------------------------------------------------------------------------

/-- A draw that refuses a range without numbers. -/
def natIn? (lo hi : Nat) (g : Generator) : Option (Nat × Generator) :=
  if lo ≤ hi then some (g.natIn lo hi) else none

/-- A draw that refuses a range without numbers. -/
def intIn? (lo hi : Int) (g : Generator) : Option (Int × Generator) :=
  if lo ≤ hi then some (g.intIn lo hi) else none

/-- Picks that refuse an alphabet without letters, and an index that is not in it. -/
def picks? (alphabet : Bytes) : (n : Nat) → (g : Generator) → Option (Bytes × Generator)
  | 0, g => some ([], g)
  | n + 1, g =>
    if alphabet.isEmpty then
      none
    else do
      let (i, g) ← g.natIn? 0 (alphabet.length - 1)
      let letter ← alphabet[i]?
      let (rest, g) ← picks? alphabet n g
      return (letter :: rest, g)

theorem picks?_eq (hne : alphabet ≠ []) (hfits : alphabet.length ≤ 2 ^ 64) (n : Nat) (g : Generator) :
    g.picks? alphabet n = some (g.picks alphabet n) := by
  induction n generalizing g with
  | zero => rfl
  | succ n ih =>
    have hpos := List.length_pos_iff.mpr hne
    obtain ⟨-, hindex⟩ := natIn_mem (Nat.zero_le (alphabet.length - 1)) (by omega) g
    have hletter : alphabet[(g.natIn 0 (alphabet.length - 1)).1]? =
        some (alphabet.getD (g.natIn 0 (alphabet.length - 1)).1 0) := by
      rw [List.getD_eq_getElem?_getD, List.getElem?_eq_getElem (by omega), Option.getD_some]
    have hempty : alphabet.isEmpty = false := List.isEmpty_eq_false_iff.mpr hne
    rw [picks?, hempty, natIn?, if_pos (Nat.zero_le _)]
    simp only [Bool.false_eq_true, if_false, Option.bind_eq_bind, Option.bind_some, hletter, ih]
    rfl

end Generator

-- ---------------------------------------------------------------------------
-- Leaves
-- ---------------------------------------------------------------------------

namespace LeafKind

/-- The leaf draws from ranges, and their bounds are 128-bit integers, and lengths of 64 bits. -/
def Ranged : LeafKind → Prop
  | .int spec => (-2 ^ 127 ≤ spec.min ∧ spec.min < 2 ^ 127) ∧ -2 ^ 127 ≤ spec.max ∧ spec.max < 2 ^ 127
  | .str spec => spec.minLength < 2 ^ 64 ∧ spec.maxLength < 2 ^ 64 ∧ spec.charset.length ≤ 2 ^ 64
  | .bool => True
  | .custom _ => False

instance (kind : LeafKind) : Decidable kind.Ranged :=
  match kind with
  | .int spec => inferInstanceAs
      (Decidable ((-2 ^ 127 ≤ spec.min ∧ spec.min < 2 ^ 127) ∧ -2 ^ 127 ≤ spec.max ∧ spec.max < 2 ^ 127))
  | .str spec => inferInstanceAs
      (Decidable (spec.minLength < 2 ^ 64 ∧ spec.maxLength < 2 ^ 64 ∧ spec.charset.length ≤ 2 ^ 64))
  | .bool => .isTrue trivial
  | .custom _ => .isFalse id

/-- The values between the bounds of a field, whatever their order. -/
def Bounds : LeafKind → Value → Prop
  | .int spec, .int i => min spec.min spec.max ≤ i ∧ i ≤ max spec.min spec.max
  | .str spec, .bytes b => (min spec.minLength spec.maxLength ≤ b.length ∧
      b.length ≤ max spec.minLength spec.maxLength) ∧
      ∀ letter ∈ b, letter ∈ if spec.charset.isEmpty then letters else spec.charset
  | .bool, .bool _ => True
  | _, _ => False

/-- The random value of an unset leaf, unless it would have to be drawn from an empty range or alphabet. -/
def draw? (g : Generator) : LeafKind → Option (Except TreeError Value)
  | .int spec => do
    let (min, max) := inOrder spec.min spec.max
    let (i, _) ← g.intIn? min max
    return .ok (.int i)
  | .str spec => do
    let (min, max) := inOrder spec.minLength spec.maxLength
    let (length, g) ← g.natIn? min max
    let charset := if spec.charset.isEmpty then letters else spec.charset
    let (b, _) ← g.picks? charset length
    return .ok (.bytes b)
  | .bool => some (.ok (.bool g.bool.1))
  | .custom codec => some (codec.defaultValue g)

variable {kind : LeafKind}

theorem alphabet_ne_nil (charset : Bytes) : (if charset.isEmpty then letters else charset) ≠ [] := by
  split
  · decide +kernel
  · next h => exact fun hnil => h (List.isEmpty_iff.mpr hnil)

theorem length_alphabet_le {charset : Bytes} (h : charset.length ≤ 2 ^ 64) :
    (if charset.isEmpty then letters else charset).length ≤ 2 ^ 64 := by
  split
  · decide +kernel
  · exact h

theorem draw_int (spec : IntField) (g : Generator) :
    draw g (.int spec) = .ok (.int (g.intIn (min spec.min spec.max) (max spec.min spec.max)).1) := by
  rw [draw, inOrder_eq]

theorem draw_str (spec : TextField) (g : Generator) :
    let length := g.natIn (min spec.minLength spec.maxLength) (max spec.minLength spec.maxLength)
    draw g (.str spec) = .ok (.bytes
      (length.2.picks (if spec.charset.isEmpty then letters else spec.charset) length.1).1) := by
  rw [draw, inOrder_eq]

/-- No range or alphabet that a leaf draws from is empty. -/
theorem draw?_eq (h : kind.Ranged) (g : Generator) : kind.draw? g = some (kind.draw g) := by
  cases kind with
  | int spec =>
    have hle : min spec.min spec.max ≤ max spec.min spec.max := min_le_max
    rw [draw_int, draw?, inOrder_eq]
    simp only [Generator.intIn?, if_pos hle]
    rfl
  | str spec =>
    have hle : min spec.minLength spec.maxLength ≤ max spec.minLength spec.maxLength := min_le_max
    have hpicks := Generator.picks?_eq (alphabet_ne_nil spec.charset) (length_alphabet_le h.2.2)
    rw [draw_str, draw?, inOrder_eq]
    simp only [Generator.natIn?, if_pos hle, Option.bind_eq_bind, Option.bind_some, hpicks]
    rfl
  | bool => rfl
  | custom codec => rfl

/-- A random value keeps to the bounds of its field. -/
theorem exists_draw (h : kind.Ranged) (g : Generator) : ∃ v, kind.draw g = .ok v ∧ kind.Bounds v := by
  cases kind with
  | int spec =>
    obtain ⟨hmin, hmax⟩ := h
    exact ⟨_, draw_int spec g,
      Generator.intIn_mem (le_min hmin.1 hmax.1) min_le_max (max_lt hmin.2 hmax.2) g⟩
  | str spec =>
    obtain ⟨hmin, hmax, hfits⟩ := h
    have hlength := Generator.natIn_mem min_le_max (max_lt hmin hmax) g
    obtain ⟨hpicked, hmem⟩ := Generator.picks_mem (alphabet_ne_nil spec.charset) (length_alphabet_le hfits)
      (g.natIn (min spec.minLength spec.maxLength) (max spec.minLength spec.maxLength)).1
      (g.natIn (min spec.minLength spec.maxLength) (max spec.minLength spec.maxLength)).2
    refine ⟨_, draw_str spec g, ?_, hmem⟩
    rw [hpicked]
    exact hlength
  | bool => exact ⟨_, rfl, trivial⟩
  | custom codec => exact h.elim

end LeafKind

end FormatFuzz
