-- SUMMARY: The grammar of a step with indices in brackets, and that it is what is read.
import FormatFuzz.Proofs.Spelling

/-!
# Brackets

A step down is a name without an opening bracket, and behind it words in brackets that stand for indices
(`Path.Segment`). The grammar says what a text is put together from, and reading takes apart exactly the texts
of the grammar (`Path.splitBrackets_exact`). What does not belong to it is not read at all: a bracket that stays
open, a text behind a closing bracket, a word without digits, a number that is too large.
-/

namespace FormatFuzz.Path

variable {text word digits : List Char} {name : String} {i n : Nat} {indices : List Nat}

-- ---------------------------------------------------------------------------
-- The grammar
-- ---------------------------------------------------------------------------

/-- Decimal digits, at least one of them, of an index. -/
structure Decimal (digits : List Char) (i : Nat) : Prop where
  ne_nil : digits ≠ []
  isDigit : ∀ c ∈ digits, c.isDigit = true
  value : Nat.ofDigitChars 10 digits 0 = i
  fits : i < indexLimit

inductive Numeral : List Char → Nat → Prop where
  | plain {digits : List Char} {i : Nat} (h : Decimal digits i) : Numeral digits i
  | plus {digits : List Char} {i : Nat} (h : Decimal digits i) : Numeral ('+' :: digits) i

/-- A numeral with or without blanks around it. -/
inductive IndexWord : List Char → Nat → Prop where
  | padded {before numeral after : List Char} {i : Nat} (hbefore : ∀ c ∈ before, Text.isBlank c = true)
      (hafter : ∀ c ∈ after, Text.isBlank c = true) (h : Numeral numeral i) :
      IndexWord (before ++ numeral ++ after) i

/-- Words in brackets, one behind the other. The first closing bracket closes. -/
inductive Brackets : List Char → List Nat → Prop where
  | nil : Brackets [] []
  | cons {word rest : List Char} {i : Nat} {indices : List Nat} (hword : ']' ∉ word) (hindex : IndexWord word i)
      (hrest : Brackets rest indices) : Brackets ('[' :: word ++ ']' :: rest) (i :: indices)

/-- A step down: the name of a child, and behind it the indices of elements. -/
def Segment (text : List Char) (name : String) (indices : List Nat) : Prop :=
  '[' ∉ name.toList ∧ ∃ groups, text = name.toList ++ groups ∧ Brackets groups indices

-- ---------------------------------------------------------------------------
-- Numerals
-- ---------------------------------------------------------------------------

theorem isDigit_of_digit? {c : Char} (h : digit? c = some n) : c.isDigit = true := by
  unfold digit? at h
  split at h
  · rename_i hbounds
    rw [Char.isDigit, Bool.and_eq_true, decide_eq_true_iff, decide_eq_true_iff]
    exact hbounds
  · cases h

theorem isDigit_of_readDigits (h : readDigits n digits = some i) : ∀ c ∈ digits, c.isDigit = true := by
  induction digits generalizing n with
  | nil => simp
  | cons c rest ih =>
    obtain ⟨d, hd, hrest⟩ := Option.bind_eq_some_iff.mp h
    exact List.forall_mem_cons.mpr ⟨isDigit_of_digit? hd, ih hrest⟩

theorem Decimal.head_ne_plus (h : Decimal digits i) {rest : List Char} : digits ≠ '+' :: rest := by
  rintro rfl
  exact absurd (h.isDigit '+' List.mem_cons_self) (by decide)

/-- Digits are read as the number that they write, if there are any and it is not too large. -/
theorem decimal_iff : (if digits.isEmpty then none else do
      let n ← readDigits 0 digits
      if n < indexLimit then some n else none) = some i ↔ Decimal digits i := by
  constructor
  · intro h
    split at h
    · cases h
    · rename_i hne
      obtain ⟨n, hread, hfits⟩ := Option.bind_eq_some_iff.mp h
      have hdigits := isDigit_of_readDigits hread
      rw [readDigits_eq hdigits] at hread
      split at hfits
      · rename_i hn
        cases hfits
        exact ⟨by simpa using hne, hdigits, Option.some.inj hread, hn⟩
      · cases hfits
  · intro h
    simp [h.ne_nil, readDigits_eq h.isDigit, h.value, h.fits]

theorem readIndex_eq_some_iff : readIndex word = some i ↔ Numeral word i := by
  constructor
  · intro h
    unfold readIndex at h
    split at h
    · exact .plus (decimal_iff.mp h)
    · exact .plain (decimal_iff.mp h)
  · intro h
    cases h with
    | plus h => exact decimal_iff.mpr h
    | plain h =>
      unfold readIndex
      split
      · exact absurd rfl h.head_ne_plus
      · exact decimal_iff.mpr h

theorem Numeral.isBlank (h : Numeral word i) : ∀ c ∈ word, Text.isBlank c = false := by
  cases h with
  | plain h => exact fun c hc => isBlank_of_isDigit (h.isDigit c hc)
  | plus h => exact List.forall_mem_cons.mpr ⟨by decide, fun c hc => isBlank_of_isDigit (h.isDigit c hc)⟩

theorem Numeral.ne_nil (h : Numeral word i) : word ≠ [] := by
  cases h with
  | plain h => exact h.ne_nil
  | plus h => exact List.cons_ne_nil _ _

/-- A word is what trimming leaves of it, with blanks around. -/
theorem exists_padding (word : List Char) : ∃ before after, word = before ++ Text.trim word ++ after ∧
    (∀ c ∈ before, Text.isBlank c = true) ∧ ∀ c ∈ after, Text.isBlank c = true := by
  refine ⟨word.takeWhile Text.isBlank, ((word.dropWhile Text.isBlank).reverse.takeWhile Text.isBlank).reverse, ?_,
    List.all_eq_true.mp List.all_takeWhile, fun c hc => ?_⟩
  · rw [Text.trim, List.append_assoc, ← List.reverse_append, List.takeWhile_append_dropWhile, List.reverse_reverse,
      List.takeWhile_append_dropWhile]
  · exact List.all_eq_true.mp List.all_takeWhile c (List.mem_reverse.mp hc)

/-- Trimming a word and reading the numeral that is left gives the index that the word stands for. -/
theorem readIndex_trim : readIndex (Text.trim word) = some i ↔ IndexWord word i := by
  rw [readIndex_eq_some_iff]
  constructor
  · intro h
    obtain ⟨before, after, hword, hbefore, hafter⟩ := exists_padding word
    rw [hword]
    exact .padded hbefore hafter h
  · intro h
    cases h with
    | padded hbefore hafter h =>
      rw [trim_surrounded hbefore hafter h.ne_nil h.isBlank]
      exact h

-- ---------------------------------------------------------------------------
-- Groups
-- ---------------------------------------------------------------------------

theorem readIndices_unclosed (h : ']' ∉ text) (word : List Char) : readIndices (some word) text = none := by
  induction text generalizing word with
  | nil => rfl
  | cons c rest ih =>
    rw [List.mem_cons, not_or] at h
    rw [readIndices, if_neg (Ne.symm h.1)]
    exact ih h.2 (c :: word)

/-- One group is read off, and then those behind it. -/
theorem readIndices_group {rest : List Char} (hword : ']' ∉ word) :
    readIndices none ('[' :: word ++ ']' :: rest) = some indices ↔
      ∃ i more, IndexWord word i ∧ readIndices none rest = some more ∧ indices = i :: more := by
  rw [List.cons_append, readIndices, if_pos rfl, readIndices_word word [] hword, List.reverse_nil, List.nil_append]
  constructor
  · intro h
    obtain ⟨i, hi, h⟩ := Option.bind_eq_some_iff.mp h
    obtain ⟨more, hmore, h⟩ := Option.bind_eq_some_iff.mp h
    exact ⟨i, more, readIndex_trim.mp hi, hmore, (Option.some.inj h).symm⟩
  · rintro ⟨i, more, hi, hmore, rfl⟩
    rw [readIndex_trim.mpr hi, hmore]
    rfl

theorem readIndices_eq_some_iff : readIndices none text = some indices ↔ Brackets text indices := by
  constructor
  · intro h
    -- What is left behind a group is shorter.
    induction hlength : text.length using Nat.strongRecOn generalizing text indices with
    | ind length ih =>
      cases text with
      | nil =>
        cases h
        exact .nil
      | cons c text =>
        by_cases hc : c = '['
        · by_cases hclosed : ']' ∈ text
          · obtain ⟨word, rest, rfl, hword⟩ := List.eq_append_cons_of_mem hclosed
            rw [hc] at h
            obtain ⟨i, more, hindex, hrest, rfl⟩ := (readIndices_group hword).mp h
            rw [hc]
            refine .cons hword hindex (ih rest.length ?_ hrest rfl)
            simp at hlength
            omega
          · rw [readIndices, if_pos hc, readIndices_unclosed hclosed] at h
            cases h
        · rw [readIndices, if_neg hc] at h
          cases h
  · intro h
    induction h with
    | nil => rfl
    | cons hword hindex _ ih => exact (readIndices_group hword).mpr ⟨_, _, hindex, ih, rfl⟩

theorem Brackets.head (h : Brackets text indices) : ∀ c ∈ text.head?, c = '[' := by
  cases h <;> simp

/-- A text is split into a name and indices if and only if it is put together from them, and a text that is not
put together so is not split. What is written as a name and indices is split into them again. -/
theorem splitBrackets_exact :
    (∀ text name indices, splitBrackets text = some (name, indices) ↔ Segment text name indices) ∧
    (∀ text, splitBrackets text = none ↔ ∀ name indices, ¬ Segment text name indices) ∧
    ∀ name indices, '[' ∉ name.toList → (∀ i ∈ indices, i < indexLimit) →
      splitBrackets (spell name indices).toList = some (name, indices) := by
  have hsplit : ∀ text name indices, splitBrackets text = some (name, indices) ↔ Segment text name indices := by
    intro text name indices
    constructor
    · intro h
      obtain ⟨more, hread, heq⟩ := Option.bind_eq_some_iff.mp h
      cases heq
      refine ⟨?_, text.dropWhile (· ≠ '['), ?_, readIndices_eq_some_iff.mp hread⟩
      · rw [String.toList_ofList]
        exact fun hmem => absurd (List.all_eq_true.mp List.all_takeWhile '[' hmem) (by decide)
      · rw [String.toList_ofList, List.takeWhile_append_dropWhile]
    · rintro ⟨hname, groups, rfl, hgroups⟩
      rw [splitBrackets_append hname hgroups.head, readIndices_eq_some_iff.mpr hgroups]
      rfl
  refine ⟨hsplit, fun text => ?_, fun name indices => splitBrackets_spell⟩
  simp only [Option.eq_none_iff_forall_ne_some, Prod.forall, ne_eq, hsplit]

example : ["a[1", "a[1]b", "a[[1]]", "a[]", "a[+]", "a[1 2]", "a[18446744073709551616]"].all
    (splitBrackets ·.toList = none) := by decide +kernel

end FormatFuzz.Path
