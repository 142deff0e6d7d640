-- SUMMARY: Steps that are written down as a path are read back from it.
import FormatFuzz.Proofs.Wp
import FormatFuzz.Tree.Path

/-!
# Spelling

A step down to a field, and on to elements by their indices, is written as the name of the field with each
index in brackets behind it (`Path.spell`). A path that is written step by step in this way is read back as
these steps (`Path.parse_spelled`), as long as no name has a character in it that means something in a path.
-/

namespace FormatFuzz.Path

variable {i : Nat} {indices : List Nat} {name : String}

-- ---------------------------------------------------------------------------
-- Indices
-- ---------------------------------------------------------------------------

/-- The decimal digits of an index. -/
def decimal (i : Nat) : List Char := (toString i).toList

theorem decimal_eq (i : Nat) : decimal i = Nat.toDigits 10 i := by
  rw [decimal, Nat.toString_eq_repr, Nat.toList_repr]

theorem decimal_ne_nil (i : Nat) : decimal i ≠ [] := decimal_eq i ▸ Nat.toDigits_ne_nil

theorem isDigit_of_mem_decimal {c : Char} (hc : c ∈ decimal i) : c.isDigit = true := by
  rw [decimal_eq] at hc
  exact Nat.isDigit_of_mem_toDigits (by decide) (by decide) hc

theorem digit?_of_isDigit {c : Char} (hc : c.isDigit = true) : digit? c = some (c.toNat - '0'.toNat) := by
  rw [Char.isDigit, Bool.and_eq_true, decide_eq_true_iff, decide_eq_true_iff] at hc
  exact if_pos hc

theorem readDigits_eq {word : List Char} (h : ∀ c ∈ word, c.isDigit = true) (n : Nat) :
    readDigits n word = some (Nat.ofDigitChars 10 word n) := by
  induction word generalizing n with
  | nil => rfl
  | cons c rest ih =>
    rw [readDigits, digit?_of_isDigit (h c List.mem_cons_self), Nat.ofDigitChars_cons]
    exact ih (fun d hd => h d (List.mem_cons_of_mem _ hd)) _

theorem readIndex_decimal (hi : i < indexLimit) : readIndex (decimal i) = some i := by
  have hdigits : ∀ c ∈ decimal i, c.isDigit = true := fun c => isDigit_of_mem_decimal
  have hread : readDigits 0 (decimal i) = some i := by
    rw [readDigits_eq hdigits, decimal_eq, Nat.ofDigitChars_ten_toDigits]
  unfold readIndex
  split
  · rename_i rest hplus
    have hplus := hdigits '+' (hplus ▸ List.mem_cons_self)
    exact absurd hplus (by decide)
  · simp [decimal_ne_nil, hread, hi]

theorem isBlank_of_isDigit {c : Char} (hc : c.isDigit = true) : Text.isBlank c = false := by
  have hbounds : 48 ≤ c.toNat ∧ c.toNat ≤ 57 := by
    rw [Char.isDigit, Bool.and_eq_true, decide_eq_true_iff, decide_eq_true_iff] at hc
    exact hc
  unfold Text.isBlank
  simp
  omega

theorem dropWhile_blanks {before rest : List Char} (hbefore : ∀ c ∈ before, Text.isBlank c = true)
    (hrest : ∀ c ∈ rest.head?, Text.isBlank c = false) : (before ++ rest).dropWhile Text.isBlank = rest := by
  rw [List.dropWhile_append_of_pos hbefore]
  cases rest with
  | nil => rfl
  | cons c rest => exact List.dropWhile_cons_of_neg (by simp [hrest c rfl])

/-- Blanks around a word that has none are trimmed, and nothing else. -/
theorem trim_surrounded {before word after : List Char} (hbefore : ∀ c ∈ before, Text.isBlank c = true)
    (hafter : ∀ c ∈ after, Text.isBlank c = true) (hne : word ≠ []) (hword : ∀ c ∈ word, Text.isBlank c = false) :
    Text.trim (before ++ word ++ after) = word := by
  have hfront : (before ++ (word ++ after)).dropWhile Text.isBlank = word ++ after := by
    obtain ⟨c, rest, rfl⟩ := List.exists_cons_of_ne_nil hne
    exact dropWhile_blanks hbefore (by simpa using hword c List.mem_cons_self)
  have hback : (after.reverse ++ word.reverse).dropWhile Text.isBlank = word.reverse := by
    refine dropWhile_blanks (by simpa using hafter) fun c hc => hword c ?_
    exact List.mem_reverse.mp (List.mem_of_mem_head? hc)
  rw [Text.trim, List.append_assoc, hfront, List.reverse_append, hback, List.reverse_reverse]

/-- Digits are not trimmed. -/
theorem trim_decimal (i : Nat) : Text.trim (decimal i) = decimal i := by
  have hblank : ∀ c ∈ ([] : List Char), Text.isBlank c = true := by simp
  have htrim := trim_surrounded hblank hblank (decimal_ne_nil i)
    fun c hc => isBlank_of_isDigit (isDigit_of_mem_decimal hc)
  simpa using htrim

/-- Indices as they are written behind a name. -/
def bracketed (indices : List Nat) : List Char := indices.flatMap fun i => '[' :: decimal i ++ [']']

theorem readIndices_word {rest : List Char} (digits word : List Char) (h : ']' ∉ digits) :
    readIndices (some word) (digits ++ ']' :: rest) = do
      let index ← readIndex (Text.trim (word.reverse ++ digits))
      return index :: (← readIndices none rest) := by
  induction digits generalizing word with
  | nil => simp [readIndices]
  | cons c digits ih =>
    rw [List.mem_cons, not_or] at h
    rw [List.cons_append, readIndices, if_neg (Ne.symm h.1), ih (c :: word) h.2]
    simp

theorem readIndices_bracketed (h : ∀ i ∈ indices, i < indexLimit) :
    readIndices none (bracketed indices) = some indices := by
  induction indices with
  | nil => rfl
  | cons i rest ih =>
    have hclosed : ']' ∉ decimal i := fun hmem => absurd (isDigit_of_mem_decimal hmem) (by decide)
    have hrest := ih fun j hj => h j (List.mem_cons_of_mem _ hj)
    have hsplit : bracketed (i :: rest) = '[' :: (decimal i ++ ']' :: bracketed rest) := by
      simp [bracketed]
    rw [hsplit, readIndices, if_pos rfl, readIndices_word _ _ hclosed, List.reverse_nil, List.nil_append,
      trim_decimal, readIndex_decimal (h i List.mem_cons_self), hrest]
    rfl

-- ---------------------------------------------------------------------------
-- Steps
-- ---------------------------------------------------------------------------

/-- A field and the indices of elements behind it, as they are written. -/
def spell (name : String) (indices : List Nat) : String :=
  indices.foldl (fun text i => s!"{text}[{i}]") name

theorem toList_spell (name : String) (indices : List Nat) :
    (spell name indices).toList = name.toList ++ bracketed indices := by
  induction indices generalizing name with
  | nil => simp [spell, bracketed]
  | cons i rest ih =>
    have hname : (s!"{name}[{i}]").toList = name.toList ++ ('[' :: decimal i ++ [']']) := by
      change (name ++ "[" ++ toString i ++ "]").toList = _
      simp [decimal]
    rw [spell, List.foldl_cons]
    change (spell _ rest).toList = _
    rw [ih, hname, List.append_assoc]
    rfl

/-- The name ends where the first bracket opens. -/
theorem splitBrackets_append {name : String} {groups : List Char} (hname : '[' ∉ name.toList)
    (hgroups : ∀ c ∈ groups.head?, c = '[') :
    splitBrackets (name.toList ++ groups) = (readIndices none groups).map (name, ·) := by
  have hopen : ∀ c ∈ name.toList, decide (c ≠ '[') = true := fun c hc =>
    decide_eq_true fun h => hname (h ▸ hc)
  have hfront : (name.toList ++ groups).takeWhile (· ≠ '[') = name.toList := by
    rw [List.takeWhile_append_of_pos hopen]
    cases groups with
    | nil => simp
    | cons c rest => simp [hgroups c rfl]
  have hback : (name.toList ++ groups).dropWhile (· ≠ '[') = groups := by
    rw [List.dropWhile_append_of_pos hopen]
    cases groups with
    | nil => rfl
    | cons c rest => simp [hgroups c rfl]
  rw [splitBrackets, hfront, hback, String.ofList_toList]
  cases readIndices none groups <;> rfl

/-- A name and indices that are written one behind the other are split again. -/
theorem splitBrackets_spell {name : String} {indices : List Nat} (hname : '[' ∉ name.toList)
    (hindices : ∀ i ∈ indices, i < indexLimit) : splitBrackets (spell name indices).toList = some (name, indices) := by
  have hgroups : ∀ c ∈ (bracketed indices).head?, c = '[' := by
    cases indices <;> simp [bracketed]
  rw [toList_spell, splitBrackets_append hname hgroups, readIndices_bracketed hindices]
  rfl

/-- The name is not empty, and nothing in it means anything in a path. -/
structure Legible (name : String) : Prop where
  ne_empty : name ≠ ""
  ne_climb : name ≠ "^"
  plain : ∀ c ∈ name.toList, c ∉ ['.', '[', ']', '/']

instance : Decidable (Legible name) :=
  have : Decidable (∀ c ∈ name.toList, c ∉ ['.', '[', ']', '/']) := List.decidableBAll _ _
  decidable_of_iff (name ≠ "" ∧ name ≠ "^" ∧ ∀ c ∈ name.toList, c ∉ ['.', '[', ']', '/'])
    ⟨fun ⟨hempty, hclimb, hplain⟩ => ⟨hempty, hclimb, hplain⟩,
      fun h => ⟨h.ne_empty, h.ne_climb, h.plain⟩⟩

theorem Legible.ne_nil (h : Legible name) : name.toList ≠ [] := fun hnil =>
  h.ne_empty (String.toList_inj.mp hnil)

theorem readStep_spell (hname : Legible name) (hindices : ∀ i ∈ indices, i < indexLimit) :
    readStep (spell name indices).toList = .descend name indices := by
  have hopen : '[' ∉ name.toList := fun hmem => hname.plain '[' hmem (by simp)
  have hclimb : (spell name indices).toList ≠ ['^'] := by
    rw [toList_spell]
    cases indices with
    | nil =>
      rw [bracketed, List.flatMap_nil, List.append_nil]
      exact fun h => hname.ne_climb (String.toList_inj.mp h)
    | cons i rest =>
      intro h
      have hmem : '[' ∈ name.toList ++ bracketed (i :: rest) := by simp [bracketed]
      rw [h] at hmem
      exact absurd hmem (by decide)
  rw [readStep, if_neg hclimb, splitBrackets_spell hopen hindices]

-- ---------------------------------------------------------------------------
-- Paths
-- ---------------------------------------------------------------------------

theorem splitDots_eq (text : List Char) : splitDots text = text.splitOn '.' := by
  induction text with
  | nil => rfl
  | cons c rest ih =>
    obtain ⟨piece, pieces, hrest⟩ := List.exists_cons_of_ne_nil (List.splitOnP_ne_nil (· == '.') rest)
    rw [splitDots, ih, List.splitOn, List.splitOn, List.splitOnP_cons_eq_if_modifyHead, hrest]
    by_cases hc : c = '.' <;> simp [hc]

theorem dot_notMem_spell (hname : Legible name) (indices : List Nat) :
    '.' ∉ (spell name indices).toList := by
  rw [toList_spell, List.mem_append, not_or]
  refine ⟨fun hmem => hname.plain '.' hmem (by simp), fun hmem => ?_⟩
  obtain ⟨i, -, hmem⟩ := List.mem_flatMap.mp hmem
  rw [List.cons_append, List.mem_cons, List.mem_append, List.mem_singleton] at hmem
  rcases hmem with hopen | hdigit | hclose
  · exact absurd hopen (by decide)
  · exact absurd (isDigit_of_mem_decimal hdigit) (by decide)
  · exact absurd hclose (by decide)

variable {steps : List (String × List Nat)}

theorem readSteps_spelled (h : ∀ s ∈ steps, Legible s.1 ∧ ∀ i ∈ s.2, i < indexLimit) :
    readSteps (".".intercalate (steps.map fun s => spell s.1 s.2)).toList =
      steps.map fun s => .descend s.1 s.2 := by
  cases steps with
  | nil => rfl
  | cons first rest =>
    let pieces : List (List Char) := (first :: rest).map fun s => (spell s.1 s.2).toList
    have hpiece : ∀ piece ∈ pieces, ∃ s ∈ first :: rest, (spell s.1 s.2).toList = piece := fun piece =>
      List.mem_map.mp
    have hsplit : splitDots (".".intercalate ((first :: rest).map fun s => spell s.1 s.2)).toList = pieces := by
      rw [splitDots_eq, String.toList_intercalate, List.map_map]
      refine List.splitOn_intercalate '.' (fun piece hmem => ?_) (List.cons_ne_nil _ _)
      obtain ⟨s, hs, rfl⟩ := hpiece piece hmem
      exact dot_notMem_spell (h s hs).1 s.2
    have hfilled : pieces.filter (fun piece => !piece.isEmpty) = pieces := by
      refine List.filter_eq_self.mpr fun piece hmem => ?_
      obtain ⟨s, hs, rfl⟩ := hpiece piece hmem
      simp [toList_spell, (h s hs).1.ne_nil]
    rw [readSteps, hsplit, hfilled, List.map_map]
    exact List.map_congr_left fun s hs => readStep_spell (h s hs).1 (h s hs).2

/-- Steps that are written as a path are read back from it, if they are legible. -/
theorem parse_spelled (h : ∀ s ∈ steps, Legible s.1 ∧ ∀ i ∈ s.2, i < indexLimit) :
    parse (".".intercalate (steps.map fun s => spell s.1 s.2)) =
      ⟨false, steps.map fun s => .descend s.1 s.2⟩ := by
  have hread := readSteps_spelled h
  have hslash : ∀ rest, (".".intercalate (steps.map fun s => spell s.1 s.2)).toList ≠ '/' :: rest := by
    intro rest htext
    cases steps with
    | nil => cases htext
    | cons first more =>
      have hfirst := (h first List.mem_cons_self).1
      obtain ⟨c, name, hname⟩ := List.exists_cons_of_ne_nil hfirst.ne_nil
      have hc : c ≠ '/' := fun hc => hfirst.plain c (by simp [hname]) (by simp [hc])
      rw [String.toList_intercalate, List.map_cons, List.map_cons, toList_spell, hname] at htext
      cases more <;> exact hc (List.cons.inj htext).1
  unfold parse
  split
  · rename_i rest htext
    exact absurd htext (hslash rest)
  · rw [hread]

end FormatFuzz.Path
