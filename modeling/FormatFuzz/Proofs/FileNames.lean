-- SUMMARY: The files of trials have names of their own, and a file of a new name is one more in a directory.
import FormatFuzz.Fuzz.Directory
import FormatFuzz.Proofs.Spelling

/-!
# File names

The file of a trial has the number of the trial in its name, filled up with zeros, so that no two numbers
share a name (`FileNames.ofTrial_inj`) and none has that of the index (`FileNames.ofTrial_ne_indexName`).
A name without a slash is a path that stays in the directory, where a new name adds a file and leaves the
others alone (`Directory.write_of_notMem`).
-/

namespace FormatFuzz

-- ---------------------------------------------------------------------------
-- Padded numbers
-- ---------------------------------------------------------------------------

theorem ofDigitChars_replicate_zero (k : Nat) : Nat.ofDigitChars 10 (List.replicate k '0') 0 = 0 := by
  induction k with
  | zero => rfl
  | succ k ih => rwa [List.replicate_succ, Nat.ofDigitChars_cons]

/-- Zeros in front do not count. -/
theorem ofDigitChars_leftpad (width n : Nat) :
    Nat.ofDigitChars 10 ((Path.decimal n).leftpad width '0') 0 = n := by
  rw [List.leftpad, Nat.ofDigitChars_append, ofDigitChars_replicate_zero, Path.decimal_eq,
    Nat.ofDigitChars_ten_toDigits]

theorem isDigit_of_mem_leftpad {width n : Nat} {c : Char}
    (hc : c ∈ (Path.decimal n).leftpad width '0') : c.isDigit = true := by
  rcases List.mem_append.mp hc with hzero | hdigit
  · rw [List.eq_of_mem_replicate hzero]
    rfl
  · exact Path.isDigit_of_mem_decimal hdigit

namespace FileNames

variable {names : FileNames} {m n : UInt64}

theorem toList_ofTrial (names : FileNames) (n : UInt64) :
    (names.ofTrial n).toList = names.stem.toList ++ ((Path.decimal n.toNat).leftpad digits '0' ++
      if names.extension.isEmpty then [] else '.' :: names.extension.toList) := by
  unfold ofTrial Path.decimal
  split <;> simp

theorem ofTrial_inj (h : names.ofTrial m = names.ofTrial n) : m = n := by
  have hlists := congrArg String.toList h
  rw [toList_ofTrial, toList_ofTrial] at hlists
  have hpadded := List.append_cancel_right (List.append_cancel_left hlists)
  apply UInt64.toNat_inj.mp
  rw [← ofDigitChars_leftpad digits m.toNat, hpadded, ofDigitChars_leftpad]

/-- There is a digit in the name of every trial's file, and none in that of the index. -/
theorem ofTrial_ne_indexName (names : FileNames) (n : UInt64) :
    names.ofTrial n ≠ DirectoryState.indexName := by
  intro h
  obtain ⟨c, hc⟩ : ∃ c, c ∈ (Path.decimal n.toNat).leftpad digits '0' := by
    apply List.exists_mem_of_length_pos
    rw [List.length_leftpad]
    exact Nat.lt_of_lt_of_le (by decide) (Nat.le_max_left digits _)
  have hmem : c ∈ DirectoryState.indexName.toList := by
    rw [← h, toList_ofTrial]
    exact List.mem_append_right _ (List.mem_append_left _ hc)
  have hnone : ∀ c ∈ DirectoryState.indexName.toList, c.isDigit = false := by
    simp [DirectoryState.indexName]
  exact Bool.false_ne_true ((hnone c hmem).symm.trans (isDigit_of_mem_leftpad hc))

end FileNames

-- ---------------------------------------------------------------------------
-- Files
-- ---------------------------------------------------------------------------

namespace Directory

variable {d : Directory} {name : String} {b : Bytes}

theorem put_of_notMem (h : name ∉ d.map Prod.fst) : d.put name b = d ++ [(name, .file b)] := by
  induction d with
  | nil => rfl
  | cons entry rest ih =>
    rw [List.map_cons, List.mem_cons, not_or] at h
    rw [put, if_neg (Ne.symm h.1), ih h.2]
    rfl

theorem write_of_notMem (hslash : '/' ∉ name.toList) (h : name ∉ d.map Prod.fst) :
    d.write name b =
      if canBePath name && canBeName name then some (d ++ [(name, .file b)]) else none := by
  have hlookup : d.lookup name = none := by
    rw [List.lookup_eq_none_iff]
    intro entry hentry
    have hne : name ≠ entry.1 := fun heq => h (heq ▸ List.mem_map_of_mem hentry)
    exact bne_iff_ne.mpr hne
  unfold write
  rw [List.splitOn_eq_singleton hslash]
  cases hpath : canBePath name <;> cases hname : canBeName name <;>
    simp [hname, hlookup, put_of_notMem h]

end Directory

end FormatFuzz
