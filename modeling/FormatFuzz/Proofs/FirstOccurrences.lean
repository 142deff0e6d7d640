-- SUMMARY: What is left of a list when every value stays where it first occurs.
import Mathlib.Data.List.Basic
import Mathlib.Data.List.Induction
import Mathlib.Data.List.Pairwise

/-!
# First occurrences

Removing duplicates keeps the first occurrence of each value. No value is left twice, and what is left
stands in the order in which it first occurred.
-/

namespace FormatFuzz

section

variable {α : Type} [BEq α] [LawfulBEq α]

/-- One more value at the end stays if it is a new one. -/
theorem eraseDups_concat (xs : List α) (x : α) :
    (xs ++ [x]).eraseDups = if x ∈ xs then xs.eraseDups else xs.eraseDups ++ [x] := by
  rw [List.eraseDups_append]
  split
  · next hx =>
    have hnone : [x].removeAll xs = [] := by simp [List.removeAll, hx]
    rw [hnone, List.eraseDups_nil, List.append_nil]
  · next hx =>
    have hone : [x].removeAll xs = [x] := by simp [List.removeAll, hx]
    rw [hone, List.eraseDups_cons, List.filter_nil, List.eraseDups_nil]

/-- What is left stands in the order in which it first occurred. -/
theorem eraseDups_pairwise (xs : List α) :
    xs.eraseDups.Pairwise fun v w => xs.idxOf v < xs.idxOf w := by
  induction xs using List.reverseRecOn with
  | nil => exact List.Pairwise.nil
  | append_singleton xs u ih =>
    have hfront : xs.eraseDups.Pairwise fun v w => (xs ++ [u]).idxOf v < (xs ++ [u]).idxOf w := by
      refine ih.imp_of_mem fun {v w} hv hw h => ?_
      rwa [List.idxOf_append_of_mem (List.mem_eraseDups.mp hv),
        List.idxOf_append_of_mem (List.mem_eraseDups.mp hw)]
    rw [eraseDups_concat]
    split
    · exact hfront
    · next hu =>
      refine List.pairwise_append.mpr ⟨hfront, List.pairwise_singleton _ _, fun v hv w hw => ?_⟩
      cases List.mem_singleton.mp hw
      rw [List.idxOf_append_of_mem (List.mem_eraseDups.mp hv), List.idxOf_append_of_notMem hu]
      exact Nat.lt_add_right _ (List.idxOf_lt_length_iff.mpr (List.mem_eraseDups.mp hv))

theorem nodup_eraseDups (xs : List α) : xs.eraseDups.Nodup := by
  refine (eraseDups_pairwise xs).imp fun {v w} h => ?_
  rintro rfl
  exact Nat.lt_irrefl _ h

/-- A value that is repeated at the end counts once. -/
theorem eraseDups_append_replicate (xs : List α) (x : α) (n : Nat) :
    (xs ++ List.replicate (n + 1) x).eraseDups = (xs ++ [x]).eraseDups := by
  induction n with
  | zero => rfl
  | succ n ih =>
    have hmem : x ∈ xs ++ List.replicate (n + 1) x :=
      List.mem_append_right _ (List.mem_replicate.mpr ⟨Nat.succ_ne_zero n, rfl⟩)
    rw [List.replicate_succ', ← List.append_assoc, eraseDups_concat, if_pos hmem, ih]

/-- Different values are left if each of them is repeated in its place. -/
theorem eraseDups_flatMap_replicate {xs : List α} (hnodup : xs.Nodup) {times : α → Nat}
    (htimes : ∀ x ∈ xs, 0 < times x) : (xs.flatMap fun x => List.replicate (times x) x).eraseDups = xs := by
  induction xs using List.reverseRecOn with
  | nil => rfl
  | append_singleton xs x ih =>
    have hfront := ih (hnodup.sublist (List.sublist_append_left xs [x]))
      fun y hy => htimes y (List.mem_append_left _ hy)
    obtain ⟨n, hn⟩ := Nat.exists_eq_succ_of_ne_zero
      (Nat.ne_of_gt (htimes x (List.mem_append_right _ List.mem_cons_self)))
    have hnew : x ∉ xs.flatMap fun x => List.replicate (times x) x := by
      rw [← List.mem_eraseDups, hfront]
      exact fun hx => (List.nodup_append.mp hnodup).2.2 x hx x List.mem_cons_self rfl
    rw [List.flatMap_append, List.flatMap_singleton, hn, eraseDups_append_replicate, eraseDups_concat,
      if_neg hnew, hfront]

end

end FormatFuzz
