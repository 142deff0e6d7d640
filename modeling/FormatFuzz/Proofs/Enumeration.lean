-- SUMMARY: The iterators over subsets and choices go through all of them, each once, in order.
import Mathlib.Data.Nat.Choose.Basic
import Mathlib.Data.List.Forall2
import Mathlib.Data.List.Lex
import FormatFuzz.Fuzz.Choices
import FormatFuzz.Fuzz.Subsets

/-!
# Enumeration

Both iterators of a fuzz run walk a list from one entry to the next. The list is given by recursion
here, in lexicographic order: `Subsets.all` and `Choices.all`. That the iterators walk these lists to
their end (`Subsets.exhausts_ofSize`, `Choices.exhausts_ofLengths`) is put together from walks over their
parts (`Walks.append`). What an iterator that walks a list does when it is called is said once for both
of them (`Iterator.Exhausts.of_walks`).
-/

namespace FormatFuzz

-- ---------------------------------------------------------------------------
-- Walks
-- ---------------------------------------------------------------------------

section

variable {α β : Type} {next : α → Option α} {step : β → Option β}

/-- From each entry `next` leads to the one behind it, and from the last one nowhere. -/
def Walks (next : α → Option α) : List α → Prop
  | [] => True
  | a :: rest => next a = rest.head? ∧ Walks next rest

/-- A walk over images of entries goes on with another walk if the last image leads to its start. -/
theorem Walks.append {f : β → α} {xs : List β} {ys : List α} (hxs : Walks step xs)
    (hmore : ∀ x ∈ xs, ∀ x', step x = some x' → next (f x) = some (f x'))
    (hlast : ∀ x ∈ xs, step x = none → next (f x) = ys.head?) (hys : Walks next ys) :
    Walks next (xs.map f ++ ys) := by
  induction xs with
  | nil => exact hys
  | cons x rest ih =>
    refine ⟨?_, ih hxs.2 (fun y hy => hmore y (List.mem_cons_of_mem _ hy))
      fun y hy => hlast y (List.mem_cons_of_mem _ hy)⟩
    cases rest with
    | nil => exact hlast x List.mem_cons_self hxs.1
    | cons y rest => exact hmore x List.mem_cons_self y hxs.1

end

-- ---------------------------------------------------------------------------
-- Iterators
-- ---------------------------------------------------------------------------

namespace Iterator

variable {σ α : Type} {next : σ → Option (α × σ)}

/-- The calls from a state on answer these entries, one after the other, and then there is none. -/
inductive Exhausts (next : σ → Option (α × σ)) : σ → List α → Prop where
  | done {s : σ} (h : next s = none) : Exhausts next s []
  | entry {s s' : σ} {a : α} {rest : List α} (h : next s = some (a, s')) (hrest : Exhausts next s' rest) :
      Exhausts next s (a :: rest)

/-- An iterator that holds the entry to come, and looks for the one behind it when it is called, goes along
a walk to its end. -/
theorem Exhausts.of_walks {advance : α → Option α} (holding finished : α → σ) {a : α} {rest : List α}
    (hmore : ∀ a b, advance a = some b → next (holding a) = some (a, holding b))
    (hlast : ∀ a, advance a = none → next (holding a) = some (a, finished a))
    (hend : ∀ a, next (finished a) = none) (h : Walks advance (a :: rest)) :
    Exhausts next (holding a) (a :: rest) := by
  induction rest generalizing a with
  | nil => exact .entry (hlast a h.1) (.done (hend a))
  | cons b rest ih => exact .entry (hmore a b h.1) (ih h.2)

end Iterator

-- ---------------------------------------------------------------------------
-- Subsets
-- ---------------------------------------------------------------------------

namespace Subsets

variable {n room k : Nat} {l : List Nat}

/-- The ascending lists of `k` of the last `room` numbers below `n`, in lexicographic order. -/
def all (n : Nat) : (room k : Nat) → List (List Nat)
  | _, 0 => [[]]
  | 0, _ + 1 => []
  | room + 1, k + 1 => (all n room k).map (fun rest => (n - (room + 1)) :: rest) ++ all n room (k + 1)

theorem length_all (n room k : Nat) : (all n room k).length = room.choose k := by
  induction room generalizing k with
  | zero => cases k <;> rfl
  | succ room ih =>
    cases k with
    | zero => rfl
    | succ k =>
      rw [all, List.length_append, List.length_map, ih, ih, Nat.choose_succ_succ]

theorem mem_all (hroom : room ≤ n) :
    l ∈ all n room k ↔ l.length = k ∧ l.Pairwise (· < ·) ∧ ∀ x ∈ l, n - room ≤ x ∧ x < n := by
  induction room generalizing k l with
  | zero =>
    cases k with
    | zero => cases l <;> simp [all]
    | succ k =>
      cases l with
      | nil => simp [all]
      | cons x rest =>
        have hnone : ¬ (n - 0 ≤ x ∧ x < n) := by omega
        simp only [all, List.not_mem_nil, false_iff]
        intro h
        exact hnone (h.2.2 x List.mem_cons_self)
  | succ room ih =>
    have ih := fun k l => ih (k := k) (l := l) (by omega)
    cases k with
    | zero =>
      cases l <;> simp [all]
    | succ k =>
      rw [all, List.mem_append, List.mem_map, ih]
      constructor
      · rintro (⟨rest, hrest, rfl⟩ | ⟨hlength, hsorted, hbound⟩)
        · obtain ⟨hlength, hsorted, hbound⟩ := (ih k rest).mp hrest
          refine ⟨congrArg Nat.succ hlength, List.pairwise_cons.mpr ⟨fun y hy => ?_, hsorted⟩, ?_⟩
          · have hle := hbound y hy
            omega
          · intro x hx
            rcases List.mem_cons.mp hx with rfl | hx
            · omega
            · have hx := hbound x hx
              omega
        · refine ⟨hlength, hsorted, fun x hx => ?_⟩
          have hx := hbound x hx
          omega
      · rintro ⟨hlength, hsorted, hbound⟩
        cases l with
        | nil => cases hlength
        | cons x rest =>
          obtain ⟨hhead, htail⟩ := List.pairwise_cons.mp hsorted
          have hx := hbound x List.mem_cons_self
          by_cases hfirst : x = n - (room + 1)
          · refine .inl ⟨rest, (ih k rest).mpr ⟨Nat.succ.inj hlength, htail, fun y hy => ?_⟩, ?_⟩
            · have hxy := hhead y hy
              have hy := hbound y (List.mem_cons_of_mem _ hy)
              omega
            · rw [hfirst]
          · refine .inr ⟨hlength, hsorted, fun y hy => ?_⟩
            have hle : x ≤ y := by
              rcases List.mem_cons.mp hy with rfl | hy
              · exact Nat.le_refl _
              · exact (hhead y hy).le
            have hy := hbound y hy
            omega

/-- They come in lexicographic order, so that none comes twice. -/
theorem all_pairwise (hroom : room ≤ n) : (all n room k).Pairwise (· < ·) := by
  induction room generalizing k with
  | zero => cases k <;> simp [all]
  | succ room ih =>
    cases k with
    | zero => simp [all]
    | succ k =>
      have ih := fun k => ih (k := k) (by omega)
      refine List.pairwise_append.mpr ⟨?_, ih (k + 1), fun l hl l' hl' => ?_⟩
      · refine List.pairwise_map.mpr ((ih k).imp fun h => ?_)
        exact List.cons_lt_cons_iff.mpr (.inr ⟨rfl, h⟩)
      · obtain ⟨rest, -, rfl⟩ := List.mem_map.mp hl
        obtain ⟨hlength, -, hbound⟩ := (mem_all (by omega)).mp hl'
        cases l' with
        | nil => cases hlength
        | cons x rest' =>
          have hx := hbound x List.mem_cons_self
          exact List.cons_lt_cons_iff.mpr (.inl (by omega))

theorem head?_all (hroom : room ≤ n) (hk : k ≤ room) :
    (all n room k).head? = some (ascending (n - room) k) := by
  induction room generalizing k with
  | zero =>
    cases Nat.le_zero.mp hk
    rfl
  | succ room ih =>
    cases k with
    | zero => rfl
    | succ k =>
      have hstart : n - room = n - (room + 1) + 1 := by omega
      rw [all, List.head?_append, List.head?_map, ih (by omega) (Nat.le_of_succ_le_succ hk), hstart]
      rfl

/-- Advancing leads through all of them. -/
theorem walks_all (hroom : room ≤ n) : Walks (advance n) (all n room k) := by
  induction room generalizing k with
  | zero =>
    cases k with
    | zero => exact ⟨rfl, trivial⟩
    | succ k => trivial
  | succ room ih =>
    cases k with
    | zero => exact ⟨rfl, trivial⟩
    | succ k =>
      have ih := fun k => ih (k := k) (by omega)
      refine Walks.append (ih k) (fun l _ l' hl' => ?_) (fun l hl hnone => ?_) (ih (k + 1))
      · rw [advance, hl']
      · rw [advance, hnone, ((mem_all (by omega)).mp hl).1]
        dsimp only
        by_cases hk : k + 1 ≤ room
        · have hstart : n - (room + 1) + 1 = n - room := by omega
          rw [if_pos (by omega), head?_all (by omega) hk, hstart]
        · have hnil : all n room (k + 1) = [] := by
            rw [← List.length_eq_zero_iff, length_all, Nat.choose_eq_zero_iff]
            omega
          rw [if_neg (by omega), hnil]
          rfl

theorem total_eq_choose (n k : Nat) : total n k = n.choose k := by
  unfold total
  induction k with
  | zero => exact (Nat.choose_zero_right n).symm
  | succ k ih =>
    rw [List.range_succ, List.foldl_append, ih, List.foldl_cons, List.foldl_nil,
      ← Nat.choose_succ_right_eq]
    exact Nat.mul_div_cancel _ (Nat.succ_pos k)

/-- The iterator goes through all subsets. -/
theorem exhausts_ofSize (n k : Nat) : Iterator.Exhausts next? (ofSize n k) (all n n k) := by
  unfold ofSize
  split
  · rename_i hk
    have hhead := head?_all (Nat.le_refl n) hk
    rw [Nat.sub_self] at hhead
    obtain ⟨rest, hrest⟩ := List.head?_eq_some_iff.mp hhead
    rw [hrest]
    refine .of_walks (fun l => (⟨n, l, false⟩ : Subsets)) (fun l => ⟨n, l, true⟩) (fun l l' h => ?_) (fun l h => ?_)
      (fun _ => rfl) (hrest ▸ walks_all (Nat.le_refl n))
    · simp [next?, h]
    · simp [next?, h]
  · have hnil : all n n k = [] := by
      rw [← List.length_eq_zero_iff, length_all, Nat.choose_eq_zero_iff]
      omega
    rw [hnil]
    exact .done rfl

theorem take_of_exhausts {c : Subsets} {entries : List (List Nat)} (h : Iterator.Exhausts next? c entries) :
    take entries.length c = entries := by
  induction h with
  | done _ => rfl
  | entry hnext _ ih => simp [take, hnext, ih]

theorem take_ofSize (n k : Nat) : (ofSize n k).take (total n k) = all n n k := by
  rw [total_eq_choose, ← length_all]
  exact take_of_exhausts (exhausts_ofSize n k)

end Subsets

-- ---------------------------------------------------------------------------
-- Choices
-- ---------------------------------------------------------------------------

namespace Choices

variable {length : Nat} {lengths choice : List Nat}

/-- All lists with a number below each of the lengths, in lexicographic order. -/
def all : (lengths : List Nat) → List (List Nat)
  | [] => [[]]
  | length :: lengths =>
    (List.range length).flatMap fun place => (all lengths).map fun places => place :: places

theorem mem_all : choice ∈ all lengths ↔ List.Forall₂ (· < ·) choice lengths := by
  induction lengths generalizing choice with
  | nil => rw [all, List.mem_singleton, List.forall₂_nil_right_iff]
  | cons length lengths ih =>
    rw [all, List.mem_flatMap]
    constructor
    · rintro ⟨place, hplace, hchoice⟩
      obtain ⟨places, hplaces, rfl⟩ := List.mem_map.mp hchoice
      exact .cons (List.mem_range.mp hplace) (ih.mp hplaces)
    · intro h
      cases h with
      | cons hplace hplaces =>
        exact ⟨_, List.mem_range.mpr hplace, List.mem_map.mpr ⟨_, ih.mpr hplaces, rfl⟩⟩

/-- They come in lexicographic order, so that none comes twice. -/
theorem all_pairwise (lengths : List Nat) : (all lengths).Pairwise (· < ·) := by
  induction lengths with
  | nil => simp [all]
  | cons length lengths ih =>
    refine List.pairwise_flatMap.mpr ⟨fun place _ => ?_, ?_⟩
    · refine List.pairwise_map.mpr (ih.imp fun h => ?_)
      exact List.cons_lt_cons_iff.mpr (.inr ⟨rfl, h⟩)
    · refine List.pairwise_lt_range.imp fun hlt l hl l' hl' => ?_
      obtain ⟨places, -, rfl⟩ := List.mem_map.mp hl
      obtain ⟨places', -, rfl⟩ := List.mem_map.mp hl'
      exact List.cons_lt_cons_iff.mpr (.inl hlt)

theorem length_all (lengths : List Nat) : (all lengths).length = lengths.foldl (· * ·) 1 := by
  have hprod : (all lengths).length = lengths.prod := by
    induction lengths with
    | nil => rfl
    | cons length lengths ih =>
      rw [all, List.length_flatMap, List.prod_cons]
      simp [ih]
  rw [hprod, List.prod_eq_foldl]

/-- Where there is a choice, there is room in every place. -/
theorem zero_not_mem (h : choice ∈ all lengths) : 0 ∉ lengths := by
  have hforall := mem_all.mp h
  clear h
  induction hforall with
  | nil => exact List.not_mem_nil
  | cons hplace _ ih =>
    rw [List.mem_cons, not_or]
    exact ⟨Nat.ne_of_lt (Nat.zero_lt_of_lt hplace), ih⟩

theorem head?_all (h : 0 ∉ lengths) : (all lengths).head? = some (lengths.map fun _ => 0) := by
  induction lengths with
  | nil => rfl
  | cons length lengths ih =>
    rw [List.mem_cons, not_or] at h
    obtain ⟨m, rfl⟩ := Nat.exists_eq_succ_of_ne_zero (Ne.symm h.1)
    rw [all, List.range_succ_eq_map, List.flatMap_cons, List.head?_append, List.head?_map, ih h.2]
    rfl

/-- Turning leads through all of them. -/
theorem walks_all (lengths : List Nat) : Walks (turn lengths) (all lengths) := by
  induction lengths with
  | nil => exact ⟨rfl, trivial⟩
  | cons length lengths ih =>
    have hplaces : ∀ start room, start + room = length → Walks (turn (length :: lengths))
        ((List.range' start room).flatMap fun place => (all lengths).map fun places => place :: places) := by
      intro start room
      induction room generalizing start with
      | zero => exact fun _ => trivial
      | succ room ihroom =>
        intro hlength
        refine Walks.append ih (fun places _ places' h => ?_) (fun places hmem hnone => ?_)
          (ihroom (start + 1) (by omega))
        · rw [turn, h]
        · have hzeros : (places.map fun _ => 0) = lengths.map fun _ => 0 := by
            rw [List.map_const', List.map_const', (mem_all.mp hmem).length_eq]
          rw [turn, hnone]
          cases room with
          | zero => exact if_neg (by omega)
          | succ room =>
            rw [List.range'_succ, List.map_cons, List.flatten_cons, List.head?_append, List.head?_map,
              head?_all (zero_not_mem hmem), ← hzeros]
            exact if_pos (by omega)
    rw [all, List.range_eq_range']
    exact hplaces 0 length (Nat.zero_add length)

/-- The iterator goes through all choices. -/
theorem exhausts_ofLengths (lengths : List Nat) : Iterator.Exhausts next? (ofLengths lengths) (all lengths) := by
  unfold ofLengths
  cases hzero : lengths.contains 0 with
  | false =>
    have hroom : 0 ∉ lengths := by simpa using hzero
    obtain ⟨rest, hrest⟩ := List.head?_eq_some_iff.mp (head?_all hroom)
    rw [hrest]
    refine .of_walks (fun l => (⟨lengths, l, false⟩ : Choices)) (fun l => ⟨lengths, l, true⟩) (fun l l' h => ?_)
      (fun l h => ?_) (fun _ => rfl) (hrest ▸ walks_all lengths)
    · simp [next?, h]
    · simp [next?, h]
  | true =>
    have hmem : 0 ∈ lengths := by simpa using hzero
    have hnil : all lengths = [] :=
      List.eq_nil_iff_forall_not_mem.mpr fun _ hchoice => zero_not_mem hchoice hmem
    rw [hnil]
    exact .done rfl

theorem take_of_exhausts {p : Choices} {entries : List (List Nat)} (h : Iterator.Exhausts next? p entries) :
    take entries.length p = entries := by
  induction h with
  | done _ => rfl
  | entry hnext _ ih => simp [take, hnext, ih]

theorem take_ofLengths (lengths : List Nat) :
    (ofLengths lengths).take (lengths.foldl (· * ·) 1) = all lengths := by
  rw [← length_all]
  exact take_of_exhausts (exhausts_ofLengths lengths)

end Choices

end FormatFuzz
