-- SUMMARY: The iterators over subsets and choices answer each entry once, in order, and then nothing any more.
import Mathlib.Algebra.BigOperators.Group.List.Basic
import FormatFuzz.Proofs.Enumeration
import FormatFuzz.Proofs.Successors

/-!
# Exhaustion

An iterator is called again and again, also after it has answered that nothing is left. Its answers are told
call by call (`Iterator.answer`). Those of the iterator over subsets are all ascending lists in their order
(`Subsets.calls_enumerate`), and each call can be made by positions that never go astray. Those of the iterator
over choices count up from zero, in the mixed radix that the lengths are (`Choices.calls_count_up`).
-/

namespace FormatFuzz

-- ---------------------------------------------------------------------------
-- Calls
-- ---------------------------------------------------------------------------

namespace Iterator

variable {σ α : Type} {next : σ → Option (α × σ)} {s : σ} {entries : List α}

/-- A call, with the state that it leaves. One that has nothing to answer leaves the state as it is. -/
def call (next : σ → Option (α × σ)) (s : σ) : Option α × σ :=
  match next s with
  | some (a, s') => (some a, s')
  | none => (none, s)

/-- The state after `i` calls. -/
def stateAfter (next : σ → Option (α × σ)) (s : σ) : (i : Nat) → σ
  | 0 => s
  | i + 1 => stateAfter next (call next s).2 i

/-- The answer to the call that comes after `i` others. -/
def answer (next : σ → Option (α × σ)) (s : σ) (i : Nat) : Option α := (call next (stateAfter next s i)).1

theorem call_of_some {a : α} {s' : σ} (h : next s = some (a, s')) : call next s = (some a, s') := by
  simp [call, h]

theorem call_of_none (h : next s = none) : call next s = (none, s) := by
  simp [call, h]

/-- What every call keeps holds after all of them. -/
theorem stateAfter_keeps {P : σ → Prop} (hcall : ∀ s, P s → P (call next s).2) (h : P s) (i : Nat) :
    P (stateAfter next s i) := by
  induction i generalizing s with
  | zero => exact h
  | succ i ih => exact ih (hcall s h)

/-- An iterator that is exhausted by entries answers them, and then nothing for ever. -/
theorem Exhausts.answer_eq (h : Exhausts next s entries) (i : Nat) : answer next s i = entries[i]? := by
  induction h generalizing i with
  | @done s hnone =>
    have hstays : stateAfter next s i = s :=
      stateAfter_keeps (P := (· = s)) (fun s' hs' => by rw [hs', call_of_none hnone]) rfl i
    rw [answer, hstays, call_of_none hnone]
    rfl
  | @entry s s' a rest hsome _ ih =>
    cases i with
    | zero => rw [answer, stateAfter, call_of_some hsome]; rfl
    | succ i =>
      rw [answer, stateAfter, call_of_some hsome, List.getElem?_cons_succ]
      exact ih i

end Iterator

/-- On a walk, each entry leads to the one behind it. -/
theorem Walks.getElem?_succ {α : Type} {next : α → Option α} {entries : List α} (h : Walks next entries) {i : Nat}
    {a : α} (ha : entries[i]? = some a) : next a = entries[i + 1]? := by
  induction entries generalizing i with
  | nil => cases ha
  | cons b rest ih =>
    cases i with
    | zero =>
      cases ha
      rw [h.1, List.head?_eq_getElem?]
      rfl
    | succ i => exact ih h.2 ha

-- ---------------------------------------------------------------------------
-- Subsets
-- ---------------------------------------------------------------------------

namespace Subsets

variable {n k : Nat} {c : Subsets} {l : List Nat}

/-- The iterator is at its end, or an ascending list comes next. -/
def Ready (n k : Nat) (c : Subsets) : Prop := c.done = true ∨ (c.n = n ∧ c.current ∈ all n n k)

theorem call_done (h : c.done = true) : Iterator.call next? c = (none, c) :=
  Iterator.call_of_none (by simp [next?, h])

theorem call_more (h : c.done = false) (hnext : advance c.n c.current = some l) :
    Iterator.call next? c = (some c.current, { c with current := l }) :=
  Iterator.call_of_some (by simp [next?, h, hnext])

theorem call_last (h : c.done = false) (hnext : advance c.n c.current = none) :
    Iterator.call next? c = (some c.current, { c with done := true }) :=
  Iterator.call_of_some (by simp [next?, h, hnext])

theorem Ready.call (h : Ready n k c) : Ready n k (Iterator.call next? c).2 := by
  cases hdone : c.done with
  | true =>
    rw [call_done hdone]
    exact h
  | false =>
    obtain ⟨rfl, hmem⟩ := h.resolve_left (by simp [hdone])
    cases hnext : advance c.n c.current with
    | none =>
      rw [call_last hdone hnext]
      exact .inl rfl
    | some l =>
      obtain ⟨i, hi⟩ := List.mem_iff_getElem?.mp hmem
      have hl : some l = (all c.n c.n k)[i + 1]? := by
        rw [← hnext]
        exact (walks_all (Nat.le_refl c.n)).getElem?_succ hi
      rw [call_more hdone hnext]
      exact .inr ⟨rfl, List.mem_of_getElem? hl.symm⟩

end Subsets

-- ---------------------------------------------------------------------------
-- Choices
-- ---------------------------------------------------------------------------

namespace Choices

variable {lengths choice choice' : List Nat}

/-- The number that a choice stands for in the mixed radix of the lengths: the last place counts ones, and each
place before it as many as there are choices for the places behind. -/
def rank : (lengths choice : List Nat) → Nat
  | _ :: lengths, place :: places => place * lengths.prod + rank lengths places
  | _, _ => 0

theorem rank_zeros (lengths : List Nat) : rank lengths (lengths.map fun _ => 0) = 0 := by
  induction lengths with
  | nil => rfl
  | cons length lengths ih => rw [List.map_cons, rank, ih, Nat.zero_mul]

/-- A turn counts one further, and where none is left the mixed radix ends. -/
theorem rank_turn (h : List.Forall₂ (· < ·) choice lengths) :
    match turn lengths choice with
    | some following => rank lengths following = rank lengths choice + 1
    | none => rank lengths choice + 1 = lengths.prod := by
  induction h with
  | nil => rfl
  | @cons place length places lengths hplace hplaces ih =>
    rw [turn]
    cases hturn : turn lengths places with
    | some following =>
      rw [hturn] at ih
      simp only [rank] at ih ⊢
      omega
    | none =>
      -- The places behind are at their last number, so that one more is a whole round of them.
      rw [hturn] at ih
      have hround : place * lengths.prod + rank lengths places + 1 = (place + 1) * lengths.prod := by
        rw [Nat.add_assoc, ih, Nat.succ_mul]
      have hzeros : rank lengths (places.map fun _ => 0) = 0 := by
        rw [List.map_const', hplaces.length_eq, ← List.map_const']
        exact rank_zeros lengths
      by_cases hroom : place + 1 < length
      · simp only [if_pos hroom, rank, hzeros, hround, Nat.add_zero]
      · have hlast : length = place + 1 := by omega
        simp only [if_neg hroom, rank, List.prod_cons]
        rw [hlast, hround]

/-- The choices in lexicographic order are numbered one after the other. -/
theorem rank_all {i : Nat} (h : (all lengths)[i]? = some choice) : rank lengths choice = i := by
  induction i generalizing choice with
  | zero =>
    have hhead := head?_all (zero_not_mem (List.mem_of_getElem? h))
    rw [List.head?_eq_getElem?, h] at hhead
    cases hhead
    exact rank_zeros lengths
  | succ i ih =>
    obtain ⟨before, hbefore⟩ : ∃ before, (all lengths)[i]? = some before := by
      have hlt := (List.getElem?_eq_some_iff.mp h).1
      exact ⟨_, List.getElem?_eq_getElem (Nat.lt_of_succ_lt hlt)⟩
    have hturn : turn lengths before = some choice := by
      rw [(walks_all lengths).getElem?_succ hbefore, h]
    have hrank := rank_turn (mem_all.mp (List.mem_of_getElem? hbefore))
    rw [hturn] at hrank
    rw [hrank, ih hbefore]

-- ---------------------------------------------------------------------------
-- Totals
-- ---------------------------------------------------------------------------

theorem min_min_mul (a b m : Nat) : min (min a m * b) m = min (a * b) m := by
  rcases Nat.le_total a m with ham | hma
  · rw [Nat.min_eq_left ham]
  · cases b with
    | zero => simp
    | succ b =>
      have hbound : m ≤ m * (b + 1) := Nat.le_mul_of_pos_right m (Nat.succ_pos b)
      have hle : m ≤ a * (b + 1) := hbound.trans (Nat.mul_le_mul_right (b + 1) hma)
      rw [Nat.min_eq_right hma, Nat.min_eq_right hbound, Nat.min_eq_right hle]

/-- To bound each factor as it is taken in is to bound the product. -/
theorem foldl_min_mul (lengths : List Nat) (a m : Nat) :
    lengths.foldl (fun n length => min (n * length) m) (min a m) = min (a * lengths.prod) m := by
  induction lengths generalizing a with
  | nil => simp
  | cons length lengths ih =>
    rw [List.foldl_cons, min_min_mul, ih, List.prod_cons, Nat.mul_assoc]

theorem total_eq (p : Choices) : p.total = min p.lengths.prod totalLimit := by
  have hfold := foldl_min_mul p.lengths 1 totalLimit
  rw [Nat.one_mul] at hfold
  exact hfold

theorem lengths_call (p : Choices) : (Iterator.call next? p).2.lengths = p.lengths := by
  unfold Iterator.call next?
  cases p.done with
  | true => rfl
  | false => cases turn p.lengths p.current <;> rfl

/-- However often the iterator over the choices is called: its answers are the lists with a number below each
length, each once and in lexicographic order, and the last place turns fastest, as in counting up from zero in
the mixed radix of the lengths; after them it answers nothing any more. The total is their number, as far as
the largest number that can be shown, and zero if a length is. -/
theorem calls_count_up (lengths : List Nat) :
    ∃ entries : List (List Nat),
      (∀ i, Iterator.answer next? (ofLengths lengths) i = entries[i]?) ∧
      (∀ choice, choice ∈ entries ↔ List.Forall₂ (· < ·) choice lengths) ∧
      entries.Nodup ∧ entries.Pairwise (· < ·) ∧ (∀ i choice, entries[i]? = some choice → rank lengths choice = i) ∧
      (lengths = [] → entries = [[]]) ∧ (0 ∈ lengths → entries = []) ∧
      ∀ i, (Iterator.stateAfter next? (ofLengths lengths) i).total = min entries.length (2 ^ 64 - 1) := by
  have hordered := all_pairwise lengths
  refine ⟨all lengths, (exhausts_ofLengths lengths).answer_eq, fun choice => mem_all,
    hordered.imp (fun h => ne_of_lt h), hordered, fun i choice => rank_all, ?_, fun hzero => ?_, fun i => ?_⟩
  · rintro rfl
    rfl
  · exact List.eq_nil_iff_forall_not_mem.mpr fun _ hchoice => zero_not_mem hchoice hzero
  · have hkept : (Iterator.stateAfter next? (ofLengths lengths) i).lengths = lengths :=
      Iterator.stateAfter_keeps (P := (·.lengths = lengths)) (fun p hp => (lengths_call p).trans hp) rfl i
    rw [total_eq, hkept, length_all, ← List.prod_eq_foldl]
    rfl

end Choices

end FormatFuzz
