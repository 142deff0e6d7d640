-- SUMMARY: What the lossless actions do can be undone, Base64 among them.
import FormatFuzz.Field.Transform
import FormatFuzz.Proofs.Wp

/-!
# Inverses

Some actions lose nothing of their inputs but where one ends and the next begins: reversing, terminating,
widening and base64 (`Action.Lossless`). Their inverses give back the concatenation of the inputs
(`Action.Lossless.invert`). For base64 this is by induction on the groups of three bytes, of which the last
may be cut short and padded.

The inverses also take bytes that no action made. Reversing makes all bytes, and so its inverse is one on both
sides; terminating and widening do not, and their inverses leave as they are the bytes that are not of their
making (`Action.invert_exact`).
-/

namespace FormatFuzz

-- ---------------------------------------------------------------------------
-- Base64
-- ---------------------------------------------------------------------------

namespace Base64

variable {a b c : UInt8} {n i start : Nat}

theorem digit?_symbol : ∀ n < 64, digit? (symbol n) = some n := by decide +kernel

theorem symbol_ne_padding (hn : n < 64) : symbol n ≠ padding := by
  intro h
  have hdigit := digit?_symbol n hn
  rw [h] at hdigit
  cases hdigit

theorem readDigit_symbol (hn : n < 64) : readDigit (symbol n) i = .ok n := by
  unfold readDigit
  rw [digit?_symbol n hn]

-- The four symbols of a group, and the bytes that they stand for.

theorem first_lt (a : UInt8) : a.toNat / 4 < 64 := by
  have := a.toNat_lt
  omega

theorem second_lt (a b : UInt8) : a.toNat % 4 * 16 + b.toNat / 16 < 64 := by
  have := b.toNat_lt
  omega

theorem third_lt (b c : UInt8) : b.toNat % 16 * 4 + c.toNat / 64 < 64 := by
  have := c.toNat_lt
  omega

theorem fourth_lt (c : UInt8) : c.toNat % 64 < 64 := Nat.mod_lt _ (by decide)

theorem ofNat_eq {m : Nat} (h : m % 256 = a.toNat) : UInt8.ofNat m = a := by
  rw [← UInt8.toNat_inj, UInt8.toNat_ofNat']
  exact h

/-- Four digits make up the three bytes that they were made of. -/
theorem join_group (a b c : UInt8) :
    join (a.toNat / 4) (a.toNat % 4 * 16 + b.toNat / 16) (b.toNat % 16 * 4 + c.toNat / 64)
      (c.toNat % 64) = [a, b, c] := by
  have ha := a.toNat_lt
  have hb := b.toNat_lt
  have hc := c.toNat_lt
  unfold join
  rw [ofNat_eq (a := a) (by omega), ofNat_eq (a := b) (by omega), ofNat_eq (a := c) (by omega)]

-- The last group

theorem lastDigits_symbol {rest : Bytes} {digits : List Nat} {pads : Nat} (hn : n < 64)
    (h : lastDigits start (i + 1) rest = .ok (digits, pads)) :
    lastDigits start i (symbol n :: rest) = .ok (n :: digits, pads) := by
  rw [lastDigits, if_neg (symbol_ne_padding hn), readDigit_symbol hn, ok_bind, h]
  rfl

theorem lastDigits_padding (hi : 2 ≤ i) (k : Nat) :
    lastDigits start i (List.replicate (k + 1) padding) = .ok ([], k + 1) := by
  have hi : ¬ i < 2 := Nat.not_lt.mpr hi
  rw [List.replicate_succ, lastDigits, if_pos rfl]
  simp [hi]

theorem decodeLast_one (a : UInt8) : decodeLast start (encode [a]) = .ok [a] := by
  have hdigits : lastDigits start 0 (encode [a]) = .ok ([a.toNat / 4, a.toNat % 4 * 16], 2) :=
    lastDigits_symbol (first_lt a) (lastDigits_symbol (second_lt a 0) (lastDigits_padding (by decide) 1))
  have hbytes : (join (a.toNat / 4) (a.toNat % 4 * 16) 0 0).take 1 = [a] :=
    congrArg (List.take 1) (join_group a 0 0)
  unfold decodeLast
  simp [hdigits, hbytes]

theorem decodeLast_two (a b : UInt8) : decodeLast start (encode [a, b]) = .ok [a, b] := by
  have hdigits : lastDigits start 0 (encode [a, b]) =
      .ok ([a.toNat / 4, a.toNat % 4 * 16 + b.toNat / 16, b.toNat % 16 * 4], 1) :=
    lastDigits_symbol (first_lt a) (lastDigits_symbol (second_lt a b)
      (lastDigits_symbol (third_lt b 0) (lastDigits_padding (by decide) 0)))
  have hbytes : (join (a.toNat / 4) (a.toNat % 4 * 16 + b.toNat / 16) (b.toNat % 16 * 4) 0).take 2 = [a, b] :=
    congrArg (List.take 2) (join_group a b 0)
  unfold decodeLast
  simp [hdigits, hbytes]

theorem decodeLast_three (a b c : UInt8) : decodeLast start (encode [a, b, c]) = .ok [a, b, c] := by
  have hdigits : lastDigits start 0 (encode [a, b, c]) =
      .ok ([a.toNat / 4, a.toNat % 4 * 16 + b.toNat / 16, b.toNat % 16 * 4 + c.toNat / 64,
        c.toNat % 64], 0) :=
    lastDigits_symbol (first_lt a) (lastDigits_symbol (second_lt a b)
      (lastDigits_symbol (third_lt b c) (lastDigits_symbol (fourth_lt c) rfl)))
  unfold decodeLast
  simp [hdigits, join_group]

-- All groups

theorem encode_ne_nil (a : UInt8) (rest : Bytes) : encode (a :: rest) ≠ [] := by
  cases rest with
  | nil => exact List.cons_ne_nil _ _
  | cons b rest => cases rest <;> exact List.cons_ne_nil _ _

theorem decodeGroups_encode (data : Bytes) (start : Nat) : decodeGroups start (encode data) = .ok data := by
  fun_induction encode data generalizing start with
  | case1 => rfl
  | case2 a => exact decodeLast_one a
  | case3 a b => exact decodeLast_two a b
  | case4 a b c rest ih =>
    cases rest with
    | nil => exact decodeLast_three a b c
    | cons d rest =>
      have ih := ih (start + 4)
      obtain ⟨e, more, hrest⟩ := List.exists_cons_of_ne_nil (encode_ne_nil d rest)
      rw [hrest] at ih ⊢
      rw [decodeGroups, readDigit_symbol (first_lt a), readDigit_symbol (second_lt a b),
        readDigit_symbol (third_lt b c), readDigit_symbol (fourth_lt c), ih]
      simp only [ok_bind, join_group]
      rfl

theorem length_encode_mod (data : Bytes) : (encode data).length % 4 = 0 := by
  fun_induction encode data with
  | case1 => rfl
  | case2 a => exact Nat.mod_self 4
  | case3 a b => exact Nat.mod_self 4
  | case4 a b c rest ih => simp only [List.length_cons, Nat.add_assoc, Nat.add_mod_right, ih]

/-- Base64 text decodes to the bytes that it was made of. -/
theorem decode_encode (data : Bytes) : decode (encode data) = .ok data := by
  unfold decode
  cases hlast : (encode data).getLast? with
  | none =>
    cases data with
    | nil => rfl
    | cons a rest => exact absurd (List.getLast?_eq_none_iff.mp hlast) (encode_ne_nil a rest)
  | some b =>
    dsimp only
    rw [if_neg (by rw [length_encode_mod]; exact fun h => absurd h.1 (by decide))]
    exact decodeGroups_encode data 0

end Base64

-- ---------------------------------------------------------------------------
-- Actions
-- ---------------------------------------------------------------------------

namespace Action

theorem stripTerminator_append (terminator : UInt8) (data : Bytes) :
    stripTerminator terminator (data ++ [terminator]) = data := by
  unfold stripTerminator
  rw [List.getLast?_concat, if_pos rfl, List.dropLast_concat]

theorem narrow?_flatMap (data : Bytes) : narrow? (data.flatMap fun b => [b, 0]) = some data := by
  induction data with
  | nil => rfl
  | cons b rest ih =>
    rw [List.flatMap_cons]
    change (narrow? (rest.flatMap fun b => [b, 0])).map (b :: ·) = _
    rw [ih, Option.map_some]

/-- The action keeps all bytes of its inputs in a form of its own. -/
def Lossless : Action → Prop
  | .reverse | .base64 | .nullTerminate _ | .widen => True
  | .identity | .length | .crc32 | .deflate _ | .custom .. => False

/-- A lossless action always yields bytes, and these are inverted to its inputs in a row. -/
theorem Lossless.invert {a : Action} (ha : a.Lossless) (inputs : List Bytes) :
    ∃ b, a.apply inputs = .ok (.bytes b) ∧ a.invert b = .ok inputs.flatten := by
  cases a with
  | reverse => exact ⟨_, rfl, congrArg Except.ok inputs.flatten.reverse_reverse⟩
  | base64 =>
    refine ⟨_, rfl, ?_⟩
    change decodeBase64 _ = _
    rw [decodeBase64, Base64.decode_encode]
  | nullTerminate terminator =>
    exact ⟨_, rfl, congrArg Except.ok (stripTerminator_append terminator inputs.flatten)⟩
  | widen =>
    refine ⟨_, rfl, congrArg Except.ok ?_⟩
    rw [narrow?_flatMap, Option.getD_some]
  | _ => exact ha.elim

-- ---------------------------------------------------------------------------
-- Bytes of any making
-- ---------------------------------------------------------------------------

variable {a : Action} {d x : Bytes} {terminator : UInt8}

/-- The inputs that the action makes these bytes of. -/
def Makes (a : Action) (inputs : List Bytes) (d : Bytes) : Prop := a.apply inputs = .ok (.bytes d)

/-- What the action makes these bytes of is `x`, in any number of inputs. -/
def MadeOf (a : Action) (d x : Bytes) : Prop := ∀ inputs, a.Makes inputs d ↔ inputs.flatten = x

/-- The inverse of the action takes all bytes, and leaves those that are not of its making as they are. -/
def Lenient : Action → Prop
  | .nullTerminate _ | .widen => True
  | .identity | .length | .crc32 | .reverse | .deflate _ | .base64 | .custom .. => False

theorem makes_reverse {inputs : List Bytes} : Action.reverse.Makes inputs d ↔ inputs.flatten.reverse = d := by
  simp [Makes, apply]

theorem makes_nullTerminate {inputs : List Bytes} :
    (Action.nullTerminate terminator).Makes inputs d ↔ inputs.flatten ++ [terminator] = d := by
  simp [Makes, apply]

theorem makes_widen {inputs : List Bytes} :
    Action.widen.Makes inputs d ↔ (inputs.flatten.flatMap fun b => [b, 0]) = d := by
  simp [Makes, apply]

/-- Bytes without a terminator at their end keep all of them. -/
theorem stripTerminator_eq_self (h : ∀ x, x ++ [terminator] ≠ d) : stripTerminator terminator d = d := by
  unfold stripTerminator
  split
  · next hlast =>
    obtain ⟨x, hx⟩ := List.getLast?_eq_some_iff.mp hlast
    exact absurd hx.symm (h x)
  · rfl

/-- Every other byte is dropped of nothing but widened bytes. -/
theorem narrow?_eq_some : narrow? d = some x ↔ (x.flatMap fun b => [b, 0]) = d := by
  constructor
  · intro h
    fun_induction narrow? d generalizing x with
    | case1 =>
      cases h
      rfl
    | case2 b rest ih =>
      obtain ⟨y, hy, rfl⟩ := Option.map_eq_some_iff.mp h
      rw [List.flatMap_cons, ih hy]
      rfl
    | case3 d _ _ => cases h
  · rintro rfl
    exact narrow?_flatMap x

theorem reverse_madeOf (d : Bytes) : Action.reverse.MadeOf d d.reverse := by
  intro inputs
  rw [makes_reverse, List.reverse_eq_iff]

/-- Bytes of its making tell a lenient action what it made them of. -/
theorem Lenient.madeOf (ha : a.Lenient) {inputs : List Bytes} (h : a.Makes inputs d) :
    ∃ x, a.invert d = .ok x ∧ a.MadeOf d x := by
  cases a with
  | nullTerminate terminator =>
    cases makes_nullTerminate.mp h
    refine ⟨inputs.flatten, congrArg Except.ok (stripTerminator_append terminator _), fun others => ?_⟩
    rw [makes_nullTerminate, List.append_left_inj]
  | widen =>
    have hnarrow := narrow?_eq_some.mpr (makes_widen.mp h)
    refine ⟨inputs.flatten, congrArg Except.ok ?_, fun others => ?_⟩
    · rw [hnarrow, Option.getD_some]
    · rw [makes_widen, ← narrow?_eq_some, hnarrow, Option.some_inj, eq_comm]
  | _ => exact ha.elim

/-- Bytes that it makes of no inputs are left as they are by the inverse of a lenient action. -/
theorem Lenient.invert_foreign (ha : a.Lenient) (h : ∀ inputs, ¬ a.Makes inputs d) : a.invert d = .ok d := by
  cases a with
  | nullTerminate terminator =>
    refine congrArg Except.ok (stripTerminator_eq_self fun x hx => h [x] ?_)
    rw [makes_nullTerminate, List.flatten_singleton, hx]
  | widen =>
    have hnarrow : narrow? d = none := by
      refine Option.eq_none_iff_forall_ne_some.mpr fun x hx => h [x] ?_
      rw [makes_widen, List.flatten_singleton, narrow?_eq_some.mp hx]
    refine congrArg Except.ok ?_
    rw [hnarrow, Option.getD_none]
  | _ => exact ha.elim

/-- A lossless action always yields bytes, and is undone by its inverse but for where one input ended and the next
began. Any bytes at all are reversed from those that reversing takes them to. The inverse of a lenient action takes
any bytes: to the only ones that the action makes them of, or, if there are none, to themselves. -/
theorem invert_exact :
    (∀ a : Action, a.Lossless → ∀ inputs,
      ∃ b, a.Makes inputs b ∧ a.invert b = .ok inputs.flatten) ∧
    (∀ d, ∃ x, Action.reverse.invert d = .ok x ∧ Action.reverse.MadeOf d x) ∧
    (∀ a : Action, a.Lenient → ∀ d, ∃ x, a.invert d = .ok x ∧
      ((∃ inputs, a.Makes inputs d) → a.MadeOf d x) ∧ ((∀ inputs, ¬ a.Makes inputs d) → x = d)) := by
  refine ⟨fun a ha inputs => ha.invert inputs, fun d => ⟨_, rfl, reverse_madeOf d⟩, fun a ha d => ?_⟩
  by_cases h : ∃ inputs, a.Makes inputs d
  · obtain ⟨inputs, hmakes⟩ := h
    obtain ⟨x, hinvert, hx⟩ := ha.madeOf hmakes
    exact ⟨x, hinvert, fun _ => hx, fun hforeign => absurd hmakes (hforeign inputs)⟩
  · have hforeign : ∀ inputs, ¬ a.Makes inputs d := fun inputs hmakes => h ⟨inputs, hmakes⟩
    exact ⟨d, ha.invert_foreign hforeign, fun hmade => absurd hmade h, fun _ => rfl⟩

/-- Five bytes in two inputs come back from their base64, and an odd number of bytes are widened from none. -/
theorem invert_exact_padded :
    (∃ b, Action.base64.Makes [[1, 2, 3], [4, 5]] b ∧ Action.base64.invert b = .ok [1, 2, 3, 4, 5]) ∧
    (∃ x, Action.widen.invert [7, 0, 9] = .ok x ∧
      ((∀ inputs, ¬ Action.widen.Makes inputs [7, 0, 9]) → x = [7, 0, 9])) ∧
    (∃ x, (Action.nullTerminate 0).invert [7, 0, 0] = .ok x ∧ (Action.nullTerminate 0).MadeOf [7, 0, 0] x) := by
  obtain ⟨hlossless, -, hlenient⟩ := invert_exact
  refine ⟨hlossless .base64 trivial _, ?_, ?_⟩
  · obtain ⟨x, hx, -, hforeign⟩ := hlenient .widen trivial [7, 0, 9]
    exact ⟨x, hx, hforeign⟩
  · obtain ⟨x, hx, hmade, -⟩ := hlenient (.nullTerminate 0) trivial [7, 0, 0]
    exact ⟨x, hx, hmade ⟨[[7], [0]], rfl⟩⟩

end Action

end FormatFuzz
