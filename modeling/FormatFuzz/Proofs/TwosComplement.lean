-- SUMMARY: Packed integers are two's complement, and are read back exactly.
import FormatFuzz.Field.Integer
import Mathlib.Data.Int.ModEq

/-!
# Two's complement

A layout of `w` bytes takes an integer to its residue modulo `2 ^ (8 * w)`, written in base 256
(`Packing.reading_pack`). Reading the bytes back gives the one integer of that residue that the layout has
room for: around zero if it reads a sign, as it always does at the full width, and from zero up otherwise
(`Packing.unpack_pack`).
-/

namespace FormatFuzz

-- ---------------------------------------------------------------------------
-- Digits
-- ---------------------------------------------------------------------------

namespace Bytes

theorem toNat_lt (b : Bytes) : toNat b < Nat.pow 256 b.length := by
  induction b with
  | nil => exact Nat.one_pos
  | cons x rest ih =>
    have hx := x.toNat_lt
    have hpow : Nat.pow 256 (x :: rest).length = 256 * Nat.pow 256 rest.length := Nat.mul_comm ..
    rw [toNat, hpow]
    omega

/-- Bytes are the digits of the number that they spell. -/
theorem ofNat_toNat (b : Bytes) : ofNat b.length (toNat b) = b := by
  induction b with
  | nil => rfl
  | cons x rest ih =>
    have hx := x.toNat_lt
    have hlow : UInt8.ofNat (toNat (x :: rest)) = x := by
      rw [← UInt8.toNat_inj, UInt8.toNat_ofNat', toNat]
      omega
    have hhigh : toNat (x :: rest) / 256 = toNat rest := by
      rw [toNat]
      omega
    rw [List.length_cons, ofNat, hlow, hhigh, ih]

theorem toNat_eq_foldr (b : Bytes) : toNat b = b.foldr (fun x n => x.toNat + 256 * n) 0 := by
  induction b with
  | nil => rfl
  | cons x rest ih => rw [toNat, List.foldr_cons, ih]

end Bytes

namespace Packing

variable {p : Packing} {b : Bytes} {u v : Int}

-- ---------------------------------------------------------------------------
-- The unsigned reading
-- ---------------------------------------------------------------------------

/-- The number that bytes spell in base 256, in the byte order of the layout. -/
def reading (p : Packing) (b : Bytes) : Nat :=
  match p.endian with
  | .big => b.foldl (fun n x => x.toNat + 256 * n) 0
  | .little => b.foldr (fun x n => x.toNat + 256 * n) 0

theorem length_arrange (p : Packing) (b : Bytes) : (p.arrange b).length = b.length := by
  unfold arrange
  split
  · exact List.length_reverse
  · rfl

theorem arrange_arrange (p : Packing) (b : Bytes) : p.arrange (p.arrange b) = b := by
  unfold arrange
  split
  · exact b.reverse_reverse
  · rfl

theorem toNat_arrange (p : Packing) (b : Bytes) : Bytes.toNat (p.arrange b) = p.reading b := by
  rw [Bytes.toNat_eq_foldr]
  unfold arrange reading
  cases p.endian with
  | big => exact List.foldr_reverse
  | little => rfl

theorem modulus_eq (p : Packing) : (p.modulus : Int) = 2 ^ (8 * p.width) := by
  rw [pow_mul]
  exact Nat.cast_pow 256 p.width

theorem modulus_pos (p : Packing) : 0 < (p.modulus : Int) := by
  rw [p.modulus_eq]
  exact Int.pow_pos (by decide)

/-- Half of the bit patterns. -/
theorem modulus_eq_two_mul (p : Packing) : (p.modulus : Int) = 2 * 2 ^ (8 * p.width - 1) := by
  have hwidth : 8 * p.width = 8 * p.width - 1 + 1 := by
    have := p.one_le_width
    omega
  rw [p.modulus_eq, hwidth, pow_succ, mul_comm]
  rfl

/-- A packed integer reads as its residue. -/
theorem reading_pack (p : Packing) (v : Int) : (p.reading (p.pack v) : Int) = v % p.modulus := by
  have hlt : v % p.modulus < p.modulus := Int.emod_lt_of_pos v p.modulus_pos
  have hnonneg : 0 ≤ v % p.modulus := Int.emod_nonneg v p.modulus_pos.ne'
  have hdigits : (v % p.modulus).toNat % p.modulus = (v % p.modulus).toNat := Nat.mod_eq_of_lt (by omega)
  rw [← toNat_arrange, pack, arrange_arrange, Bytes.toNat_ofNat]
  change (((v % p.modulus).toNat % p.modulus : Nat) : Int) = _
  rw [hdigits, Int.toNat_of_nonneg hnonneg]

theorem reading_lt (h : b.length = p.width) : p.reading b < p.modulus := by
  have hlt := Bytes.toNat_lt (p.arrange b)
  rw [length_arrange, h, toNat_arrange] at hlt
  exact hlt

/-- Any integer of the residue that the bytes spell packs to them. -/
theorem pack_eq_of_reading (h : b.length = p.width) (hv : v % p.modulus = p.reading b) : p.pack v = b := by
  have hdigits : Bytes.ofNat p.width (p.reading b) = p.arrange b := by
    rw [← h, ← toNat_arrange, ← p.length_arrange b, Bytes.ofNat_toNat]
  rw [pack, hv, Int.toNat_natCast, hdigits, arrange_arrange]

/-- Two integers pack to the same bytes just if they have the same residue. -/
theorem pack_eq_pack (p : Packing) (u v : Int) : p.pack u = p.pack v ↔ u ≡ v [ZMOD p.modulus] := by
  constructor
  · intro h
    rw [Int.ModEq, ← reading_pack, ← reading_pack, h]
  · intro h
    refine pack_eq_of_reading (p.length_pack v) ?_
    rw [reading_pack]
    exact h

-- ---------------------------------------------------------------------------
-- Reading back
-- ---------------------------------------------------------------------------

/-- The integers that the layout reads. -/
def Reads (p : Packing) (u : Int) : Prop :=
  if p.readsSign then -2 ^ (8 * p.width - 1) ≤ u ∧ u < 2 ^ (8 * p.width - 1) else 0 ≤ u ∧ u < 2 ^ (8 * p.width)

/-- A residue stands for one integer only that the layout reads. -/
theorem Reads.unique (hu : p.Reads u) (hv : p.Reads v) (h : u ≡ v [ZMOD p.modulus]) : u = v := by
  have hhalf := p.modulus_eq_two_mul
  have hmodulus := p.modulus_eq
  have hclose : |v - u| < p.modulus := by
    unfold Reads at hu hv
    rw [abs_lt]
    split at hu
    · rw [if_pos ‹_›] at hv
      omega
    · rw [if_neg ‹_›] at hv
      omega
  exact (sub_eq_zero.mp (Int.eq_zero_of_abs_lt_dvd h.dvd hclose)).symm

/-- Bytes of the right number are read as the integer of their residue. -/
theorem unpack_eq_some (h : b.length = p.width) :
    ∃ u, p.unpack b = some u ∧ p.Reads u ∧ u % p.modulus = p.reading b := by
  have hlt : (p.reading b : Int) < p.modulus := Int.ofNat_lt.mpr (reading_lt h)
  have hself : (p.reading b : Int) % p.modulus = p.reading b := Int.emod_eq_of_lt (by omega) hlt
  refine ⟨_, if_pos h, ?_⟩
  rw [toNat_arrange]
  cases hsign : p.readsSign with
  | true =>
    have hhalf := p.modulus_eq_two_mul
    have hlow := @Int.le_bmod (p.reading b) p.modulus (Int.ofNat_lt.mp p.modulus_pos)
    have hhigh := @Int.bmod_lt (p.reading b) p.modulus (Int.ofNat_lt.mp p.modulus_pos)
    simp only [Reads, hsign, if_true]
    refine ⟨⟨by omega, by omega⟩, ?_⟩
    rw [Int.bmod_emod, hself]
  | false =>
    simp only [Reads, hsign, Bool.false_eq_true, if_false, ← p.modulus_eq]
    exact ⟨⟨Int.natCast_nonneg _, hlt⟩, hself⟩

theorem unpack_isSome (p : Packing) (b : Bytes) : (p.unpack b).isSome ↔ b.length = p.width := by
  unfold unpack
  split
  · next h => simp [h]
  · next h => simp [h]

/-- What bytes are read as packs to them again. -/
theorem pack_of_unpack (h : p.unpack b = some u) : p.pack u = b := by
  have hlength : b.length = p.width := (p.unpack_isSome b).mp (Option.isSome_of_mem h)
  obtain ⟨u', hu', -, hresidue⟩ := unpack_eq_some hlength
  obtain rfl : u = u' := Option.some_inj.mp (h.symm.trans hu')
  exact pack_eq_of_reading hlength hresidue

/-- A packed integer is read back as the integer of its residue. -/
theorem unpack_pack (p : Packing) (v : Int) :
    ∃ u, p.unpack (p.pack v) = some u ∧ p.Reads u ∧ u ≡ v [ZMOD p.modulus] := by
  obtain ⟨u, hu, hreads, hresidue⟩ := unpack_eq_some (p.length_pack v)
  exact ⟨u, hu, hreads, hresidue.trans (p.reading_pack v)⟩

theorem Reads.unsigned (h : p.Reads u) (hsigned : p.signed = false) (hwidth : p.width < 16) :
    0 ≤ u ∧ u < 2 ^ (8 * p.width) := by
  have hsign : p.readsSign = false := by simp [readsSign, hsigned, hwidth.ne]
  simpa [Reads, hsign] using h

theorem Reads.signed (h : p.Reads u) (hsign : p.readsSign = true) :
    -2 ^ (8 * p.width - 1) ≤ u ∧ u < 2 ^ (8 * p.width - 1) := by
  simpa [Reads, hsign] using h

theorem reads_full (hwidth : p.width = 16) (hlow : -2 ^ 127 ≤ v) (hhigh : v < 2 ^ 127) : p.Reads v := by
  rw [Reads, if_pos (by simp [readsSign, hwidth]), hwidth]
  exact ⟨hlow, hhigh⟩

/-- Packing is two's complement both ways, at any width, in either byte order, with or without a sign. -/
theorem pack_twosComplement (p : Packing) (v : Int) :
    (p.pack v).length = p.width ∧
    (p.reading (p.pack v) : Int) = v % 2 ^ (8 * p.width) ∧
    (∀ b, ((p.unpack b).isSome ↔ b.length = p.width) ∧ ∀ u, p.unpack b = some u → p.pack u = b) ∧
    (∃ u, p.unpack (p.pack v) = some u ∧ u ≡ v [ZMOD 2 ^ (8 * p.width)] ∧
      (p.signed = false → p.width < 16 → 0 ≤ u ∧ u < 2 ^ (8 * p.width)) ∧
      (p.signed = true → -2 ^ (8 * p.width - 1) ≤ u ∧ u < 2 ^ (8 * p.width - 1)) ∧
      (p.width = 16 → -2 ^ 127 ≤ v → v < 2 ^ 127 → u = v)) ∧
    ∀ u, p.pack u = p.pack v ↔ u ≡ v [ZMOD 2 ^ (8 * p.width)] := by
  rw [← p.modulus_eq]
  obtain ⟨u, hu, hreads, hresidue⟩ := p.unpack_pack v
  refine ⟨p.length_pack v, p.reading_pack v, fun b => ⟨p.unpack_isSome b, fun u => pack_of_unpack⟩,
    ⟨u, hu, hresidue, fun hsigned hwidth => ?_, fun hsigned => ?_, fun hwidth hlow hhigh => ?_⟩,
    fun u => p.pack_eq_pack u v⟩
  · rw [p.modulus_eq]
    exact hreads.unsigned hsigned hwidth
  · exact hreads.signed (by simp [readsSign, hsigned])
  · exact hreads.unique (reads_full hwidth hlow hhigh) hresidue

example : (ofWidth 2 .big true).unpack ((ofWidth 2 .big true).pack 0xfffe) = some (-2) := by decide

/-- A number past the sign of two bytes is read back as a smaller one, and at full width as itself. -/
theorem pack_twosComplement_wrapped :
    (∃ u, (ofWidth 2 .big true).unpack ((ofWidth 2 .big true).pack 0xfffe) = some u ∧
      -2 ^ 15 ≤ u ∧ u < 2 ^ 15) ∧
    (ofWidth 16 .little false).unpack ((ofWidth 16 .little false).pack (-5)) = some (-5) := by
  obtain ⟨-, -, -, ⟨u, hu, -, -, hsigned, -⟩, -⟩ := pack_twosComplement (ofWidth 2 .big true) 0xfffe
  obtain ⟨-, -, -, ⟨w, hw, -, -, -, hfull⟩, -⟩ := pack_twosComplement (ofWidth 16 .little false) (-5)
  refine ⟨⟨u, hu, hsigned rfl⟩, ?_⟩
  rw [hw, hfull rfl (by decide) (by decide)]

end Packing

end FormatFuzz
