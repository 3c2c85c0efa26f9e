import Propeller.Bytecode.Varint
import Mathlib.Tactic.NormNum

/-!
# Bytecode — reading numbers of variable length

The reader takes seven bits from each byte as long as its top bit is set, and all eight from a
fourth byte (`read`).  A number of `length` bytes thus has `width length` bits, and a signed one is
extended from the last bit that was read (`readSigned`).

* `read_bytes`: of a number stored in `length` bytes the reader finds the low `width length` bits,
  and leaves what stands behind it.
* `readUnsigned_unsigned`: an unsigned operand of 29 bits is read back as it was stored.
* `readSigned_signed`: a signed operand of 29 bits is read back as it was stored, because
  `signedLength` only takes a length whose width has room for the sign.
* `operand_shortest`: both, and nothing shorter is read as the same operand.
-/

namespace Propeller.Varint

/-! ### The reader -/

/-- How many bits a number of `length` bytes has: seven a byte, and one more in a fourth. -/
def width (length : Nat) : Nat := 7 * length + length / 4

/-- The number at the front of a row of bytes, where `more` bytes may follow the first one: its
value, how many bits it has, and what stands behind it. -/
def read : (more : Nat) → Bytes → Option (Nat × Nat × Bytes)
  | _,        []        => none
  | 0,        b :: rest => some (b.toNat, 8, rest)
  | more + 1, b :: rest =>
    if b.toNat < 128 then some (b.toNat, 7, rest)
    else (read more rest).map fun (v, bits, rest) => (b.toNat - 128 + 128 * v, 7 + bits, rest)

/-- Read an unsigned operand. -/
def readUnsigned (bytes : Bytes) : Option (Nat × Bytes) :=
  (read 3 bytes).map fun (v, _, rest) => (v, rest)

/-- Read a signed operand: the last bit that was read is its sign. -/
def readSigned (bytes : Bytes) : Option (Int × Bytes) :=
  (read 3 bytes).map fun (v, bits, rest) => (Int.bmod v (2 ^ bits), rest)

/-! ### Reading what was stored -/

theorem read_fourth {n : Nat} (h : n < 256) (rest : Bytes) :
    read 0 (UInt8.ofNat n :: rest) = some (n, 8, rest) := by
  rw [read, UInt8.toNat_ofNat_of_lt' h]

theorem read_last {n : Nat} (h : n < 128) (more : Nat) (rest : Bytes) :
    read (more + 1) (UInt8.ofNat n :: rest) = some (n, 7, rest) := by
  have hn : (UInt8.ofNat n).toNat = n := UInt8.toNat_ofNat_of_lt' (Nat.lt_trans h (by decide))
  rw [read, hn, if_pos h]

theorem read_group {n : Nat} (h : n < 128) {more v bits : Nat} {tail rest : Bytes}
    (ht : read more tail = some (v, bits, rest)) :
    read (more + 1) (UInt8.ofNat (n + 128) :: tail) = some (n + 128 * v, 7 + bits, rest) := by
  have hn : (UInt8.ofNat (n + 128)).toNat = n + 128 :=
    UInt8.toNat_ofNat_of_lt' (Nat.add_lt_add_right h 128)
  rw [read, hn, if_neg (by omega), ht, Option.map_some, Nat.add_sub_cancel]

/-- The bytes of a number from position `i` on hold the bits from `7 * i` on. -/
theorem read_bytesFrom {length : Nat} (h₄ : length ≤ 4) (v : Nat) (rest : Bytes) :
    ∀ n i, i + n + 1 = length →
      read (3 - i) ((List.range' i (n + 1)).map (fun i => UInt8.ofNat (byteAt length v i)) ++ rest)
        = some (v / 2 ^ (7 * i) % 2 ^ (width length - 7 * i), width length - 7 * i, rest) := by
  intro n
  -- on how many bytes follow the one at `i`
  induction n with
  | zero =>
    intro i hi
    rw [List.range'_succ, List.range'_zero, List.map_cons, List.map_nil, List.cons_append,
      List.nil_append]
    by_cases h₃ : i = 3
    · subst h₃
      obtain rfl : length = 4 := by omega
      exact read_fourth (Nat.mod_lt _ (by decide)) rest
    · obtain ⟨more, hm⟩ : ∃ more, 3 - i = more + 1 := ⟨2 - i, by omega⟩
      have hw : width length - 7 * i = 7 := by simp only [width]; omega
      have hb : byteAt length v i = v / 2 ^ (7 * i) % 128 := by
        simp only [byteAt, if_neg (show ¬ i + 1 < length by omega), if_neg h₃]
      rw [hm, hw, hb]
      exact read_last (Nat.mod_lt _ (by decide)) more rest
  | succ n ih =>
    intro i hi
    obtain ⟨more, hm⟩ : ∃ more, 3 - i = more + 1 := ⟨2 - i, by omega⟩
    have hm' : 3 - (i + 1) = more := by omega
    have hw : width length - 7 * i = 7 + (width length - 7 * (i + 1)) := by
      simp only [width]; omega
    have hb : byteAt length v i = v / 2 ^ (7 * i) % 128 + 128 := by
      simp only [byteAt, if_pos (show i + 1 < length by omega)]
    have tail := ih (i + 1) (by omega)
    rw [hm'] at tail
    rw [List.range'_succ, List.map_cons, List.cons_append, hm, hb,
      read_group (Nat.mod_lt _ (by decide)) tail, hw]
    -- the low seven bits, and 128 times the bits above them
    have split : v / 2 ^ (7 * i) % (2 ^ 7 * 2 ^ (width length - 7 * (i + 1))) =
        v / 2 ^ (7 * i) % 128 + 128 * (v / 2 ^ (7 * (i + 1)) % 2 ^ (width length - 7 * (i + 1))) := by
      rw [Nat.mod_mul, Nat.div_div_eq_div_mul, ← Nat.pow_add]
      rfl
    rw [Nat.pow_add, split]

/-- **Reading a stored number.**  The reader finds the bits that the length has room for. -/
theorem read_bytes {length : Nat} (h₁ : 1 ≤ length) (h₄ : length ≤ 4) (v : Nat) (rest : Bytes) :
    read 3 (bytes length v ++ rest) = some (v % 2 ^ width length, width length, rest) := by
  have h := read_bytesFrom h₄ v rest (length - 1) 0 (by omega)
  rw [Nat.sub_add_cancel h₁, ← List.range_eq_range'] at h
  simpa [bytes] using h

/-! ### Unsigned operands -/

/-- The length of an unsigned operand is one of four, and its width has room for it. -/
theorem unsignedLength_width {v : Nat} (h : v < 2 ^ 29) :
    1 ≤ unsignedLength v ∧ unsignedLength v ≤ 4 ∧ v < 2 ^ width (unsignedLength v) := by
  unfold unsignedLength
  split_ifs <;> norm_num [width] <;> omega

/-- **Reading an unsigned operand.**  What was stored is read back, and what stands behind it is left
as it was. -/
theorem readUnsigned_unsigned {v : Nat} (h : v < 2 ^ 29) (rest : Bytes) :
    readUnsigned (unsigned v ++ rest) = some (v, rest) := by
  obtain ⟨h₁, h₄, hv⟩ := unsignedLength_width h
  rw [readUnsigned, unsigned, read_bytes h₁ h₄, Option.map_some, Nat.mod_eq_of_lt hv]

/-- Of a longer operand its low 29 bits are read back. -/
theorem readUnsigned_unsigned_mod (v : Nat) (rest : Bytes) :
    readUnsigned (unsigned v ++ rest) = some (v % 2 ^ 29, rest) := by
  by_cases h : v < 2 ^ 29
  · rw [readUnsigned_unsigned h, Nat.mod_eq_of_lt h]
  · have hlength : unsignedLength v = 4 := by
      unfold unsignedLength
      split_ifs <;> omega
    rw [readUnsigned, unsigned, hlength, read_bytes (by decide) (by decide), Option.map_some]
    rfl

/-! ### Signed operands -/

/-- A number that fits into `w` bits with its sign is told by the low ones of its pattern. -/
theorem bmod_pattern {v : Int} {w : Nat} (hw : w ≤ 32) (h₁ : -2 ^ w ≤ v * 2) (h₂ : v * 2 < 2 ^ w) :
    Int.bmod ((v % 2 ^ 32).toNat % 2 ^ w : Nat) (2 ^ w) = v := by
  have hd : ((2 ^ w : Nat) : Int) ∣ 2 ^ 32 := by
    rw [Nat.cast_pow]
    exact pow_dvd_pow 2 hw
  have hp : (((v % 2 ^ 32).toNat % 2 ^ w : Nat) : Int) = v % (2 ^ w : Nat) := by
    rw [Int.natCast_emod, Int.toNat_of_nonneg (Int.emod_nonneg _ (by decide)),
      Int.emod_emod_of_dvd _ hd]
  rw [hp, Int.emod_bmod]
  exact Int.bmod_eq_of_le_mul_two (by exact_mod_cast h₁) (by exact_mod_cast h₂)

@[simp]
theorem length_signed (v : Int) : (signed v).length = signedLength v := length_bytes _ _

/-- The length of a signed operand is one of four, and its width has room for the sign. -/
theorem signedLength_width {v : Int} (h : -2 ^ 28 ≤ v ∧ v < 2 ^ 28) :
    1 ≤ signedLength v ∧ signedLength v ≤ 4 ∧
      -2 ^ width (signedLength v) ≤ v * 2 ∧ v * 2 < 2 ^ width (signedLength v) := by
  unfold signedLength
  split_ifs <;> norm_num [width] <;> omega

/-- **Reading a signed operand.**  What was stored is read back, and what stands behind it is left
as it was. -/
theorem readSigned_signed {v : Int} (h : -2 ^ 28 ≤ v ∧ v < 2 ^ 28) (rest : Bytes) :
    readSigned (signed v ++ rest) = some (v, rest) := by
  obtain ⟨h₁, h₄, hl, hu⟩ := signedLength_width h
  have hw : width (signedLength v) ≤ 32 := by simp only [width]; omega
  rw [readSigned, signed, read_bytes h₁ h₄, Option.map_some]
  exact congrArg (fun o => some (o, rest)) (bmod_pattern hw hl hu)

/-! ### No shorter form -/

variable {row rest : Bytes}

/-- Of `taken` bytes seven bits each are read, and one more if the last one is a fourth. -/
theorem read_eq_some {more v bits : Nat} (h : read more row = some (v, bits, rest)) :
    ∃ taken, 1 ≤ taken ∧ taken ≤ more + 1 ∧ taken + rest.length = row.length ∧
      bits = 7 * taken + (if taken = more + 1 then 1 else 0) ∧ v < 2 ^ bits := by
  induction more generalizing row v bits with
  | zero =>
    cases row with
    | nil => cases h
    | cons b tail =>
      cases h
      exact ⟨1, by decide, by decide, Nat.add_comm .., rfl, b.toNat_lt⟩
  | succ more ih =>
    cases row with
    | nil => cases h
    | cons b tail =>
      rw [read] at h
      split at h
      · next hlast =>
        cases h
        exact ⟨1, by decide, by omega, Nat.add_comm .., by rw [if_neg (by omega)], hlast⟩
      · obtain ⟨⟨u, k, rest'⟩, hread, heq⟩ := Option.map_eq_some_iff.mp h
        cases heq
        obtain ⟨taken, hpos, hle, hlength, hbits, hu⟩ := ih hread
        refine ⟨taken + 1, by omega, by omega, by rw [List.length_cons]; omega, ?_, ?_⟩
        · simp only [Nat.add_right_cancel_iff, hbits]
          omega
        · have hb := b.toNat_lt
          rw [Nat.pow_add]
          omega

/-- The bits of an operand are those that its bytes have room for. -/
theorem read_three_eq_some {v bits : Nat} (h : read 3 row = some (v, bits, rest)) :
    ∃ taken, 1 ≤ taken ∧ taken ≤ 4 ∧ taken + rest.length = row.length ∧ v < 2 ^ width taken ∧
      bits = width taken := by
  obtain ⟨taken, hpos, hle, hlength, hbits, hv⟩ := read_eq_some h
  have hwidth : bits = width taken := by
    rw [hbits, width]
    split <;> omega
  exact ⟨taken, hpos, hle, hlength, hwidth ▸ hv, hwidth⟩

/-- The length of an unsigned operand is the least one with enough room. -/
theorem unsignedLength_le {v taken : Nat} (hpos : 1 ≤ taken) (hle : taken ≤ 4) (h : v < 2 ^ width taken) :
    unsignedLength v ≤ taken := by
  unfold unsignedLength
  obtain rfl | rfl | rfl | rfl : taken = 1 ∨ taken = 2 ∨ taken = 3 ∨ taken = 4 := by omega
  all_goals
    norm_num [width] at h
    split_ifs <;> omega

/-- The length of a signed operand is the least one with enough room. -/
theorem signedLength_le {v taken : Nat} (hpos : 1 ≤ taken) (hle : taken ≤ 4) :
    signedLength (Int.bmod v (2 ^ width taken)) ≤ taken := by
  have hlow := Int.le_bmod (x := v) (m := 2 ^ width taken) (Nat.two_pow_pos _)
  have hhigh := Int.bmod_lt (x := v) (m := 2 ^ width taken) (Nat.two_pow_pos _)
  unfold signedLength
  obtain rfl | rfl | rfl | rfl : taken = 1 ∨ taken = 2 ∨ taken = 3 ∨ taken = 4 := by omega
  all_goals
    norm_num [width] at hlow hhigh ⊢
    split_ifs <;> omega

/-- **Operands are stored in their shortest form.**  An operand of 29 bits, unsigned or with its sign, is read back
as it was stored, and what stands behind it is left as it was.  Any other row of bytes that is read as the same operand
takes at least as many bytes for it. -/
theorem operand_shortest :
    (∀ v < 2 ^ 29, (∀ rest, readUnsigned (unsigned v ++ rest) = some (v, rest)) ∧
      ∀ row rest, readUnsigned row = some (v, rest) → (unsigned v).length + rest.length ≤ row.length) ∧
    ∀ w : Int, -2 ^ 28 ≤ w → w < 2 ^ 28 → (∀ rest, readSigned (signed w ++ rest) = some (w, rest)) ∧
      ∀ row rest, readSigned row = some (w, rest) → (signed w).length + rest.length ≤ row.length := by
  constructor
  · refine fun v hv => ⟨readUnsigned_unsigned hv, fun row rest h => ?_⟩
    obtain ⟨⟨u, bits, rest⟩, hread, heq⟩ := Option.map_eq_some_iff.mp h
    cases heq
    obtain ⟨taken, hpos, hle, hlength, hu, -⟩ := read_three_eq_some hread
    have := unsignedLength_le hpos hle hu
    rw [unsigned, length_bytes]
    omega
  · refine fun w h₁ h₂ => ⟨readSigned_signed ⟨h₁, h₂⟩, fun row rest h => ?_⟩
    obtain ⟨⟨u, bits, rest⟩, hread, heq⟩ := Option.map_eq_some_iff.mp h
    cases heq
    obtain ⟨taken, hpos, hle, hlength, -, rfl⟩ := read_three_eq_some hread
    have := signedLength_le (v := u) hpos hle
    rw [length_signed]
    omega

/-- The first operands of two bytes, of which the signed one is below zero. -/
theorem operand_shortest_twoBytes :
    (unsigned 128 = [0x80, 0x01] ∧ ∀ rest, readUnsigned ([0x80, 0x01] ++ rest) = some (128, rest)) ∧
      signed (-65) = [0xBF, 0x7F] ∧ (∀ rest, readSigned ([0xBF, 0x7F] ++ rest) = some (-65, rest)) ∧
      ∀ row, readSigned row = some (-65, []) → 2 ≤ row.length := by
  have hu := operand_shortest.1 128 (by decide)
  have hs := operand_shortest.2 (-65) (by decide) (by decide)
  exact ⟨⟨by decide, hu.1⟩, by decide, hs.1, fun row => hs.2 row []⟩

end Propeller.Varint
