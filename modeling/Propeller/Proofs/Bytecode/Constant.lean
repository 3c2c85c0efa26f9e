import Propeller.Bytecode.Constant
import Mathlib.Tactic.SplitIfs

/-!
# Bytecode — what constants stand for

* `ConstantForm.Fits`: the operand of a form has room in its bytes.
* `choose_spec`: the form in which a 32-bit word is pushed fits, and stands for that word.
* `length_choose_le`: no form that fits and stands for the word is shorter.
-/

namespace Propeller.ConstantForm

/-- The operand of a form has room in the bytes that are there for it. -/
def Fits : ConstantForm → Prop
  | small distance => distance < 16
  | byte v | byteNot v => v < 2 ^ 8
  | decod bit | decodNot bit | bmask bit | bmaskNot bit => bit < 32
  | word v | wordNot v => v < 2 ^ 16
  | long v => v < 2 ^ 32

theorem complement_complement {v : Nat} (h : v < 2 ^ 32) : complement (complement v) = v := by
  simp only [complement]
  omega

/-- A word that consists of one set bit is that power of two. -/
theorem singleBit?_eq_some {v bit : Nat} (h : singleBit? v = some bit) : v = 2 ^ bit ∧ bit < 32 :=
  ⟨by simpa using List.find?_some h, List.mem_range.mp (List.mem_of_find?_eq_some h)⟩

/-- A word that consists of a row of set bits is one less than a power of two. -/
theorem lowMask?_eq_some {v bit : Nat} (h : lowMask? v = some bit) :
    v = 2 ^ (bit + 1) - 1 ∧ bit < 31 :=
  ⟨by simpa using List.find?_some h, List.mem_range.mp (List.mem_of_find?_eq_some h)⟩

/-- The longer forms fit and stand for the word. -/
theorem choosePattern_spec {v : Nat} (h : v < 2 ^ 32) :
    (choosePattern v).Fits ∧ (choosePattern v).value = v := by
  have back := complement_complement h
  simp only [choosePattern]
  cases hbit : singleBit? v with
  | some bit =>
    obtain ⟨rfl, hlt⟩ := singleBit?_eq_some hbit
    exact ⟨hlt, rfl⟩
  | none =>
  cases hclear : singleBit? (complement v) with
  | some bit =>
    obtain ⟨hv, hlt⟩ := singleBit?_eq_some hclear
    exact ⟨hlt, (congrArg complement hv).symm.trans back⟩
  | none =>
  cases hmask : lowMask? v with
  | some bit =>
    obtain ⟨rfl, hlt⟩ := lowMask?_eq_some hmask
    exact ⟨Nat.lt_succ_of_lt hlt, rfl⟩
  | none =>
  cases hrest : lowMask? (complement v) with
  | some bit =>
    obtain ⟨hv, hlt⟩ := lowMask?_eq_some hrest
    exact ⟨Nat.lt_succ_of_lt hlt, (congrArg complement hv).symm.trans back⟩
  | none =>
    simp only
    split_ifs with hword hnot
    · exact ⟨hword, rfl⟩
    · exact ⟨hnot, back⟩
    · exact ⟨h, rfl⟩

/-- **The form of a word** fits and stands for the word. -/
theorem choose_spec {v : Nat} (h : v < 2 ^ 32) : (choose v).Fits ∧ (choose v).value = v := by
  have back := complement_complement h
  simp only [choose]
  split_ifs with hsmall hones hbyte hnot
  · exact ⟨Nat.lt_of_le_of_lt (Nat.succ_le_succ hsmall) (by decide), rfl⟩
  · refine ⟨Nat.zero_lt_succ 15, ?_⟩
    rw [← back, hones]
    rfl
  · exact ⟨hbyte, rfl⟩
  · exact ⟨hnot, back⟩
  · exact choosePattern_spec h

/-! ### No shorter form -/

/-- A word that one byte tells: it has one byte, or one bit is set, or a row of bits from the first one on. -/
def IsShort (v : Nat) : Prop := v < 2 ^ 8 ∨ (singleBit? v).isSome ∨ (lowMask? v).isSome

instance decidableIsShort (v : Nat) : Decidable (IsShort v) := inferInstanceAs (Decidable (_ ∨ _))

theorem isShort_bit {bit : Nat} (h : bit < 32) : IsShort (2 ^ bit) := by
  refine .inr (.inl ?_)
  rw [singleBit?, List.find?_isSome]
  exact ⟨bit, List.mem_range.mpr h, beq_self_eq_true _⟩

theorem isShort_mask {bit : Nat} (h : bit < 31) : IsShort (2 ^ (bit + 1) - 1) := by
  refine .inr (.inr ?_)
  rw [lowMask?, List.find?_isSome]
  exact ⟨bit, List.mem_range.mpr h, beq_self_eq_true _⟩

/-- How many bytes a word takes. -/
theorem length_choose (v : Nat) : (choose v).bytes.length =
    if v ≤ 14 ∨ complement v = 0 then 1 else if IsShort v ∨ IsShort (complement v) then 2
    else if v < 2 ^ 16 ∨ complement v < 2 ^ 16 then 3 else 5 := by
  simp only [choose, choosePattern, IsShort]
  repeat' split
  all_goals grind [bytes, length_littleEndian]

theorem length_choose_le_two {v : Nat} (h : IsShort v ∨ IsShort (complement v)) :
    (choose v).bytes.length ≤ 2 := by
  rw [length_choose, if_pos h]
  split <;> decide

theorem length_choose_le_three {v : Nat} (h : v < 2 ^ 16 ∨ complement v < 2 ^ 16) :
    (choose v).bytes.length ≤ 3 := by
  rw [length_choose, if_pos h]
  repeat' split
  all_goals decide

/-- **No form that stands for a word is shorter** than the one in which the word is pushed. -/
theorem length_choose_le {f : ConstantForm} (h : f.Fits) :
    (choose f.value).bytes.length ≤ f.bytes.length := by
  -- the complement of what is stored inverted
  have back {u bound : Nat} (hu : u < bound) (hle : bound ≤ 2 ^ 32) : complement (complement u) = u :=
    complement_complement (Nat.lt_of_lt_of_le hu hle)
  cases f with
  | small distance =>
    have hsmall : (small distance).value ≤ 14 ∨ complement (small distance).value = 0 := by
      simp only [Fits, value, complement] at h ⊢
      split <;> omega
    rw [length_choose, if_pos hsmall]
    exact Nat.le_refl 1
  | byte v => exact length_choose_le_two (.inl (.inl h))
  | byteNot v => exact length_choose_le_two (.inr (.inl ((back h (by decide)).symm ▸ h)))
  | decod bit => exact length_choose_le_two (.inl (isShort_bit h))
  | decodNot bit =>
    refine length_choose_le_two (.inr ?_)
    rw [value, back (Nat.pow_lt_pow_right Nat.one_lt_two h) (Nat.le_refl _)]
    exact isShort_bit h
  | bmask bit =>
    -- a full word is a small number
    obtain hlt | rfl := Nat.lt_succ_iff_lt_or_eq.mp h
    · exact length_choose_le_two (.inl (isShort_mask hlt))
    · decide
  | bmaskNot bit =>
    obtain hlt | rfl := Nat.lt_succ_iff_lt_or_eq.mp h
    · refine length_choose_le_two (.inr ?_)
      have hle : (2 : Nat) ^ (bit + 1) ≤ 2 ^ 32 := Nat.pow_le_pow_right Nat.two_pos h
      rw [value, back (Nat.sub_one_lt_of_le (Nat.two_pow_pos _) hle) (Nat.le_refl _)]
      exact isShort_mask hlt
    · decide
  | word v => exact length_choose_le_three (.inl h)
  | wordNot v => exact length_choose_le_three (.inr ((back h (by decide)).symm ▸ h))
  | long v =>
    rw [length_choose]
    repeat' split
    all_goals simp [bytes]

end Propeller.ConstantForm
