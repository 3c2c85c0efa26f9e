import Propeller.Bytecode.Code
import Propeller.Proofs.Bytecode.Varint
import Mathlib.Algebra.Order.Group.Unbundled.Int

/-!
# Bytecode — where branches land

The offset of a branch counts from its end, so that the length of a branch depends on its offset and
the offset on the length.  A length of `n` bytes *agrees with itself* when the offset from the end of
`n` bytes takes `n - 1` bytes (`Agrees`), and `branchOperand` takes the shortest such length.

Going backwards a longer branch has a larger offset, and some length always agrees.  Going forwards a
longer branch has a smaller offset, which can fall back into the range of the shorter length: at the
distance where an offset is the first that needs one more byte, that byte makes it fit again.  There
are three such distances (`branchShortfall`), and there the branch is stored with a length other
than the one its offset was counted for.

* `branchOperand_eq`: the operand is one signed number, and says how far the branch goes.
* `encode_branch_lands`: a branch lands on its target exactly when the distance is none of the
  three; at these it falls short of it by three, two and one bytes.
-/

namespace Propeller

/-- A branch of `size` bytes over `distance` bytes has an offset that takes all bytes but the
first. -/
def Agrees (distance : Int) (size : Nat) : Prop := Varint.signedLength (distance - size) + 1 = size

/-- How many bytes a branch over `distance` bytes falls short of its target. -/
def branchShortfall (distance : Int) : Int :=
  if distance = 2 ^ 6 + 2 then 3
  else if distance = 2 ^ 13 + 3 then 2
  else if distance = 2 ^ 20 + 4 then 1
  else 0

theorem branchShortfall_eq_zero_iff (distance : Int) :
    branchShortfall distance = 0 ↔
      distance ≠ 2 ^ 6 + 2 ∧ distance ≠ 2 ^ 13 + 3 ∧ distance ≠ 2 ^ 20 + 4 := by
  unfold branchShortfall
  split_ifs <;> omega

/-- A number below 2 ^ 31 is its own 32-bit pattern. -/
theorem bmod_word {v : Int} (h₁ : -2 ^ 31 ≤ v) (h₂ : v < 2 ^ 31) : v.bmod (2 ^ 32) = v :=
  Int.bmod_eq_of_le_mul_two (by omega) (by omega)

theorem agrees_two_iff (d : Int) : Agrees d 2 ↔ -62 ≤ d ∧ d ≤ 65 := by
  unfold Agrees Varint.signedLength
  split_ifs <;> omega

theorem agrees_three_iff (d : Int) :
    Agrees d 3 ↔ (-8189 ≤ d ∧ d ≤ 8194) ∧ ¬ (-61 ≤ d ∧ d ≤ 66) := by
  unfold Agrees Varint.signedLength
  split_ifs <;> omega

theorem agrees_four_iff (d : Int) :
    Agrees d 4 ↔ (-1048572 ≤ d ∧ d ≤ 1048579) ∧ ¬ (-8188 ≤ d ∧ d ≤ 8195) := by
  unfold Agrees Varint.signedLength
  split_ifs <;> omega

/-- A branch that agrees with itself goes as far as it should, and is not at one of the three
distances. -/
theorem Agrees.reaches {d : Int} {size : Nat} (hs : size ∈ [2, 3, 4]) (h : Agrees d size) :
    1 + (Varint.signedLength (d - size) : Int) + (d - size) + branchShortfall d = d := by
  have h₀ : branchShortfall d = 0 := by
    rw [branchShortfall_eq_zero_iff]
    simp only [List.mem_cons, List.not_mem_nil, or_false] at hs
    rcases hs with rfl | rfl | rfl
    · have := (agrees_two_iff d).mp h; omega
    · have := (agrees_three_iff d).mp h; omega
    · have := (agrees_four_iff d).mp h; omega
  unfold Agrees at h
  omega

/-- When no shorter length agrees, four bytes of operand do, but for the three distances. -/
theorem reaches_of_not_agrees {d : Int} (h₂ : ¬ Agrees d 2) (h₃ : ¬ Agrees d 3)
    (h₄ : ¬ Agrees d 4) :
    1 + (Varint.signedLength (d - (5 : Nat)) : Int) + (d - (5 : Nat)) + branchShortfall d = d := by
  rw [agrees_two_iff] at h₂
  rw [agrees_three_iff] at h₃
  rw [agrees_four_iff] at h₄
  unfold Varint.signedLength branchShortfall
  split_ifs <;> omega

/-- The operand is an offset from the end of a branch that agrees with itself, or if there is none,
from the end of five bytes. -/
theorem branchOperand_cases {d : Int} (h : |d| < 2 ^ 27) :
    (∃ size : Nat, size ∈ [2, 3, 4] ∧ Agrees d size ∧ branchOperand d = Varint.signed (d - size)) ∨
      ((∀ size : Nat, size ∈ [2, 3, 4] → ¬ Agrees d size) ∧
        branchOperand d = Varint.signed (d - (5 : Nat))) := by
  obtain ⟨hl, hu⟩ := abs_lt.mp h
  -- the distance is small, so that no offset is wrapped around
  have word : ∀ size : Nat, size ≤ 5 → (d - size).bmod (2 ^ 32) = d - size := by
    intro size hs
    exact bmod_word (by omega) (by omega)
  have small : ∀ size : Nat, size ∈ [2, 3, 4] → size ≤ 5 := by decide
  have test : ∀ size : Nat, size ∈ [2, 3, 4] →
      ((Varint.signed ((d - size).bmod (2 ^ 32))).length + 1 = size ↔ Agrees d size) := by
    intro size hs
    rw [word size (small size hs), Varint.length_signed, Agrees]
  cases hf : [2, 3, 4].find? fun size : Nat =>
      decide ((Varint.signed ((d - size).bmod (2 ^ 32))).length + 1 = size) with
  | some size =>
    have hs := List.mem_of_find?_eq_some hf
    refine Or.inl ⟨size, hs, (test size hs).mp (by simpa using List.find?_some hf), ?_⟩
    simp only [branchOperand, hf, word size (small size hs)]
  | none =>
    refine Or.inr ⟨fun size hs ha => ?_, ?_⟩
    · have := List.find?_eq_none.mp hf size hs
      exact this (by simpa using (test size hs).mpr ha)
    · simp only [branchOperand, hf, word 5 le_rfl]

/-- **The operand of a branch** is one signed number of at most 29 bits, and with the length of the
branch it makes up the distance, less the shortfall. -/
theorem branchOperand_eq {d : Int} (h : |d| < 2 ^ 27) :
    ∃ o, branchOperand d = Varint.signed o ∧ (-2 ^ 28 ≤ o ∧ o < 2 ^ 28) ∧
      1 + (Varint.signedLength o : Int) + o + branchShortfall d = d := by
  obtain ⟨hl, hu⟩ := abs_lt.mp h
  rcases branchOperand_cases h with ⟨size, hs, ha, he⟩ | ⟨hn, he⟩
  · have small : ∀ size : Nat, size ∈ [2, 3, 4] → size ≤ 4 := by decide
    have h₄ := small size hs
    exact ⟨d - size, he, by omega, ha.reaches hs⟩
  · refine ⟨d - (5 : Nat), he, by omega, ?_⟩
    exact reaches_of_not_agrees (hn 2 (by simp)) (hn 3 (by simp)) (hn 4 (by simp))

/-- **Where a branch lands.**  A branch is its opcode and one signed operand.  Counted from the end
of the branch, the operand leads to the target line exactly when the distance is none of the three
at which no length agrees with itself; at these it leads to as many bytes before it as the shortfall
says. -/
theorem encode_branch_lands (r : Resolution) (b : Branch) {here target : Int} {lines : Array Int}
    {line : LineId} (ht : lines[line]? = some target) (hd : |target - here| < 2 ^ 27) :
    ∃ operand o, (Code.branch b line).encode r here lines = .ok ((Op.branch b).byte :: operand) ∧
      (∀ rest, Varint.readSigned (operand ++ rest) = some (o, rest)) ∧
      here + ((Op.branch b).byte :: operand).length + o =
        target - branchShortfall (target - here) ∧
      (here + ((Op.branch b).byte :: operand).length + o = target ↔
        target - here ≠ 2 ^ 6 + 2 ∧ target - here ≠ 2 ^ 13 + 3 ∧ target - here ≠ 2 ^ 20 + 4) := by
  obtain ⟨o, hop, ho, hreach⟩ := branchOperand_eq hd
  have hline : lines.getD line 0 = target := by
    rw [Array.getD_eq_getD_getElem?, ht, Option.getD_some]
  have land : here + ((Op.branch b).byte :: Varint.signed o).length + o =
      target - branchShortfall (target - here) := by
    rw [List.length_cons, Varint.length_signed]
    omega
  refine ⟨Varint.signed o, o, ?_, Varint.readSigned_signed ho, land, ?_⟩
  · rw [Code.encode, hline, hop]
  · rw [← branchShortfall_eq_zero_iff, land]
    omega

/-- Over 66 bytes a jump is stored as one over 63. -/
theorem encode_branch_lands_short :
    ∃ operand o, (Code.branch .jmp 0).encode { environment := ⟨.initial, {}⟩ } 0 #[66] =
        .ok ((Op.branch .jmp).byte :: operand) ∧
      (∀ rest, Varint.readSigned (operand ++ rest) = some (o, rest)) ∧
      0 + (((Op.branch .jmp).byte :: operand).length : Int) + o = 63 := by
  have ht : (#[66] : Array Int)[0]? = some 66 := rfl
  have hd : |(66 : Int) - 0| < 2 ^ 27 := by decide
  obtain ⟨operand, o, he, hr, hl, -⟩ :=
    encode_branch_lands { environment := ⟨.initial, {}⟩ } .jmp ht hd
  exact ⟨operand, o, he, hr, hl⟩

end Propeller
