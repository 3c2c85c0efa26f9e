import Propeller.Proofs.Assembly.Form
import Propeller.Proofs.Outcome

/-!
# Assembly — reading instructions

The words of an instruction tell what its operands stand for.  `Instruction.reading` says this from the
operands themselves: the numbers of registers, the 32 bits of immediates, and where a branch goes.
`Form.read` says it from the parts of a word and the upper bits in front of it.

The lemmas about fields say that each of them tells what its operand stands for, so that nothing is
lost when it is put into a word.
-/

namespace Propeller

variable {e : Expression} {n most a : Nat} {o : Operand}

/-! ### Readings -/

/-- What an operand stands for. -/
inductive OperandValue
  | register (number : Nat)
  | immediate (word : Nat)
deriving DecidableEq

/-- Where a branch goes. -/
inductive BranchTarget
  | register (number : Nat)
  /-- Counted from the next instruction. -/
  | relative (distance : Int)
  | absolute (address : Nat)
deriving DecidableEq

/-- What the operands of an instruction stand for. -/
inductive Reading
  | source (d : Nat) (s : OperandValue)
  | pair (d s : OperandValue)
  | dest (d : OperandValue)
  | reg (d : Nat)
  | field (d : Nat) (s : OperandValue) (n : Nat)
  /-- The distance is in instructions. -/
  | relBranch (d : Nat) (target : BranchTarget)
  | jump (target : BranchTarget)
  | pointerJump (pointer : Nat) (target : BranchTarget)
  | augment (upper : Nat)
  | bare
deriving DecidableEq

namespace Instruction

/-- The number that an expression stands for. -/
def number (env : Environment) (e : Expression) : Except EncodeError Nat := do
  return (← (e.evalInt env).mapError .eval).toInt.toNat

/-- What a register or an immediate stands for. -/
def operandValue (env : Environment) (o : Operand) : Except EncodeError OperandValue :=
  if o.isRegister then do return .register (← number env o.value)
  else do return .immediate (← (o.value.eval env).mapError .eval).word

/-- Where a branch by a distance of nine bits goes. -/
def stepTarget (env : Environment) (origin : Origin) (o : Operand) :
    Except EncodeError BranchTarget :=
  if o.isRegister then do return .register (← number env o.value)
  else do
    let target ← (o.value.evalInt env).mapError .eval
    return .relative ((target.toInt - (origin.address + origin.step)) / origin.step)

/-- Where a jump to an address goes.  It is relative unless it is forced to be absolute or leads to the
other memory. -/
def jumpTarget (env : Environment) (origin : Origin) (o : Operand) :
    Except EncodeError BranchTarget := do
  let target ← (o.value.evalInt env).mapError .eval
  let targetHub := match o.value.target? env with
    | some a => a.hub
    | none   => decide (0x400 ≤ target.toInt)
  return if !o.absolute && targetHub == origin.hub
    then .relative (target.toInt - (origin.address + origin.step))
    else .absolute target.toInt.toNat

/-- What the operands of an instruction stand for.  A source that is left out is the destination. -/
def reading (i : Instruction) (env : Environment) (origin : Origin) : Except EncodeError Reading :=
  match i.arguments with
  | .source d s => do
    let d ← number env d
    return .source d (← operandValue env s)
  | .pair d s => do
    let d ← operandValue env d
    return .pair d (← operandValue env s)
  | .dest d => do return .dest (← operandValue env d)
  | .reg d => do return .reg (← number env d)
  | .field _ d s n => do
    let d ← number env d
    let s ← operandValue env s
    return .field d s (← number env n)
  | .relBranch d target => do
    let d ← number env d
    return .relBranch d (← stepTarget env origin target)
  | .registerJump _ d => do return .jump (.register (← number env d))
  | .jump target => do return .jump (← jumpTarget env origin target)
  | .pointerJump pointer target => do
    let pointer ← number env pointer
    return .pointerJump pointer (← jumpTarget env origin target)
  | .augment n => do return .augment (upperBits (← (n.eval env).mapError .eval).word)
  | .bare => .ok .bare

end Instruction

/-! ### What a word tells -/

/-- An operand, from the mark of an immediate, its field and its upper bits. -/
def readOperand (immediate field : Nat) (upper : Option Nat) : OperandValue :=
  if immediate = 0 then .register field else .immediate (upper.getD 0 * 2 ^ 9 + field)

/-- The target of a jump, from the mark of a relative one and the address. -/
def readTarget (relative address : Nat) : BranchTarget :=
  if relative = 0 then .absolute address else .relative (Int.bmod address (2 ^ 20))

namespace Form

/-- The effects that a word of the form has. -/
def readEffects (f : Form) (w : InstructionWord) : Effects :=
  if f.mnemonic.schema = .jump ∧ f.throughRegister = false then .none
  else ⟨f.mnemonic.effects.carry && w.carry.beq 1, f.mnemonic.effects.zero && w.zero.beq 1⟩

/-- What the operands stand for in a word of the form, behind the upper bits of the destination and of
the source. -/
def read (f : Form) (w : InstructionWord) (d s : Option Nat) : Reading :=
  if f.throughRegister then .jump (.register w.dest)
  else match f.mnemonic.schema with
  | .regSource | .regOptSource => .source w.dest (readOperand w.immediate w.source s)
  | .pair        => .pair (readOperand w.zero w.dest d) (readOperand w.immediate w.source s)
  | .dest        => .dest (readOperand w.immediate w.dest d)
  | .reg         => .reg w.dest
  | .field2      => .field w.dest (readOperand w.immediate w.source s) (2 * w.carry + w.zero)
  | .field1      => .field w.dest (readOperand w.immediate w.source s) w.zero
  | .relBranch   => .relBranch w.dest
      (if w.immediate = 0 then .register w.source else .relative (Int.bmod w.source (2 ^ 9)))
  | .jump        => .jump (readTarget w.carry w.address)
  | .pointerJump => .pointerJump (0x1F6 + w.opcode % 4) (readTarget w.carry w.address)
  | .augment     => .augment w.upper
  | .bare        => .bare

end Form

/-! ### Fields -/

namespace Instruction

variable {env : Environment} {origin : Origin}

theorem register_eq_ok (h : register env e = .ok n) : number env e = .ok n ∧ n < 2 ^ 9 := by
  obtain ⟨address, haddress, h⟩ := bind_eq_ok h
  split at h
  · next hrange =>
    cases h
    refine ⟨by rw [number, haddress]; rfl, ?_⟩
    have := hrange.2
    simp only [fieldMax] at this
    omega
  · cases h

theorem selector_eq_ok (h : selector env most e = .ok n) : number env e = .ok n ∧ n ≤ most := by
  obtain ⟨value, hvalue, h⟩ := bind_eq_ok h
  split at h
  · next hrange =>
    cases h
    exact ⟨by rw [number, hvalue]; rfl, Int.toNat_le.mpr hrange.2⟩
  · cases h

theorem pointerField_eq_ok {p : Nat} (h : pointerField env e = .ok p) :
    number env e = .ok (0x1F6 + p) ∧ p < 4 := by
  obtain ⟨pointer, hpointer, h⟩ := bind_eq_ok h
  split at h
  · next hrange =>
    cases h
    refine ⟨?_, by omega⟩
    have hback : pointer.toInt.toNat = 0x1F6 + (pointer.toInt - 0x1F6).toNat := by omega
    rw [number, hpointer, ← hback]
    rfl
  · cases h

theorem upperBits_lt (word : Nat) : upperBits word < 2 ^ 23 := Nat.mod_lt _ (by decide)

/-- A field tells what the operand stands for. -/
theorem fieldOf_eq_ok (hmost : most ≤ fieldMax) {f : Field} (h : fieldOf env most o = .ok f) :
    operandValue env o = .ok (readOperand (bit f.immediate) f.value f.upper) ∧ f.value < 2 ^ 9 ∧
      ∀ u ∈ f.upper, u < 2 ^ 23 := by
  unfold fieldOf at h
  split at h
  · next hregister =>
    obtain ⟨n, hn, h⟩ := bind_eq_ok h
    cases h
    obtain ⟨hnumber, hlt⟩ := register_eq_ok hn
    refine ⟨?_, hlt, by simp⟩
    rw [operandValue, if_pos hregister, hnumber]
    rfl
  · next hregister =>
    obtain ⟨n, hn, h⟩ := bind_eq_ok h
    cases h
    refine ⟨?_, Nat.mod_lt _ (by decide), ?_⟩
    · rw [operandValue, if_neg hregister, hn]
      have hword := n.word_lt
      -- the field alone is the word, if the word is not split
      have hback : (if o.kind == .longLiteral || most < n.word then some (upperBits n.word)
          else none).getD 0 * 2 ^ 9 + n.word % 2 ^ 9 = n.word := by
        split
        · simp only [Option.getD_some, upperBits]
          omega
        · next hsmall =>
          simp only [Bool.or_eq_true, decide_eq_true_eq, not_or] at hsmall
          simp only [Option.getD_none, fieldMax] at hmost ⊢
          omega
      exact congrArg (fun w => Except.ok (OperandValue.immediate w)) hback.symm
    · intro u hu
      split at hu
      · cases hu
        exact upperBits_lt _
      · cases hu

/-- A distance that fits is told by its low bits. -/
theorem bmod_emod {v : Int} (h₁ : -n ≤ v * 2) (h₂ : v * 2 < n) :
    Int.bmod ((v % n).toNat : Nat) n = v := by
  have hn : (n : Int) ≠ 0 := by omega
  rw [Int.toNat_of_nonneg (Int.emod_nonneg _ hn), Int.emod_bmod]
  exact Int.bmod_eq_of_le_mul_two h₁ h₂

theorem distanceField_eq_ok (ho : o.isRegister = false) (h : distanceField env origin o.value = .ok n) :
    stepTarget env origin o = .ok (.relative (Int.bmod n (2 ^ 9))) ∧ n < 2 ^ 9 := by
  obtain ⟨target, htarget, h⟩ := bind_eq_ok h
  simp only at h
  split at h
  · cases h
  · split at h
    · next hrange =>
      cases h
      refine ⟨?_, by omega⟩
      rw [stepTarget, ho, htarget]
      have hback : Int.bmod _ (2 ^ 9) = _ :=
        bmod_emod (v := (target.toInt - (origin.address + origin.step)) / origin.step)
          (by omega) (by omega)
      exact congrArg (fun v => Except.ok (BranchTarget.relative v)) hback.symm
    · cases h

/-- The twenty bits of a target and its mark tell the target. -/
theorem readTarget_eq {relative : Bool} {target base : Int} (h : (if relative then
        (if -2 ^ 19 ≤ target - base ∧ target - base < 2 ^ 19
          then .ok (2 ^ 20 + ((target - base) % 2 ^ 20).toNat)
          else .error (.addressOutOfRange (target - base)))
      else if 0 ≤ target ∧ target < 2 ^ 20 then .ok target.toNat
      else .error (.addressOutOfRange target)) = (.ok a : Except EncodeError Nat)) :
    readTarget (a / 2 ^ 20) (a % 2 ^ 20) =
      (if relative then .relative (target - base) else .absolute target.toNat) ∧ a < 2 ^ 21 := by
  cases relative with
  | true =>
    rw [if_pos rfl] at h
    split at h
    · next hrange =>
      obtain rfl := Except.ok.inj h
      have hlow : ((target - base) % 2 ^ 20).toNat < 2 ^ 20 := by omega
      have hback : Int.bmod _ (2 ^ 20) = _ := bmod_emod (v := target - base) (by omega) (by omega)
      refine ⟨?_, by omega⟩
      rw [Nat.add_div_left _ (by decide), Nat.div_eq_of_lt hlow, Nat.add_mod_left,
        Nat.mod_eq_of_lt hlow]
      exact congrArg BranchTarget.relative hback
    · cases h
  | false =>
    rw [if_neg (by decide)] at h
    split at h
    · next hrange =>
      obtain rfl := Except.ok.inj h
      have hlow : target.toNat < 2 ^ 20 := by omega
      refine ⟨?_, by omega⟩
      rw [Nat.div_eq_of_lt hlow, Nat.mod_eq_of_lt hlow]
      rfl
    · cases h

/-- The address of a jump tells where it goes. -/
theorem jumpField_eq_ok (h : jumpField env origin o = .ok a) :
    jumpTarget env origin o = .ok (readTarget (a / 2 ^ 20) (a % 2 ^ 20)) ∧ a < 2 ^ 21 := by
  obtain ⟨target, htarget, h⟩ := bind_eq_ok h
  obtain ⟨hread, hlt⟩ := readTarget_eq h
  rw [jumpTarget, htarget, hread]
  exact ⟨rfl, hlt⟩

end Instruction

end Propeller
