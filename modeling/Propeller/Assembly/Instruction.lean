import Propeller.Assembly.Mnemonic
import Propeller.Bytes
import Propeller.Expression.Eval

/-!
# Assembly — instructions

An instruction is a mnemonic whose operands fit its shape.  `Instruction.make` sorts the operands
into the parts that the shape names (`Arguments`), and from there on nothing has to be checked
again: `Instruction.encode` gives the word, with a word in front of it for every immediate that
does not fit its field, and `Instruction.size` says how many bytes that will be before addresses
are known.

An immediate of more bits than its field has is split: an augmenting instruction carries its upper
23 bits, under the condition of the instruction itself, and the field its lower nine.
-/

namespace Propeller

/-! ### Operands -/

/-- How an operand is marked. -/
inductive OperandKind
  /-- Unmarked: a register. -/
  | register
  /-- Marked `#`. -/
  | immediate
  /-- Marked `##`: an immediate of 32 bits whatever its value. -/
  | longLiteral
deriving DecidableEq, Inhabited

/-- An operand of an instruction. -/
structure Operand where
  kind : OperandKind := .register
  /-- The address of a jump must not be made relative. -/
  absolute : Bool := false
  value : Expression
deriving Inhabited

/-- The operand is a register. -/
def Operand.isRegister (o : Operand) : Bool := o.kind == .register

/-- The operands of an instruction, by what the shape makes of them. -/
inductive Arguments
  /-- A destination register and a source. -/
  | source (d : Expression) (s : Operand)
  /-- A destination and a source. -/
  | pair (d s : Operand)
  /-- A destination. -/
  | dest (d : Operand)
  /-- A destination register. -/
  | reg (d : Expression)
  /-- A destination register, a source, and a number that is at most `most`. -/
  | field (most : Nat) (d : Expression) (s : Operand) (n : Expression)
  /-- A register to test, and where to go. -/
  | relBranch (d : Expression) (target : Operand)
  /-- A jump through a register, with its fixed bits. -/
  | registerJump (base : Nat) (d : Expression)
  /-- A jump to an address. -/
  | jump (target : Operand)
  /-- A pointer register, and a jump to an address. -/
  | pointerJump (pointer : Expression) (target : Operand)
  /-- The upper bits of the next immediate. -/
  | augment (n : Expression)
  | bare
deriving Inhabited

namespace Arguments

/-- Sort operands by a shape; `none` if they do not fit it. -/
def ofOperands? (m : Mnemonic) (operands : List Operand) : Option Arguments :=
  match m.schema, operands with
  | .regSource, [d, s]    => if d.isRegister then some (source d.value s) else none
  | .regOptSource, [d, s] => if d.isRegister then some (source d.value s) else none
  | .regOptSource, [d]    => if d.isRegister then some (source d.value d) else none
  | .pair, [d, s]         => some (pair d s)
  | .dest, [d]            => some (dest d)
  | .reg, [d]             => if d.isRegister then some (reg d.value) else none
  | .field2, [d, s, n]    =>
      if d.isRegister && n.kind == .immediate then some (field 3 d.value s n.value) else none
  | .field1, [d, s, n]    =>
      if d.isRegister && n.kind == .immediate then some (field 1 d.value s n.value) else none
  | .relBranch, [d, s]    =>
      if d.isRegister && s.kind != .longLiteral then some (relBranch d.value s) else none
  | .jump, [a]            =>
      if a.isRegister then m.registerForm.map (registerJump · a.value) else some (jump a)
  | .pointerJump, [p, a]  =>
      if p.isRegister && !a.isRegister then some (pointerJump p.value a) else none
  | .augment, [n]         => if n.kind == .immediate then some (augment n.value) else none
  | .bare, []             => some bare
  | _, _                  => none

end Arguments

/-! ### Instructions -/

/-- An instruction whose operands, condition and effects its mnemonic allows. -/
structure Instruction where
  condition : Condition
  mnemonic : Mnemonic
  operands : List Operand
  arguments : Arguments
  effects : Effects
deriving Inhabited

/-- Where an instruction stands. -/
structure Origin where
  /-- In longs for a cog, in bytes for the hub. -/
  address : Int
  hub : Bool
deriving DecidableEq, Inhabited

/-- How far apart neighbouring instructions are. -/
def Origin.step (o : Origin) : Int := if o.hub then 4 else 1

namespace Instruction

/-- The instruction with the given operands.  A jump to an address has no effects, because the
place of the carry effect tells whether it is relative; and doing nothing has no condition. -/
def make (condition : Option Condition) (m : Mnemonic) (operands : List Operand)
    (effects : Effects) : Except EncodeError Instruction :=
  let jumps := m.schema == .jump || m.schema == .pointerJump
  let shaped := if jumps || !operands.any Operand.absolute
    then Arguments.ofOperands? m operands else none
  match shaped with
  | none => .error (.invalidArguments m.name m.schema.text)
  | some arguments =>
    let immediate := jumps && operands.all (!·.isRegister)
    if !m.effects.contains effects || (immediate && effects != .none) then
      .error (.invalidEffect m.name effects.text)
    else if m.isNop && condition.isSome then
      .error (.invalidCondition m.name)
    else
      .ok { condition := condition.getD .always, mnemonic := m, operands, arguments, effects }

/-! ### Fields -/

/-- The greatest value of a field. -/
def fieldMax : Nat := 0x1FF

/-- The greatest immediate that a source field of the instruction holds. -/
def sourceMax (m : Mnemonic) : Nat := if m.hubTransfer then 0xFF else fieldMax

/-- What stands in a field, and what goes in front of the instruction. -/
structure Field where
  value : Nat
  immediate : Bool
  /-- The upper 23 bits of an immediate that is split. -/
  upper : Option Nat := none
deriving DecidableEq, Inhabited

/-- One for a mark that is set. -/
def bit (b : Bool) : Nat := if b then 1 else 0

/-- The upper 23 bits of a long. -/
def upperBits (word : Nat) : Nat := word / 2 ^ 9 % 2 ^ 23

/-- The number of a register. -/
def register (env : Environment) (e : Expression) : Except EncodeError Nat := do
  let address ← (e.evalInt env).mapError .eval
  if 0 ≤ address.toInt ∧ address.toInt ≤ fieldMax then .ok address.toInt.toNat
  else .error (.registerOutOfRange address.toInt)

/-- An immediate is split: a long literal always, any other one if it does not fit.  One that
cannot be evaluated yet is taken to fit. -/
def isSplit (env : Environment) (most : Nat) (o : Operand) : Bool :=
  match o.kind with
  | .register    => false
  | .longLiteral => true
  | .immediate   =>
    match o.value.eval env with
    | .ok n    => most < n.word
    | .error _ => false

/-- The field of an operand. -/
def fieldOf (env : Environment) (most : Nat) (o : Operand) : Except EncodeError Field := do
  if o.isRegister then
    return { value := ← register env o.value, immediate := false }
  let n ← (o.value.eval env).mapError .eval
  let upper := if o.kind == .longLiteral || most < n.word then some (upperBits n.word) else none
  return { value := n.word % 2 ^ 9, immediate := true, upper }

/-- The offset of a branch, in instructions, as nine bits. -/
def distanceField (env : Environment) (origin : Origin) (target : Expression) :
    Except EncodeError Nat := do
  let target ← (target.evalInt env).mapError .eval
  let offset := target.toInt - (origin.address + origin.step)
  if origin.hub ∧ offset % 4 ≠ 0 then .error .unalignedBranch
  else
    let steps := offset / origin.step
    if -256 ≤ steps ∧ steps ≤ 255 then .ok (steps % 2 ^ 9).toNat
    else .error (.branchOutOfRange steps)

/-- The address of a jump with the mark of a relative one.  A jump is relative unless it is forced
to be absolute or leads to the other memory.  What does not name a line counts as hub memory from
`$400` up. -/
def jumpField (env : Environment) (origin : Origin) (o : Operand) : Except EncodeError Nat := do
  let target ← (o.value.evalInt env).mapError .eval
  let targetHub := match o.value.target? env with
    | some a => a.hub
    | none   => decide (0x400 ≤ target.toInt)
  if !o.absolute && targetHub == origin.hub then
    let offset := target.toInt - (origin.address + origin.step)
    if -2 ^ 19 ≤ offset ∧ offset < 2 ^ 19 then .ok (2 ^ 20 + (offset % 2 ^ 20).toNat)
    else .error (.addressOutOfRange offset)
  else if 0 ≤ target.toInt ∧ target.toInt < 2 ^ 20 then .ok target.toInt.toNat
  else .error (.addressOutOfRange target.toInt)

/-- Which of the four pointer registers an expression names. -/
def pointerField (env : Environment) (e : Expression) : Except EncodeError Nat := do
  let pointer ← (e.evalInt env).mapError .eval
  if 0x1F6 ≤ pointer.toInt ∧ pointer.toInt ≤ 0x1F9 then .ok (pointer.toInt - 0x1F6).toNat
  else .error .pointerRegister

/-- A number that is at most `most`. -/
def selector (env : Environment) (most : Nat) (e : Expression) : Except EncodeError Nat := do
  let n ← (e.evalInt env).mapError .eval
  if 0 ≤ n.toInt ∧ n.toInt ≤ most then .ok n.toInt.toNat
  else .error (.valueOutOfRange n.toInt s!"0..{most}")

/-! ### Words -/

/-- The fixed bits of the instruction that augments the next source. -/
def augmentSource : Nat := 0b11110 * 2 ^ 23

/-- The fixed bits of the instruction that augments the next destination. -/
def augmentDest : Nat := 0b11111 * 2 ^ 23

/-- The bits of the condition. -/
def conditionBits (i : Instruction) : Nat := i.condition.bits * 2 ^ 28

/-- The fixed bits with the condition and the effects. -/
def head (i : Instruction) : Nat := i.conditionBits + i.mnemonic.base + i.effects.bits

/-- The augmenting word that a field needs. -/
def augmentWords (i : Instruction) (base : Nat) (f : Field) : List Nat :=
  f.upper.toList.map (i.conditionBits + base + ·)

/-- The words of an instruction: the augmenting ones, that of the destination first, and then the
instruction itself. -/
def words (i : Instruction) (env : Environment) (origin : Origin) :
    Except EncodeError (List Nat) :=
  match i.arguments with
  | .source d s => do
    let d ← register env d
    let s ← fieldOf env (sourceMax i.mnemonic) s
    return i.augmentWords augmentSource s ++
      [i.head + bit s.immediate * 2 ^ 18 + d * 2 ^ 9 + s.value]
  | .pair d s => do
    let d ← fieldOf env fieldMax d
    let s ← fieldOf env (sourceMax i.mnemonic) s
    return i.augmentWords augmentDest d ++ i.augmentWords augmentSource s ++
      [i.head + bit d.immediate * 2 ^ 19 + bit s.immediate * 2 ^ 18 + d.value * 2 ^ 9 + s.value]
  | .dest d => do
    let d ← fieldOf env fieldMax d
    return i.augmentWords augmentDest d ++ [i.head + bit d.immediate * 2 ^ 18 + d.value * 2 ^ 9]
  | .reg d => do
    return [i.head + (← register env d) * 2 ^ 9]
  | .field most d s n => do
    let d ← register env d
    let s ← fieldOf env fieldMax s
    let n ← selector env most n
    return i.augmentWords augmentSource s ++
      [i.head + n * 2 ^ 19 + bit s.immediate * 2 ^ 18 + d * 2 ^ 9 + s.value]
  | .relBranch d target => do
    let d ← register env d
    if target.isRegister then
      return [i.head + d * 2 ^ 9 + (← register env target.value)]
    else
      return [i.head + 2 ^ 18 + d * 2 ^ 9 + (← distanceField env origin target.value)]
  | .registerJump base d => do
    return [i.conditionBits + base + i.effects.bits + (← register env d) * 2 ^ 9]
  | .jump target => do
    return [i.conditionBits + i.mnemonic.base + (← jumpField env origin target)]
  | .pointerJump pointer target => do
    let pointer ← pointerField env pointer
    return [i.head + pointer * 2 ^ 21 + (← jumpField env origin target)]
  | .augment n => do
    return [i.head + upperBits (← (n.eval env).mapError .eval).word]
  | .bare => .ok [if i.mnemonic.isNop then 0 else i.head]

/-- The bytes of an instruction at a place. -/
def encode (i : Instruction) (env : Environment) (origin : Origin) : Except EncodeError Bytes := do
  return (← i.words env origin).flatMap (littleEndian 4)

/-- How many of the operands are split. -/
def splitCount (i : Instruction) (env : Environment) : Nat :=
  let source := sourceMax i.mnemonic
  match i.arguments with
  | .source _ s    => bit (isSplit env source s)
  | .pair d s      => bit (isSplit env fieldMax d) + bit (isSplit env source s)
  | .dest d        => bit (isSplit env fieldMax d)
  | .field _ _ s _ => bit (isSplit env fieldMax s)
  | _              => 0

/-- How many bytes the instruction takes. -/
def size (i : Instruction) (env : Environment) : Nat := 4 * (1 + i.splitCount env)

end Instruction

end Propeller
