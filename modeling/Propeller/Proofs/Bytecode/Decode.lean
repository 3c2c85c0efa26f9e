import Propeller.Proofs.Bytecode.Branch
import Propeller.Proofs.Bytecode.Constant
import Propeller.Proofs.Outcome

/-!
# Bytecode — reading instructions

`decode` reads one instruction off the front of a row of bytes.  What it finds is the *meaning* of the
instruction: the opcode with its operands as numbers, whatever form they were stored in.

The first byte of an instruction is its *lead*: an opcode, or a small operand packed into one of a row
of opcodes (`Lead`).  No two leads have the same byte, and what follows a lead is known from it.

* `Code.meaning`: the meaning of an instruction, from where the things it refers to are.
* `Code.Emittable`: the instructions that have bytes of their own.  Opcodes with operands are not
  among those without, and a register is a long that is not indexed.
* `Code.reads_encode`: an emittable instruction is read back as its meaning, and what stands behind it
  is left as it was.
-/

namespace Propeller

/-! ### Readers -/

/-- Takes something off the front of a row of bytes. -/
abbrev Reader := StateT Bytes Option

/-- A row of bytes is read as `a`, whatever stands behind it. -/
def Reads {α : Type} (r : Reader α) (bytes : Bytes) (a : α) : Prop :=
  ∀ rest, r (bytes ++ rest) = some (a, rest)

section Reads

variable {α β : Type} {r : Reader α} {f : α → Reader β} {bytes bytes' : Bytes} {a : α} {b : β}

theorem reads_pure (a : α) : Reads (pure a) [] a := fun _ => rfl

theorem Reads.bind (h : Reads r bytes a) (h' : Reads (f a) bytes' b) :
    Reads (r >>= f) (bytes ++ bytes') b := by
  intro rest
  have hr := h (bytes' ++ rest)
  rw [List.append_assoc]
  -- the first reader matters only for what it gives here
  have hconst : (r >>= f) (bytes ++ (bytes' ++ rest)) =
      ((fun _ => r (bytes ++ (bytes' ++ rest)) : Reader α) >>= f) (bytes ++ (bytes' ++ rest)) := rfl
  rw [hconst, hr]
  exact h' rest

/-- The last thing that is read is given to a function. -/
theorem Reads.map {g : α → β} (h : Reads r bytes a) :
    Reads (r >>= fun a => pure (g a)) bytes (g a) := by
  have := h.bind (f := fun a => pure (g a)) (reads_pure (g a))
  rwa [List.append_nil] at this

end Reads

namespace Reader

/-- The next bytes. -/
def take (n : Nat) : Reader Bytes := fun bytes =>
  if n ≤ bytes.length then some (bytes.take n, bytes.drop n) else none

/-- The number in the next bytes. -/
def number (width : Nat) : Reader Nat := do return ofLittleEndian (← take width)

theorem reads_take (bytes : Bytes) : Reads (take bytes.length) bytes bytes := by
  intro rest
  have hle : bytes.length ≤ (bytes ++ rest).length := by simp
  rw [take, if_pos hle, List.take_left, List.drop_left]

theorem reads_number {width n : Nat} (h : n < 256 ^ width) :
    Reads (number width) (littleEndian width n) n := by
  have hread := (reads_take (littleEndian width n)).map (g := ofLittleEndian)
  rwa [length_littleEndian, ofLittleEndian_littleEndian, Nat.mod_eq_of_lt h] at hread

theorem reads_unsigned {v : Nat} (h : v < 2 ^ 29) :
    Reads Varint.readUnsigned (Varint.unsigned v) v :=
  Varint.readUnsigned_unsigned h

theorem reads_signed {v : Int} (h : -2 ^ 28 ≤ v ∧ v < 2 ^ 28) :
    Reads Varint.readSigned (Varint.signed v) v :=
  Varint.readSigned_signed h

end Reader

/-! ### Leads -/

/-- What the first byte of an instruction says. -/
inductive Lead
  | op (o : Op)
  /-- A small constant, by its distance from `-1`. -/
  | small (distance : Nat)
  /-- A variable in memory, whose offset follows. -/
  | memory (base : Base) (kind : DataType) (indexed : Bool)
  /-- One of the first longs of the variables of the object. -/
  | objectLong (index : Nat)
  /-- One of the first longs of the frame, -/
  | frameLong (index : Nat)
  /-- which is read, -/
  | readLong (index : Nat)
  /-- or written. -/
  | writeLong (index : Nat)
deriving DecidableEq

namespace Lead

/-- The opcodes that begin instructions. -/
def code : Lead → Nat
  | op o         => o.code
  | small distance => ConstantForm.smallCode + distance
  | memory base kind indexed => (if indexed then 0x53 else 0x4A) + base.code * 3 + kind.code
  | objectLong i => 0xB0 + i
  | frameLong i  => 0xC0 + i
  | readLong i   => 0xD0 + i
  | writeLong i  => 0xE0 + i

/-- The byte that an instruction begins with. -/
def byte (l : Lead) : UInt8 := UInt8.ofNat l.code

/-- Everything that an instruction can begin with. -/
def all : List Lead :=
  Op.all.map op ++ (List.range 16).map small ++
    [Base.object, .objectVars, .frame].flatMap (fun base =>
      [DataType.byte, .word, .long].flatMap fun kind =>
        [memory base kind false, memory base kind true]) ++
    (List.range 16).map objectLong ++ (List.range 16).map frameLong ++
    (List.range 16).map readLong ++ (List.range 16).map writeLong

/-- What a byte begins. -/
def ofByte? (b : UInt8) : Option Lead := all.find? fun l => l.code == b.toNat

/-- No two leads have the same byte. -/
theorem ofByte?_byte : ∀ l ∈ all, ofByte? l.byte = some l := by decide +kernel

/-- The lead of the next instruction. -/
def read : Reader Lead
  | []        => none
  | b :: rest => (ofByte? b).map fun l => (l, rest)

theorem reads_read {l : Lead} (h : l ∈ all) : Reads read [l.byte] l := by
  intro rest
  rw [List.singleton_append, read, ofByte?_byte l h]
  rfl

theorem mem_op (o : Op) : op o ∈ all := by
  have h : o ∈ Op.all := by
    cases o with
    | branch b => cases b <;> decide
    | unary u => cases u <;> decide
    | binary b =>
      cases b with
      | integer i => cases i <;> decide
      | float f => cases f <;> decide
    | _ => decide
  simp [all, h]

theorem mem_small {i : Nat} (h : i < 16) : small i ∈ all := by simp [all, h]

theorem mem_memory (base : Base) (kind : DataType) (indexed : Bool) :
    memory base kind indexed ∈ all := by
  cases base <;> cases kind <;> cases indexed <;> simp [all]

theorem mem_objectLong {i : Nat} (h : i < 16) : objectLong i ∈ all := by simp [all, h]

theorem mem_frameLong {i : Nat} (h : i < 16) : frameLong i ∈ all := by simp [all, h]

theorem mem_readLong {i : Nat} (h : i < 16) : readLong i ∈ all := by simp [all, h]

theorem mem_writeLong {i : Nat} (h : i < 16) : writeLong i ∈ all := by simp [all, h]

end Lead

/-! ### Instructions -/

/-- An instruction with its operands as numbers. -/
inductive Meaning
  /-- An opcode without operands. -/
  | op (o : Op)
  /-- Push a 32-bit word. -/
  | constant (word : Nat)
  /-- To the place `offset` bytes behind the end of the instruction. -/
  | branch (b : Branch) (offset : Int)
  | pop (bytes : Nat)
  | access (place : Place) (kind : DataType) (indexed : Bool) (o : Op)
  /-- A method of the object itself, -/
  | call (index : Nat)
  /-- or of a child, whose place in an array is on the stack if it is indexed. -/
  | callObject (object index : Nat) (indexed : Bool)
  | inline (origin : Nat) (code : Bytes)
  | debug (values record : Nat)
deriving DecidableEq

/-- The next byte as what is done with a variable. -/
def Reader.opcode : Reader Op := do
  match ← Lead.read with
  | .op o => return o
  | _     => failure

theorem Reader.reads_opcode (o : Op) : Reads opcode [o.byte] o :=
  (Lead.reads_read (Lead.mem_op o)).bind (reads_pure o)

/-- A constant whose operand has `width` bytes. -/
def ConstantForm.read (form : Nat → ConstantForm) (width : Nat) : Reader Meaning := do
  return .constant (form (← Reader.number width)).value

/-- What follows an opcode. -/
def Op.operands : Op → Reader Meaning
  | .conByte     => ConstantForm.read .byte 1
  | .conByteNot  => ConstantForm.read .byteNot 1
  | .conWord     => ConstantForm.read .word 2
  | .conWordNot  => ConstantForm.read .wordNot 2
  | .conLong     => ConstantForm.read .long 4
  | .conDecod    => ConstantForm.read .decod 1
  | .conDecodNot => ConstantForm.read .decodNot 1
  | .conBmask    => ConstantForm.read .bmask 1
  | .conBmaskNot => ConstantForm.read .bmaskNot 1
  | .branch b    => do return .branch b (← Varint.readSigned)
  | .pop         => do return .pop (← Varint.readUnsigned)
  | .call        => do return .call (← Varint.readUnsigned)
  | .callObject  => do
    let object ← Varint.readUnsigned
    return .callObject object (← Varint.readUnsigned) false
  | .callObjectIndexed => do
    let object ← Varint.readUnsigned
    return .callObject object (← Varint.readUnsigned) true
  | .inline      => do
    let origin ← Varint.readUnsigned
    let last ← Varint.readUnsigned
    return .inline origin (← Reader.take (4 * (last + 1)))
  | .debug       => do
    let values ← Reader.number 1
    return .debug values (← Reader.number 1)
  | .setupRegister => do
    let address ← Varint.readUnsigned
    return .access (.register address) .long false (← Reader.opcode)
  | o            => pure (.op o)

/-- What follows a lead. -/
def Lead.operands : Lead → Reader Meaning
  | op o           => o.operands
  | small distance => pure (.constant (ConstantForm.small distance).value)
  | memory base kind indexed => do
    let offset ← Varint.readUnsigned
    return .access (.memory base offset) kind indexed (← Reader.opcode)
  | objectLong i   => do return .access (.memory .objectVars (4 * i)) .long false (← Reader.opcode)
  | frameLong i    => do return .access (.memory .frame (4 * i)) .long false (← Reader.opcode)
  | readLong i     => pure (.access (.memory .frame (4 * i)) .long false .read)
  | writeLong i    => pure (.access (.memory .frame (4 * i)) .long false .write)

/-- The next instruction. -/
def decode : Reader Meaning := do
  let lead ← Lead.read
  lead.operands

theorem reads_decode {l : Lead} (hl : l ∈ Lead.all) {bytes : Bytes} {m : Meaning}
    (h : Reads l.operands bytes m) : Reads decode (l.byte :: bytes) m :=
  (Lead.reads_read hl).bind h

theorem reads_decode_op (o : Op) {bytes : Bytes} {m : Meaning} (h : Reads o.operands bytes m) :
    Reads decode (o.byte :: bytes) m :=
  reads_decode (Lead.mem_op o) h

/-! ### What instructions mean -/

/-- The offset that the operand of a branch over `distance` bytes holds. -/
def branchOffset (distance : Int) : Int :=
  let offset (size : Nat) : Int := (distance - size).bmod (2 ^ 32)
  match [2, 3, 4].find? fun size => Varint.signedLength (offset size) + 1 = size with
  | some size => offset size
  | none      => offset 5

theorem branchOperand_eq_signed (distance : Int) :
    branchOperand distance = Varint.signed (branchOffset distance) := by
  simp only [branchOperand, branchOffset, Varint.length_signed]
  split
  · next hfind => rw [hfind]
  · next hfind => rw [hfind]

/-- The meaning of an instruction that stands at `here`, with the addresses of the lines of its
method. -/
def Code.meaning (r : Resolution) (here : Int) (lines : Array Int) :
    Code → Except EncodeError Meaning
  | op o                => .ok (.op o)
  | constant value      => do
      let n ← (value.eval r.environment).mapError .eval
      return .constant n.word
  | branch b line       => .ok (.branch b (branchOffset (lines.getD line 0 - here)))
  | pop bytes           => .ok (.pop bytes)
  | access setup o      => do
      return .access (← setup.slot.place r) setup.kind setup.indexed o
  | call m indexed      =>
      match m.link with
      | none      => .ok (.call (r.methodIndex m))
      | some link => .ok (.callObject link.object (r.methodIndex m) indexed)
  | inline origin block => .ok (.inline origin (r.block block))
  | debug values record => .ok (.debug values record)

/-- The number of a register, or the offset in a memory. -/
def Place.number : Place → Nat
  | register address => address
  | memory _ offset  => offset

/-- The operands can be stored: unsigned ones in 29 bits, and signed ones in 29 bits with their sign.
Assembly code consists of longs, and there is at least one. -/
def Meaning.Fits : Meaning → Prop
  | op _                      => True
  | constant _                => True
  | branch _ offset           => -2 ^ 28 ≤ offset ∧ offset < 2 ^ 28
  | pop bytes                 => bytes < 2 ^ 29
  | access place _ _ _        => place.number < 2 ^ 29
  | call index                => index < 2 ^ 29
  | callObject object index _ => object < 2 ^ 29 ∧ index < 2 ^ 29
  | inline origin code        =>
    origin < 2 ^ 29 ∧ 0 < code.length ∧ 4 ∣ code.length ∧ code.length / 4 - 1 < 2 ^ 29
  | debug _ _                 => True

/-- An opcode that nothing follows. -/
def Op.Plain : Op → Prop
  | conByte | conByteNot | conWord | conWordNot | conLong | conDecod | conDecodNot | conBmask
  | conBmaskNot | branch _ | pop | call | callObject | callObjectIndexed | inline | debug
  | setupRegister => False
  | _ => True

/-- An instruction whose bytes hold all of it: an opcode without operands has none, a register is a
long and is not indexed, and what is counted in one byte has room in it. -/
def Code.Emittable : Code → Prop
  | op o                => o.Plain
  | access setup _      =>
    ∀ address, setup.slot = .register address → setup.kind = .long ∧ setup.indexed = false
  | debug values record => values < 2 ^ 8 ∧ record < 2 ^ 8
  | constant _ | branch _ _ | pop _ | call _ _ | inline _ _ => True

/-! ### Reading what was emitted -/

open Reader (reads_take reads_number reads_unsigned reads_signed reads_opcode)

theorem Op.Plain.reads {o : Op} (h : o.Plain) : Reads o.operands [] (.op o) := by
  cases o with
  | conByte | conByteNot | conWord | conWordNot | conLong | conDecod | conDecodNot | conBmask
  | conBmaskNot | branch | pop | call | callObject | callObjectIndexed | inline | debug
  | setupRegister => exact h.elim
  | _ => exact reads_pure _

/-- A constant is read as the word that its form stands for. -/
theorem ConstantForm.Fits.reads {f : ConstantForm} (h : f.Fits) :
    Reads decode f.bytes (.constant f.value) := by
  have stored : ∀ {form : Nat → ConstantForm} {width v : Nat}, v < 256 ^ width →
      Reads (ConstantForm.read form width) (littleEndian width v) (.constant (form v).value) :=
    fun hv => (reads_number hv).map
  have bit : ∀ {k : Nat}, k < 32 → k < 256 ^ 1 := fun hk => Nat.lt_trans hk (by decide)
  cases f with
  | small distance => exact reads_decode (Lead.mem_small h) (reads_pure _)
  | byte v => exact reads_decode_op .conByte (stored h)
  | byteNot v => exact reads_decode_op .conByteNot (stored h)
  | decod k => exact reads_decode_op .conDecod (stored (bit h))
  | decodNot k => exact reads_decode_op .conDecodNot (stored (bit h))
  | bmask k => exact reads_decode_op .conBmask (stored (bit h))
  | bmaskNot k => exact reads_decode_op .conBmaskNot (stored (bit h))
  | word v => exact reads_decode_op .conWord (stored h)
  | wordNot v => exact reads_decode_op .conWordNot (stored h)
  | long v => exact reads_decode_op .conLong (stored h)

/-- **A constant is pushed in its shortest form.**  The form of a 32-bit word fits, stands for that word and is
read as it, and every other form that fits and stands for it has at least as many bytes. -/
theorem ConstantForm.choose_shortest {v : Nat} (h : v < 2 ^ 32) :
    (choose v).Fits ∧ (choose v).value = v ∧ Reads decode (choose v).bytes (.constant v) ∧
      ∀ f : ConstantForm, f.Fits → f.value = v → (choose v).bytes.length ≤ f.bytes.length := by
  obtain ⟨hfits, hvalue⟩ := choose_spec h
  have hread := hfits.reads
  rw [hvalue] at hread
  refine ⟨hfits, hvalue, hread, fun f hf hv => ?_⟩
  rw [← hv]
  exact length_choose_le hf

/-- The word with all but its first 28 bits set is the complement of a row of bits. -/
theorem ConstantForm.choose_shortest_mask :
    choose 0xF0000000 = .bmaskNot 27 ∧ Reads decode (bmaskNot 27).bytes (.constant 0xF0000000) ∧
      ∀ f : ConstantForm, f.Fits → f.value = 0xF0000000 → 2 ≤ f.bytes.length := by
  obtain ⟨-, -, hread, hshortest⟩ := choose_shortest (show 0xF0000000 < 2 ^ 32 by decide)
  exact ⟨by decide, hread, hshortest⟩

namespace Setup

variable {kind : DataType} {indexed : Bool} {base : Base} {offset : Nat}

theorem reads_general (h : offset < 2 ^ 29) (o : Op) :
    Reads decode (general kind indexed base offset ++ [o.byte])
      (.access (.memory base offset) kind indexed o) :=
  reads_decode (Lead.mem_memory base kind indexed) ((reads_unsigned h).bind (reads_opcode o).map)

/-- **A variable** is read as what it is, in whatever form it was stored. -/
theorem reads_bytes {place : Place} (h : place.number < 2 ^ 29)
    (hr : ∀ address, place = .register address → kind = .long ∧ indexed = false) (o : Op) :
    Reads decode (bytes kind indexed place o) (.access place kind indexed o) := by
  cases place with
  | register address =>
    obtain ⟨rfl, rfl⟩ := hr address rfl
    exact reads_decode_op .setupRegister ((reads_unsigned h).bind (reads_opcode o).map)
  | memory base offset =>
    simp only [bytes]
    by_cases hfast : kind = .long ∧ !indexed ∧ offset % 4 = 0 ∧ offset / 4 < 16
    · rw [if_pos hfast]
      obtain ⟨rfl, hindexed, hmod, hlt⟩ := hfast
      obtain rfl : indexed = false := by simpa using hindexed
      -- the packed number is the offset in longs
      obtain ⟨i, rfl⟩ : 4 ∣ offset := Nat.dvd_of_mod_eq_zero hmod
      rw [Nat.mul_div_cancel_left i (by decide)] at hlt ⊢
      split
      · exact reads_decode (Lead.mem_readLong hlt) (reads_pure _)
      · exact reads_decode (Lead.mem_writeLong hlt) (reads_pure _)
      · exact reads_decode (Lead.mem_frameLong hlt) (reads_opcode o).map
      · exact reads_decode (Lead.mem_objectLong hlt) (reads_opcode o).map
      · exact reads_general h o
    · rw [if_neg hfast]
      exact reads_general h o

end Setup

/-- The place of a slot is a register only if the slot is one. -/
theorem Slot.place_eq_register {r : Resolution} {s : Slot} {address : Nat}
    (h : s.place r = .ok (.register address)) : ∃ e, s = .register e := by
  cases s with
  | register e => exact ⟨e, rfl⟩
  | objectVar v =>
    rw [place] at h
    split at h
    · cases h
    · cases h
  | localVar v => cases h
  | dat e =>
    obtain ⟨_, -, h⟩ := bind_eq_ok h
    cases h

/-- **Reading an instruction.**  An emittable instruction whose operands can be stored is read back as
its meaning. -/
theorem Code.reads_encode {r : Resolution} {here : Int} {lines : Array Int} {c : Code}
    (hc : c.Emittable) {bytes : Bytes} (he : c.encode r here lines = .ok bytes) :
    ∃ m, c.meaning r here lines = .ok m ∧ (m.Fits → Reads decode bytes m) := by
  cases c with
  | op o =>
    cases he
    exact ⟨_, rfl, fun _ => reads_decode_op o hc.reads⟩
  | constant value =>
    obtain ⟨n, hn, he⟩ := bind_eq_ok he
    cases he
    refine ⟨.constant n.word, by rw [meaning, hn]; rfl, fun _ => ?_⟩
    obtain ⟨hfits, hvalue⟩ := ConstantForm.choose_spec n.word_lt
    have hread := hfits.reads
    rwa [hvalue] at hread
  | branch b line =>
    cases he
    refine ⟨_, rfl, fun hf => reads_decode_op (.branch b) ?_⟩
    rw [branchOperand_eq_signed]
    exact (reads_signed hf).map
  | pop n =>
    cases he
    exact ⟨_, rfl, fun hf => reads_decode_op .pop (reads_unsigned hf).map⟩
  | access setup o =>
    obtain ⟨place, hplace, he⟩ := bind_eq_ok he
    cases he
    refine ⟨.access place setup.kind setup.indexed o, by rw [meaning, hplace]; rfl, fun hf => ?_⟩
    refine Setup.reads_bytes hf (fun address ha => ?_) o
    obtain ⟨e, hslot⟩ := Slot.place_eq_register (ha ▸ hplace)
    exact hc e hslot
  | call m indexed =>
    cases hlink : m.link with
    | none =>
      simp only [encode, hlink] at he
      cases he
      refine ⟨.call (r.methodIndex m), by simp only [meaning, hlink], fun hf => ?_⟩
      exact reads_decode_op .call (reads_unsigned hf).map
    | some link =>
      simp only [encode, hlink] at he
      cases he
      refine ⟨.callObject link.object (r.methodIndex m) indexed,
        by simp only [meaning, hlink], fun hf => ?_⟩
      cases indexed with
      | false =>
        exact reads_decode_op .callObject ((reads_unsigned hf.1).bind (reads_unsigned hf.2).map)
      | true =>
        exact reads_decode_op .callObjectIndexed
          ((reads_unsigned hf.1).bind (reads_unsigned hf.2).map)
  | inline origin block =>
    obtain rfl := Except.ok.inj he
    refine ⟨_, rfl, fun hf => ?_⟩
    obtain ⟨horigin, hpos, hdvd, hlast⟩ := hf
    have hlength : 4 * ((r.block block).length / 4 - 1 + 1) = (r.block block).length := by
      have : 0 < (r.block block).length / 4 := Nat.div_pos (Nat.le_of_dvd hpos hdvd) (by decide)
      rw [Nat.sub_add_cancel this, Nat.mul_div_cancel' hdvd]
    have hcode := reads_take (r.block block)
    rw [← hlength] at hcode
    rw [List.append_assoc, List.cons_append]
    exact reads_decode_op .inline
      ((reads_unsigned horigin).bind ((reads_unsigned hlast).bind hcode.map))
  | debug values record =>
    cases he
    refine ⟨_, rfl, fun _ => reads_decode_op .debug ?_⟩
    exact (reads_number hc.1).bind (reads_number hc.2).map

end Propeller
