import Propeller.Assembly.Instruction
import Mathlib.Data.List.Pairwise
import Mathlib.Tactic.NormNum

/-!
# Assembly — the forms of instructions

A word has seven parts (`InstructionWord`).  A row of the instruction table fixes some of them, and the
condition, the effects and the operands fill the others; a jump through a register is a *form* of its
own, with fixed bits of its own (`Form`).

* `Form.regular_of_mem`: the parts that a form leaves free are zero in its fixed bits, so that nothing
  that fills them meets a fixed bit.
* `Form.eq_of_matches`: no word has the fixed parts of two forms.

The instruction that does nothing is left out: its word is also that of a rotation by register 0.
-/

namespace Propeller

variable {w x : InstructionWord} {f g : Form}

/-! ### The parts of a word -/

/-- The parts of an instruction word, from the highest bits to the lowest. -/
structure InstructionWord where
  condition : Nat
  opcode : Nat
  carry : Nat
  zero : Nat
  immediate : Nat
  dest : Nat
  source : Nat
deriving DecidableEq

namespace InstructionWord

/-- The word that consists of the parts. -/
def toNat (w : InstructionWord) : Nat :=
  w.condition * 2 ^ 28 + w.opcode * 2 ^ 21 + w.carry * 2 ^ 20 + w.zero * 2 ^ 19 +
    w.immediate * 2 ^ 18 + w.dest * 2 ^ 9 + w.source

/-- The parts of a word. -/
def ofNat (n : Nat) : InstructionWord :=
  { condition := n / 2 ^ 28
    opcode := n / 2 ^ 21 % 2 ^ 7
    carry := n / 2 ^ 20 % 2
    zero := n / 2 ^ 19 % 2
    immediate := n / 2 ^ 18 % 2
    dest := n / 2 ^ 9 % 2 ^ 9
    source := n % 2 ^ 9 }

/-- Every part has room in its place. -/
structure Bounded (w : InstructionWord) : Prop where
  condition : w.condition < 2 ^ 4
  opcode : w.opcode < 2 ^ 7
  carry : w.carry < 2
  zero : w.zero < 2
  immediate : w.immediate < 2
  dest : w.dest < 2 ^ 9
  source : w.source < 2 ^ 9

theorem toNat_ofNat (n : Nat) : (ofNat n).toNat = n := by
  simp only [toNat, ofNat]
  omega

theorem ofNat_toNat (h : w.Bounded) : ofNat w.toNat = w := by
  obtain ⟨h₁, h₂, h₃, h₄, h₅, h₆, h₇⟩ := h
  obtain ⟨e, o, c, z, i, d, s⟩ := w
  simp only [ofNat, toNat, mk.injEq] at *
  omega

theorem toNat_lt (h : w.Bounded) : w.toNat < 2 ^ 32 := by
  obtain ⟨h₁, h₂, h₃, h₄, h₅, h₆, h₇⟩ := h
  simp only [toNat]
  omega

/-- Put the parts of one word into the places of another. -/
def fill (w x : InstructionWord) : InstructionWord :=
  { condition := w.condition + x.condition
    opcode := w.opcode + x.opcode
    carry := w.carry + x.carry
    zero := w.zero + x.zero
    immediate := w.immediate + x.immediate
    dest := w.dest + x.dest
    source := w.source + x.source }

theorem toNat_fill (w x : InstructionWord) : (w.fill x).toNat = w.toNat + x.toNat := by
  simp only [toNat, fill]
  omega

/-- The twenty bits of an address. -/
def address (w : InstructionWord) : Nat :=
  w.zero * 2 ^ 19 + w.immediate * 2 ^ 18 + w.dest * 2 ^ 9 + w.source

/-- The 23 bits that augment an immediate. -/
def upper (w : InstructionWord) : Nat := w.opcode % 4 * 2 ^ 21 + w.carry * 2 ^ 20 + w.address

/-- The word with the 21 bits of an address and its mark in the places below the opcode. -/
def addressed (condition opcode a : Nat) : InstructionWord :=
  { ofNat a with condition, opcode, carry := a / 2 ^ 20 }

theorem toNat_addressed (condition opcode a : Nat) :
    (addressed condition opcode a).toNat = condition * 2 ^ 28 + opcode * 2 ^ 21 + a := by
  simp only [addressed, toNat, ofNat]
  omega

theorem address_addressed (condition opcode a : Nat) :
    (addressed condition opcode a).address = a % 2 ^ 20 := by
  simp only [addressed, address, ofNat]
  omega

end InstructionWord

/-! ### Forms -/

/-- A row of the table, or its form with a register. -/
structure Form where
  mnemonic : Mnemonic
  throughRegister : Bool
deriving DecidableEq

/-- Which parts of a word are not fixed; of an opcode these are the two lowest bits. -/
structure Free where
  opcode : Bool := false
  carry : Bool
  zero : Bool
  immediate : Bool := false
  dest : Bool := false
  source : Bool := false

namespace Form

/-- The fixed bits, without the condition. -/
def base (f : Form) : Nat :=
  if f.throughRegister then f.mnemonic.registerForm.getD 0 else f.mnemonic.base

/-- The parts of the fixed bits. -/
def fixed (f : Form) : InstructionWord := .ofNat f.base

/-- What the condition, the effects and the operands fill. -/
def free (f : Form) : Free :=
  let e := f.mnemonic.effects
  if f.throughRegister then { carry := e.carry, zero := e.zero, dest := true }
  else match f.mnemonic.schema with
  | .regSource | .regOptSource | .relBranch =>
    { carry := e.carry, zero := e.zero, immediate := true, dest := true, source := true }
  | .pair   => { carry := e.carry, zero := true, immediate := true, dest := true, source := true }
  | .dest   => { carry := e.carry, zero := e.zero, immediate := true, dest := true }
  | .reg    => { carry := e.carry, zero := e.zero, dest := true }
  | .field2 => { carry := true, zero := true, immediate := true, dest := true, source := true }
  | .field1 => { carry := e.carry, zero := true, immediate := true, dest := true, source := true }
  | .jump   => { carry := true, zero := true, immediate := true, dest := true, source := true }
  | .pointerJump | .augment =>
    { opcode := true, carry := true, zero := true, immediate := true, dest := true, source := true }
  | .bare   => { carry := e.carry, zero := e.zero }

/-- Where a shape has other uses for the places of the effects, there are no effects. -/
def sparesEffects (m : Mnemonic) : Bool :=
  match m.schema with
  | .pair => !m.effects.zero
  | .field2 | .field1 | .relBranch | .pointerJump | .augment => m.effects = .none
  | _ => true

/-- The parts that are free are zero in the fixed bits. -/
structure Regular (f : Form) : Prop where
  condition : f.fixed.condition = 0
  opcode : f.free.opcode = true → f.fixed.opcode % 4 = 0
  carry : f.free.carry = true → f.fixed.carry = 0
  zero : f.free.zero = true → f.fixed.zero = 0
  immediate : f.free.immediate = true → f.fixed.immediate = 0
  dest : f.free.dest = true → f.fixed.dest = 0
  source : f.free.source = true → f.fixed.source = 0
  effects : sparesEffects f.mnemonic = true

/-- All forms of instructions other than the one that does nothing. -/
def all : List Form :=
  (Mnemonic.table.filter (!·.isNop)).map (⟨·, false⟩) ++
    (Mnemonic.table.filter (·.registerForm.isSome)).map (⟨·, true⟩)

/-- **The table is regular.** -/
theorem regular_of_mem : ∀ f ∈ all, f.Regular := by
  have h : ∀ f ∈ all, f.fixed.condition = 0 ∧ (f.free.opcode = true → f.fixed.opcode % 4 = 0) ∧
      (f.free.carry = true → f.fixed.carry = 0) ∧ (f.free.zero = true → f.fixed.zero = 0) ∧
      (f.free.immediate = true → f.fixed.immediate = 0) ∧
      (f.free.dest = true → f.fixed.dest = 0) ∧ (f.free.source = true → f.fixed.source = 0) ∧
      sparesEffects f.mnemonic = true := by decide +kernel
  intro f hf
  obtain ⟨h₁, h₂, h₃, h₄, h₅, h₆, h₇, h₈⟩ := h f hf
  exact ⟨h₁, h₂, h₃, h₄, h₅, h₆, h₇, h₈⟩

/-! ### Words of a form -/

/-- A word has the fixed parts of a form. -/
structure Matches (f : Form) (w : InstructionWord) : Prop where
  opcode : if f.free.opcode then w.opcode / 4 = f.fixed.opcode / 4 else w.opcode = f.fixed.opcode
  carry : f.free.carry = false → w.carry = f.fixed.carry
  zero : f.free.zero = false → w.zero = f.fixed.zero
  immediate : f.free.immediate = false → w.immediate = f.fixed.immediate
  dest : f.free.dest = false → w.dest = f.fixed.dest
  source : f.free.source = false → w.source = f.fixed.source

/-- Two forms whose opcodes agree in the upper five bits differ in a part that both fix. -/
def apart (f g : Form) : Bool :=
  (!f.free.source && !g.free.source && !f.fixed.source.beq g.fixed.source) ||
  (!f.free.opcode && !g.free.opcode && !f.fixed.opcode.beq g.fixed.opcode) ||
  (!f.free.immediate && !g.free.immediate && !f.fixed.immediate.beq g.fixed.immediate) ||
  (!f.free.carry && !g.free.carry && !f.fixed.carry.beq g.fixed.carry) ||
  (!f.free.zero && !g.free.zero && !f.fixed.zero.beq g.fixed.zero)

/-- The forms whose opcodes have the given upper five bits. -/
def group (k : Nat) : List Form := all.filter fun f => (f.fixed.opcode / 4).beq k

theorem pairwise_apart : ∀ k ∈ List.range (2 ^ 5), (group k).Pairwise fun f g => apart f g = true := by
  decide +kernel

/-- The upper five bits of an opcode are fixed in any case. -/
theorem Matches.group (h : f.Matches w) : f.fixed.opcode / 4 = w.opcode / 4 := by
  have hopcode := h.opcode
  split at hopcode
  · exact hopcode.symm
  · rw [hopcode]

/-- No word has the fixed parts of forms that are apart. -/
theorem Matches.not_apart (hf : f.Matches w) (hg : g.Matches w) : apart f g = false := by
  have differ : ∀ {free free' : Bool} {part part' other : Nat}, (free = false → other = part) →
      (free' = false → other = part') → (!free && !free' && !part.beq part') = false := by
    intro free free' part part' other h h'
    cases free with
    | true => rfl
    | false =>
    cases free' with
    | true => rfl
    | false =>
      rw [← h rfl, ← h' rfl, Nat.beq_refl]
      rfl
  have opcode : ∀ {f : Form}, f.Matches w → f.free.opcode = false → w.opcode = f.fixed.opcode := by
    intro f h hfree
    have hopcode := h.opcode
    rwa [hfree] at hopcode
  simp only [apart, differ hf.source hg.source, differ (opcode hf) (opcode hg),
    differ hf.immediate hg.immediate, differ hf.carry hg.carry, differ hf.zero hg.zero, Bool.or_false]

/-- **Forms are told apart** by their fixed parts. -/
theorem eq_of_matches (hf : f ∈ all) (hg : g ∈ all) (hw : w.Bounded) (hmf : f.Matches w)
    (hmg : g.Matches w) : f = g := by
  have mem : ∀ {f : Form}, f ∈ all → f.Matches w → f ∈ group (w.opcode / 4) := by
    intro f hf h
    exact List.mem_filter.mpr ⟨hf, by rw [h.group, Nat.beq_refl]⟩
  have hrange : w.opcode / 4 ∈ List.range (2 ^ 5) :=
    List.mem_range.mpr (Nat.div_lt_of_lt_mul hw.opcode)
  have hpairs := (pairwise_apart _ hrange).imp (S := fun f g => ¬ (f.Matches w ∧ g.Matches w)) ?_
  · by_contra hne
    have hsymm : Std.Symm fun f g : Form => ¬ (f.Matches w ∧ g.Matches w) :=
      ⟨fun f g h hgf => h ⟨hgf.2, hgf.1⟩⟩
    exact hpairs.forall (mem hf hmf) (mem hg hmg) hne ⟨hmf, hmg⟩
  · rintro f g hapart ⟨h, h'⟩
    rw [h.not_apart h'] at hapart
    cases hapart

/-! ### Filling a form -/

/-- How many values a part can take. -/
def room (free : Bool) (n : Nat) : Nat := if free then n else 1

/-- What a form is filled with only has the parts that are free, and they have room. -/
structure Fills (f : Form) (x : InstructionWord) : Prop where
  condition : x.condition < 2 ^ 4
  opcode : x.opcode < room f.free.opcode 4
  carry : x.carry < room f.free.carry 2
  zero : x.zero < room f.free.zero 2
  immediate : x.immediate < room f.free.immediate 2
  dest : x.dest < room f.free.dest (2 ^ 9)
  source : x.source < room f.free.source (2 ^ 9)

/-- What is put into a free part is found there, and a fixed part is left as it is. -/
theorem fill_part {free : Bool} {fixed x n : Nat} (hfixed : fixed < n) (hx : x < room free n)
    (hfree : free = true → fixed = 0) :
    fixed + x < n ∧ (free = false → fixed + x = fixed) ∧ (free = true → fixed + x = x) := by
  cases free with
  | true =>
    rw [hfree rfl, Nat.zero_add]
    exact ⟨hx, by simp, fun _ => rfl⟩
  | false =>
    obtain rfl : x = 0 := Nat.lt_one_iff.mp hx
    exact ⟨hfixed, fun _ => rfl, by simp⟩

/-- **A form that is filled** is a word of the form. -/
theorem Regular.fill (hf : f.Regular) (hx : f.Fills x) :
    (f.fixed.fill x).Bounded ∧ f.Matches (f.fixed.fill x) := by
  have carry := fill_part (Nat.mod_lt _ (by decide)) hx.carry hf.carry
  have zero := fill_part (Nat.mod_lt _ (by decide)) hx.zero hf.zero
  have immediate := fill_part (Nat.mod_lt _ (by decide)) hx.immediate hf.immediate
  have dest := fill_part (Nat.mod_lt _ (by decide)) hx.dest hf.dest
  have source := fill_part (Nat.mod_lt _ (by decide)) hx.source hf.source
  have hlt : f.fixed.opcode < 2 ^ 7 := Nat.mod_lt _ (by decide)
  have opcode : f.fixed.opcode + x.opcode < 2 ^ 7 ∧
      if f.free.opcode then (f.fixed.opcode + x.opcode) / 4 = f.fixed.opcode / 4
      else f.fixed.opcode + x.opcode = f.fixed.opcode := by
    have hroom := hx.opcode
    cases hfree : f.free.opcode with
    | true =>
      have hmod := hf.opcode hfree
      rw [hfree, room, if_pos rfl] at hroom
      refine ⟨by omega, ?_⟩
      rw [if_pos rfl]
      omega
    | false =>
      rw [hfree, room, if_neg (by decide)] at hroom
      obtain hzero : x.opcode = 0 := Nat.lt_one_iff.mp hroom
      rw [hzero]
      exact ⟨hlt, rfl⟩
  refine ⟨⟨?_, opcode.1, carry.1, zero.1, immediate.1, dest.1, source.1⟩,
    ⟨opcode.2, carry.2.1, zero.2.1, immediate.2.1, dest.2.1, source.2.1⟩⟩
  change f.fixed.condition + x.condition < 2 ^ 4
  rw [hf.condition, Nat.zero_add]
  exact hx.condition

/-- A word has what another one puts into the parts that the form leaves free. -/
structure Agrees (f : Form) (w x : InstructionWord) : Prop where
  opcode : f.free.opcode = true → w.opcode % 4 = x.opcode
  carry : f.free.carry = true → w.carry = x.carry
  zero : f.free.zero = true → w.zero = x.zero
  immediate : f.free.immediate = true → w.immediate = x.immediate
  dest : f.free.dest = true → w.dest = x.dest
  source : f.free.source = true → w.source = x.source

theorem Regular.agrees_fill (hf : f.Regular) (hx : f.Fills x) :
    f.Agrees (f.fixed.fill x) x where
  opcode h := by
    have hroom : x.opcode < 4 := by
      have := hx.opcode
      rwa [h] at this
    have hzero := hf.opcode h
    simp only [InstructionWord.fill]
    omega
  carry h := by rw [InstructionWord.fill, hf.carry h, Nat.zero_add]
  zero h := by rw [InstructionWord.fill, hf.zero h, Nat.zero_add]
  immediate h := by rw [InstructionWord.fill, hf.immediate h, Nat.zero_add]
  dest h := by rw [InstructionWord.fill, hf.dest h, Nat.zero_add]
  source h := by rw [InstructionWord.fill, hf.source h, Nat.zero_add]

/-- A form that leaves everything below the opcode free holds an address and its mark. -/
theorem Agrees.address (h : f.Agrees w x) {free : Bool}
    (hfree : f.free = ⟨free, true, true, true, true, true⟩) :
    w.carry = x.carry ∧ w.address = x.address := by
  refine ⟨h.carry (by rw [hfree]), ?_⟩
  rw [InstructionWord.address, h.zero (by rw [hfree]), h.immediate (by rw [hfree]),
    h.dest (by rw [hfree]), h.source (by rw [hfree]), InstructionWord.address]

end Form

end Propeller
