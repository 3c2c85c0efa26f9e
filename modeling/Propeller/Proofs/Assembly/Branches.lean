import Propeller.Proofs.Assembly.Augmented

/-!
# Assembly — where branches lead

A branch holds its target as a distance or as an address, in nine or in twenty bits.  Read at the place
where the instruction stands, each of them gives the target back.

Whether a jump holds a distance depends on the memory that its target is in.  That is the memory of the
line that the operand leads to, itself or through names (`LeadsTo`); what leads to no line is in the hub
from `$400` up.  The value of an operand is found through `maxDepth` names and the line only through less,
so that at the end of exactly `maxDepth` names there is an address whose line is not seen.

* `LeadsTo.targetWithin`, `LeadsTo.of_targetWithin`: which lines are found.
* `distanceField_lands`, `jumpField_lands`: what the fields of a branch say.
* `branch_lands`: where every branch leads, and which jumps are relative.
-/

namespace Propeller

variable {names n : Nat} {e : Expression} {a : Address} {f : Form}

/-! ### Lines behind names -/

/-- An expression leads through a number of names to a line, which has an address. -/
inductive LeadsTo (env : Environment) : (names : Nat) → Expression → Address → Prop where
  | label {line : LabelId} {a : Address} (h : env.addresses.get? line = some a) :
      LeadsTo env 0 (.label line) a
  | hubLabel {line : LabelId} {a : Address} (h : env.addresses.get? line = some a) :
      LeadsTo env 0 (.hubLabel line) a
  | symbol {names : Nat} {scope : ScopeId} {x : Identifier} {e : Expression} {a : Address}
      (h : env.scopes.symbol? scope x = some e) (rest : LeadsTo env names e a) :
      LeadsTo env (names + 1) (.symbol scope x) a

namespace LeadsTo

variable {env : Environment} {names : Nat} {e : Expression} {a : Address}

/-- A line is found when more expressions are looked at than there are names before it. -/
theorem targetWithin (h : LeadsTo env names e a) (steps : Nat) :
    e.targetWithin env steps = if names < steps then some a else none := by
  induction h generalizing steps with
  | label h | hubLabel h =>
    cases steps with
    | zero => rfl
    | succ steps => exact h
  | symbol h _ ih =>
    cases steps with
    | zero => rfl
    | succ steps => simp only [Expression.targetWithin, h, Option.bind_some, ih, Nat.succ_lt_succ_iff]

/-- Nothing else is found. -/
theorem of_targetWithin {steps : Nat} (h : e.targetWithin env steps = some a) :
    ∃ names < steps, LeadsTo env names e a := by
  induction steps generalizing e with
  | zero => cases h
  | succ steps ih =>
    cases e with
    | label line => exact ⟨0, Nat.succ_pos _, .label h⟩
    | hubLabel line => exact ⟨0, Nat.succ_pos _, .hubLabel h⟩
    | symbol scope x =>
      obtain ⟨e, he, h⟩ := Option.bind_eq_some_iff.mp h
      obtain ⟨names, hlt, hleads⟩ := ih h
      exact ⟨names + 1, Nat.succ_lt_succ hlt, .symbol he hleads⟩
    | _ => cases h

/-- Each name takes one level of nesting, so that an expression has a value only within them. -/
theorem le_of_evalAt (h : LeadsTo env names e a) {depth : Nat} {n : Number}
    (hv : e.evalAt env depth = .ok n) : names ≤ depth := by
  induction h generalizing depth with
  | label h | hubLabel h => exact Nat.zero_le _
  | symbol h _ ih =>
    cases depth with
    | zero => cases hv
    | succ depth =>
      simp only [Expression.evalAt, Expression.evalWith, h] at hv
      exact Nat.succ_le_succ (ih hv)

theorem le_maxDepth (h : LeadsTo env names e a) {v : Int64} (hv : e.evalInt env = .ok v) :
    names ≤ maxDepth := by
  obtain ⟨n, hn, -⟩ := bind_eq_ok hv
  exact h.le_of_evalAt hn

end LeadsTo

/-! ### What the fields say -/

namespace Instruction

variable {env : Environment} {origin : Origin}

/-- A target is taken to be in the hub: its line is, or it has no line and is a high number. -/
def inHub (env : Environment) (e : Expression) (target : Int) : Bool :=
  match e.target? env with
  | some a => a.hub
  | none   => decide (0x400 ≤ target)

theorem inHub_of_leadsTo (h : LeadsTo env names e a) (hlt : names < maxDepth) (target : Int) :
    inHub env e target = a.hub := by
  rw [inHub, Expression.target?, h.targetWithin, if_pos hlt]

theorem inHub_of_le (h : LeadsTo env names e a) (hle : maxDepth ≤ names) (target : Int) :
    inHub env e target = decide (0x400 ≤ target) := by
  rw [inHub, Expression.target?, h.targetWithin, if_neg (Nat.not_lt.mpr hle)]

theorem inHub_of_not_leadsTo (h : ∀ names a, ¬ LeadsTo env names e a) (target : Int) :
    inHub env e target = decide (0x400 ≤ target) := by
  unfold inHub
  split
  · next a ha =>
    obtain ⟨names, -, hleads⟩ := LeadsTo.of_targetWithin ha
    exact absurd hleads (h names a)
  · rfl

/-- Nine bits hold the distance in instructions. -/
theorem distanceField_lands (h : distanceField env origin e = .ok n) :
    n < 2 ^ 9 ∧ ∃ target : Int64, e.evalInt env = .ok target ∧
      origin.address + origin.step + origin.step * Int.bmod n (2 ^ 9) = target.toInt := by
  obtain ⟨target, htarget, h⟩ := bind_eq_ok h
  simp only at h
  split at h
  · cases h
  · next haligned =>
    split at h
    · next hrange =>
      cases h
      refine ⟨by omega, target, mapError_eq_ok htarget, ?_⟩
      have hback : Int.bmod _ (2 ^ 9) = _ :=
        bmod_emod (v := (target.toInt - (origin.address + origin.step)) / origin.step)
          (by omega) (by omega)
      have hdvd : origin.step ∣ target.toInt - (origin.address + origin.step) := by
        cases hhub : origin.hub with
        | true =>
          simp only [hhub, true_and, ne_eq, Decidable.not_not] at haligned
          simp only [Origin.step, hhub, if_true] at haligned ⊢
          exact Int.dvd_of_emod_eq_zero haligned
        | false =>
          simp only [Origin.step, hhub, Bool.false_eq_true, if_false]
          exact Int.one_dvd _
      refine (congrArg (origin.address + origin.step + origin.step * ·) hback).trans ?_
      simp only [Int.mul_ediv_cancel' hdvd]
      omega
    · cases h

/-- Twenty bits hold the distance, under a mark, or the address. -/
theorem jumpField_lands {o : Operand} {a : Nat} (h : jumpField env origin o = .ok a) :
    a < 2 ^ 21 ∧ ∃ target : Int64, o.value.evalInt env = .ok target ∧
      (a / 2 ^ 20 = 1 →
        origin.address + origin.step + Int.bmod (a % 2 ^ 20 : Nat) (2 ^ 20) = target.toInt) ∧
      (a / 2 ^ 20 = 0 → ((a % 2 ^ 20 : Nat) : Int) = target.toInt) ∧
      (a / 2 ^ 20 = 1 ↔ o.absolute = false ∧ inHub env o.value target.toInt = origin.hub) := by
  obtain ⟨target, htarget, h⟩ := bind_eq_ok h
  have hmark : (!o.absolute && inHub env o.value target.toInt == origin.hub) = true ↔
      o.absolute = false ∧ inHub env o.value target.toInt = origin.hub := by
    simp
  change (if (!o.absolute && inHub env o.value target.toInt == origin.hub) = true then _ else _) = _
    at h
  generalize (!o.absolute && inHub env o.value target.toInt == origin.hub) = relative at h hmark
  obtain ⟨hread, hlt⟩ := readTarget_eq h
  refine ⟨hlt, target, mapError_eq_ok htarget, ?_⟩
  rw [← hmark]
  unfold readTarget at hread
  cases relative with
  | true =>
    simp only [if_true] at hread
    split at hread
    · cases hread
    · next hone =>
      have hdistance := BranchTarget.relative.inj hread
      refine ⟨fun _ => ?_, fun hzero => absurd hzero hone, fun _ => rfl, fun _ => by omega⟩
      rw [hdistance]
      omega
  | false =>
    simp only [Bool.false_eq_true, if_false] at hread h
    split at hread
    · next hzero =>
      have haddress := BranchTarget.absolute.inj hread
      have hnonneg : 0 ≤ target.toInt := by
        split at h
        · next hrange => exact hrange.1
        · cases h
      refine ⟨fun hone => ?_, fun _ => ?_, fun hone => ?_, fun hr => by cases hr⟩
      · rw [hzero] at hone
        cases hone
      · rw [haddress, Int.toNat_of_nonneg hnonneg]
      · rw [hzero] at hone
        cases hone
    · cases hread

end Instruction

/-! ### Words of branches -/

/-- The fixed bits of a form that holds an address have nothing in its place. -/
theorem Form.Regular.dvd_base_of_address (hf : f.Regular) {free : Bool}
    (hfree : f.free = ⟨free, true, true, true, true, true⟩) : 2 ^ 21 ∣ f.base := by
  have hcarry := hf.carry (by rw [hfree])
  have hzero := hf.zero (by rw [hfree])
  have himmediate := hf.immediate (by rw [hfree])
  have hdest := hf.dest (by rw [hfree])
  have hsource := hf.source (by rw [hfree])
  simp only [Form.fixed, InstructionWord.ofNat] at hcarry hzero himmediate hdest hsource
  omega

/-- Those of a form with a destination and a source have nothing in theirs. -/
theorem Form.Regular.dvd_base_of_fields (hf : f.Regular) {carry zero : Bool}
    (hfree : f.free = ⟨false, carry, zero, true, true, true⟩) : 2 ^ 19 ∣ f.base := by
  have himmediate := hf.immediate (by rw [hfree])
  have hdest := hf.dest (by rw [hfree])
  have hsource := hf.source (by rw [hfree])
  simp only [Form.fixed, InstructionWord.ofNat] at himmediate hdest hsource
  omega

namespace InstructionWord

/-- The address and its mark, in the low 21 bits of a word that was stored. -/
theorem ofNat_address (k : Nat) {a : Nat} (ha : a < 2 ^ 21) :
    (ofNat ((k * 2 ^ 21 + a) % 256 ^ 4)).carry = a / 2 ^ 20 ∧
      (ofNat ((k * 2 ^ 21 + a) % 256 ^ 4)).address = a % 2 ^ 20 := by
  simp only [ofNat, address]
  omega

/-- The mark of an immediate and the fields, in the low 19 bits. -/
theorem ofNat_fields (k : Nat) {d : Nat} (hd : d < 2 ^ 9) (hn : n < 2 ^ 9) :
    (ofNat ((k * 2 ^ 19 + 2 ^ 18 + d * 2 ^ 9 + n) % 256 ^ 4)).immediate = 1 ∧
      (ofNat ((k * 2 ^ 19 + 2 ^ 18 + d * 2 ^ 9 + n) % 256 ^ 4)).source = n := by
  simp only [ofNat]
  omega

end InstructionWord

namespace Instruction

/-- The operand of a branch that says where it goes. -/
def branchOperand? (i : Instruction) : Option Operand :=
  match i.mnemonic.schema, i.operands with
  | .jump, [target]           => some target
  | .pointerJump, [_, target] => some target
  | .relBranch, [_, target]   => some target
  | _, _                      => none

section

variable {i : Instruction} {env : Environment} {origin : Origin} {ws : List Nat} {o : Operand}

/-- The arguments of a branch to an immediate target. -/
theorem Accepted.arguments_of_branch (h : i.Accepted) (hb : i.branchOperand? = some o)
    (ho : o.isRegister = false) :
    (i.mnemonic.schema = .relBranch ∧ ∃ d, i.arguments = .relBranch d o) ∨
      (i.mnemonic.schema ≠ .relBranch ∧
        (i.arguments = .jump o ∨ ∃ p, i.arguments = .pointerJump p o)) := by
  obtain ⟨condition, operands, effects, m, -, -, h⟩ := h
  have hargs := ofOperands?_of_make h
  unfold branchOperand? at hb
  split at hb
  · next target hschema hoperands =>
    obtain rfl := Option.some.inj hb
    simp only [Arguments.ofOperands?, hschema, hoperands, ho, Bool.false_eq_true, if_false,
      Option.some.injEq] at hargs
    exact .inr ⟨by simp [hschema], .inl hargs.symm⟩
  · next p target hschema hoperands =>
    obtain rfl := Option.some.inj hb
    simp only [Arguments.ofOperands?, hschema, hoperands] at hargs
    split at hargs
    · exact .inr ⟨by simp [hschema], .inr ⟨p.value, (Option.some.inj hargs).symm⟩⟩
    · cases hargs
  · next d target hschema hoperands =>
    obtain rfl := Option.some.inj hb
    simp only [Arguments.ofOperands?, hschema, hoperands] at hargs
    split at hargs
    · exact .inl ⟨hschema, d.value, (Option.some.inj hargs).symm⟩
    · cases hargs
  · cases hb

/-- The condition and the fixed bits of a form that holds an address have nothing in its place. -/
theorem Checked.head_of_address (h : i.Checked) (free : Bool) (hnop : i.mnemonic.isNop = false)
    (hfree : Form.free ⟨i.mnemonic, false⟩ = ⟨free, true, true, true, true, true⟩) :
    ∃ k, i.conditionBits + i.mnemonic.base = k * 2 ^ 21 := by
  obtain ⟨k, hk⟩ := (Form.regular_of_mem _ (h.mem_all hnop)).dvd_base_of_address hfree
  replace hk : i.mnemonic.base = 2 ^ 21 * k := hk
  refine ⟨i.condition.bits * 2 ^ 7 + k, ?_⟩
  rw [conditionBits, hk]
  omega

/-- The word of a jump has its address and the mark in the low 21 bits. -/
theorem Checked.words_of_jump (h : i.Checked)
    (ha : i.arguments = .jump o ∨ ∃ p, i.arguments = .pointerJump p o)
    (hw : i.words env origin = .ok ws) :
    ∃ k a, jumpField env origin o = .ok a ∧ ws = [k * 2 ^ 21 + a] := by
  rcases ha with ha | ⟨p, ha⟩
  · have hm : i.mnemonic.schema = .jump := h.fit_of ha
    obtain ⟨k, hk⟩ := h.head_of_address false (by simp [Mnemonic.isNop, hm]) (by simp [Form.free, hm])
    simp only [words, ha] at hw
    obtain ⟨a, hfield, hw⟩ := bind_eq_ok hw
    exact ⟨k, a, hfield, by rw [← Except.ok.inj hw, hk]⟩
  · have hm : i.mnemonic.schema = .pointerJump := h.fit_of ha
    have hnop : i.mnemonic.isNop = false := by simp [Mnemonic.isNop, hm]
    have hspared : i.mnemonic.effects = .none := by
      simpa [Form.sparesEffects, hm] using (Form.regular_of_mem _ (h.mem_all hnop)).effects
    obtain ⟨k, hk⟩ := h.head_of_address true hnop (by simp [Form.free, hm])
    simp only [words, ha] at hw
    obtain ⟨pointer, -, hw⟩ := bind_eq_ok hw
    obtain ⟨a, hfield, hw⟩ := bind_eq_ok hw
    refine ⟨k + pointer, a, hfield, ?_⟩
    rw [← Except.ok.inj hw, head_of_none (h.effects_none hspared), hk, Nat.add_mul]

/-- The word of a branch on a register has the mark of an immediate and the distance in the low 19
bits. -/
theorem Checked.words_of_relBranch (h : i.Checked) {d : Expression}
    (ha : i.arguments = .relBranch d o) (ho : o.isRegister = false)
    (hw : i.words env origin = .ok ws) :
    ∃ k r n, r < 2 ^ 9 ∧ distanceField env origin o.value = .ok n ∧
      ws = [k * 2 ^ 19 + 2 ^ 18 + r * 2 ^ 9 + n] := by
  have hm : i.mnemonic.schema = .relBranch := h.fit_of ha
  have hregular := Form.regular_of_mem _ (h.mem_all (by simp [Mnemonic.isNop, hm]))
  have hspared : i.mnemonic.effects = .none := by
    simpa [Form.sparesEffects, hm] using hregular.effects
  have hfree : Form.free ⟨i.mnemonic, false⟩ =
      ⟨false, i.mnemonic.effects.carry, i.mnemonic.effects.zero, true, true, true⟩ := by
    simp [Form.free, hm]
  obtain ⟨k, hk⟩ := hregular.dvd_base_of_fields hfree
  replace hk : i.mnemonic.base = 2 ^ 19 * k := hk
  simp only [words, ha, ho, Bool.false_eq_true, if_false] at hw
  obtain ⟨r, hr, hw⟩ := bind_eq_ok hw
  obtain ⟨n, hfield, hw⟩ := bind_eq_ok hw
  refine ⟨i.condition.bits * 2 ^ 9 + k, r, n, (register_eq_ok hr).2, hfield, ?_⟩
  have hcondition : i.conditionBits = i.condition.bits * 2 ^ 9 * 2 ^ 19 := by
    unfold conditionBits
    omega
  rw [← Except.ok.inj hw, head_of_none (h.effects_none hspared), hcondition, hk, Nat.add_mul,
    Nat.mul_comm k]

end

end Instruction

/-- **Where branches lead.**  Let an instruction that was accepted have a branch with an immediate target,
and let it be encoded at a place.  It has four bytes.

* Read at that place, they give the value of the target: a branch on a register by the nine bits of its
  source, in instructions from the next one; a jump by the twenty bits of its address, from the next
  instruction when the mark is set, and as they are when it is not.
* A jump that is not forced to be absolute is relative exactly when the line that its target leads to is
  in the memory of the instruction.  What leads to no line counts as hub memory from `$400` up.
* What leads to a line through exactly `maxDepth` names is treated as if it led to none. -/
theorem branch_lands {i : Instruction} (hi : i.Accepted) {o : Operand}
    (hb : i.branchOperand? = some o) (ho : o.isRegister = false) {env : Environment} {origin : Origin}
    {bytes : Bytes} (h : i.encode env origin = .ok bytes) :
    let w := InstructionWord.ofNat (ofLittleEndian bytes)
    ∃ target : Int64, o.value.evalInt env = .ok target ∧ bytes.length = 4 ∧
      (i.mnemonic.schema = .relBranch → w.immediate = 1 ∧
        origin.address + origin.step + origin.step * Int.bmod w.source (2 ^ 9) = target.toInt) ∧
      (i.mnemonic.schema ≠ .relBranch →
        (w.carry = 1 → origin.address + origin.step + Int.bmod w.address (2 ^ 20) = target.toInt) ∧
        (w.carry = 0 → (w.address : Int) = target.toInt) ∧
        (∀ names a, LeadsTo env names o.value a → names < maxDepth →
          (w.carry = 1 ↔ o.absolute = false ∧ a.hub = origin.hub)) ∧
        ((∀ names a, ¬ LeadsTo env names o.value a) →
          (w.carry = 1 ↔ o.absolute = false ∧ decide (0x400 ≤ target.toInt) = origin.hub)) ∧
        ∀ names a, LeadsTo env names o.value a → maxDepth ≤ names → names = maxDepth ∧
          (w.carry = 1 ↔ o.absolute = false ∧ decide (0x400 ≤ target.toInt) = origin.hub)) := by
  obtain ⟨ws, hws, h⟩ := bind_eq_ok h
  obtain rfl : ws.flatMap (littleEndian 4) = bytes := Except.ok.inj h
  have hone : ∀ n, [n].flatMap (littleEndian 4) = littleEndian 4 n := fun n => List.flatMap_singleton ..
  rcases hi.arguments_of_branch hb ho with ⟨hschema, d, ha⟩ | ⟨hschema, ha⟩
  · obtain ⟨k, r, n, hr, hfield, rfl⟩ := hi.checked.words_of_relBranch ha ho hws
    obtain ⟨hn, target, htarget, hlands⟩ := Instruction.distanceField_lands hfield
    obtain ⟨himmediate, hsource⟩ := InstructionWord.ofNat_fields k hr hn
    rw [hone, ofLittleEndian_littleEndian]
    refine ⟨target, htarget, length_littleEndian .., fun _ => ⟨himmediate, ?_⟩, fun hne => absurd hschema hne⟩
    rw [hsource]
    exact hlands
  · obtain ⟨k, a, hfield, rfl⟩ := hi.checked.words_of_jump ha hws
    obtain ⟨ha, target, htarget, hrelative, habsolute, hmark⟩ := Instruction.jumpField_lands hfield
    obtain ⟨hcarry, haddress⟩ := InstructionWord.ofNat_address k ha
    rw [hone, ofLittleEndian_littleEndian]
    refine ⟨target, htarget, length_littleEndian .., fun he => absurd he hschema, fun _ => ?_⟩
    rw [hcarry, haddress, hmark]
    refine ⟨fun h => hrelative (hmark.mpr h), habsolute, ?_, ?_, ?_⟩
    · intro names line hleads hlt
      rw [Instruction.inHub_of_leadsTo hleads hlt]
    · intro hnone
      rw [Instruction.inHub_of_not_leadsTo hnone]
    · intro names line hleads hle
      have hmost := hleads.le_maxDepth htarget
      rw [Instruction.inHub_of_le hleads hle]
      exact ⟨by omega, Iff.rfl⟩

/-- Frames with one name each, which stands for the name of the frame before it, and in the first one for
a line in the hub. -/
def nestedNames : Environment where
  scopes :=
    let frame (scope : ScopeId) : Frame :=
      { symbols := [(⟨"far"⟩, if scope = 0 then .label 0 else .symbol (scope - 1) ⟨"far"⟩)] }
    ⟨((List.range 64).map frame).toArray⟩
  addresses := ⟨#[some ⟨0x100, 0x100, true⟩]⟩

/-- The row of a jump. -/
def jumpMnemonic : Mnemonic :=
  .jumpRow "JMP" (Mnemonic.opcode7 0b1101100) (Mnemonic.single 0x2C)

/-- A jump to what the name stands for in a frame. -/
def jumpThrough (scope : ScopeId) : Instruction :=
  let target : Operand := { kind := .immediate, value := .symbol scope ⟨"far"⟩ }
  { condition := .always, mnemonic := jumpMnemonic, operands := [target], arguments := .jump target,
    effects := .none }

theorem jumpThrough_accepted (scope : ScopeId) : (jumpThrough scope).Accepted := by
  have hm : jumpMnemonic ∈ Mnemonic.table := by decide +kernel
  exact ⟨none, (jumpThrough scope).operands, .none, jumpMnemonic, hm, by simp, rfl⟩

/-- Through sixty-three names a jump from the hub to a line in the hub is relative, and lands there. -/
theorem branch_lands_nested :
    (jumpThrough 62).encode nestedNames ⟨0x200, true⟩ = .ok [0xFC, 0xFE, 0x9F, 0xFD] ∧
      (∃ names < maxDepth, LeadsTo nestedNames names (.symbol 62 ⟨"far"⟩) ⟨0x100, 0x100, true⟩) ∧
      (InstructionWord.ofNat 0xFD9FFEFC).carry = 1 ∧
      (0x200 : Int) + 4 + Int.bmod (InstructionWord.ofNat 0xFD9FFEFC).address (2 ^ 20) = 0x100 := by
  have hcode : (jumpThrough 62).encode nestedNames ⟨0x200, true⟩ = .ok [0xFC, 0xFE, 0x9F, 0xFD] :=
    rfl
  obtain ⟨names, hlt, hleads⟩ : ∃ names < maxDepth,
      LeadsTo nestedNames names (.symbol 62 ⟨"far"⟩) ⟨0x100, 0x100, true⟩ :=
    LeadsTo.of_targetWithin (by decide +kernel)
  obtain ⟨target, htarget, -, -, hjump⟩ := branch_lands (jumpThrough_accepted 62) rfl rfl hcode
  obtain ⟨hrelative, -, hmark, -, -⟩ := hjump (by decide)
  have hone := (hmark names _ hleads hlt).mpr ⟨rfl, rfl⟩
  have hvalue : (Expression.symbol 62 ⟨"far"⟩).evalInt nestedNames = .ok 0x100 := rfl
  obtain rfl := Except.ok.inj (htarget.symm.trans hvalue)
  exact ⟨hcode, ⟨names, hlt, hleads⟩, hone, hrelative hone⟩

/-- Through sixty-four names it is absolute, though both are in the hub and nothing asks for that. -/
theorem absolute_behind_names :
    (jumpThrough 63).encode nestedNames ⟨0x200, true⟩ = .ok [0x00, 0x01, 0x80, 0xFD] ∧
      (∃ names, LeadsTo nestedNames names (.symbol 63 ⟨"far"⟩) ⟨0x100, 0x100, true⟩) ∧
      (InstructionWord.ofNat 0xFD800100).carry = 0 := by
  refine ⟨rfl, ?_, by decide⟩
  obtain ⟨names, -, hleads⟩ : ∃ names < maxDepth + 1,
      LeadsTo nestedNames names (.symbol 63 ⟨"far"⟩) ⟨0x100, 0x100, true⟩ :=
    LeadsTo.of_targetWithin (by decide +kernel)
  exact ⟨names, hleads⟩

end Propeller
