import Propeller.Proofs.Assembly.Reading
import Propeller.Proofs.Bytes

/-!
# Assembly — how instructions are stored

An instruction that was accepted is stored as a word of one of the forms of its mnemonic, behind the
upper bits of immediates that are split (`Instruction.Stored`).

* `Checked.exists_stored`: there is such a word for every instruction, and its condition, its effects and
  its reading are read back from it.
* `encode_unambiguous`: two instructions with the same bytes, other than the zero word, have the same
  condition, mnemonic, effects and reading.
-/

namespace Propeller

variable {a : Arguments} {base : Nat} {f : Form} {s : Option Nat} {w : InstructionWord}
  {d n : Expression} {target : Operand}

/-! ### Instructions that are accepted -/

/-- The arguments have the shape of a mnemonic. -/
def Arguments.Fit (m : Mnemonic) : Arguments → Prop
  | source _ _          => m.schema = .regSource ∨ m.schema = .regOptSource
  | pair _ _            => m.schema = .pair
  | dest _              => m.schema = .dest
  | reg _               => m.schema = .reg
  | field most _ _ _    => m.schema = .field2 ∧ most = 3 ∨ m.schema = .field1 ∧ most = 1
  | relBranch _ _       => m.schema = .relBranch
  | registerJump base _ => m.schema = .jump ∧ m.registerForm = some base
  | jump _              => m.schema = .jump
  | pointerJump _ _     => m.schema = .pointerJump
  | augment _           => m.schema = .augment
  | bare                => m.schema = .bare

theorem Arguments.fit_of_ofOperands? {m : Mnemonic} {operands : List Operand}
    (h : ofOperands? m operands = some a) :
    a.Fit m ∧ ∀ t, a = .jump t → operands.all (!·.isRegister) = true := by
  have some_of_ite : ∀ {c : Bool} {x : Arguments}, (if c then some x else none) = some a → x = a := by
    intro c x hx
    cases c with
    | true => exact Option.some.inj hx
    | false => cases hx
  unfold ofOperands? at h
  split at h
  · next hm =>
    obtain rfl := some_of_ite h
    exact ⟨Or.inl hm, by simp⟩
  · next hm =>
    obtain rfl := some_of_ite h
    exact ⟨Or.inr hm, by simp⟩
  · next hm =>
    obtain rfl := some_of_ite h
    exact ⟨Or.inr hm, by simp⟩
  · next hm =>
    obtain rfl := Option.some.inj h
    exact ⟨hm, by simp⟩
  · next hm =>
    obtain rfl := Option.some.inj h
    exact ⟨hm, by simp⟩
  · next hm =>
    obtain rfl := some_of_ite h
    exact ⟨hm, by simp⟩
  · next hm =>
    obtain rfl := some_of_ite h
    exact ⟨Or.inl ⟨hm, rfl⟩, by simp⟩
  · next hm =>
    obtain rfl := some_of_ite h
    exact ⟨Or.inr ⟨hm, rfl⟩, by simp⟩
  · next hm =>
    obtain rfl := some_of_ite h
    exact ⟨hm, by simp⟩
  · next t hm =>
    split at h
    · obtain ⟨base, hbase, rfl⟩ := Option.map_eq_some_iff.mp h
      exact ⟨⟨hm, hbase⟩, by simp⟩
    · next ht =>
      obtain rfl := Option.some.inj h
      exact ⟨hm, by simpa using ht⟩
  · next hm =>
    obtain rfl := some_of_ite h
    exact ⟨hm, by simp⟩
  · next hm =>
    obtain rfl := some_of_ite h
    exact ⟨hm, by simp⟩
  · next hm =>
    obtain rfl := Option.some.inj h
    exact ⟨hm, by simp⟩
  · cases h

theorem Effects.contains_iff {a b : Effects} :
    a.contains b = true ↔ (b.carry = true → a.carry = true) ∧ (b.zero = true → a.zero = true) := by
  obtain ⟨c, z⟩ := a
  obtain ⟨c', z'⟩ := b
  cases c <;> cases z <;> cases c' <;> cases z' <;> decide

namespace Instruction

/-- An instruction that was made from a row of the table, under a condition of four bits. -/
def Accepted (i : Instruction) : Prop :=
  ∃ condition operands effects, ∃ m ∈ Mnemonic.table,
    (∀ c ∈ condition, c.bits < 2 ^ 4) ∧ make condition m operands effects = .ok i

/-- What is known of an instruction that was accepted. -/
structure Checked (i : Instruction) : Prop where
  mem : i.mnemonic ∈ Mnemonic.table
  condition : i.condition.bits < 2 ^ 4
  effects : i.mnemonic.effects.contains i.effects = true
  fit : i.arguments.Fit i.mnemonic
  /-- The place of the carry effect tells whether a jump is relative. -/
  jump : ∀ t, i.arguments = .jump t → i.effects = .none

theorem Accepted.checked {i : Instruction} (h : i.Accepted) : i.Checked := by
  obtain ⟨condition, operands, effects, m, hm, hc, h⟩ := h
  simp only [make] at h
  split at h
  · cases h
  · next a ha =>
    split at h
    · cases h
    · next heffects =>
      split at h
      · cases h
      · cases h
        have ha : Arguments.ofOperands? m operands = some a := by
          split at ha
          · exact ha
          · cases ha
        obtain ⟨hfit, hjump⟩ := Arguments.fit_of_ofOperands? ha
        simp only [Bool.or_eq_true, Bool.not_eq_true', Bool.and_eq_true, not_or, not_and,
          Bool.not_eq_false] at heffects
        refine ⟨hm, ?_, heffects.1, hfit, ?_⟩
        · cases condition with
          | none => exact (show Condition.always.bits < 2 ^ 4 by decide)
          | some c => exact hc c rfl
        · rintro t rfl
          have hschema : m.schema = .jump := hfit
          have hnone := heffects.2 ⟨Or.inl (by rw [hschema]; rfl), hjump t rfl⟩
          exact by_contra fun h => hnone (bne_iff_ne.mpr h)

/-! ### How instructions are stored -/

/-- The words of an instruction: the upper bits of the destination and of the source, under the same
condition, and the instruction itself. -/
def assembled (d s : Option Nat) (w : InstructionWord) : List Nat :=
  d.toList.map (w.condition * 2 ^ 28 + augmentDest + ·) ++
    s.toList.map (w.condition * 2 ^ 28 + augmentSource + ·) ++ [w.toNat]

/-- The words `ws` of an instruction are a word `w` of the form `f` behind the upper bits `d` and `s`,
and tell all about it. -/
structure Stored (i : Instruction) (env : Environment) (origin : Origin) (ws : List Nat) (f : Form)
    (w : InstructionWord) (d s : Option Nat) : Prop where
  mem : f ∈ Form.all
  mnemonic : i.mnemonic = f.mnemonic
  bounded : w.Bounded
  fixed : f.Matches w
  words : ws = assembled d s w
  condition : i.condition.bits = w.condition
  effects : i.effects = f.readEffects w
  reading : i.reading env origin = .ok (f.read w d s)
  upperDest : ∀ u ∈ d, u < 2 ^ 23
  upperSource : ∀ u ∈ s, u < 2 ^ 23

theorem bit_lt (b : Bool) : bit b < 2 := by cases b <;> decide

/-- An effect that has a place of its own has room there. -/
theorem bit_lt_room {b free : Bool} (h : b = true → free = true) : bit b < Form.room free 2 := by
  cases b with
  | false => cases free <;> decide
  | true =>
    rw [h rfl]
    decide

section Cases

variable {i : Instruction} {env : Environment} {origin : Origin} {ws : List Nat}

theorem Checked.fit_of (h : i.Checked) (ha : i.arguments = a) : a.Fit i.mnemonic :=
  ha ▸ h.fit

/-- The form of a row other than the one that does nothing. -/
theorem Checked.mem_all (h : i.Checked) (hnop : i.mnemonic.isNop = false) :
    (⟨i.mnemonic, false⟩ : Form) ∈ Form.all :=
  List.mem_append_left _ (List.mem_map.mpr
    ⟨i.mnemonic, List.mem_filter.mpr ⟨h.mem, by rw [hnop]; rfl⟩, rfl⟩)

/-- The form with a register. -/
theorem Checked.mem_all_registerForm (h : i.Checked) (hbase : i.mnemonic.registerForm = some base) :
    (⟨i.mnemonic, true⟩ : Form) ∈ Form.all :=
  List.mem_append_right _ (List.mem_map.mpr
    ⟨i.mnemonic, List.mem_filter.mpr ⟨h.mem, by rw [hbase]; rfl⟩, rfl⟩)

/-- An instruction whose word is a form that has been filled. -/
theorem exists_stored_of_fills (hf : f ∈ Form.all) (hm : i.mnemonic = f.mnemonic) {x : InstructionWord}
    (hx : f.Fills x) {d : Option Nat} (hd : ∀ u ∈ d, u < 2 ^ 23) (hs : ∀ u ∈ s, u < 2 ^ 23)
    (hcondition : i.condition.bits = x.condition)
    (hwords : ws = i.augmentWords augmentDest ⟨0, true, d⟩ ++
      i.augmentWords augmentSource ⟨0, true, s⟩ ++ [f.base + x.toNat])
    (heffects : ∀ w, f.Agrees w x → i.effects = f.readEffects w)
    (hreading : ∀ w, f.Agrees w x → i.reading env origin = .ok (f.read w d s)) :
    ∃ f w d s, i.Stored env origin ws f w d s := by
  have hregular := Form.regular_of_mem f hf
  obtain ⟨hbounded, hfixed⟩ := hregular.fill hx
  have hagrees := hregular.agrees_fill hx
  have hbits : i.condition.bits = (f.fixed.fill x).condition := by
    rw [hcondition, InstructionWord.fill, hregular.condition, Nat.zero_add]
  refine ⟨f, f.fixed.fill x, d, s, hf, hm, hbounded, hfixed, ?_, hbits, heffects _ hagrees,
    hreading _ hagrees, hd, hs⟩
  rw [hwords, assembled, InstructionWord.toNat_fill, Form.fixed, InstructionWord.toNat_ofNat,
    augmentWords, augmentWords, conditionBits, hbits]
  rfl

theorem sourceMax_le (m : Mnemonic) : sourceMax m ≤ fieldMax := by
  unfold sourceMax
  split
  · decide
  · exact le_rfl

theorem effects_bits (e : Effects) : e.bits = bit e.carry * 2 ^ 20 + bit e.zero * 2 ^ 19 := by
  obtain ⟨c, z⟩ := e
  cases c <;> cases z <;> decide

/-- An instruction has no other effects than its mnemonic allows. -/
theorem Checked.allowed (h : i.Checked) :
    (i.effects.carry = true → i.mnemonic.effects.carry = true) ∧
      (i.effects.zero = true → i.mnemonic.effects.zero = true) :=
  Effects.contains_iff.mp h.effects

/-- The effects are read back from their places. -/
theorem Checked.effects_eq (h : i.Checked) (hm : i.mnemonic = f.mnemonic)
    (hjump : ¬(f.mnemonic.schema = .jump ∧ f.throughRegister = false))
    (hcarry : f.mnemonic.effects.carry = true → w.carry = bit i.effects.carry)
    (hzero : f.mnemonic.effects.zero = true → w.zero = bit i.effects.zero) :
    i.effects = f.readEffects w := by
  have part : ∀ {free e : Bool} {n : Nat}, (e = true → free = true) → (free = true → n = bit e) →
      (free && n.beq 1) = e := by
    intro free e n he hn
    cases free with
    | true =>
      rw [hn rfl]
      cases e <;> rfl
    | false =>
      cases e with
      | true => cases he rfl
      | false => rfl
  obtain ⟨hallowedCarry, hallowedZero⟩ := h.allowed
  rw [hm] at hallowedCarry hallowedZero
  rw [Form.readEffects, if_neg hjump, part hallowedCarry hcarry, part hallowedZero hzero]

/-! One lemma for each shape of the operands.  In the first six the effects have places of their own. -/

/-- Instructions with both effects in their places. -/
theorem Checked.stored_plain (h : i.Checked) (hf : f ∈ Form.all) (hm : i.mnemonic = f.mnemonic)
    (hjump : ¬(f.mnemonic.schema = .jump ∧ f.throughRegister = false)) {immediate dest source : Bool}
    (hfree : f.free = ⟨false, f.mnemonic.effects.carry, f.mnemonic.effects.zero,
      immediate, dest, source⟩) {mark dn sn : Nat} (hmark : mark < Form.room immediate 2)
    (hdn : dn < Form.room dest (2 ^ 9)) (hsn : sn < Form.room source (2 ^ 9)) {d : Option Nat}
    (hd : ∀ u ∈ d, u < 2 ^ 23) (hs : ∀ u ∈ s, u < 2 ^ 23)
    (hwords : ws = i.augmentWords augmentDest ⟨0, true, d⟩ ++
      i.augmentWords augmentSource ⟨0, true, s⟩ ++
      [i.conditionBits + f.base + i.effects.bits + mark * 2 ^ 18 + dn * 2 ^ 9 + sn])
    (hreading : ∀ w : InstructionWord, (immediate = true → w.immediate = mark) →
      (dest = true → w.dest = dn) → (source = true → w.source = sn) →
      i.reading env origin = .ok (f.read w d s)) : ∃ f w d s, i.Stored env origin ws f w d s := by
  obtain ⟨hallowedCarry, hallowedZero⟩ := h.allowed
  rw [hm] at hallowedCarry hallowedZero
  let x : InstructionWord :=
    ⟨i.condition.bits, 0, bit i.effects.carry, bit i.effects.zero, mark, dn, sn⟩
  have hx : f.Fills x := by
    refine ⟨h.condition, ?_, ?_, ?_, ?_, ?_, ?_⟩ <;> rw [hfree]
    · exact Nat.one_pos
    · exact bit_lt_room hallowedCarry
    · exact bit_lt_room hallowedZero
    · exact hmark
    · exact hdn
    · exact hsn
  refine exists_stored_of_fills hf hm hx hd hs rfl ?_ ?_ ?_
  · rw [hwords, effects_bits, conditionBits]
    simp only [InstructionWord.toNat, x]
    congr 2
    omega
  · intro w hw
    refine h.effects_eq hm hjump ?_ ?_
    · exact fun hfree' => hw.carry (by rw [hfree]; exact hfree')
    · exact fun hfree' => hw.zero (by rw [hfree]; exact hfree')
  · intro w hw
    have himmediate := hw.immediate
    have hdest := hw.dest
    have hsource := hw.source
    rw [hfree] at himmediate hdest hsource
    exact hreading w himmediate hdest hsource

/-- An instruction whose mnemonic allows no effects has none. -/
theorem Checked.effects_none (h : i.Checked) (hm : i.mnemonic.effects = .none) :
    i.effects = .none := by
  obtain ⟨hcarry, hzero⟩ := h.allowed
  rw [hm] at hcarry hzero
  have hc : i.effects.carry = false := Bool.eq_false_iff.mpr fun hc => Bool.noConfusion (hcarry hc)
  have hz : i.effects.zero = false := Bool.eq_false_iff.mpr fun hz => Bool.noConfusion (hzero hz)
  calc i.effects = ⟨i.effects.carry, i.effects.zero⟩ := rfl
    _ = .none := by rw [hc, hz]; rfl

/-- Neither a jump to an address nor a row without effects has effects. -/
theorem readEffects_eq_none
    (h : f.mnemonic.schema = .jump ∧ f.throughRegister = false ∨ f.mnemonic.effects = .none)
    (w : InstructionWord) : f.readEffects w = .none := by
  unfold Form.readEffects
  split
  · rfl
  · next hjump =>
    rw [h.resolve_left hjump]
    rfl

theorem head_of_none (h : i.effects = .none) : i.head = i.conditionBits + i.mnemonic.base := by
  have hbits : Effects.none.bits = 0 := by decide
  rw [head, h, hbits, Nat.add_zero]

/-- Instructions without effects, with an address and its mark below the opcode. -/
theorem Checked.stored_addressed (h : i.Checked) (free : Bool) (opcode a : Nat)
    (hf : (⟨i.mnemonic, false⟩ : Form) ∈ Form.all)
    (hfree : Form.free ⟨i.mnemonic, false⟩ = ⟨free, true, true, true, true, true⟩)
    (hopcode : opcode < Form.room free 4) (ha : a < 2 ^ 21)
    (heffects : i.effects = .none)
    (hnone : i.mnemonic.schema = .jump ∨ i.mnemonic.effects = .none)
    (hwords : ws = [i.conditionBits + i.mnemonic.base + opcode * 2 ^ 21 + a])
    (hreading : ∀ w : InstructionWord, (free = true → w.opcode % 4 = opcode) →
      w.carry = a / 2 ^ 20 → w.address = a % 2 ^ 20 →
      i.reading env origin = .ok (Form.read ⟨i.mnemonic, false⟩ w none none)) :
    ∃ f w d s, i.Stored env origin ws f w d s := by
  have hx : Form.Fills ⟨i.mnemonic, false⟩ (.addressed i.condition.bits opcode a) := by
    refine ⟨h.condition, ?_, ?_, ?_, ?_, ?_, ?_⟩ <;> rw [hfree]
    · exact hopcode
    · exact (show a / 2 ^ 20 < 2 by omega)
    · exact Nat.mod_lt _ (by decide)
    · exact Nat.mod_lt _ (by decide)
    · exact Nat.mod_lt _ (by decide)
    · exact Nat.mod_lt _ (by decide)
  refine exists_stored_of_fills hf rfl hx (d := none) (s := none) (by simp) (by simp) rfl ?_ ?_ ?_
  · have hword : i.conditionBits + i.mnemonic.base + opcode * 2 ^ 21 + a =
        Form.base ⟨i.mnemonic, false⟩ +
          (InstructionWord.addressed i.condition.bits opcode a).toNat := by
      have hbase : Form.base ⟨i.mnemonic, false⟩ = i.mnemonic.base := rfl
      rw [InstructionWord.toNat_addressed, conditionBits, hbase]
      omega
    rw [hwords, hword]
    rfl
  · intro w _
    exact heffects.trans (readEffects_eq_none (hnone.imp_left fun hm => ⟨hm, rfl⟩) w).symm
  · intro w hw
    obtain ⟨hcarry, haddress⟩ := hw.address hfree
    rw [InstructionWord.address_addressed] at haddress
    have hlow := hw.opcode
    rw [hfree] at hlow
    exact hreading w hlow hcarry haddress

section Words

variable (h : i.Checked) (hw : i.words env origin = .ok ws)

include h hw

/-- A destination register and a source. -/
theorem Checked.stored_source {s : Operand} (ha : i.arguments = .source d s) :
    ∃ f w d s, i.Stored env origin ws f w d s := by
  have hfit := h.fit_of ha
  simp only [words, ha] at hw
  obtain ⟨dn, hd, hw⟩ := bind_eq_ok hw
  obtain ⟨sf, hs, hw⟩ := bind_eq_ok hw
  obtain ⟨hdn, hdlt⟩ := register_eq_ok hd
  obtain ⟨hsv, hslt, hupper⟩ := fieldOf_eq_ok (sourceMax_le _) hs
  let f : Form := ⟨i.mnemonic, false⟩
  have hf : f ∈ Form.all := h.mem_all (by rcases hfit with hm | hm <;> simp [Mnemonic.isNop, hm])
  have hfree : f.free = ⟨false, i.mnemonic.effects.carry, i.mnemonic.effects.zero, true, true, true⟩ := by
    rcases hfit with hm | hm <;> simp [f, Form.free, hm]
  refine h.stored_plain hf rfl (by rcases hfit with hm | hm <;> simp [f, hm]) hfree
    (bit_lt sf.immediate) hdlt hslt (d := none) (by simp) hupper (Except.ok.inj hw).symm
    fun w hi hdest hsource => ?_
  have hread : f.read w none sf.upper =
      .source w.dest (readOperand w.immediate w.source sf.upper) := by
    rcases hfit with hm | hm <;> simp [Form.read, f, hm]
  rw [reading, ha, hread, hi rfl, hdest rfl, hsource rfl]
  simp only [hdn, hsv]
  rfl

/-- A destination. -/
theorem Checked.stored_dest {d : Operand} (ha : i.arguments = .dest d) :
    ∃ f w d s, i.Stored env origin ws f w d s := by
  have hm : i.mnemonic.schema = .dest := h.fit_of ha
  simp only [words, ha] at hw
  obtain ⟨df, hd, hw⟩ := bind_eq_ok hw
  obtain ⟨hdv, hdlt, hupper⟩ := fieldOf_eq_ok le_rfl hd
  let f : Form := ⟨i.mnemonic, false⟩
  have hf : f ∈ Form.all := h.mem_all (by simp [Mnemonic.isNop, hm])
  have hfree : f.free = ⟨false, i.mnemonic.effects.carry, i.mnemonic.effects.zero, true, true, false⟩ := by
    simp [f, Form.free, hm]
  refine h.stored_plain hf rfl (by simp [f, hm]) hfree (bit_lt df.immediate) hdlt Nat.one_pos
    hupper (s := none) (by simp) ?_ fun w hi hdest _ => ?_
  · rw [← Except.ok.inj hw, Nat.add_zero]
    exact congrArg (· ++ _) (List.append_nil _).symm
  · have hread : f.read w df.upper none = .dest (readOperand w.immediate w.dest df.upper) := by
      simp [Form.read, f, hm]
    rw [reading, ha, hread, hi rfl, hdest rfl]
    simp only [hdv]
    rfl

/-- A destination register. -/
theorem Checked.stored_reg (ha : i.arguments = .reg d) :
    ∃ f w d s, i.Stored env origin ws f w d s := by
  have hm : i.mnemonic.schema = .reg := h.fit_of ha
  simp only [words, ha] at hw
  obtain ⟨dn, hd, hw⟩ := bind_eq_ok hw
  obtain ⟨hdn, hdlt⟩ := register_eq_ok hd
  let f : Form := ⟨i.mnemonic, false⟩
  have hf : f ∈ Form.all := h.mem_all (by simp [Mnemonic.isNop, hm])
  have hfree : f.free = ⟨false, i.mnemonic.effects.carry, i.mnemonic.effects.zero, false, true, false⟩ := by
    simp [f, Form.free, hm]
  refine h.stored_plain hf rfl (by simp [f, hm]) hfree Nat.one_pos hdlt Nat.one_pos
    (d := none) (s := none) (by simp) (by simp) ?_ fun w _ hdest _ => ?_
  · rw [← Except.ok.inj hw, Nat.zero_mul, Nat.add_zero, Nat.add_zero]
    rfl
  · have hread : f.read w none none = .reg w.dest := by simp [Form.read, f, hm]
    rw [reading, ha, hread, hdest rfl]
    simp only [hdn]
    rfl

/-- A register to test, and where to go. -/
theorem Checked.stored_relBranch (ha : i.arguments = .relBranch d target) :
    ∃ f w d s, i.Stored env origin ws f w d s := by
  have hm : i.mnemonic.schema = .relBranch := h.fit_of ha
  simp only [words, ha] at hw
  obtain ⟨dn, hd, hw⟩ := bind_eq_ok hw
  obtain ⟨hdn, hdlt⟩ := register_eq_ok hd
  -- a register, or a distance with its mark
  obtain ⟨mark, sn, hmark, hsn, hws, htarget⟩ : ∃ mark sn, mark < 2 ∧ sn < 2 ^ 9 ∧
      ws = [i.head + mark * 2 ^ 18 + dn * 2 ^ 9 + sn] ∧
      stepTarget env origin target = .ok (if mark = 0 then .register sn
        else .relative (Int.bmod sn (2 ^ 9))) := by
    cases hr : target.isRegister with
    | true =>
      rw [hr] at hw
      obtain ⟨sn, hs, hw⟩ := bind_eq_ok hw
      obtain ⟨hsn, hslt⟩ := register_eq_ok hs
      refine ⟨0, sn, by decide, hslt, ?_, ?_⟩
      · rw [← Except.ok.inj hw, Nat.zero_mul, Nat.add_zero]
      · rw [stepTarget, hr, hsn]
        rfl
    | false =>
      rw [hr] at hw
      obtain ⟨sn, hs, hw⟩ := bind_eq_ok hw
      obtain ⟨hsn, hslt⟩ := distanceField_eq_ok hr hs
      refine ⟨1, sn, by decide, hslt, ?_, hsn⟩
      rw [← Except.ok.inj hw, Nat.one_mul]
  let f : Form := ⟨i.mnemonic, false⟩
  have hf : f ∈ Form.all := h.mem_all (by simp [Mnemonic.isNop, hm])
  have hfree : f.free = ⟨false, i.mnemonic.effects.carry, i.mnemonic.effects.zero, true, true, true⟩ := by
    simp [f, Form.free, hm]
  refine h.stored_plain hf rfl (by simp [f, hm]) hfree hmark hdlt hsn (d := none) (s := none)
    (by simp) (by simp) hws fun w hi hdest hsource => ?_
  have hread : f.read w none none = .relBranch w.dest
      (if w.immediate = 0 then .register w.source else .relative (Int.bmod w.source (2 ^ 9))) := by
    simp [Form.read, f, hm]
  rw [reading, ha, hread, hi rfl, hdest rfl, hsource rfl]
  simp only [hdn, htarget]
  rfl

/-- A jump through a register. -/
theorem Checked.stored_registerJump (ha : i.arguments = .registerJump base d) :
    ∃ f w d s, i.Stored env origin ws f w d s := by
  obtain ⟨-, hbase⟩ := h.fit_of ha
  simp only [words, ha] at hw
  obtain ⟨dn, hd, hw⟩ := bind_eq_ok hw
  obtain ⟨hdn, hdlt⟩ := register_eq_ok hd
  let f : Form := ⟨i.mnemonic, true⟩
  have hf : f ∈ Form.all := h.mem_all_registerForm hbase
  have hfree : f.free = ⟨false, i.mnemonic.effects.carry, i.mnemonic.effects.zero, false, true, false⟩ :=
    rfl
  refine h.stored_plain hf rfl (by simp [f]) hfree Nat.one_pos hdlt Nat.one_pos
    (d := none) (s := none) (by simp) (by simp) ?_ fun w _ hdest _ => ?_
  · have hfb : f.base = base := by simp [f, Form.base, hbase]
    rw [← Except.ok.inj hw, Nat.zero_mul, Nat.add_zero, Nat.add_zero, hfb]
    rfl
  · have hread : f.read w none none = .jump (.register w.dest) := rfl
    rw [reading, ha, hread, hdest rfl]
    simp only [hdn]
    rfl

/-- No operands. -/
theorem Checked.stored_bare (ha : i.arguments = .bare) (hzero : ws ≠ [0]) :
    ∃ f w d s, i.Stored env origin ws f w d s := by
  have hm : i.mnemonic.schema = .bare := h.fit_of ha
  simp only [words, ha] at hw
  replace hw := Except.ok.inj hw
  have hnop : i.mnemonic.isNop = false := by
    by_contra hnop
    rw [if_pos (by simpa using hnop)] at hw
    exact hzero hw.symm
  rw [hnop, if_neg (by decide)] at hw
  let f : Form := ⟨i.mnemonic, false⟩
  have hf : f ∈ Form.all := h.mem_all hnop
  have hfree : f.free = ⟨false, i.mnemonic.effects.carry, i.mnemonic.effects.zero, false, false, false⟩ := by
    simp [f, Form.free, hm]
  refine h.stored_plain hf rfl (by simp [f, hm]) hfree Nat.one_pos Nat.one_pos Nat.one_pos
    (d := none) (s := none) (by simp) (by simp) ?_ fun w _ _ _ => ?_
  · rw [← hw, Nat.zero_mul, Nat.zero_mul, Nat.add_zero]
    rfl
  · rw [reading, ha]
    simp [Form.read, f, hm]

/-- Two operands that may both be immediate.  The mark of the destination has the place of the zero
effect, and there is no such effect. -/
theorem Checked.stored_pair {d s : Operand} (ha : i.arguments = .pair d s) :
    ∃ f w d s, i.Stored env origin ws f w d s := by
  have hm : i.mnemonic.schema = .pair := h.fit_of ha
  simp only [words, ha] at hw
  obtain ⟨df, hd, hw⟩ := bind_eq_ok hw
  obtain ⟨sf, hs, hw⟩ := bind_eq_ok hw
  obtain ⟨hdv, hdlt, hupperD⟩ := fieldOf_eq_ok le_rfl hd
  obtain ⟨hsv, hslt, hupperS⟩ := fieldOf_eq_ok (sourceMax_le _) hs
  let f : Form := ⟨i.mnemonic, false⟩
  have hf : f ∈ Form.all := h.mem_all (by simp [Mnemonic.isNop, hm])
  have hfree : f.free = ⟨false, i.mnemonic.effects.carry, true, true, true, true⟩ := by
    simp [f, Form.free, hm]
  have hspared : i.mnemonic.effects.zero = false := by
    simpa [Form.sparesEffects, hm, f] using (Form.regular_of_mem f hf).effects
  have hzero : i.effects.zero = false := by
    by_contra hz
    rw [h.allowed.2 (by simpa using hz)] at hspared
    cases hspared
  let x : InstructionWord := ⟨i.condition.bits, 0, bit i.effects.carry, bit df.immediate,
    bit sf.immediate, df.value, sf.value⟩
  have hx : f.Fills x := by
    refine ⟨h.condition, ?_, ?_, ?_, ?_, ?_, ?_⟩ <;> rw [hfree]
    · exact Nat.one_pos
    · exact bit_lt_room h.allowed.1
    · exact bit_lt _
    · exact bit_lt _
    · exact hdlt
    · exact hslt
  refine exists_stored_of_fills hf rfl hx (d := df.upper) (s := sf.upper) hupperD hupperS rfl ?_
    (fun w hagrees => ?_) fun w hagrees => ?_
  · have hword : i.head + bit df.immediate * 2 ^ 19 + bit sf.immediate * 2 ^ 18 + df.value * 2 ^ 9 +
        sf.value = f.base + x.toNat := by
      have hbase : f.base = i.mnemonic.base := rfl
      rw [head, effects_bits, hzero, conditionBits, hbase]
      simp only [InstructionWord.toNat, x, bit, Bool.false_eq_true, if_false]
      omega
    rw [← Except.ok.inj hw, hword]
    rfl
  · refine h.effects_eq rfl (by simp [f, hm]) ?_ ?_
    · exact fun hc => hagrees.carry (by rw [hfree]; exact hc)
    · intro hz
      rw [show f.mnemonic.effects.zero = false from hspared] at hz
      cases hz
  · have hread : f.read w df.upper sf.upper = .pair (readOperand w.zero w.dest df.upper)
        (readOperand w.immediate w.source sf.upper) := by
      simp [Form.read, f, hm]
    rw [reading, ha, hread, hagrees.zero (by rw [hfree]), hagrees.immediate (by rw [hfree]),
      hagrees.dest (by rw [hfree]), hagrees.source (by rw [hfree])]
    simp only [hdv, hsv]
    rfl

/-- A destination register, a source and a selector.  The selector has the places of the effects. -/
theorem Checked.stored_field {most : Nat} {s : Operand} (ha : i.arguments = .field most d s n) :
    ∃ f w d s, i.Stored env origin ws f w d s := by
  have hfit := h.fit_of ha
  simp only [words, ha] at hw
  obtain ⟨dn, hd, hw⟩ := bind_eq_ok hw
  obtain ⟨sf, hs, hw⟩ := bind_eq_ok hw
  obtain ⟨k, hn, hw⟩ := bind_eq_ok hw
  obtain ⟨hdn, hdlt⟩ := register_eq_ok hd
  obtain ⟨hsv, hslt, hupper⟩ := fieldOf_eq_ok le_rfl hs
  obtain ⟨hk, hkle⟩ := selector_eq_ok hn
  let f : Form := ⟨i.mnemonic, false⟩
  have hf : f ∈ Form.all := h.mem_all (by rcases hfit with hm | hm <;> simp [Mnemonic.isNop, hm.1])
  have hspared : i.mnemonic.effects = .none := by
    have := (Form.regular_of_mem f hf).effects
    rcases hfit with hm | hm <;> simpa [Form.sparesEffects, hm.1, f] using this
  have hfree : f.free = ⟨false, decide (most = 3), true, true, true, true⟩ := by
    rcases hfit with ⟨hm, rfl⟩ | ⟨hm, rfl⟩ <;> simp [f, Form.free, hm, hspared, Effects.none]
  let x : InstructionWord := ⟨i.condition.bits, 0, k / 2, k % 2, bit sf.immediate, dn, sf.value⟩
  have hx : f.Fills x := by
    refine ⟨h.condition, ?_, ?_, ?_, ?_, ?_, ?_⟩ <;> rw [hfree]
    · exact Nat.one_pos
    · rcases hfit with ⟨-, rfl⟩ | ⟨-, rfl⟩
      · exact (show k / 2 < 2 by omega)
      · exact (show k / 2 < 1 by omega)
    · exact Nat.mod_lt _ (by decide)
    · exact bit_lt _
    · exact hdlt
    · exact hslt
  refine exists_stored_of_fills hf rfl hx (d := none) (by simp) hupper rfl ?_
    (fun w _ => (h.effects_none hspared).trans (readEffects_eq_none (Or.inr hspared) w).symm)
    fun w hagrees => ?_
  · have hword : i.head + k * 2 ^ 19 + bit sf.immediate * 2 ^ 18 + dn * 2 ^ 9 + sf.value =
        f.base + x.toNat := by
      have hbase : f.base = i.mnemonic.base := rfl
      rw [head_of_none (h.effects_none hspared), conditionBits, hbase]
      simp only [InstructionWord.toNat, x]
      omega
    rw [← Except.ok.inj hw, hword]
    rfl
  · have hread : f.read w none sf.upper = .field w.dest (readOperand w.immediate w.source sf.upper)
        (if most = 3 then 2 * w.carry + w.zero else w.zero) := by
      rcases hfit with ⟨hm, rfl⟩ | ⟨hm, rfl⟩ <;> simp [Form.read, f, hm]
    have hselector : (if most = 3 then 2 * w.carry + w.zero else w.zero) = k := by
      rw [hagrees.zero (by rw [hfree])]
      rcases hfit with ⟨-, rfl⟩ | ⟨-, rfl⟩
      · rw [if_pos rfl, hagrees.carry (by rw [hfree]; rfl)]
        exact Nat.div_add_mod k 2
      · exact Nat.mod_eq_of_lt (Nat.lt_succ_of_le hkle)
    rw [reading, ha, hread, hselector, hagrees.immediate (by rw [hfree]), hagrees.dest (by rw [hfree]),
      hagrees.source (by rw [hfree])]
    simp only [hdn, hsv, hk]
    rfl

/-- A jump to an address. -/
theorem Checked.stored_jump (ha : i.arguments = .jump target) :
    ∃ f w d s, i.Stored env origin ws f w d s := by
  have hm : i.mnemonic.schema = .jump := h.fit_of ha
  simp only [words, ha] at hw
  obtain ⟨a, htarget, hw⟩ := bind_eq_ok hw
  obtain ⟨htarget, hlt⟩ := jumpField_eq_ok htarget
  refine h.stored_addressed false 0 a (h.mem_all (by simp [Mnemonic.isNop, hm]))
    (by simp [Form.free, hm]) Nat.one_pos hlt (h.jump target ha) (Or.inl hm) ?_ fun w _ hcarry haddress => ?_
  · rw [← Except.ok.inj hw, Nat.zero_mul, Nat.add_zero]
  · rw [reading, ha]
    simp only [htarget, Form.read, hm, hcarry, haddress, Bool.false_eq_true, if_false]
    rfl

/-- A pointer register, and a jump to an address. -/
theorem Checked.stored_pointerJump {pointer : Expression} (ha : i.arguments = .pointerJump pointer target) :
    ∃ f w d s, i.Stored env origin ws f w d s := by
  have hm : i.mnemonic.schema = .pointerJump := h.fit_of ha
  simp only [words, ha] at hw
  obtain ⟨p, hp, hw⟩ := bind_eq_ok hw
  obtain ⟨a, htarget, hw⟩ := bind_eq_ok hw
  obtain ⟨hp, hplt⟩ := pointerField_eq_ok hp
  obtain ⟨htarget, hlt⟩ := jumpField_eq_ok htarget
  have hf := h.mem_all (by simp [Mnemonic.isNop, hm])
  have hspared : i.mnemonic.effects = .none := by
    simpa [Form.sparesEffects, hm] using (Form.regular_of_mem _ hf).effects
  refine h.stored_addressed true p a hf (by simp [Form.free, hm]) hplt hlt
    (h.effects_none hspared) (Or.inr hspared) ?_ fun w hlow hcarry haddress => ?_
  · rw [← Except.ok.inj hw, head_of_none (h.effects_none hspared)]
  · rw [reading, ha]
    simp only [hp, htarget, Form.read, hm, hlow rfl, hcarry, haddress, Bool.false_eq_true, if_false]
    rfl

/-- The upper bits of the next immediate. -/
theorem Checked.stored_augment (ha : i.arguments = .augment n) :
    ∃ f w d s, i.Stored env origin ws f w d s := by
  have hm : i.mnemonic.schema = .augment := h.fit_of ha
  simp only [words, ha] at hw
  obtain ⟨v, hv, hw⟩ := bind_eq_ok hw
  have hult := upperBits_lt v.word
  have hf := h.mem_all (by simp [Mnemonic.isNop, hm])
  have hspared : i.mnemonic.effects = .none := by
    simpa [Form.sparesEffects, hm] using (Form.regular_of_mem _ hf).effects
  generalize hu : upperBits v.word = u at hw hult
  have hopcode : u / 2 ^ 21 < 4 := by omega
  refine h.stored_addressed true (u / 2 ^ 21) (u % 2 ^ 21) hf (by simp [Form.free, hm]) hopcode
    (Nat.mod_lt _ (by decide)) (h.effects_none hspared) (Or.inr hspared) ?_
    fun w hlow hcarry haddress => ?_
  · rw [← Except.ok.inj hw, head_of_none (h.effects_none hspared), Nat.add_assoc _ (_ * _),
      Nat.div_add_mod']
  · have hback : w.upper = u := by
      rw [InstructionWord.upper, hlow rfl, hcarry, haddress]
      omega
    rw [reading, ha]
    simp only [hv, Form.read, hm, Bool.false_eq_true, if_false, hback]
    exact congrArg (fun u => Except.ok (Reading.augment u)) hu

/-- **Every instruction is stored** in a form of its mnemonic, and told by it. -/
theorem Checked.exists_stored (hzero : ws ≠ [0]) :
    ∃ f w d s, i.Stored env origin ws f w d s := by
  cases ha : i.arguments with
  | source d s => exact h.stored_source hw ha
  | pair d s => exact h.stored_pair hw ha
  | dest d => exact h.stored_dest hw ha
  | reg d => exact h.stored_reg hw ha
  | field most d s n => exact h.stored_field hw ha
  | relBranch d target => exact h.stored_relBranch hw ha
  | registerJump base d => exact h.stored_registerJump hw ha
  | jump target => exact h.stored_jump hw ha
  | pointerJump pointer target => exact h.stored_pointerJump hw ha
  | augment n => exact h.stored_augment hw ha
  | bare => exact h.stored_bare hw ha hzero

end Words

end Cases

/-! ### Telling instructions apart -/

theorem assembled_lt {d : Option Nat} (hw : w.Bounded) (hd : ∀ u ∈ d, u < 2 ^ 23)
    (hs : ∀ u ∈ s, u < 2 ^ 23) : ∀ n ∈ assembled d s w, n < 2 ^ 32 := by
  have hcondition := hw.condition
  intro n hn
  simp only [assembled, List.mem_append, List.mem_map, Option.mem_toList, List.mem_singleton] at hn
  rcases hn with (⟨u, hu, rfl⟩ | ⟨u, hu, rfl⟩) | rfl
  · have := hd u hu
    simp only [augmentDest]
    omega
  · have := hs u hu
    simp only [augmentSource]
    omega
  · exact InstructionWord.toNat_lt hw

/-- The words of an instruction tell its own word and the upper bits. -/
theorem assembled_inj {d d' s' : Option Nat} {w' : InstructionWord} (hw : w.Bounded) (hw' : w'.Bounded)
    (hd : ∀ u ∈ d, u < 2 ^ 23) (hs : ∀ u ∈ s, u < 2 ^ 23) (hd' : ∀ u ∈ d', u < 2 ^ 23)
    (hs' : ∀ u ∈ s', u < 2 ^ 23) (h : assembled d s w = assembled d' s' w') :
    w = w' ∧ d = d' ∧ s = s' := by
  simp only [assembled] at h
  obtain ⟨hfront, hlast⟩ := List.append_inj' h (by simp)
  obtain rfl : w = w' := by
    rw [← InstructionWord.ofNat_toNat hw, ← InstructionWord.ofNat_toNat hw', (List.cons.inj hlast).1]
  refine ⟨rfl, ?_⟩
  -- the two augmenting instructions differ in their fixed bits
  cases d with
  | none | some d =>
    cases s <;> cases d' <;> cases s' <;>
      simp [augmentDest, augmentSource] at hfront hd hs hd' hs' ⊢ <;> omega

end Instruction

/-- Words of 32 bits are told by their bytes. -/
theorem flatMap_littleEndian_inj {ws ws' : List Nat} (h : ∀ w ∈ ws, w < 2 ^ 32)
    (h' : ∀ w ∈ ws', w < 2 ^ 32)
    (heq : ws.flatMap (littleEndian 4) = ws'.flatMap (littleEndian 4)) : ws = ws' := by
  have hlength : ∀ ws : List Nat, (ws.flatMap (littleEndian 4)).length = 4 * ws.length :=
    fun ws => length_flatMap_of_forall fun w _ => length_littleEndian 4 w
  induction ws generalizing ws' with
  | nil =>
    have := hlength ws'
    rw [← heq] at this
    exact (List.eq_nil_of_length_eq_zero (by simpa using this.symm)).symm
  | cons w ws ih =>
    cases ws' with
    | nil =>
      have := hlength (w :: ws)
      rw [heq] at this
      simp at this
    | cons w' ws' =>
      rw [List.flatMap_cons, List.flatMap_cons] at heq
      obtain ⟨hword, hrest⟩ := List.append_inj heq (by simp)
      have hw : w = w' := by
        have hmod := congrArg ofLittleEndian hword
        rw [ofLittleEndian_littleEndian, ofLittleEndian_littleEndian] at hmod
        have hlt := h w (.head _)
        have hlt' := h' w' (.head _)
        omega
      rw [hw, ih (fun x hx => h x (.tail _ hx))
        (fun x hx => h' x (.tail _ hx)) hrest]

/-- **The encoding is unambiguous.**  If two instructions that were accepted have the same bytes, wherever
they stand and whatever their names mean there, and these are not the zero word, then they have the same
condition, mnemonic and effects, and their operands stand for the same: registers for the same
numbers, immediates for the same 32 bits, branches for the same distances and addresses. -/
theorem encode_unambiguous {i i' : Instruction} (hi : i.Accepted) (hi' : i'.Accepted)
    {env env' : Environment} {origin origin' : Origin} {bytes : Bytes}
    (h : i.encode env origin = .ok bytes) (h' : i'.encode env' origin' = .ok bytes)
    (hzero : bytes ≠ zeros 4) :
    i.condition = i'.condition ∧ i.mnemonic = i'.mnemonic ∧ i.effects = i'.effects ∧
      ∃ reading, i.reading env origin = .ok reading ∧ i'.reading env' origin' = .ok reading := by
  obtain ⟨ws, hws, h⟩ := bind_eq_ok h
  obtain ⟨ws', hws', h'⟩ := bind_eq_ok h'
  replace h : ws.flatMap (littleEndian 4) = bytes := Except.ok.inj h
  replace h' : ws'.flatMap (littleEndian 4) = bytes := Except.ok.inj h'
  have nonzero : ∀ {ws : List Nat}, ws.flatMap (littleEndian 4) = bytes → ws ≠ [0] := by
    rintro ws rfl rfl
    exact hzero rfl
  obtain ⟨f, w, d, s, hstored⟩ := hi.checked.exists_stored hws (nonzero h)
  obtain ⟨f', w', d', s', hstored'⟩ := hi'.checked.exists_stored hws' (nonzero h')
  obtain ⟨hf, hm, hw, hfixed, rfl, hcondition, heffects, hreading, hd, hs⟩ := hstored
  obtain ⟨hf', hm', hw', hfixed', rfl, hcondition', heffects', hreading', hd', hs'⟩ := hstored'
  have heq := flatMap_littleEndian_inj (Instruction.assembled_lt hw hd hs)
    (Instruction.assembled_lt hw' hd' hs') (h.trans h'.symm)
  obtain ⟨rfl, rfl, rfl⟩ := Instruction.assembled_inj hw hw' hd hs hd' hs' heq
  obtain rfl := Form.eq_of_matches hf hf' hw hfixed hfixed'
  refine ⟨?_, hm.trans hm'.symm, heffects.trans heffects'.symm, _, hreading, hreading'⟩
  exact congrArg Condition.mk (hcondition.trans hcondition'.symm)

/-- `NOT 5` and `NOT 5, 5` have the same bytes, and read the same. -/
theorem encode_unambiguous_not :
    ∃ m ∈ Mnemonic.table, ∃ i i' : Instruction,
      Instruction.make none m [⟨.register, false, .int 5⟩] .none = .ok i ∧
      Instruction.make none m [⟨.register, false, .int 5⟩, ⟨.register, false, .int 5⟩] .none = .ok i' ∧
      i.encode default default = .ok [0x05, 0x0A, 0x20, 0xF6] ∧
      i'.encode default default = .ok [0x05, 0x0A, 0x20, 0xF6] ∧
      i.condition = i'.condition ∧ i.mnemonic = i'.mnemonic ∧ i.effects = i'.effects ∧
      ∃ reading, i.reading default default = .ok reading ∧
        i'.reading default default = .ok reading := by
  have hm : Mnemonic.row "NOT" (Mnemonic.opcode7 0b0110001) .regOptSource .wcz ∈ Mnemonic.table := by
    decide +kernel
  refine ⟨_, hm, _, _, rfl, rfl, rfl, rfl, ?_⟩
  have hzero : ([0x05, 0x0A, 0x20, 0xF6] : Bytes) ≠ zeros 4 := by decide
  refine encode_unambiguous ?_ ?_ ?_ ?_ hzero
  · exact ⟨none, [⟨.register, false, .int 5⟩], .none, _, hm, by simp, rfl⟩
  · exact ⟨none, [⟨.register, false, .int 5⟩, ⟨.register, false, .int 5⟩], .none, _, hm, by simp, rfl⟩
  · rfl
  · rfl

end Propeller
