import Mathlib.Data.List.Forall2
import Propeller.Proofs.Assembly.Size
import Propeller.Proofs.Assembly.Stored

/-!
# Assembly — augmented operands

A field holds nine bits of an immediate, and eight of the source of a hub transfer.  An immediate that
is marked long, or that has more bits than that, is *augmented*: a word in front of the instruction
carries its upper bits.  `Instruction.augmented` reads this off the operands as they are written, by
the shape of the mnemonic and without the arguments that the instruction was sorted into.

* `Instruction.Accepted.size_eq`: the size is one long for the instruction and one for each augmented operand.
* `Instruction.Accepted.words_eq`: the words are one for each augmented operand, under the condition of
  the instruction, and then the instruction.
* `bytes_agree_with_sizes`: for instructions and for data the bytes are as many as the size says.
-/

namespace Propeller

variable {env : Environment} {most : Nat} {o s : Operand} {m : Mnemonic} {operands : List Operand}
  {i : Instruction}

/-- The operand is an immediate that a field up to `most` does not hold: a long literal always, any
other one if its 32 bits are more than that. -/
def Operand.Exceeds (env : Environment) (most : Nat) (o : Operand) : Prop :=
  o.kind = .longLiteral ∨ o.kind = .immediate ∧ ∃ n, o.value.eval env = .ok n ∧ most < n.word

namespace Instruction

theorem isSplit_iff : isSplit env most o = true ↔ o.Exceeds env most := by
  cases hk : o.kind with
  | register | longLiteral => simp [isSplit, Operand.Exceeds, hk]
  | immediate => cases hn : o.value.eval env <;> simp [isSplit, Operand.Exceeds, hk, hn]

instance decidableExceeds (env : Environment) (most : Nat) (o : Operand) :
    Decidable (o.Exceeds env most) :=
  decidable_of_iff _ isSplit_iff

/-! ### Operands that may be augmented -/

/-- An operand in a field that may be augmented. -/
structure OperandField where
  operand : Operand
  /-- The fixed bits of the instruction that augments the field. -/
  augment : Nat
  /-- The greatest immediate that the field holds. -/
  most : Nat

/-- An operand in the destination field. -/
def OperandField.dest (o : Operand) : OperandField := ⟨o, augmentDest, 0x1FF⟩

/-- An operand in the source field. -/
def OperandField.source (m : Mnemonic) (o : Operand) : OperandField :=
  ⟨o, augmentSource, if m.hubTransfer then 0xFF else 0x1FF⟩

/-- The operands in fields that may be augmented, as the shape of the mnemonic places them. -/
def operandFields (m : Mnemonic) (operands : List Operand) : List OperandField :=
  let dest := operands[0]?.toList.map OperandField.dest
  let source := operands[1]?.toList.map (OperandField.source m)
  match m.schema with
  | .regSource | .regOptSource | .field2 | .field1 => source
  | .pair => dest ++ source
  | .dest => dest
  | _ => []

/-- The operand needs an augmenting word. -/
def OperandField.Augmented (env : Environment) (s : OperandField) : Prop := s.operand.Exceeds env s.most

instance OperandField.decidableAugmented (env : Environment) (s : OperandField) :
    Decidable (s.Augmented env) :=
  decidableExceeds env s.most s.operand

/-- The operands that are augmented. -/
def augmented (i : Instruction) (env : Environment) : List OperandField :=
  (operandFields i.mnemonic i.operands).filter fun s => s.Augmented env

/-- The word augments an operand of the instruction: its four highest bits are the condition of the
instruction, and the others those of the augmenting instruction with the upper bits of the operand. -/
def Augments (i : Instruction) (env : Environment) (s : OperandField) (word : Nat) : Prop :=
  word / 2 ^ 28 = i.condition.bits ∧
    ∃ n, s.operand.value.eval env = .ok n ∧ word % 2 ^ 28 = s.augment + upperBits n.word

/-! ### The same operands among the arguments -/

/-- The arguments in fields that may be augmented. -/
def argumentFields (m : Mnemonic) : Arguments → List OperandField
  | .source _ s    => [.source m s]
  | .pair d s      => [.dest d, .source m s]
  | .dest d        => [.dest d]
  | .field _ _ s _ => [.source m s]
  | _              => []

theorem not_augmented_of_isRegister {s : OperandField} (h : s.operand.isRegister = true) :
    ¬s.Augmented env := by
  have hk : s.operand.kind = .register := by simpa [Operand.isRegister] using h
  simp [OperandField.Augmented, Operand.Exceeds, hk]

/-- Sorting the operands keeps those that are augmented.  A source that is left out is the destination,
which is a register. -/
theorem filter_operandFields {a : Arguments} (env : Environment)
    (h : Arguments.ofOperands? m operands = some a) :
    (operandFields m operands).filter (fun s => s.Augmented env) =
      (argumentFields m a).filter fun s => s.Augmented env := by
  unfold Arguments.ofOperands? at h
  split at h
  case h_3 d hm =>
    split at h
    · next hd =>
      obtain rfl := Option.some.inj h
      simp only [operandFields, hm, argumentFields]
      have hplain : ¬(OperandField.source m d).Augmented env := not_augmented_of_isRegister hd
      simp [hplain]
    · cases h
  case h_10 hm =>
    split at h
    · obtain ⟨base, -, rfl⟩ := Option.map_eq_some_iff.mp h
      simp [operandFields, hm, argumentFields]
    · obtain rfl := Option.some.inj h
      simp [operandFields, hm, argumentFields]
  case h_14 => cases h
  all_goals
    next hm =>
      first
        | obtain rfl := Option.some.inj h
          simp [operandFields, hm, argumentFields]
        | split at h
          · obtain rfl := Option.some.inj h
            simp [operandFields, hm, argumentFields]
          · cases h

/-- Byte and word fields are no hub transfers. -/
theorem Mnemonic.hubTransfer_of_field : ∀ m ∈ Mnemonic.table,
    m.schema = .field2 ∨ m.schema = .field1 → m.hubTransfer = false := by
  decide +kernel

/-- An instruction that was made has its operands sorted into its arguments. -/
theorem ofOperands?_of_make {condition : Option Condition} {effects : Effects}
    (h : make condition m operands effects = .ok i) :
    Arguments.ofOperands? i.mnemonic i.operands = some i.arguments := by
  simp only [make] at h
  split at h
  · cases h
  · next a ha =>
    split at h
    · cases h
    · split at h
      · cases h
      · cases h
        split at ha
        · exact ha
        · cases ha

/-- An instruction that was accepted has the augmented operands that its arguments have. -/
theorem Accepted.augmented_eq (h : i.Accepted) (env : Environment) :
    i.augmented env = (argumentFields i.mnemonic i.arguments).filter fun s => s.Augmented env := by
  obtain ⟨condition, operands, effects, m, -, -, h⟩ := h
  exact filter_operandFields env (ofOperands?_of_make h)

/-! ### Sizes -/

theorem length_filter_singleton (env : Environment) (s : OperandField) :
    ([s].filter fun s => s.Augmented env).length = bit (isSplit env s.most s.operand) := by
  by_cases h : s.Augmented env
  · simp [h, bit, isSplit_iff.mpr h]
  · simp [h, bit, Bool.eq_false_iff.mpr (mt isSplit_iff.mp h)]

theorem Checked.most_of_field (h : i.Checked) {d n : Expression} (ha : i.arguments = .field most d s n) :
    (OperandField.source i.mnemonic s).most = fieldMax := by
  have hm : i.mnemonic.schema = .field2 ∨ i.mnemonic.schema = .field1 :=
    (h.fit_of ha).imp And.left And.left
  simp only [OperandField.source, Mnemonic.hubTransfer_of_field _ h.mem hm]
  rfl

/-- **The size of an instruction** is a long for itself and one for each augmented operand. -/
theorem Accepted.size_eq (h : i.Accepted) (env : Environment) :
    i.size env = 4 * (1 + (i.augmented env).length) := by
  rw [size, h.augmented_eq env, splitCount]
  cases ha : i.arguments with
  | source d s =>
    have hsource : argumentFields i.mnemonic (.source d s) = [.source i.mnemonic s] := rfl
    rw [hsource, length_filter_singleton]
    rfl
  | dest d =>
    have hdest : argumentFields i.mnemonic (.dest d) = [.dest d] := rfl
    rw [hdest, length_filter_singleton]
    rfl
  | pair d s =>
    have hpair : argumentFields i.mnemonic (.pair d s) = [.dest d] ++ [.source i.mnemonic s] := rfl
    rw [hpair, List.filter_append, List.length_append, length_filter_singleton,
      length_filter_singleton]
    rfl
  | field most d s n =>
    have hsource : argumentFields i.mnemonic (.field most d s n) = [.source i.mnemonic s] := rfl
    rw [hsource, length_filter_singleton, h.checked.most_of_field ha]
    rfl
  | reg d | relBranch d target | registerJump base d | jump target | pointerJump p target
  | augment n | bare => rfl

/-- At most the destination and the source are augmented. -/
theorem length_augmented_le (i : Instruction) (env : Environment) : (i.augmented env).length ≤ 2 := by
  have hone : ∀ (o : Option Operand) (f : Operand → OperandField), (o.toList.map f).length ≤ 1 := by
    intro o f
    cases o <;> simp
  have hfields : (operandFields i.mnemonic i.operands).length ≤ 2 := by
    have hdest := hone i.operands[0]? OperandField.dest
    have hsource := hone i.operands[1]? (OperandField.source i.mnemonic)
    unfold operandFields
    cases i.mnemonic.schema with
    | pair => simp only [List.length_append]; omega
    | regSource | regOptSource | field2 | field1 => exact hsource.trans (by decide)
    | dest => exact hdest.trans (by decide)
    | _ => exact Nat.zero_le 2
  exact (List.length_filter_le ..).trans hfields

/-! ### Words -/

section Words

variable {i : Instruction} {env : Environment} {origin : Origin} {ws : List Nat}

/-- The upper bits that a field has are those of its operand. -/
theorem upper_of_fieldOf {f : Field} (h : fieldOf env most o = .ok f) {u : Nat} (hu : f.upper = some u) :
    ∃ n, o.value.eval env = .ok n ∧ u = upperBits n.word := by
  unfold fieldOf at h
  split at h
  · obtain ⟨r, -, h⟩ := bind_eq_ok h
    cases h
    cases hu
  · obtain ⟨n, hn, h⟩ := bind_eq_ok h
    cases h
    refine ⟨n, mapError_eq_ok hn, ?_⟩
    split at hu
    · exact (Option.some.inj hu).symm
    · cases hu

/-- What goes in front of the instruction for a field augments its operand, if that is augmented. -/
theorem augments_augmentWords {s : OperandField} {f : Field} (hs : s.augment + 2 ^ 23 ≤ 2 ^ 28)
    (h : fieldOf env s.most s.operand = .ok f) :
    List.Forall₂ (i.Augments env) ([s].filter fun s => s.Augmented env)
      (i.augmentWords s.augment f) := by
  have hsome := isSome_upper h
  by_cases ha : s.Augmented env
  · rw [isSplit_iff.mpr ha] at hsome
    obtain ⟨u, hu⟩ := Option.isSome_iff_exists.mp hsome
    obtain ⟨n, hn, rfl⟩ := upper_of_fieldOf h hu
    have hword : i.Augments env s (i.conditionBits + s.augment + upperBits n.word) := by
      have hlt := upperBits_lt n.word
      refine ⟨?_, n, hn, ?_⟩
      · rw [conditionBits]
        omega
      · rw [conditionBits]
        omega
    rw [List.filter_cons_of_pos (by simpa using ha), augmentWords, hu]
    exact .cons hword .nil
  · rw [Bool.eq_false_iff.mpr (mt isSplit_iff.mp ha)] at hsome
    rw [List.filter_cons_of_neg (by simpa using ha), augmentWords,
      Option.not_isSome_iff_eq_none.mp (Bool.eq_false_iff.mp hsome)]
    exact .nil

theorem augments_dest {d : Operand} {f : Field} (h : fieldOf env fieldMax d = .ok f) :
    List.Forall₂ (i.Augments env) ([OperandField.dest d].filter fun s => s.Augmented env)
      (i.augmentWords augmentDest f) :=
  augments_augmentWords (by decide : augmentDest + 2 ^ 23 ≤ 2 ^ 28) h

theorem augments_source {f : Field} (h : fieldOf env (sourceMax m) s = .ok f) :
    List.Forall₂ (i.Augments env) ([OperandField.source m s].filter fun s => s.Augmented env)
      (i.augmentWords augmentSource f) :=
  augments_augmentWords (by decide : augmentSource + 2 ^ 23 ≤ 2 ^ 28) h

/-- **The words of an instruction** are one for each augmented operand, and then the instruction. -/
theorem Accepted.words_eq (h : i.Accepted) (hw : i.words env origin = .ok ws) :
    ∃ upper word, ws = upper ++ [word] ∧ List.Forall₂ (i.Augments env) (i.augmented env) upper := by
  rw [h.augmented_eq env]
  unfold words at hw
  cases ha : i.arguments with
  | source d s =>
    simp only [ha] at hw
    obtain ⟨d, -, hw⟩ := bind_eq_ok hw
    obtain ⟨f, hf, hw⟩ := bind_eq_ok hw
    cases hw
    exact ⟨_, _, rfl, augments_source hf⟩
  | pair d s =>
    simp only [ha] at hw
    obtain ⟨f, hf, hw⟩ := bind_eq_ok hw
    obtain ⟨g, hg, hw⟩ := bind_eq_ok hw
    cases hw
    have hpair : argumentFields i.mnemonic (.pair d s) = [.dest d] ++ [.source i.mnemonic s] := rfl
    rw [hpair, List.filter_append]
    exact ⟨_, _, rfl, List.rel_append (augments_dest hf) (augments_source hg)⟩
  | dest d =>
    simp only [ha] at hw
    obtain ⟨f, hf, hw⟩ := bind_eq_ok hw
    cases hw
    exact ⟨_, _, rfl, augments_dest hf⟩
  | field most d s n =>
    simp only [ha] at hw
    obtain ⟨d, -, hw⟩ := bind_eq_ok hw
    obtain ⟨f, hf, hw⟩ := bind_eq_ok hw
    obtain ⟨n, -, hw⟩ := bind_eq_ok hw
    cases hw
    rw [← h.checked.most_of_field ha] at hf
    exact ⟨_, _, rfl, augments_source hf⟩
  | relBranch d target =>
    simp only [ha] at hw
    obtain ⟨d, -, hw⟩ := bind_eq_ok hw
    split at hw
    all_goals
      obtain ⟨s, -, hw⟩ := bind_eq_ok hw
      cases hw
      exact ⟨[], _, rfl, .nil⟩
  | pointerJump pointer target =>
    simp only [ha] at hw
    obtain ⟨p, -, hw⟩ := bind_eq_ok hw
    obtain ⟨a, -, hw⟩ := bind_eq_ok hw
    cases hw
    exact ⟨[], _, rfl, .nil⟩
  | reg d | registerJump base d | jump target | augment n =>
    simp only [ha] at hw
    obtain ⟨a, -, hw⟩ := bind_eq_ok hw
    cases hw
    exact ⟨[], _, rfl, .nil⟩
  | bare =>
    simp only [ha] at hw
    cases hw
    exact ⟨[], _, rfl, .nil⟩

end Words

end Instruction

/-- **Bytes are as many as sizes say.**  In every environment, for an instruction that was accepted the
size is one long for itself and one for each augmented operand, at most three; wherever it stands, if
it can be encoded then its bytes are as many, and are those of one word for each augmented operand, which
carries the condition of the instruction, and of the instruction itself.  If a data directive can be
stored, then its bytes are as many as its size says. -/
theorem bytes_agree_with_sizes (env : Environment) :
    (∀ i : Instruction, i.Accepted →
      i.size env = 4 * (1 + (i.augmented env).length) ∧ i.size env ≤ 12 ∧
        ∀ origin bytes, i.encode env origin = .ok bytes →
          bytes.length = i.size env ∧
            ∃ upper word, bytes = (upper ++ [word]).flatMap (littleEndian 4) ∧
              List.Forall₂ (i.Augments env) (i.augmented env) upper) ∧
      ∀ (d : DataDirective) (bytes : Bytes), d.bytes env = .ok bytes → d.size env = .ok bytes.length := by
  refine ⟨?_, fun d bytes h => DataDirective.size_of_bytes h⟩
  intro i hi
  have hsize := hi.size_eq env
  refine ⟨hsize, ?_, ?_⟩
  · have := i.length_augmented_le env
    omega
  · intro origin bytes h
    refine ⟨Instruction.length_encode h, ?_⟩
    obtain ⟨ws, hw, h⟩ := bind_eq_ok h
    obtain ⟨upper, word, rfl, haugments⟩ := hi.words_eq hw
    exact ⟨upper, word, (Except.ok.inj h).symm, haugments⟩

/-- `IF_C WRLONG ##5, #$100`. -/
def Instruction.conditionalWrite : Instruction where
  condition := ⟨0b1100⟩
  mnemonic := Mnemonic.hubRow "WRLONG" (Mnemonic.opcode8 0b11000110) .pair .none
  operands := [⟨.longLiteral, false, .int 5⟩, ⟨.immediate, false, .int 0x100⟩]
  arguments := .pair ⟨.longLiteral, false, .int 5⟩ ⟨.immediate, false, .int 0x100⟩
  effects := .none

/-- `WORD "ab"[2], LONG -1`. -/
def DataDirective.mixedWidths : DataDirective where
  kind := .word
  values := [⟨⟨.text "ab", some (.int 2), none⟩, default⟩, ⟨⟨.int (-1), none, some .long⟩, default⟩]

/-- The instruction is augmented twice, its source because a hub transfer has eight bits only; the
directive has a text, a repetition and a width of its own. -/
theorem bytes_agree_with_sizes_conditionalWrite :
    (Instruction.conditionalWrite.encode default default =
        .ok [0x00, 0x00, 0x80, 0xCF, 0x00, 0x00, 0x00, 0xCF, 0x00, 0x0B, 0x6C, 0xCC] ∧
      Instruction.conditionalWrite.size default =
        4 * (1 + (Instruction.conditionalWrite.augmented default).length) ∧
      Instruction.conditionalWrite.size default = 12 ∧
      ∃ upper word,
        [0x00, 0x00, 0x80, 0xCF, 0x00, 0x00, 0x00, 0xCF, 0x00, 0x0B, 0x6C, 0xCC] =
          (upper ++ [word]).flatMap (littleEndian 4) ∧
        List.Forall₂ (Instruction.conditionalWrite.Augments default)
          (Instruction.conditionalWrite.augmented default) upper) ∧
      DataDirective.mixedWidths.bytes default =
        .ok [97, 0, 97, 0, 98, 0, 98, 0, 255, 255, 255, 255] ∧
      DataDirective.mixedWidths.size default = .ok 12 := by
  have haccepted : Instruction.conditionalWrite.Accepted := by
    refine ⟨some ⟨0b1100⟩, Instruction.conditionalWrite.operands, .none,
      Instruction.conditionalWrite.mnemonic, ?_, ?_, rfl⟩
    · decide +kernel
    · rintro c ⟨⟩
      decide
  have hbytes : Instruction.conditionalWrite.encode default default =
      .ok [0x00, 0x00, 0x80, 0xCF, 0x00, 0x00, 0x00, 0xCF, 0x00, 0x0B, 0x6C, 0xCC] := rfl
  have hdata : DataDirective.mixedWidths.bytes default =
      .ok [97, 0, 97, 0, 98, 0, 98, 0, 255, 255, 255, 255] := rfl
  obtain ⟨hinstruction, hdirective⟩ := bytes_agree_with_sizes default
  obtain ⟨hsize, -, hencode⟩ := hinstruction _ haccepted
  obtain ⟨hlength, hwords⟩ := hencode _ _ hbytes
  exact ⟨⟨hbytes, hsize, hlength.symm, hwords⟩, hdata, hdirective _ _ hdata⟩

end Propeller
