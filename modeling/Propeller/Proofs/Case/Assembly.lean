import Propeller.Compile.Image
import Propeller.Proofs.Case.Expression

/-!
# Case — assembly code in capitals

Assembly code asks expressions for their values, for the lines that they name and for their texts, and for
nothing else.  None of these depends on the case of names, so that lines are placed where they were and
have the bytes that they had (`assemble_upper`).
-/

namespace Propeller

variable {ε ε' α β : Type}

/-! ### Instructions -/

/-- An operand with all names in capitals. -/
def Operand.upper (o : Operand) : Operand := { o with value := o.value.upper }

namespace Operand

variable (o : Operand)

@[simp]
theorem kind_upper : o.upper.kind = o.kind := rfl

@[simp]
theorem absolute_upper : o.upper.absolute = o.absolute := rfl

@[simp]
theorem value_upper : o.upper.value = o.value.upper := rfl

@[simp]
theorem isRegister_upper : o.upper.isRegister = o.isRegister := rfl

end Operand

namespace Arguments

/-- Arguments with all names in capitals. -/
def upper : Arguments → Arguments
  | source d s              => source d.upper s.upper
  | pair d s                => pair d.upper s.upper
  | dest d                  => dest d.upper
  | reg d                   => reg d.upper
  | field most d s n        => field most d.upper s.upper n.upper
  | relBranch d target      => relBranch d.upper target.upper
  | registerJump base d     => registerJump base d.upper
  | jump target             => jump target.upper
  | pointerJump pointer target => pointerJump pointer.upper target.upper
  | augment n               => augment n.upper
  | bare                    => bare

theorem ofOperands?_upper (m : Mnemonic) (operands : List Operand) :
    ofOperands? m (operands.map Operand.upper) = (ofOperands? m operands).map upper := by
  rcases operands with _ | ⟨a, _ | ⟨b, _ | ⟨c, _ | ⟨d, rest⟩⟩⟩⟩ <;> cases h : m.schema <;>
    simp [ofOperands?, h, upper, apply_ite (Option.map upper), Function.comp_def] <;> rfl

end Arguments

/-- An instruction with all names in capitals. -/
def Instruction.upper (i : Instruction) : Instruction :=
  { i with operands := i.operands.map Operand.upper, arguments := i.arguments.upper }

namespace Instruction

theorem make_upper (condition : Option Condition) (m : Mnemonic) (operands : List Operand)
    (effects : Effects) :
    (make condition m (operands.map Operand.upper) effects).toOption =
      (make condition m operands effects).toOption.map upper := by
  have habsolute : (operands.map Operand.upper).any Operand.absolute = operands.any Operand.absolute :=
    List.any_map
  have himmediate : ((operands.map Operand.upper).all fun o => !o.isRegister) =
      operands.all fun o => !o.isRegister :=
    List.all_map
  have hshaped : ∀ p : Bool,
      (if p then Arguments.ofOperands? m (operands.map Operand.upper) else none) =
        (if p then Arguments.ofOperands? m operands else none).map Arguments.upper := by
    intro p
    cases p with
    | false => rfl
    | true => exact Arguments.ofOperands?_upper m operands
  simp only [make, habsolute, himmediate, hshaped]
  cases if m.schema == .jump || m.schema == .pointerJump || !operands.any Operand.absolute then
      Arguments.ofOperands? m operands else none with
  | none => rfl
  | some arguments => simp [apply_ite Except.toOption, apply_ite (Option.map upper), upper]

section Upper

variable (i : Instruction)

@[simp]
theorem arguments_upper : i.upper.arguments = i.arguments.upper := rfl

@[simp]
theorem mnemonic_upper : i.upper.mnemonic = i.mnemonic := rfl

end Upper

variable (env : Environment)

@[simp]
theorem toOption_register_upper (e : Expression) :
    (register env.upper e.upper).toOption = (register env e).toOption := by
  simp [register, apply_ite Except.toOption]

theorem isSplit_upper (most : Nat) (o : Operand) :
    isSplit env.upper most o.upper = isSplit env most o := by
  simp only [isSplit, Operand.kind_upper, Operand.value_upper]
  obtain ⟨n, h, h'⟩ | ⟨e, e', h, h'⟩ := ok_or_error_of_toOption (o.value.toOption_eval_upper env)
  · rw [h, h']
  · rw [h, h']

@[simp]
theorem toOption_fieldOf_upper (most : Nat) (o : Operand) :
    (fieldOf env.upper most o.upper).toOption = (fieldOf env most o).toOption := by
  by_cases h : o.isRegister = true <;> simp [fieldOf, h]

@[simp]
theorem toOption_distanceField_upper (origin : Origin) (target : Expression) :
    (distanceField env.upper origin target.upper).toOption =
      (distanceField env origin target).toOption := by
  simp [distanceField, apply_ite Except.toOption]

@[simp]
theorem toOption_jumpField_upper (origin : Origin) (o : Operand) :
    (jumpField env.upper origin o.upper).toOption = (jumpField env origin o).toOption := by
  simp [jumpField, apply_ite Except.toOption]

@[simp]
theorem toOption_pointerField_upper (e : Expression) :
    (pointerField env.upper e.upper).toOption = (pointerField env e).toOption := by
  simp [pointerField, apply_ite Except.toOption]

@[simp]
theorem toOption_selector_upper (most : Nat) (e : Expression) :
    (selector env.upper most e.upper).toOption = (selector env most e).toOption := by
  simp [selector, apply_ite Except.toOption]

theorem toOption_words_upper (i : Instruction) (origin : Origin) :
    (i.upper.words env.upper origin).toOption = (i.words env origin).toOption := by
  cases h : i.arguments <;> simp [words, h, Arguments.upper, apply_ite Except.toOption] <;> rfl

@[simp]
theorem toOption_encode_upper (i : Instruction) (origin : Origin) :
    (i.upper.encode env.upper origin).toOption = (i.encode env origin).toOption := by
  simp [encode, toOption_words_upper]

@[simp]
theorem size_upper (i : Instruction) : i.upper.size env.upper = i.size env := by
  cases h : i.arguments <;>
    simp only [size, splitCount, arguments_upper, mnemonic_upper, h, Arguments.upper, isSplit_upper]

end Instruction

/-! ### Data -/

namespace DataValue

/-- A value with all names in capitals. -/
def upper (v : DataValue) : DataValue :=
  { v with value := v.value.upper, count := v.count.map Expression.upper }

variable (v : DataValue) (env : Environment)

@[simp]
theorem toOption_repetitions_upper :
    (v.upper.repetitions env.upper).toOption = (v.repetitions env).toOption := by
  obtain ⟨value, count, width⟩ := v
  cases count <;> simp [repetitions, upper, apply_ite Except.toOption]

@[simp]
theorem toOption_elements_upper :
    (v.upper.elements env.upper).toOption = (v.elements env).toOption := by
  simp only [elements, upper, Expression.text?_upper]
  cases v.value.text? <;> simp

@[simp]
theorem toOption_bytes_upper (kind : DataType) :
    (v.upper.bytes kind env.upper).toOption = (v.bytes kind env).toOption := by
  have hwidth : v.upper.width = v.width := rfl
  simp [bytes, hwidth]

@[simp]
theorem toOption_size_upper (kind : DataType) :
    (v.upper.size kind env.upper).toOption = (v.size kind env).toOption := by
  have hwidth : v.upper.width = v.width := rfl
  have hcount : v.upper.elementCount = v.elementCount := by
    rw [elementCount, elementCount, upper, Expression.text?_upper]
  simp [size, hwidth, hcount]

end DataValue

namespace DataDirective

/-- A directive with all names in capitals. -/
def upper (d : DataDirective) : DataDirective :=
  { d with values := d.values.map (Located.map DataValue.upper) }

@[simp]
theorem toOption_size_upper (d : DataDirective) (env : Environment) :
    (d.upper.size env.upper).toOption = (d.size env).toOption := by
  simp only [size, upper, toOption_bind, toOption_pure]
  rw [toOption_mapM_map (h := id)
    (f := fun v => (v.value.size d.kind env).mapError fun e => (⟨e, v.location⟩ : Located EncodeError))
    fun v => by simp [Located.map]]
  simp

/-- The bytes of a directive are those of its first value and those of the others. -/
theorem toOption_bytes_cons (kind : DataType) (v : Located DataValue) (vs : List (Located DataValue))
    (env : Environment) :
    (DataDirective.bytes ⟨kind, v :: vs⟩ env).toOption =
      (v.value.bytes kind env).toOption.bind fun first =>
        (DataDirective.bytes ⟨kind, vs⟩ env).toOption.map (first ++ ·) := by
  cases hv : v.value.bytes kind env with
  | error e => simp [DataDirective.bytes, hv]
  | ok first => simp [DataDirective.bytes, hv, apply_ite Except.toOption]

@[simp]
theorem toOption_bytes_upper (d : DataDirective) (env : Environment) :
    (d.upper.bytes env.upper).toOption = (d.bytes env).toOption := by
  obtain ⟨kind, values⟩ := d
  induction values with
  | nil => simp only [upper, bytes, List.map_nil]
  | cons v vs ih =>
    rw [upper] at ih
    simp only [upper, List.map_cons, toOption_bytes_cons, ih, Located.map,
      DataValue.toOption_bytes_upper]

end DataDirective

/-! ### Lines -/

/-- A line's content with all names in capitals. -/
def Content.upper : Content → Content
  | .empty         => .empty
  | .instruction i => .instruction i.upper
  | .data d        => .data d.upper
  | .file contents => .file contents
  | .res count     => .res count.upper
  | .align size    => .align size
  | .org origin    => .org (origin.map Expression.upper)
  | .orgh origin   => .orgh (origin.map Expression.upper)
  | .orgf target   => .orgf target.upper
  | .fit limit     => .fit (limit.map Expression.upper)

/-- A line with all names in capitals. -/
def AsmLine.upper (line : AsmLine) : AsmLine := { line with content := line.content.upper }

@[simp]
theorem toOption_evalOr_upper (env : Environment) (default : Int) (e : Option Expression) :
    (evalOr env.upper default (e.map Expression.upper)).toOption =
      (evalOr env default e).toOption := by
  cases e <;> simp [evalOr]

namespace Content

variable (content : Content) (env : Environment) (c : Cursor)

@[simp]
theorem toOption_moveTo_upper :
    (content.upper.moveTo env.upper c).toOption = (content.moveTo env c).toOption := by
  cases content <;> simp [moveTo, upper, apply_ite Except.toOption]

@[simp]
theorem toOption_extent_upper :
    (content.upper.extent env.upper c).toOption = (content.extent env c).toOption := by
  cases content with
  | data d => 
    simp only [extent, upper]
    obtain ⟨n, h, h'⟩ | ⟨e, e', h, h'⟩ := ok_or_error_of_toOption (d.toOption_size_upper env)
    · rw [h, h']
    · rw [h, h']
      rfl
  | _ => simp [extent, upper, apply_ite Except.toOption]

@[simp]
theorem toOption_place_upper :
    (content.upper.place env.upper c).toOption = (content.place env c).toOption := by
  simp [place, apply_ite Except.toOption]

end Content

/-! ### Placement -/

/-- Where lines are placed does not depend on the case of names. -/
theorem place_upper (scopes : Scopes) (c : Cursor) (lines : List AsmLine) (addresses : Addresses) :
    (place scopes.upper c (lines.map AsmLine.upper) addresses).addresses =
        (place scopes c lines addresses).addresses ∧
      (place scopes.upper c (lines.map AsmLine.upper) addresses).outcome.toOption =
        (place scopes c lines addresses).outcome.toOption := by
  induction lines generalizing c addresses with
  | nil => exact ⟨rfl, rfl⟩
  | cons line rest ih =>
    simp only [List.map_cons, place]
    have hplace : (line.upper.content.place ⟨scopes.upper, addresses⟩ c).toOption =
        (line.content.place ⟨scopes, addresses⟩ c).toOption :=
      line.content.toOption_place_upper ⟨scopes, addresses⟩ c
    have hrecord : ∀ p, line.upper.record p addresses = line.record p addresses := fun _ => rfl
    obtain ⟨⟨p, next⟩, h, h'⟩ | ⟨e, e', h, h'⟩ := ok_or_error_of_toOption hplace
    · rw [h, h']
      simp only [hrecord]
      cases line.record p addresses with
      | error e => exact ⟨rfl, rfl⟩
      | ok recorded =>
        obtain ⟨addresses, moved⟩ := recorded
        obtain ⟨haddresses, houtcome⟩ := ih next addresses
        exact ⟨haddresses, by simp only [toOption_except_map, houtcome]⟩
    · rw [h, h']
      exact ⟨rfl, rfl⟩

theorem convergeWithin_upper (scopes : Scopes) (start : Start) (lines : List AsmLine)
    (limit rounds : Nat) (addresses : Addresses) :
    (convergeWithin scopes.upper start (lines.map AsmLine.upper) limit rounds addresses).1 =
        (convergeWithin scopes start lines limit rounds addresses).1 ∧
      (convergeWithin scopes.upper start (lines.map AsmLine.upper) limit rounds addresses).2.toOption =
        (convergeWithin scopes start lines limit rounds addresses).2.toOption := by
  induction rounds generalizing addresses with
  | zero => exact ⟨rfl, rfl⟩
  | succ rounds ih =>
    obtain ⟨haddresses, houtcome⟩ := place_upper scopes (.ofStart start) lines addresses
    simp only [convergeWithin]
    obtain ⟨⟨ps, moved⟩, h, h'⟩ | ⟨e, e', h, h'⟩ := ok_or_error_of_toOption houtcome
    · rw [h, h', haddresses]
      cases moved with
      | false => exact ⟨rfl, rfl⟩
      | true => exact ih _
    · rw [h, h', haddresses]
      exact ⟨rfl, rfl⟩

/-! ### Bytes -/

theorem AsmLine.toOption_bytes_upper (line : AsmLine) (env : Environment) (p : Placement) :
    (line.upper.bytes env.upper p).toOption = (line.bytes env p).toOption := by
  obtain ⟨label, content, location⟩ := line
  cases content <;> simp [AsmLine.bytes, AsmLine.upper, Content.upper]

theorem emitFrom_upper (env : Environment) (start : Int) (written : Nat)
    (lines : List (AsmLine × Placement)) :
    (emitFrom env.upper start written (lines.map (Prod.map AsmLine.upper id))).1 =
        (emitFrom env start written lines).1 ∧
      ((emitFrom env.upper start written (lines.map (Prod.map AsmLine.upper id))).2 = [] ↔
        (emitFrom env start written lines).2 = []) := by
  induction lines generalizing written with
  | nil => exact ⟨rfl, Iff.rfl⟩
  | cons line rest ih =>
    obtain ⟨line, p⟩ := line
    simp only [List.map_cons, Prod.map, id, emitFrom]
    obtain ⟨bytes, h, h'⟩ | ⟨e, e', h, h'⟩ :=
      ok_or_error_of_toOption (line.toOption_bytes_upper env p)
    · rw [h, h']
      obtain ⟨hbytes, hproblems⟩ := ih (written + ((p.object - start).toNat - written) + bytes.length)
      exact ⟨by simp only [hbytes], by simp only [List.nil_append, hproblems]⟩
    · rw [h, h']
      obtain ⟨hbytes, -⟩ := ih (written + ((p.object - start).toNat - written) + (zeros p.size).length)
      exact ⟨by simp only [hbytes], by simp⟩

/-- The same code in the same place, and something is wrong with both or with none. -/
structure Assembled.Alike (a a' : Assembled) : Prop where
  addresses_eq : a'.addresses = a.addresses
  bytes_eq : a'.bytes = a.bytes
  problems_iff : a'.problems = [] ↔ a.problems = []

/-- **Assembly code** does not depend on the case of names. -/
theorem assemble_upper (scopes : Scopes) (start : Start) (lines : List AsmLine) (limit : Nat)
    (addresses : Addresses) :
    (assemble scopes start lines limit addresses).Alike
      (assemble scopes.upper start (lines.map AsmLine.upper) limit addresses) := by
  obtain ⟨haddresses, hplacements⟩ := convergeWithin_upper scopes start lines limit limit addresses
  simp only [assemble, converge]
  generalize convergeWithin scopes start lines limit limit addresses = found at *
  generalize convergeWithin scopes.upper start (lines.map AsmLine.upper) limit limit addresses =
    found' at *
  obtain ⟨addresses, placements⟩ := found
  obtain ⟨addresses', placements'⟩ := found'
  obtain rfl : addresses' = addresses := haddresses
  obtain ⟨ps, rfl, rfl⟩ | ⟨e, e', rfl, rfl⟩ := ok_or_error_of_toOption hplacements
  · obtain ⟨hbytes, hproblems⟩ := emitFrom_upper ⟨scopes, addresses'⟩ start.object 0 (lines.zip ps)
    rw [← List.zip_map_left] at hbytes hproblems
    exact ⟨rfl, hbytes, hproblems⟩
  · exact ⟨rfl, rfl, by simp⟩

/-- A block of assembly code with all names in capitals. -/
def InlineBlock.upper (b : InlineBlock) : InlineBlock := { b with lines := b.lines.map AsmLine.upper }

theorem assembleBlocks_upper (scopes : Scopes) (limit : Nat) (blocks : List InlineBlock)
    (addresses : Addresses) :
    let code := assembleBlocks scopes limit blocks addresses
    let code' := assembleBlocks scopes.upper limit (blocks.map InlineBlock.upper) addresses
    code'.1 = code.1 ∧ code'.2.1 = code.2.1 ∧ (code'.2.2 = [] ↔ code.2.2 = []) := by
  induction blocks generalizing addresses with
  | nil => exact ⟨rfl, rfl, Iff.rfl⟩
  | cons b bs ih =>
    have hblock := assemble_upper scopes (.cog b.origin) b.lines limit addresses
    obtain ⟨haddresses, hcodes, hproblems⟩ :=
      ih (assemble scopes (.cog b.origin) b.lines limit addresses).addresses
    simp only [List.map_cons, assembleBlocks, InlineBlock.upper, hblock.addresses_eq,
      hblock.bytes_eq] at haddresses hcodes hproblems ⊢
    exact ⟨haddresses, by simp only [hcodes],
      by simp only [List.append_eq_nil_iff, hblock.problems_iff, hproblems]⟩

end Propeller
