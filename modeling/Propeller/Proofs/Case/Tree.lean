import Propeller.Proofs.Case.Assembly
import Propeller.Proofs.Case.Links
import Propeller.Proofs.Compile.Induction

/-!
# Case — objects in capitals

`ObjectTree.upper` is an object with all its names in capitals: the names of what it declares and their
uses, the tokens of its definitions, and the words of its assembly code.  Two objects differ only in the
case of names exactly if they are the same in capitals.

What a written expression or line stands for is, in capitals, what it stands for (`Expr.toOption_lower_upper`,
`SourceLine.toOption_content_upper`).
-/

namespace Propeller

/-! ### Trees -/

namespace Expr

mutual

/-- A written expression with all names in capitals. -/
def upper : Expr → Expr
  | literal l value        => literal l value
  | text l value           => text l value
  | name l x               => name l x.upper
  | member l object i x    => member l (object.map .upper) (upperOpt i) (x.map .upper)
  | index l base i         => index l (base.map .upper) i.upper
  | unary l op operand     => unary l op operand.upper
  | binary l op left right => binary l op left.upper right.upper
  | ternary l c yes no     => ternary l c.upper yes.upper no.upper
  | addressOf l operand    => addressOf l operand.upper
  | call l object i method arguments =>
    call l (object.map (Located.map .upper)) (upperOpt i) (method.map .upper) (upperAll arguments)

/-- Written expressions with all names in capitals. -/
def upperAll : List Expr → List Expr
  | []      => []
  | e :: es => e.upper :: upperAll es

/-- A written expression that may be missing, with all names in capitals. -/
def upperOpt : Option Expr → Option Expr
  | none   => none
  | some e => some e.upper

end

@[simp]
theorem upperAll_eq (es : List Expr) : upperAll es = es.map upper := by
  induction es with
  | nil => rfl
  | cons e es ih => rw [upperAll, ih, List.map_cons]

@[simp]
theorem upperOpt_eq (e : Option Expr) : upperOpt e = e.map upper := by
  cases e <;> rfl

end Expr

/-- An operand with all names in capitals. -/
def SourceOperand.upper (o : SourceOperand) : SourceOperand :=
  { o with value := o.value.upper, count := o.count.map Expr.upper }

/-- A line with its label, its words and all names in its operands in capitals. -/
def SourceLine.upper (line : SourceLine) : SourceLine where
  label := line.label.map (Located.map .upper)
  condition := line.condition.map (Located.map .upper)
  mnemonic := line.mnemonic.map (Located.map .upper)
  operands := line.operands.map SourceOperand.upper
  effect := line.effect.map (Located.map .upper)
  location := line.location

/-- A debug argument with all names in capitals; also in what is shown of a value. -/
def DebugArgument.upper : DebugArgument → DebugArgument
  | text shown          => .text shown
  | value format e name => .value format e.upper (upperText name)

/-- A case label with all names in capitals. -/
def CaseLabel.upper : CaseLabel → CaseLabel
  | value e        => value e.upper
  | range low high => range low.upper high.upper

namespace Statement

mutual

/-- A statement with all names in capitals. -/
def upper : Statement → Statement
  | conditional branches otherwise => conditional (upperBranches branches) (upperOpt otherwise)
  | whileLoop c isUntil isPost body => whileLoop c.upper isUntil isPost (upperAll body)
  | repeatLoop count body => repeatLoop (count.map Expr.upper) (upperAll body)
  | rangeLoop target first last step body =>
    rangeLoop target.upper first.upper last.upper (step.map Expr.upper) (upperAll body)
  | forLoop init c step body =>
    forLoop (upperAll init) (c.map Expr.upper) (upperAll step) (upperAll body)
  | switch value choices otherwise breakable =>
    switch value.upper (upperChoices choices) (upperOpt otherwise) breakable
  | leave l => leave l
  | next l => next l
  | ret value => ret (value.map Expr.upper)
  | abort value => abort (value.map Expr.upper)
  | assign target op value => assign target.upper op value.upper
  | expression l value => expression l value.upper
  | assembly l lines => assembly l (lines.map SourceLine.upper)
  | debug l arguments => debug l (arguments.map DebugArgument.upper)

/-- Statements with all names in capitals. -/
def upperAll : List Statement → List Statement
  | []      => []
  | s :: ss => s.upper :: upperAll ss

/-- Statements that may be missing, with all names in capitals. -/
def upperOpt : Option (List Statement) → Option (List Statement)
  | none    => none
  | some ss => some (upperAll ss)

/-- Branches with all names in capitals. -/
def upperBranches : List Guarded → List Guarded
  | []                     => []
  | .mk c negate body :: rest => .mk c.upper negate (upperAll body) :: upperBranches rest

/-- Choices with all names in capitals. -/
def upperChoices : List Choice → List Choice
  | []                    => []
  | .mk labels body :: rest => .mk (labels.map CaseLabel.upper) (upperAll body) :: upperChoices rest

end

@[simp]
theorem upperAll_eq (ss : List Statement) : upperAll ss = ss.map upper := by
  induction ss with
  | nil => rfl
  | cons s ss ih => rw [upperAll, ih, List.map_cons]

@[simp]
theorem upperOpt_eq (ss : Option (List Statement)) : upperOpt ss = ss.map (List.map upper) := by
  cases ss with
  | none => rfl
  | some ss => rw [upperOpt, upperAll_eq, Option.map_some]

end Statement

/-- An item of an enumeration with all names in capitals. -/
def EnumItem.upper (item : EnumItem) : EnumItem where
  name := item.name.map .upper
  step := item.step.map Expr.upper

/-- A declaration of constants with all names in capitals. -/
def ConstantDecl.upper : ConstantDecl → ConstantDecl
  | assign name value            => assign (name.map .upper) value.upper
  | enumeration start step items =>
    enumeration (start.map Expr.upper) (step.map Expr.upper) (items.map EnumItem.upper)

/-- A declaration of a variable with all names in capitals. -/
def VariableDecl.upper (decl : VariableDecl) : VariableDecl :=
  { decl with name := decl.name.map .upper, count := decl.count.map Expr.upper }

/-- A declaration of a child with all names in capitals; not so its path. -/
def ObjectDecl.upper (decl : ObjectDecl) : ObjectDecl :=
  { decl with name := decl.name.map .upper, count := decl.count.map Expr.upper }

/-- A declaration of a local variable with all names in capitals. -/
def LocalDecl.upper (decl : LocalDecl) : LocalDecl :=
  { decl with name := decl.name.map .upper, count := decl.count.map Expr.upper }

/-- A declaration of a method with all names in capitals. -/
def MethodDecl.upper (decl : MethodDecl) : MethodDecl :=
  { decl with
    name := decl.name.map .upper
    parameters := decl.parameters.map (Located.map .upper)
    results := decl.results.map (Located.map .upper)
    locals := decl.locals.map LocalDecl.upper
    body := decl.body.map Statement.upper }

namespace Node

mutual

/-- A part of an object with all names in capitals. -/
def upper : Node → Node
  | constants decls    => constants (decls.map ConstantDecl.upper)
  | objectVars decls   => objectVars (decls.map VariableDecl.upper)
  | objects decls      => objects (decls.map ObjectDecl.upper)
  | data lines         => data (lines.map SourceLine.upper)
  | method decl        => method decl.upper
  | define name tokens => define (name.map .upper) (tokens.map upperText)
  | ifDefined name negate yes no => ifDefined name.upper negate (upperAll yes) (upperAll no)

/-- Parts of an object with all names in capitals. -/
def upperAll : List Node → List Node
  | []      => []
  | n :: ns => n.upper :: upperAll ns

end

@[simp]
theorem upperAll_eq (ns : List Node) : upperAll ns = ns.map upper := by
  induction ns with
  | nil => rfl
  | cons n ns ih => rw [upperAll, ih, List.map_cons]

end Node

/-- An object with all names in capitals. -/
def ObjectTree.upper (t : ObjectTree) : ObjectTree := { t with nodes := t.nodes.map Node.upper }

/-! ### Constant expressions -/

namespace Expr

variable (s : Scopes) (scope : ScopeId)

/-- What is evaluated for an expression in capitals. -/
@[simp]
theorem toOption_lower_upper (e : Expr) :
    (e.upper.lower s.upper scope).toOption = (e.lower s scope).toOption.map Expression.upper := by
  induction e using Expr.induct with
  | literal | text | name | index | call => rfl
  | member l object i x hi => simp [upper, lower, Located.map, Expression.upper]
  | unary l op operand ih =>
    simp only [upper, lower, toOption_bind, toOption_pure, ih]
    cases (operand.lower s scope).toOption <;> rfl
  | binary l op left right ihl ihr =>
    simp only [upper, lower, toOption_bind, toOption_pure, ihl, ihr]
    cases (left.lower s scope).toOption <;> cases (right.lower s scope).toOption <;> rfl
  | ternary l c yes no ihc ihy ihn =>
    simp only [upper, lower, toOption_bind, toOption_pure, ihc, ihy, ihn]
    cases (c.lower s scope).toOption <;> cases (yes.lower s scope).toOption <;>
      cases (no.lower s scope).toOption <;> rfl
  | addressOf l operand _ _ =>
    cases operand with
    | name inner x =>
      simp only [upper, lower, Scopes.resolve_upper]
      cases s.resolve scope x with
      | none => rfl
      | some e => cases e <;> rfl
    | _ => rfl

@[simp]
theorem toOption_constantValue_upper (e : Expr) :
    (e.upper.constantValue s.upper scope).toOption = (e.constantValue s scope).toOption := by
  have heval : ∀ value : Expression, (value.upper.evalInt { scopes := s.upper }).toOption =
      (value.evalInt { scopes := s }).toOption :=
    fun value => value.toOption_evalInt_upper { scopes := s }
  simp only [constantValue, toOption_bind, toOption_mapError, toOption_lower_upper, Option.bind_map,
    Function.comp_def, heval]

@[simp]
theorem toOption_countValue_upper (e : Expr) :
    (e.upper.countValue s.upper scope).toOption = (e.countValue s scope).toOption := by
  simp only [countValue, toOption_bind, toOption_constantValue_upper, toOption_pure]

end Expr

/-! ### Lines -/

namespace Directive

@[simp]
theorem find?_upperText (name : String) : find? (upperText name) = find? name := by
  simp only [find?, sameName_upperText_right]

end Directive

namespace SourceLine

@[simp]
theorem directive?_upper (line : SourceLine) : line.upper.directive? = line.directive? := by
  simp only [directive?, upper]
  cases line.mnemonic with
  | none => rfl
  | some m =>
    simp only [Option.map_some, Option.bind_some, Located.map, Identifier.upper,
      Directive.find?_upperText]

@[simp]
theorem kind_upper (line : SourceLine) : line.upper.kind = line.kind := by
  simp only [kind, directive?_upper]

end SourceLine

theorem Mnemonic.toOption_ofName_upperText (name : String) :
    (Mnemonic.ofName (upperText name)).toOption = (Mnemonic.ofName name).toOption := by
  simp only [Mnemonic.ofName, sameName_upperText_right]
  split <;> rfl

theorem Condition.toOption_ofName_upperText (name : String) :
    (Condition.ofName (upperText name)).toOption = (Condition.ofName name).toOption := by
  simp only [Condition.ofName, sameName_upperText_right]
  split <;> rfl

theorem Effects.toOption_ofName_upperText (name : String) :
    (Effects.ofName (upperText name)).toOption = (Effects.ofName name).toOption := by
  simp only [Effects.ofName, sameName_upperText_left, apply_ite Except.toOption, toOption_ok,
    toOption_error]

@[simp]
theorem toOption_encodeAt {α : Type} (l : Location) (x : Except EncodeError α) :
    (encodeAt l x).toOption = x.toOption := toOption_mapError _ x

/-- A name that may be missing is looked up. -/
theorem toOption_encodeAt_mapM_upper {α : Type} {f : String → Except EncodeError α}
    (hf : ∀ name, (f (upperText name)).toOption = (f name).toOption) (x : Option (Located Identifier)) :
    ((x.map (Located.map Identifier.upper)).mapM fun c => encodeAt c.location (f c.value.spelling)).toOption =
      (x.mapM fun c => encodeAt c.location (f c.value.spelling)).toOption := by
  rw [toOption_option_mapM_map (h := id), Option.map_id_fun, Option.map_id_fun, id]
  intro c
  rw [toOption_encodeAt, toOption_encodeAt, Option.map_id_fun, id]
  exact hf c.value.spelling

namespace SourceOperand

variable (s : Scopes) (scope : ScopeId) (o : SourceOperand)

theorem toOption_dataValue_upper :
    (o.upper.dataValue s.upper scope).toOption =
      (o.dataValue s scope).toOption.map (Located.map DataValue.upper) := by
  have hcount := toOption_option_mapM_map (Expr.toOption_lower_upper s scope) o.count
  simp only [dataValue, upper, toOption_bind, toOption_pure, hcount, Expr.toOption_lower_upper]
  cases (o.count.mapM (Expr.lower s scope)).toOption <;>
    cases (o.value.lower s scope).toOption <;> rfl

theorem toOption_operand_upper :
    (o.upper.operand s.upper scope).toOption = (o.operand s scope).toOption.map Operand.upper := by
  simp only [operand, upper, toOption_bind, toOption_pure, Expr.toOption_lower_upper]
  cases (o.value.lower s scope).toOption <;> rfl

end SourceOperand

namespace SourceLine

variable (library : Library) (s : Scopes) (scope : ScopeId) (line : SourceLine)

theorem toOption_directiveContent_upper (directive : Directive) :
    (line.upper.directiveContent library.upper s.upper scope directive).toOption =
      (line.directiveContent library s scope directive).toOption.map Content.upper := by
  have hvalues : (line.upper.operands.mapM (SourceOperand.dataValue s.upper scope)).toOption =
      (line.operands.mapM (SourceOperand.dataValue s scope)).toOption.map
        (List.map (Located.map DataValue.upper)) :=
    toOption_mapM_map (SourceOperand.toOption_dataValue_upper s scope) line.operands
  have hhead : line.upper.operands.head? = line.operands.head?.map SourceOperand.upper :=
    List.head?_map ..
  have hfirst : (line.upper.operands.head?.mapM fun o : SourceOperand => o.value.lower s.upper scope).toOption =
      (line.operands.head?.mapM fun o : SourceOperand => o.value.lower s scope).toOption.map
        (Option.map Expression.upper) := by
    rw [hhead]
    exact toOption_option_mapM_map (fun o => o.value.toOption_lower_upper s scope) _
  cases directive with
  | data kind =>
    simp only [directiveContent, toOption_bind, toOption_pure, hvalues]
    cases (line.operands.mapM (SourceOperand.dataValue s scope)).toOption <;> rfl
  | file =>
    simp only [directiveContent, hhead, Library.upper]
    cases line.operands.head? with
    | none => rfl
    | some o =>
      simp only [Option.map_some, SourceOperand.upper]
      cases o.value with
      | text l name =>
        simp only [Expr.upper]
        cases library.file name <;> rfl
      | _ => rfl
  | alignw | alignl => rfl
  | res =>
    simp only [directiveContent, toOption_bind, toOption_pure, hfirst]
    cases (line.operands.head?.mapM fun o : SourceOperand => o.value.lower s scope).toOption with
    | none => rfl
    | some first => cases first <;> rfl
  | org | orgh | fit =>
    simp only [directiveContent, toOption_bind, toOption_pure, hfirst]
    cases (line.operands.head?.mapM fun o : SourceOperand => o.value.lower s scope).toOption <;> rfl
  | orgf =>
    simp only [directiveContent, toOption_bind, hfirst]
    cases (line.operands.head?.mapM fun o : SourceOperand => o.value.lower s scope).toOption with
    | none => rfl
    | some first => cases first <;> rfl

theorem toOption_instructionContent_upper (mnemonic : Located Identifier) :
    (line.upper.instructionContent s.upper scope (mnemonic.map .upper)).toOption =
      (line.instructionContent s scope mnemonic).toOption.map Content.upper := by
  have hmnemonic : (Mnemonic.ofName (mnemonic.map Identifier.upper).value.spelling).toOption =
      (Mnemonic.ofName mnemonic.value.spelling).toOption :=
    Mnemonic.toOption_ofName_upperText mnemonic.value.spelling
  have hcondition : (line.upper.condition.mapM fun c =>
      encodeAt c.location (Condition.ofName c.value.spelling)).toOption = _ :=
    toOption_encodeAt_mapM_upper Condition.toOption_ofName_upperText line.condition
  have heffect : (line.upper.effect.mapM fun c =>
      encodeAt c.location (Effects.ofName c.value.spelling)).toOption = _ :=
    toOption_encodeAt_mapM_upper Effects.toOption_ofName_upperText line.effect
  have hoperands : (line.upper.operands.mapM (SourceOperand.operand s.upper scope)).toOption =
      (line.operands.mapM (SourceOperand.operand s scope)).toOption.map (List.map Operand.upper) :=
    toOption_mapM_map (SourceOperand.toOption_operand_upper s scope) line.operands
  simp only [instructionContent, toOption_bind, toOption_encodeAt, toOption_pure, hmnemonic, hcondition,
    heffect, hoperands, Option.map_bind, Option.bind_map, Function.comp_def, Instruction.make_upper,
    Option.map_some, Content.upper]

theorem toOption_content_upper :
    (line.upper.content library.upper s.upper scope).toOption =
      (line.content library s scope).toOption.map Content.upper := by
  have hmnemonic : line.upper.mnemonic = line.mnemonic.map (Located.map .upper) := rfl
  have hcondition : line.upper.condition.isSome = line.condition.isSome := Option.isSome_map ..
  have heffect : line.upper.effect.isSome = line.effect.isSome := Option.isSome_map ..
  simp only [content, hmnemonic, hcondition, heffect, directive?_upper]
  cases line.mnemonic with
  | none => rfl
  | some mnemonic =>
    simp only [Option.map_some]
    cases line.directive? with
    | none => exact toOption_instructionContent_upper s scope line mnemonic
    | some directive =>
      simp only [apply_ite Except.toOption, apply_ite (Option.map Content.upper),
        toOption_directiveContent_upper]
      rfl

end SourceLine

end Propeller
