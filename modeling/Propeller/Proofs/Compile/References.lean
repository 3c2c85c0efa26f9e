import Mathlib.Data.List.Forall2
import Propeller.Proofs.Compile.Induction
import Propeller.Proofs.Outcome

/-!
# Compile — names in operands

What a line of assembly code holds is evaluated later, when lines have been placed.  A name in one of its
operands is kept as a symbol of a frame until then, and the address of a name is the label that it stands for.
So each name that is written in a line is found again in what the line holds (`SourceLine.content_refers`).
-/

namespace Propeller

/-- A name in an operand: its value or its address is meant. -/
inductive NameUse
  | value (x : Identifier)
  | address (x : Identifier)

/-- The names in a constant expression, from left to right. -/
def Expr.nameUses : Expr → List NameUse
  | name _ x               => [.value x]
  | member _ object _ x    => [.value (object.value.qualified x.value)]
  | unary _ _ operand      => operand.nameUses
  | binary _ _ left right  => left.nameUses ++ right.nameUses
  | ternary _ c yes no     => c.nameUses ++ yes.nameUses ++ no.nameUses
  | addressOf _ (name _ x) => [.address x]
  | _                      => []

/-- The names in a value of a data directive: that of its count comes first. -/
def SourceOperand.nameUses (o : SourceOperand) : List NameUse :=
  o.count.toList.flatMap Expr.nameUses ++ o.value.nameUses

/-- The names that a line mentions in its operands.  A directive that takes one operand looks at the first. -/
def SourceLine.nameUses (line : SourceLine) : List NameUse :=
  if line.mnemonic.isNone then []
  else match line.directive? with
    | none           => line.operands.flatMap (·.value.nameUses)
    | some (.data _) => line.operands.flatMap SourceOperand.nameUses
    | some .file | some .alignw | some .alignl => []
    | some .res | some .org | some .orgh | some .fit | some .orgf =>
      line.operands.head?.toList.flatMap (·.value.nameUses)

/-- The symbols and labels in an expression, from left to right. -/
def Expression.references : Expression → List Expression
  | symbol scope x     => [symbol scope x]
  | label l            => [label l]
  | hubLabel l         => [hubLabel l]
  | unary _ operand    => operand.references
  | binary _ l r       => l.references ++ r.references
  | ternary c yes no   => c.references ++ yes.references ++ no.references
  | _                  => []

/-- The symbols and labels in a value of a data directive. -/
def DataValue.references (v : DataValue) : List Expression :=
  v.count.toList.flatMap Expression.references ++ v.value.references

/-- The symbols and labels in what a line holds. -/
def Content.references : Content → List Expression
  | instruction i                            => i.operands.flatMap (·.value.references)
  | data d                                   => d.values.flatMap (·.value.references)
  | res e | orgf e                           => e.references
  | org e | orgh e | fit e                   => e.toList.flatMap Expression.references
  | empty | file _ | align _                 => []

/-- What becomes of a name in an operand of a line: its value is that of the symbol in the frame of the line,
and its address is the label that it stands for there. -/
inductive Refers (s : Scopes) (frame : ScopeId) : NameUse → Expression → Prop
  | value (x : Identifier) : Refers s frame (.value x) (.symbol frame x)
  | address {x : Identifier} {l : LabelId}
      (stands : ∀ l', s.symbol? frame x = some (.label l') → l' = l) :
      Refers s frame (.address x) (.hubLabel l)

variable {s : Scopes} {frame : ScopeId}

/-- A name that stands for a label is not followed further. -/
theorem Scopes.resolve_of_label {x : Identifier} {l : LabelId} (h : s.symbol? frame x = some (.label l)) :
    s.resolve frame x = some (.label l) := by
  rw [resolve, h]
  rfl

/-- **Names in an expression.** -/
theorem Expr.lower_refers {e : Expr} {v : Expression} (h : e.lower s frame = .ok v) :
    List.Forall₂ (Refers s frame) e.nameUses v.references := by
  induction e using Expr.induct generalizing v with
  | literal l value | text l value =>
    cases h
    exact .nil
  | name l x =>
    cases h
    exact .cons (.value x) .nil
  | member l object index x _ =>
    cases h
    exact .cons (.value _) .nil
  | unary l op operand ih =>
    obtain ⟨o, ho, h⟩ := bind_eq_ok h
    cases h
    simpa only [nameUses, Expression.references] using ih ho
  | binary l op left right ihl ihr =>
    obtain ⟨a, ha, h⟩ := bind_eq_ok h
    obtain ⟨b, hb, h⟩ := bind_eq_ok h
    cases h
    exact List.rel_append (ihl ha) (ihr hb)
  | ternary l c yes no ihc ihy ihn =>
    obtain ⟨a, ha, h⟩ := bind_eq_ok h
    obtain ⟨y, hy, h⟩ := bind_eq_ok h
    obtain ⟨n, hn, h⟩ := bind_eq_ok h
    cases h
    exact List.rel_append (List.rel_append (ihc ha) (ihy hy)) (ihn hn)
  | addressOf l operand _ _ =>
    cases operand with
    | name inner x =>
      simp only [lower] at h
      split at h
      · next line hline =>
        cases h
        refine .cons (.address fun l' hl' => ?_) .nil
        rw [Scopes.resolve_of_label hl'] at hline
        cases hline
        rfl
      · cases h
      · cases h
    | _ => cases h
  | index | call => cases h

/-- A step for each element of a list gives the results one for one. -/
theorem forall₂_of_mapM {ε α β : Type} {f : α → Except ε β} {xs : List α} {ys : List β}
    (h : xs.mapM f = .ok ys) : List.Forall₂ (fun x y => f x = .ok y) xs ys := by
  induction xs generalizing ys with
  | nil =>
    cases h
    exact .nil
  | cons x xs ih =>
    rw [List.mapM_cons] at h
    obtain ⟨y, hx, h⟩ := bind_eq_ok h
    obtain ⟨rest, hxs, h⟩ := bind_eq_ok h
    cases h
    exact .cons hx (ih hxs)

/-- Names in an expression that may be missing. -/
theorem Expr.lower_refers_option {α : Type} (f : α → Expr) {o : Option α} {v : Option Expression}
    (h : (o.mapM fun a => (f a).lower s frame) = .ok v) :
    List.Forall₂ (Refers s frame) (o.toList.flatMap fun a => (f a).nameUses)
      (v.toList.flatMap Expression.references) := by
  cases o with
  | none =>
    cases h
    exact .nil
  | some a =>
    rw [Option.mapM_some] at h
    cases ha : (f a).lower s frame with
    | error r =>
      rw [ha] at h
      cases h
    | ok value =>
      rw [ha] at h
      cases h
      simpa using lower_refers ha

/-- Names in a value of a data directive. -/
theorem SourceOperand.dataValue_refers {o : SourceOperand} {v : Located DataValue}
    (h : o.dataValue s frame = .ok v) :
    List.Forall₂ (Refers s frame) o.nameUses v.value.references := by
  obtain ⟨count, hcount, h⟩ := bind_eq_ok h
  obtain ⟨value, hvalue, h⟩ := bind_eq_ok h
  cases h
  exact List.rel_append (Expr.lower_refers_option id hcount) (Expr.lower_refers hvalue)

/-- An instruction has the operands that it was made of. -/
theorem Instruction.operands_of_make {condition : Option Condition} {m : Mnemonic} {operands : List Operand}
    {effects : Effects} {i : Instruction} (h : make condition m operands effects = .ok i) :
    i.operands = operands := by
  simp only [make] at h
  split at h
  · cases h
  · split at h
    · cases h
    · split at h
      · cases h
      · cases h
        rfl

namespace SourceLine

variable {line : SourceLine} {content : Content}

/-- Names in a line with an instruction. -/
theorem instructionContent_refers {mnemonic : Located Identifier}
    (h : line.instructionContent s frame mnemonic = .ok content) :
    List.Forall₂ (Refers s frame) (line.operands.flatMap (·.value.nameUses)) content.references := by
  obtain ⟨m, -, h⟩ := bind_eq_ok h
  obtain ⟨condition, -, h⟩ := bind_eq_ok h
  obtain ⟨effects, -, h⟩ := bind_eq_ok h
  obtain ⟨operands, hoperands, h⟩ := bind_eq_ok h
  obtain ⟨i, hi, h⟩ := bind_eq_ok h
  cases h
  rw [Content.references, Instruction.operands_of_make (mapError_eq_ok hi)]
  refine List.rel_flatMap (forall₂_of_mapM hoperands) fun o operand ho => ?_
  obtain ⟨value, hvalue, ho⟩ := bind_eq_ok ho
  cases ho
  exact Expr.lower_refers hvalue

/-- Names in a line with a directive. -/
theorem directiveContent_refers {library : Library} {directive : Directive}
    (hdirective : line.directive? = some directive) (hmnemonic : line.mnemonic.isNone = false)
    (h : line.directiveContent library s frame directive = .ok content) :
    List.Forall₂ (Refers s frame) line.nameUses content.references := by
  rw [nameUses, hmnemonic, hdirective]
  cases directive with
  | data kind =>
    obtain ⟨values, hvalues, h⟩ := bind_eq_ok h
    cases h
    exact List.rel_flatMap (forall₂_of_mapM hvalues) fun o v hv => SourceOperand.dataValue_refers hv
  | file =>
    simp only [directiveContent] at h
    split at h
    · split at h
      · cases h
        exact .nil
      · cases h
    · cases h
  | res =>
    obtain ⟨first, hop, h⟩ := bind_eq_ok h
    cases h
    have hrefers := Expr.lower_refers_option SourceOperand.value hop
    cases first with
    | none => exact hrefers
    | some e => simpa [Content.references] using hrefers
  | alignw | alignl =>
    cases h
    exact .nil
  | org | orgh | fit =>
    obtain ⟨first, hop, h⟩ := bind_eq_ok h
    cases h
    exact Expr.lower_refers_option SourceOperand.value hop
  | orgf =>
    obtain ⟨first, hop, h⟩ := bind_eq_ok h
    have hrefers := Expr.lower_refers_option SourceOperand.value hop
    cases first with
    | none => cases h
    | some e =>
      cases h
      simpa [Content.references] using hrefers

/-- **Names in a line.** -/
theorem content_refers {library : Library} (h : line.content library s frame = .ok content) :
    List.Forall₂ (Refers s frame) line.nameUses content.references := by
  rw [SourceLine.content] at h
  cases hmnemonic : line.mnemonic with
  | none =>
    rw [hmnemonic] at h
    cases h
    rw [nameUses, hmnemonic]
    exact .nil
  | some mnemonic =>
    simp only [hmnemonic] at h
    cases hdirective : line.directive? with
    | none =>
      rw [hdirective] at h
      rw [nameUses, hmnemonic, hdirective]
      exact instructionContent_refers h
    | some directive =>
      simp only [hdirective] at h
      split at h
      · cases h
      · exact directiveContent_refers hdirective (by rw [hmnemonic]; rfl) h

end SourceLine

end Propeller
