import Propeller.Proofs.Case.Names
import Propeller.Proofs.Outcome

/-!
# Case — expressions and scopes in capitals

With all names in capitals, what a name is bound to is found where it was found before, and expressions
have the values that they had: `Scopes.symbol?_upper`, `Scopes.resolve_upper` and `Expression.eval_upper`.
A failure to evaluate may mention a name, so that it is not the same in capitals; but whether it is only an
address that is missing is the same (`EvalError.isUnresolved`).
-/

namespace Propeller

/-! ### Expressions -/

/-- A variable of the object with its name in capitals. -/
def ObjectVar.upper (v : ObjectVar) : ObjectVar := { v with name := v.name.upper }

/-- A local variable with its name in capitals. -/
def LocalVar.upper (v : LocalVar) : LocalVar := { v with name := v.name.upper }

/-- A method with its name in capitals. -/
def Method.upper (m : Method) : Method := { m with name := m.name.upper }

namespace Expression

/-- An expression with all names in capitals. -/
def upper : Expression → Expression
  | .number literal          => .number literal
  | .text value              => .text value
  | .unary op operand        => .unary op operand.upper
  | .binary op left right    => .binary op left.upper right.upper
  | .ternary condition yes no => .ternary condition.upper yes.upper no.upper
  | .symbol scope name       => .symbol scope name.upper
  | .objectVar v             => .objectVar v.upper
  | .localVar v              => .localVar v.upper
  | .method m                => .method m.upper
  | .register address        => .register address
  | .label line              => .label line
  | .hubLabel line           => .hubLabel line

@[simp]
theorem upper_int (v : Int64) : (int v).upper = int v := rfl

@[simp]
theorem text?_upper (e : Expression) : e.upper.text? = e.text? := by
  cases e <;> rfl

end Expression

/-! ### Scopes -/

/-- A definition with its tokens in capitals. -/
def Definition.upper (d : Definition) : Definition :=
  { tokens := d.tokens.map upperText, expression := d.expression.map Expression.upper }

/-- A frame with all names in capitals. -/
def Frame.upper (f : Frame) : Frame where
  parent := f.parent
  symbols := f.symbols.map (Prod.map Identifier.upper Expression.upper)
  builtins := f.builtins.map (Prod.map Identifier.upper Expression.upper)
  definitions := f.definitions.map (Prod.map Identifier.upper Definition.upper)

theorem Frame.symbol?_upper (f : Frame) (x : Identifier) :
    f.upper.symbol? x.upper = (f.symbol? x).map Expression.upper := by
  simp only [Frame.symbol?, Frame.upper, Identifier.lookup_upper]
  cases f.builtins.lookup x <;> cases f.symbols.lookup x <;> cases f.definitions.lookup x <;> rfl

namespace Scopes

/-- Scopes with all names in capitals. -/
def upper (s : Scopes) : Scopes := ⟨s.frames.map Frame.upper⟩

/-- The names that are there from the start are written in capitals. -/
theorem upper_initial : initial.upper = initial := by
  have hroot : rootFrame.upper = rootFrame := rfl
  simp [upper, initial, hroot]

@[simp]
theorem nextScope_upper (s : Scopes) : s.upper.nextScope = s.nextScope := Array.size_map ..

@[simp]
theorem push_upper (s : Scopes) (parent : ScopeId) : s.upper.push parent = (s.push parent).upper := by
  simp [push, upper, Frame.upper]

theorem outward_upper (s : Scopes) (steps : Nat) (scope : ScopeId) :
    s.upper.outward steps scope = (s.outward steps scope).map Frame.upper := by
  induction steps generalizing scope with
  | zero => rfl
  | succ steps ih =>
    simp only [outward, upper, Array.getElem?_map]
    cases s.frames[scope]? with
    | none => rfl
    | some frame =>
      simp only [Option.map_some, List.map_cons, Frame.upper]
      cases frame.parent with
      | none => rfl
      | some parent => exact congrArg _ (ih parent)

theorem findSome?_chain_upper {γ δ : Type} (s : Scopes) (scope : ScopeId) {f : Frame → Option γ}
    {f' : Frame → Option δ} {g : γ → δ} (h : ∀ frame : Frame, f' frame.upper = (f frame).map g) :
    (s.upper.chain scope).findSome? f' = ((s.chain scope).findSome? f).map g := by
  rw [chain, outward_upper, chain]
  induction s.outward (scope + 1) scope with
  | nil => rfl
  | cons frame frames ih =>
    simp only [List.map_cons, List.findSome?_cons, h, ih]
    cases f frame <;> rfl

@[simp]
theorem symbol?_upper (s : Scopes) (scope : ScopeId) (x : Identifier) :
    s.upper.symbol? scope x.upper = (s.symbol? scope x).map Expression.upper :=
  s.findSome?_chain_upper scope fun frame => frame.symbol?_upper x

@[simp]
theorem isDefined_upper (s : Scopes) (scope : ScopeId) (x : Identifier) :
    s.upper.isDefined scope x.upper = s.isDefined scope x := by
  have h : s.upper.definition? scope x.upper = (s.definition? scope x).map Definition.upper :=
    s.findSome?_chain_upper scope fun frame => Identifier.lookup_upper _ frame.definitions x
  rw [isDefined, h, Option.isSome_map, isDefined]

theorem modifyFrame_upper (s : Scopes) (scope : ScopeId) {f f' : Frame → Frame}
    (h : ∀ frame : Frame, f' frame.upper = (f frame).upper) :
    s.upper.modifyFrame scope f' = (s.modifyFrame scope f).upper := by
  rw [modifyFrame, upper, upper, modifyFrame]
  refine congrArg Scopes.mk (Array.ext (by simp) fun i hi hi' => ?_)
  simp only [Array.getElem_modify, Array.getElem_map]
  split
  · exact h _
  · rfl

@[simp]
theorem addBuiltin_upper (s : Scopes) (scope : ScopeId) (x : Identifier) (value : Expression) :
    s.upper.addBuiltin scope x.upper value.upper = (s.addBuiltin scope x value).upper :=
  s.modifyFrame_upper scope fun _ => rfl

@[simp]
theorem addSymbol_upper (s : Scopes) (scope : ScopeId) (x : Identifier) (value : Expression) :
    s.upper.addSymbol scope x.upper value.upper = (s.addSymbol scope x value).upper :=
  s.modifyFrame_upper scope fun _ => rfl

theorem addSymbols_upper (scope : ScopeId) (bindings : List (Identifier × Expression)) (s : Scopes) :
    (addSymbols scope (bindings.map (Prod.map Identifier.upper Expression.upper)) s.upper).1 =
      (addSymbols scope bindings s).1.upper := by
  induction bindings generalizing s with
  | nil => rfl
  | cons b bs ih =>
    obtain ⟨x, value⟩ := b
    simp only [List.map_cons, Prod.map, addSymbols, addSymbol_upper, ih]

theorem definitionOf_upper (scope : ScopeId) (tokens : List String) :
    definitionOf scope (tokens.map upperText) = (definitionOf scope tokens).upper := by
  cases tokens with
  | nil => rfl
  | cons token rest =>
    cases rest with
    | cons _ _ => rfl
    | nil =>
      simp only [List.map_cons, List.map_nil, definitionOf, Literal.read?_upperText]
      cases Literal.read? token <;> rfl

@[simp]
theorem addDefinition_upper (s : Scopes) (scope : ScopeId) (x : Identifier) (tokens : List String) :
    s.upper.addDefinition scope x.upper (tokens.map upperText) =
      (s.addDefinition scope x tokens).upper := by
  refine s.modifyFrame_upper scope fun frame => ?_
  simp only [Frame.upper, definitionOf_upper, List.map_cons, Prod.map]

theorem follow_upper (s : Scopes) (steps : Nat) (e : Expression) :
    s.upper.follow steps e.upper = (s.follow steps e).map Expression.upper := by
  induction steps generalizing e with
  | zero => cases e <;> rfl
  | succ steps ih =>
    cases e with
    | symbol scope x =>
      simp only [Expression.upper, follow, symbol?_upper]
      cases s.symbol? scope x with
      | none => rfl
      | some e => exact ih e
    | _ => rfl

@[simp]
theorem resolve_upper (s : Scopes) (scope : ScopeId) (x : Identifier) :
    s.upper.resolve scope x.upper = (s.resolve scope x).map Expression.upper := by
  simp only [resolve, symbol?_upper]
  cases s.symbol? scope x with
  | none => rfl
  | some e => exact s.follow_upper maxAliases e

end Scopes

/-! ### Values -/

/-- Only the address of a line is missing. -/
def EvalError.isUnresolved : EvalError → Bool
  | .unresolved => true
  | _           => false

/-- An environment with all names in capitals. -/
def Environment.upper (env : Environment) : Environment := { env with scopes := env.scopes.upper }

namespace Expression

open EvalError (isUnresolved)

theorem evalWith_upper {symbol symbol' : ScopeId → Identifier → Except EvalError Number}
    (address : LabelId → Option Address)
    (h : ∀ scope x, (symbol' scope x.upper).mapError isUnresolved =
      (symbol scope x).mapError isUnresolved) (e : Expression) :
    (e.upper.evalWith symbol' address).mapError isUnresolved =
      (e.evalWith symbol address).mapError isUnresolved := by
  induction e with
  | unary op operand ih => simp only [upper, evalWith, mapError_bind, ih]
  | binary op left right ihl ihr => simp only [upper, evalWith, mapError_bind, ihl, ihr]
  | ternary condition yes no ihc ihy ihn =>
    simp only [upper, evalWith, mapError_bind, ihc, apply_ite (Except.mapError isUnresolved), ihy, ihn]
  | symbol scope x => exact h scope x
  | _ => rfl

theorem evalAt_upper (env : Environment) (depth : Nat) (e : Expression) :
    (e.upper.evalAt env.upper depth).mapError isUnresolved =
      (e.evalAt env depth).mapError isUnresolved := by
  induction depth generalizing e with
  | zero =>
    rw [evalAt, evalAt]
    refine evalWith_upper _ (fun scope x => ?_) e
    rfl
  | succ depth ih =>
    rw [evalAt, evalAt]
    refine evalWith_upper _ (fun scope x => ?_) e
    simp only [Environment.upper, Scopes.symbol?_upper]
    cases env.scopes.symbol? scope x with
    | none => rfl
    | some e => exact ih e

/-- **The value of an expression** is the same in capitals. -/
theorem eval_upper (e : Expression) (env : Environment) :
    (e.upper.eval env.upper).mapError isUnresolved = (e.eval env).mapError isUnresolved :=
  evalAt_upper env maxDepth e

@[simp]
theorem toOption_eval_upper (e : Expression) (env : Environment) :
    (e.upper.eval env.upper).toOption = (e.eval env).toOption :=
  toOption_eq_of_mapError (eval_upper e env)

@[simp]
theorem toOption_evalInt_upper (e : Expression) (env : Environment) :
    (e.upper.evalInt env.upper).toOption = (e.evalInt env).toOption := by
  simp only [evalInt, toOption_bind, toOption_eval_upper]

theorem targetWithin_upper (env : Environment) (steps : Nat) (e : Expression) :
    e.upper.targetWithin env.upper steps = e.targetWithin env steps := by
  induction steps generalizing e with
  | zero => cases e <;> rfl
  | succ steps ih =>
    cases e with
    | symbol scope x =>
      simp only [upper, targetWithin, Environment.upper, Scopes.symbol?_upper]
      cases env.scopes.symbol? scope x with
      | none => rfl
      | some e => exact ih e
    | _ => rfl

@[simp]
theorem target?_upper (e : Expression) (env : Environment) :
    e.upper.target? env.upper = e.target? env :=
  targetWithin_upper env maxDepth e

end Expression

end Propeller
