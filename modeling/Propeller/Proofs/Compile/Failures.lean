import Propeller.Compile
import Propeller.Proofs.Compile.Induction
import Propeller.Proofs.Outcome

/-!
# Compile — what goes wrong in an expression or a line

Whatever is wrong with an expression, a declaration or a line of assembly code, it is not an exit with
nowhere to go.

* `Expr.otherError_lower`, `Expr.otherError_staticTerm`: a constant expression.
* `SourceLine.otherError_content`: a line of assembly code.
-/

namespace Propeller

variable {α β : Type}
variable {error : Located CompileError} {x : Except (Located CompileError) α}
  {f : α → Except (Located CompileError) β}

/-! ### Failures that are not about exits -/

/-- The exit that an error is about. -/
def CompileError.exit? : CompileError → Option Exit
  | .misplacedLeave => some .leave
  | .misplacedNext  => some .next
  | _               => none

/-- Whatever a computation fails with is not about an exit. -/
def OtherError (x : Except (Located CompileError) α) : Prop :=
  ∀ error, x = .error error → error.value.exit? = none

theorem otherError_ok (a : α) : OtherError (.ok a) := fun _ h => by cases h

theorem otherError_error (h : error.value.exit? = none) :
    OtherError (.error error : Except (Located CompileError) α) := by
  rintro _ ⟨⟩
  exact h

theorem otherError_bind (hx : OtherError x) (hf : ∀ a, OtherError (f a)) : OtherError (x >>= f) := by
  intro error h
  rcases bind_eq_error h with h | ⟨a, -, h⟩
  · exact hx error h
  · exact hf a error h

theorem otherError_mapError {ε : Type} {f : ε → Located CompileError} (hf : ∀ e, (f e).value.exit? = none)
    (x : Except ε α) : OtherError (x.mapError f) := by
  intro error h
  obtain ⟨e, -, rfl⟩ := mapError_eq_error h
  exact hf e

theorem otherError_mapM {xs : List α} (hf : ∀ x, OtherError (f x)) : OtherError (xs.mapM f) := by
  induction xs with
  | nil => exact otherError_ok _
  | cons x xs ih =>
    rw [List.mapM_cons]
    exact otherError_bind (hf x) fun _ => otherError_bind ih fun _ => otherError_ok _

theorem otherError_mapM_option {x : Option α} (hf : ∀ x, OtherError (f x)) : OtherError (x.mapM f) := by
  cases x with
  | none => exact otherError_ok _
  | some a =>
    rw [Option.mapM_some]
    exact otherError_bind (hf a) fun _ => otherError_ok _

namespace Expr

variable (s : Scopes) (scope : ScopeId)

theorem otherError_lower (e : Expr) : OtherError (e.lower s scope) := by
  induction e using Expr.induct with
  | unary l op operand ih => exact otherError_bind ih fun _ => otherError_ok _
  | binary l op left right ihl ihr =>
    exact otherError_bind ihl fun _ => otherError_bind ihr fun _ => otherError_ok _
  | ternary l c yes no ihc ihy ihn =>
    refine otherError_bind ihc fun _ => otherError_bind ihy fun _ => ?_
    exact otherError_bind ihn fun _ => otherError_ok _
  | addressOf l operand _ _ =>
    cases operand with
    | name inner x =>
      rw [lower]
      split
      · exact otherError_ok _
      · exact otherError_error rfl
      · exact otherError_error rfl
    | _ => exact otherError_error rfl
  | index | call => exact otherError_error rfl
  | _ => exact otherError_ok _

theorem otherError_constantValue (e : Expr) : OtherError (e.constantValue s scope) :=
  otherError_bind (e.otherError_lower s scope) fun _ => otherError_mapError (fun _ => rfl) _

theorem otherError_countValue (e : Expr) : OtherError (e.countValue s scope) :=
  otherError_bind (e.otherError_constantValue s scope) fun _ => otherError_ok _

theorem otherError_staticTerm (n : Names) (e : Expr) : OtherError (e.staticTerm n) := by
  refine otherError_bind (e.otherError_lower _ _) fun value => ?_
  split
  · exact otherError_ok _
  · exact otherError_ok _
  · exact otherError_error rfl

end Expr

/-! ### The clock -/

namespace Compile

theorem otherError_clockSymbol (d : Draft) (name : Identifier) : OtherError (clockSymbol d name) := by
  unfold clockSymbol
  split
  · exact otherError_ok _
  · dsimp only
    split
    · exact otherError_error rfl
    · split
      · exact otherError_ok _
      · exact otherError_error rfl

theorem otherError_clockRequest (d : Draft) (tolerance : Nat) :
    OtherError (clockRequest d tolerance) := by
  refine otherError_bind (otherError_clockSymbol _ _) fun crystal => ?_
  refine otherError_bind (otherError_clockSymbol _ _) fun external => ?_
  refine otherError_bind (otherError_clockSymbol _ _) fun frequency => ?_
  refine otherError_bind (otherError_clockSymbol _ _) fun fast => ?_
  refine otherError_bind (otherError_clockSymbol _ _) fun slow => ?_
  refine otherError_bind (otherError_clockSymbol _ _) fun given => ?_
  dsimp only
  repeat' split
  all_goals first | exact otherError_error rfl | exact otherError_ok _

end Compile

/-! ### Assembly code -/

theorem otherError_encodeAt (location : Location) (x : Except EncodeError α) :
    OtherError (encodeAt location x) :=
  otherError_mapError (fun _ => rfl) x

theorem otherError_returnLine (location : Location) : OtherError (Compile.returnLine location) :=
  otherError_bind (otherError_encodeAt _ _) fun _ =>
    otherError_bind (otherError_encodeAt _ _) fun _ => otherError_ok _

namespace SourceLine

variable (library : Library) (s : Scopes) (scope : ScopeId) (line : SourceLine)

theorem otherError_directiveContent (directive : Directive) :
    OtherError (line.directiveContent library s scope directive) := by
  have hfirst : OtherError (line.operands.head?.mapM fun o => o.value.lower s scope) :=
    otherError_mapM_option fun o => o.value.otherError_lower s scope
  cases directive with
  | data kind =>
    refine otherError_bind (otherError_mapM fun o => ?_) fun _ => otherError_ok _
    refine otherError_bind (otherError_mapM_option fun e => e.otherError_lower s scope) fun _ => ?_
    exact otherError_bind (o.value.otherError_lower s scope) fun _ => otherError_ok _
  | file =>
    rw [directiveContent]
    split
    · split
      · exact otherError_ok _
      · exact otherError_error rfl
    · exact otherError_error rfl
  | alignw | alignl => exact otherError_ok _
  | res | org | orgh | fit => exact otherError_bind hfirst fun _ => otherError_ok _
  | orgf =>
    refine otherError_bind hfirst fun target => ?_
    cases target with
    | none => exact otherError_error rfl
    | some target => exact otherError_ok _

theorem otherError_instructionContent (mnemonic : Located Identifier) :
    OtherError (line.instructionContent s scope mnemonic) := by
  refine otherError_bind (otherError_encodeAt _ _) fun m => ?_
  refine otherError_bind (otherError_mapM_option fun c => otherError_encodeAt _ _) fun condition => ?_
  refine otherError_bind (otherError_mapM_option fun e => otherError_encodeAt _ _) fun effects => ?_
  refine otherError_bind (otherError_mapM fun o => ?_) fun operands => ?_
  · exact otherError_bind (o.value.otherError_lower s scope) fun _ => otherError_ok _
  · exact otherError_bind (otherError_encodeAt _ _) fun i => otherError_ok _

theorem otherError_content : OtherError (line.content library s scope) := by
  unfold content
  split
  · exact otherError_ok _
  · split
    · exact line.otherError_instructionContent s scope _
    · split
      · exact otherError_error rfl
      · exact line.otherError_directiveContent library s scope _

end SourceLine

end Propeller
