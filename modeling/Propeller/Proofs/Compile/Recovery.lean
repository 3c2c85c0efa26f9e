import Propeller.Proofs.Compile.Steady

/-!
# Compile — going on after an error

A step that is tried does not fail: its error is reported, and the next step goes on.  Whatever may be
wrong with an object is found in a step that is tried, so that its parts are compiled to the end in any case
(`Compile.exists_parts`).
-/

namespace Propeller.Compile

variable {α : Type}

/-- A step succeeds, whatever the draft is. -/
abbrev Succeeds (x : Compile α) : Prop := Steady (fun _ => True) (fun _ => False) x

instance : Untouched fun _ => True := ⟨fun _ _ => trivial, fun _ _ _ _ => trivial⟩

/-- **A step that is tried succeeds**, even if it fails. -/
theorem succeeds_attempt (x : Compile α) : Succeeds (attempt x) := by
  refine steady_attempt (G := fun _ => True) (fun d _ => ?_) fun _ _ _ _ => trivial
  cases x d with
  | ok a d' => trivial
  | error e d' => exact ⟨trivial, trivial⟩

theorem succeeds_attemptAll (f : α → Compile Unit) (xs : List α) : Succeeds (attemptAll f xs) := by
  induction xs with
  | nil => exact steady_pure _
  | cons x xs ih => exact steady_bind (succeeds_attempt _) fun _ => ih

theorem succeeds_block (m : MethodContext) (exits : Exits) (ss : List Statement) :
    Succeeds (Statement.block m exits ss) := by
  induction ss with
  | nil => exact steady_pure _
  | cons s ss ih =>
    refine steady_bind (succeeds_attempt _) fun first => ?_
    exact steady_bind ih fun rest => steady_pure _

theorem succeeds_body (m : MethodContext) (ss : List Statement) : Succeeds (Statement.body m ss) := by
  refine steady_bind (succeeds_block _ _ _) fun commands => ?_
  split
  · exact steady_pure _
  · exact steady_pure _

theorem succeeds_methodBody (config : Config) (library : Library) (m : MethodDraft)
    (decl : MethodDecl) : Succeeds (methodBody config library m decl) := by
  refine steady_bind (steady_modify fun _ _ => trivial) fun _ => ?_
  exact steady_bind (succeeds_body _ _) fun body => steady_bind steady_get fun d => steady_pure _

theorem succeeds_methodBodies (config : Config) (library : Library)
    (methods : List (MethodDraft × MethodDecl)) : Succeeds (methodBodies config library methods) := by
  induction methods with
  | nil => exact steady_pure _
  | cons m rest ih =>
    refine steady_bind (succeeds_methodBody _ _ _ _) fun first => ?_
    exact steady_bind ih fun rest => steady_pure _

/-- **The parts of an object are compiled to the end**, whatever is wrong with them. -/
theorem exists_parts (config : Config) (library : Library) (nodes : List Node) (d : Draft) :
    ∃ p d', parts config library nodes d = .ok p d' := by
  refine Steady.exists_ok (P := fun _ => True) ?_ trivial
  refine steady_bind (Node.steady_selectAll nodes) fun selected => ?_
  refine steady_bind (succeeds_attemptAll _ _) fun _ => ?_
  refine steady_bind (succeeds_attempt _) fun clock => ?_
  refine steady_bind (succeeds_attemptAll _ _) fun _ => ?_
  refine steady_bind steady_addExports fun _ => steady_bind steady_get fun seen => ?_
  refine steady_bind (steady_addDeclarations _ _) fun methods => ?_
  refine steady_bind (steady_convert _ _ _) fun dat => ?_
  exact steady_bind (succeeds_methodBodies _ _ _) fun compiled => steady_pure _

end Propeller.Compile
