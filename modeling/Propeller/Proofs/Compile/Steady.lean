import Propeller.Proofs.Compile.Lines
import Propeller.Proofs.Compile.Terms

/-!
# Compile — what a step leaves alone

Most steps leave most of a draft alone, and they fail in few ways.  Both is said at once: a step is steady
if it keeps a property of the draft, however it ends, and fails only with errors of some kind
(`Compile.Steady`).  A step that does not fail at all is steady for errors of any kind.

* `Compile.Untouched`: properties that have nothing to do with names.  Declarations and lines of assembly
  code keep them: `Compile.steady_addDeclarations`, `Compile.steady_convert`, ...
* `Compile.Indifferent`: properties that do not depend on references and descriptors.  Statements that have
  no others in them keep them: `MethodContext.steady_expression`, ...
-/

namespace Propeller

/-- What may be changed when names are bound: everything but the constants, the blocks, the descriptors and
the references of a draft.  At most one warning is added. -/
structure Draft.Declares (d d' : Draft) : Prop where
  constants_eq : d'.constants = d.constants
  blocks_eq : d'.blocks = d.blocks
  debug_eq : d'.debug = d.debug
  uses_eq : d'.uses = d.uses
  report_eq : d'.report = d.report ∨ ∃ l message, d'.report = d.report.warn l message

namespace Draft.Declares

variable {d : Draft}

theorem names {scopes : Scopes} {addresses : Addresses} {links : Links}
    {objectVars : List (Located ObjectVar)} {labelKinds : List (LabelId × DataType)} {localCount : Nat} :
    d.Declares { d with scopes, addresses, links, objectVars, labelKinds, localCount } :=
  ⟨rfl, rfl, rfl, rfl, .inl rfl⟩

theorem warning (l : Option Location) (message : String) :
    d.Declares { d with report := d.report.warn l message } :=
  ⟨rfl, rfl, rfl, rfl, .inr ⟨l, message, rfl⟩⟩

end Draft.Declares

namespace Compile

variable {α β : Type} {P : Draft → Prop} {F G : CompileError → Prop} {x : Compile α}

/-- A step keeps a property of the draft, and fails with errors of some kind only. -/
def Steady (P : Draft → Prop) (F : CompileError → Prop) (x : Compile α) : Prop :=
  ∀ d, P d → match x d with
    | .ok _ d'    => P d'
    | .error e d' => P d' ∧ F e.value

/-- An error that is not about an exit. -/
abbrev Other (e : CompileError) : Prop := e.exit? = none

namespace Steady

theorem keeps (h : Steady P Other x) : Keeps P x := by
  intro d hd
  have hrun := h d hd
  cases hx : x d with
  | ok a d' =>
    rw [hx] at hrun
    exact hrun
  | error e d' =>
    rw [hx] at hrun
    exact hrun.1

theorem of_ok (h : Steady P Other x) {d d' : Draft} {a : α} (hd : P d) (hx : x d = .ok a d') : P d' :=
  h.keeps.of_ok hd hx

/-- A step that fails with no error at all succeeds. -/
theorem exists_ok (h : Steady P (fun _ => False) x) {d : Draft} (hd : P d) : ∃ a d', x d = .ok a d' := by
  have hrun := h d hd
  cases hx : x d with
  | ok a d' => exact ⟨a, d', rfl⟩
  | error e d' =>
    rw [hx] at hrun
    exact hrun.2.elim

end Steady

/-! ### Steps -/

theorem steady_pure (a : α) : Steady P F (pure a) := fun _ h => h

theorem steady_throw {e : Located CompileError} (h : F e.value) : Steady P F (throw e : Compile α) :=
  fun _ hd => ⟨hd, h⟩

theorem steady_bind {f : α → Compile β} (hx : Steady P F x)
    (hf : ∀ a, Steady P F (f a)) : Steady P F (x >>= f) := by
  intro d hd
  have hrun := hx d hd
  cases hd' : x d with
  | ok a d' =>
    rw [hd'] at hrun
    rw [run_bind_ok hd']
    exact hf a d' hrun
  | error e d' =>
    rw [hd'] at hrun
    rw [run_bind_error hd']
    exact hrun

theorem steady_get : Steady P F (get : Compile Draft) := fun _ h => h

theorem steady_modify {f : Draft → Draft} (h : ∀ d, P d → P (f d)) : Steady P F (modify f) := h

theorem steady_modifyGet {f : Draft → α × Draft} (h : ∀ d, P d → P (f d).2) :
    Steady P F (modifyGet f) := h

theorem steady_liftExcept {x : Except (Located CompileError) α} (hx : OtherError x) :
    Steady P Other (liftExcept x) := by
  cases x with
  | ok a => exact steady_pure a
  | error e => exact steady_throw (hx e rfl)

/-- A step that is tried does not fail. -/
theorem steady_attempt (hx : Steady P G x) (hfatal : ∀ d (e : Located CompileError), G e.value → P d →
      P { d with report := d.report.fatal (e.map CompileError.message) }) : Steady P F (attempt x) := by
  intro d hd
  have hrun := hx d hd
  cases hd' : x d with
  | ok a d' =>
    rw [hd'] at hrun
    rw [attempt_of_ok hd']
    exact hrun
  | error e d' =>
    rw [hd'] at hrun
    rw [attempt_of_error hd']
    exact hfatal d' e hrun.2 hrun.1

theorem steady_attemptAll {f : α → Compile Unit} (hf : ∀ x, Steady P G (f x))
    (hfatal : ∀ d (e : Located CompileError), G e.value → P d →
      P { d with report := d.report.fatal (e.map CompileError.message) }) (xs : List α) :
    Steady P F (attemptAll f xs) := by
  induction xs with
  | nil => exact steady_pure _
  | cons x xs ih => exact steady_bind (steady_attempt (hf x) hfatal) fun _ => ih

/-! ### Steps that change nothing -/

theorem steady_lower (e : Expr) : Steady P Other (lower e) :=
  steady_bind steady_get fun _ => steady_liftExcept (e.otherError_lower _ _)

theorem steady_lowerOr (default : Int64) (e : Option Expr) : Steady P Other (lowerOr default e) := by
  cases e with
  | none => exact steady_pure _
  | some e => exact steady_lower e

theorem steady_elementCount (e : Option Expr) : Steady P Other (elementCount e) := by
  cases e with
  | none => exact steady_pure _
  | some e => exact steady_bind steady_get fun _ => steady_liftExcept (e.otherError_countValue _ _)

theorem steady_linkAt (location : Location) (x : Except LinkError α) :
    Steady P Other (linkAt location x) :=
  steady_liftExcept (otherError_mapError (fun _ => rfl) x)

theorem steady_splitOrigin (scope : ScopeId) (lines : List SourceLine) :
    Steady P Other (splitOrigin scope lines) := by
  cases lines with
  | nil => exact steady_pure _
  | cons line rest =>
    rw [splitOrigin]
    split
    · split
      · exact steady_pure _
      · refine steady_bind steady_get fun seen => ?_
        refine steady_bind (steady_liftExcept ?_) fun _ => steady_pure _
        exact Expr.otherError_constantValue _ _ _
    · exact steady_pure _

/-! ### Properties that have nothing to do with names -/

/-- A property of drafts that has nothing to do with names, nor with errors other than those about
exits. -/
class Untouched (P : Draft → Prop) : Prop where
  declares : ∀ {d d'}, d.Declares d' → P d → P d'
  fatal : ∀ d (e : Located CompileError), Other e.value → P d →
    P { d with report := d.report.fatal (e.map CompileError.message) }

variable [Untouched P]

theorem steady_bound {f : Draft → Draft} (h : ∀ d : Draft, d.Declares (f d)) : Steady P F (modify f) :=
  steady_modify fun d => Untouched.declares (h d)

theorem steady_made {f : Draft → α × Draft} (h : ∀ d : Draft, d.Declares (f d).2) :
    Steady P F (modifyGet f) :=
  steady_modifyGet fun d => Untouched.declares (h d)

theorem steady_warn (l : Option Location) (message : String) : Steady P F (warn l message) :=
  steady_bound fun _ => .warning l message

theorem steady_pushScope (parent : ScopeId) : Steady P F (pushScope parent) :=
  steady_made fun _ => .names

theorem noting_cases (name : Located Identifier) (r : Report) (w : Option ScopeWarning) :
    noting name r w = r ∨ ∃ l message, noting name r w = r.warn l message := by
  cases w with
  | none => exact .inl rfl
  | some w => exact .inr ⟨_, _, rfl⟩

theorem steady_define (scope : ScopeId) (name : Located Identifier) (value : Expression) :
    Steady P F (define scope name value) := by
  intro d hd
  rw [define_eq_ok]
  exact Untouched.declares (d := d) ⟨rfl, rfl, rfl, rfl, noting_cases name d.report _⟩ hd

end Compile

namespace Node

open Compile

variable {P : Draft → Prop} {F : CompileError → Prop}

mutual

theorem steady_select [Untouched P] : (node : Node) → Steady P F node.select
  | .define name tokens => by
    rw [select]
    have hdefine : Steady P F (do
        modify fun d => { d with scopes := d.scopes.addDefinition objectScope name.value tokens }
        return ([] : List Node)) :=
      steady_bind (steady_bound fun _ => .names) fun _ => steady_pure _
    refine steady_bind steady_get fun seen => ?_
    split
    · exact steady_bind (steady_warn _ _) fun _ => hdefine
    · exact hdefine
  | .ifDefined name negate yes no => by
    rw [select]
    refine steady_bind steady_get fun seen => ?_
    split
    · exact steady_selectAll yes
    · exact steady_selectAll no
  | .constants _ | .objectVars _ | .objects _ | .data _ | .method _ => steady_pure _

theorem steady_selectAll [Untouched P] : (nodes : List Node) → Steady P F (selectAll nodes)
  | [] => steady_pure _
  | node :: nodes =>
    steady_bind (steady_select node) fun _ =>
      steady_bind (steady_selectAll nodes) fun _ => steady_pure _

end

end Node

namespace Compile

variable {P : Draft → Prop} {F : CompileError → Prop} [Untouched P]

theorem steady_addConstant (hconstants : ∀ d constants, P d → P { d with constants })
    (name : Located Identifier) (value : Expression) : Steady P F (addConstant name value) :=
  steady_bind (steady_define _ _ _) fun _ => steady_modify fun d => hconstants d _

theorem steady_addConstants (hconstants : ∀ d constants, P d → P { d with constants })
    (decl : ConstantDecl) : Steady P Other (addConstants decl) := by
  have henumerate : ∀ items step current, Steady P Other (enumerate step current items) := by
    intro items step
    induction items with
    | nil => exact fun _ => steady_pure _
    | cons item items ih =>
      refine fun current => steady_bind (steady_addConstant hconstants _ _) fun _ => ?_
      cases item.step with
      | none => exact steady_bind (steady_pure _) fun _ => ih _
      | some e => exact steady_bind (steady_lower _) fun _ => ih _
  cases decl with
  | assign name value =>
    exact steady_bind (steady_lower _) fun _ => steady_addConstant hconstants _ _
  | enumeration start step items =>
    refine steady_bind (steady_lowerOr _ _) fun start => ?_
    exact steady_bind (steady_lowerOr _ _) fun step => henumerate _ _ _

theorem steady_clock (config : Config) : Steady P Other (clock config) := by
  refine steady_bind steady_get fun d => ?_
  refine steady_bind (steady_liftExcept (otherError_clockRequest _ _)) fun request => ?_
  cases request with
  | none => exact steady_bind (steady_bound fun _ => .names) fun _ => steady_pure _
  | some request =>
    dsimp only
    split
    · exact steady_throw rfl
    · exact steady_bind (steady_bound fun _ => .names) fun _ => steady_pure _

omit [Untouched P] in
theorem steady_addChild (hlinks : ∀ d links, P d → P { d with links }) (library : Library)
    (decl : ObjectDecl) : Steady P Other (addChild library decl) := by
  refine steady_bind (steady_elementCount _) fun count => ?_
  refine steady_bind (steady_linkAt _ _) fun image => steady_bind steady_get fun seen => ?_
  exact steady_bind (steady_linkAt _ _) fun links => steady_modify fun d => hlinks d _

theorem steady_addExports : Steady P F addExports := by
  have hwarn : ∀ ws, Steady P F (warnAll ws) := by
    intro ws
    induction ws with
    | nil => exact steady_pure _
    | cons w ws ih => exact steady_bind (steady_warn _ _) fun _ => ih
  exact fun d hd => hwarn _ _ (Untouched.declares .names hd)

theorem steady_addVariable (decl : VariableDecl) : Steady P Other (addVariable decl) := by
  refine steady_bind (steady_elementCount _) fun count => steady_bind steady_get fun seen => ?_
  exact steady_bind (steady_define _ _ _) fun _ => steady_bound fun _ => .names

theorem steady_addLongs (scope : ScopeId) (offset : Nat) (names : List (Located Identifier)) :
    Steady P F (addLongs scope offset names) := by
  induction names generalizing offset with
  | nil => exact steady_pure _
  | cons name names ih =>
    refine steady_bind (steady_made fun _ => .names) fun id => ?_
    exact steady_bind (steady_define _ _ _) fun _ => steady_bind (ih _) fun _ => steady_pure _

theorem steady_addLocals (scope : ScopeId) (offset : Nat) (decls : List LocalDecl) :
    Steady P F (addLocals scope offset decls) := by
  induction decls generalizing offset with
  | nil => exact steady_pure _
  | cons decl decls ih =>
    refine steady_bind (steady_attempt (steady_elementCount _) Untouched.fatal) fun count => ?_
    refine steady_bind (steady_made fun _ => .names) fun id => ?_
    exact steady_bind (steady_define _ _ _) fun _ => steady_bind (ih _) fun _ => steady_pure _

theorem steady_addMethod (id : Nat) (decl : MethodDecl) : Steady P F (addMethod id decl) := by
  refine steady_bind (steady_define _ _ _) fun _ => steady_bind (steady_made fun _ => .names) fun scope => ?_
  refine steady_bind (steady_addLongs _ _ _) fun longs => ?_
  exact steady_bind (steady_addLocals _ _ _) fun locals => steady_pure _

theorem steady_addDeclarations (first : Nat) (nodes : List Node) :
    Steady P F (addDeclarations first nodes) := by
  induction nodes generalizing first with
  | nil => exact steady_pure _
  | cons node rest ih =>
    cases node with
    | objectVars decls =>
      exact steady_bind (steady_attemptAll steady_addVariable Untouched.fatal _) fun _ => ih _
    | method decl =>
      refine steady_bind (steady_addMethod _ _) fun m => ?_
      exact steady_bind (ih _) fun ms => steady_pure _
    | _ => exact ih _

/-! ### Assembly code -/

theorem declares_labelled (scope current : ScopeId) (line : SourceLine) (name : Located Identifier)
    (d : Draft) : d.Declares (labelled scope current line name d) :=
  ⟨rfl, rfl, rfl, rfl, noting_cases name d.report _⟩

theorem steady_bindLabels (scope current : ScopeId) (lines : List SourceLine) :
    Steady P F (bindLabels scope current lines) := by
  intro d hd
  obtain ⟨bound, _, d', hrun, hd', -⟩ := bindLabels_eq_ok (I := fun _ => P)
    (fun line _ name _ current d => Untouched.declares (declares_labelled scope current line name d)) hd
  rw [hrun]
  exact hd'

theorem steady_convertLines (library : Library)
    (bound : List BoundLine) :
    Steady P F (convertLines library bound) := by
  induction bound with
  | nil => exact steady_pure _
  | cons entry rest ih =>
    refine steady_bind (steady_attempt ?_ Untouched.fatal) fun converted => ?_
    · refine steady_bind steady_get fun seen => ?_
      refine steady_bind (steady_liftExcept ?_) fun content => steady_pure _
      exact SourceLine.otherError_content _ _ _ _
    · exact steady_bind ih fun rest => steady_pure _

theorem steady_convert (library : Library) (scope : ScopeId) (lines : List SourceLine) :
    Steady P F (convert library scope lines) := by
  refine steady_bind (steady_made fun _ => .names) fun first => ?_
  exact steady_bind (steady_bindLabels _ _ _) fun bound => steady_convertLines library bound

theorem steady_bindRegisters (scope : ScopeId) (registers : List (LocalVar × Nat)) :
    Steady P F (bindRegisters scope registers) := by
  induction registers with
  | nil => exact steady_pure _
  | cons r rest ih => exact steady_bind (steady_bound fun _ => .names) fun _ => ih

theorem steady_inlineAssembly (huses : ∀ d uses, P d → P { d with uses })
    (hblocks : ∀ d blocks, P d → P { d with blocks }) (library : Library) (m : MethodDraft)
    (location : Location) (lines : List SourceLine) :
    Steady P Other (inlineAssembly library m location lines) := by
  refine steady_bind (steady_made fun _ => .names) fun scope => ?_
  refine steady_bind (steady_modify fun d => huses d _) fun _ => ?_
  refine steady_bind (steady_bindRegisters _ _) fun _ => ?_
  refine steady_bind (steady_splitOrigin _ _) fun split => ?_
  refine steady_bind (steady_convert _ _ _) fun converted => ?_
  refine steady_bind (steady_liftExcept (otherError_returnLine _)) fun last => ?_
  exact steady_modifyGet fun d => hblocks d _

end Compile

/-! ### Statements without others in them -/

/-- A descriptor that is added comes last, and its number is how many there were before. -/
theorem DebugTable.add_eq_ok {t table : DebugTable} {items : List DebugItem} {record : Nat}
    (h : t.add items = .ok (record, table)) :
    record = t.records.length ∧ table.records = t.records ++ [descriptor items] := by
  unfold DebugTable.add at h
  split at h
  · cases h
    exact ⟨rfl, rfl⟩
  · cases h

/-- A property of drafts that does not depend on what is referred to and on which descriptors are added. -/
class Compile.Indifferent (P : Draft → Prop) : Prop where
  uses : ∀ d uses, P d → P { d with uses }
  records : ∀ d (debug : DebugTable), d.debug.records <+: debug.records → P d → P { d with debug }

namespace MethodContext

open Compile

variable {α : Type} {P : Draft → Prop} [Indifferent P] (m : MethodContext)

theorem steady_tracked {x : Tracked α} {Q : Uses → α → Set Nat → Prop} (hx : Notes x Q) :
    Steady P Other (tracked x) := by
  intro d hd
  unfold tracked
  cases hrun : x d.uses with
  | ok a u => exact Indifferent.uses d u hd
  | error e u => exact ⟨Indifferent.uses d u hd, hx.of_error hrun⟩

omit [Indifferent P] in
theorem steady_names {F : CompileError → Prop} {f : Names → Compile α} (hf : ∀ n, Steady P F (f n)) :
    Steady P F (Compile.names m.method.scope >>= f) :=
  fun d => hf _ d

theorem steady_term (e : Expr) : Steady P Other (m.term e) :=
  m.steady_names fun n => steady_tracked (e.notes_saturated n)

theorem steady_terms (es : List Expr) : Steady P Other (m.terms es) :=
  m.steady_names fun n => steady_tracked (Expr.notes_termAll fun e _ => e.notes_saturated n)

theorem steady_termOpt (e : Option Expr) : Steady P Other (m.termOpt e) :=
  m.steady_names fun n => steady_tracked (Expr.notes_termOpt fun e _ => e.notes_saturated n)

theorem steady_target (e : Expr) : Steady P Other (m.target e) :=
  m.steady_names fun n => steady_tracked (Expr.notes_target n.accesses_true e)

theorem steady_label (l : CaseLabel) : Steady P Other (m.label l) := by
  cases l with
  | value e => exact steady_bind (m.steady_term e) fun _ => steady_pure _
  | range low high =>
    refine steady_bind (m.steady_term low) fun _ => ?_
    exact steady_bind (m.steady_term high) fun _ => steady_pure _

theorem steady_labelAll (ls : List CaseLabel) : Steady P Other (m.labelAll ls) := by
  induction ls with
  | nil => exact steady_pure _
  | cons l ls ih => exact steady_bind (m.steady_label l) fun _ => steady_bind ih fun _ => steady_pure _

theorem steady_labels (cs : List Choice) : Steady P Other (m.labels cs) := by
  induction cs with
  | nil => exact steady_pure _
  | cons c cs ih =>
    exact steady_bind (m.steady_labelAll c.labels) fun _ => steady_bind ih fun _ => steady_pure _

theorem steady_assign (target : Expr) (op : Option BinaryOp) (value : Expr) :
    Steady P Other (m.assign target op value) := by
  refine steady_bind (m.steady_target target) fun found => ?_
  cases op with
  | none =>
    refine steady_bind (m.steady_term _) fun _ => ?_
    exact steady_bind (m.steady_termOpt _) fun _ => steady_pure _
  | some op =>
    refine steady_bind (m.steady_termOpt _) fun _ => ?_
    exact steady_bind (m.steady_term _) fun _ => steady_pure _

theorem steady_invoke (location : Location) (object : Option (Located Identifier))
    (index : Option Expr) (method : Located Identifier) (arguments : List Expr) :
    Steady P Other (m.invoke location object index method arguments) := by
  refine m.steady_names fun n => ?_
  refine steady_bind (steady_tracked (n.notes_callee _ _ _ _ _)) fun callee => ?_
  refine steady_bind (m.steady_terms _) fun _ => steady_bind (m.steady_termOpt _) fun _ => ?_
  exact steady_bind (steady_tracked (Tracked.notes_use _)) fun _ => steady_pure _

theorem steady_expression (location : Location) (e : Expr) :
    Steady P Other (m.expression location e) := by
  unfold MethodContext.expression
  split
  · exact m.steady_invoke _ _ _ _ _
  · refine steady_bind steady_get fun seen => ?_
    split
    · exact m.steady_invoke _ _ _ _ _
    · exact steady_bind (m.steady_term _) fun _ => steady_pure _
  · exact steady_bind (m.steady_term _) fun _ => steady_pure _

theorem steady_debug (location : Location) (arguments : List DebugArgument) :
    Steady P Other (m.debug location arguments) := by
  unfold MethodContext.debug
  split
  · exact steady_pure _
  · refine steady_bind (m.steady_terms _) fun values => ?_
    -- the table with one more descriptor is that of the draft that was seen
    intro d hd
    rw [get_bind]
    cases hadd : d.debug.add (arguments.map DebugArgument.item) with
    | error e => exact ⟨hd, rfl⟩
    | ok found =>
      obtain ⟨-, hrecords⟩ := DebugTable.add_eq_ok hadd
      exact Indifferent.records d found.2 (hrecords ▸ List.prefix_append _ _) hd

end MethodContext

end Propeller
