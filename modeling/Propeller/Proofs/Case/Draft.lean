import Propeller.Proofs.Case.Code
import Propeller.Proofs.Case.Tree
import Propeller.Proofs.Compile.Lines

/-!
# Case — declarations in capitals

Two runs of a compilation, one of them with all names in capitals, take the same steps (`Compile.Recases`):
both succeed, and what the second gives is what the first gives in capitals, or both fail; and in either
case the drafts they leave agree (`Draft.Recased`).  What they report may be worded differently, since
messages mention names, but there are errors in both reports or in none.
-/

namespace Propeller

variable {α β : Type}

/-! ### Drafts -/

/-- Names with what they mean, in capitals. -/
def Names.upper (n : Names) : Names := { n with scopes := n.scopes.upper, links := n.links.upper }

/-- A method that is being compiled, with all names in capitals. -/
def MethodDraft.upper (m : MethodDraft) : MethodDraft :=
  { m with
    method := m.method.upper
    frame := m.frame.map LocalVar.upper
    locals := m.locals.map (Located.map LocalVar.upper)
    body := m.body.map Command.upper }

/-- A draft that is another one with all names in capitals.  Of the reports it is asked whether there are
errors, and of the debug records only how long they are. -/
structure Draft.Recased (d d' : Draft) : Prop where
  scopes : d'.scopes = d.scopes.upper
  addresses : d'.addresses = d.addresses
  errors : d'.report.hasErrors = d.report.hasErrors
  links : d'.links = d.links.upper
  constants : d'.constants = d.constants.map (Located.map .upper)
  objectVars : d'.objectVars = d.objectVars.map (Located.map .upper)
  labelKinds : d'.labelKinds = d.labelKinds
  blocks : d'.blocks = d.blocks.map InlineBlock.upper
  records : d'.debug.records.map List.length = d.debug.records.map List.length
  localCount : d'.localCount = d.localCount
  uses : d'.uses = d.uses

/-- There are as many debug records. -/
theorem Draft.Recased.recordCount {d d' : Draft} (hd : d.Recased d') :
    d'.debug.records.length = d.debug.records.length := by
  simpa only [List.length_map] using congrArg List.length hd.records

theorem Draft.recased_initial (unitName : String) :
    (initial unitName).Recased (initial unitName) where
  scopes := by
    have hinitial : Scopes.initial.push Scopes.root = (Scopes.initial.push Scopes.root).upper := by
      rw [← Scopes.push_upper, Scopes.upper_initial]
    exact hinitial
  addresses := rfl
  errors := rfl
  links := rfl
  constants := rfl
  objectVars := rfl
  labelKinds := rfl
  blocks := rfl
  records := rfl
  localCount := rfl
  uses := rfl

namespace Compile

/-- Two steps of a compilation, the second with all names in capitals. -/
abbrev Recases (g : α → β) (x : Compile α) (y : Compile β) : Prop := Mirrors Draft.Recased g x y

theorem recases_attempt {g : α → β} {x : Compile α} {y : Compile β} (h : Recases g x y) :
    Recases (Option.map g) (attempt x) (attempt y) := by
  intro d d' hd
  have hrun := h d d' hd
  generalize hx : x d = r at hrun
  generalize hy : y d' = r' at hrun
  cases hrun with
  | ok hd =>
    rw [attempt_of_ok hx, attempt_of_ok hy]
    exact .ok hd
  | error hd =>
    rw [attempt_of_error hx, attempt_of_error hy]
    refine .ok { hd with errors := ?_ }
    simp only [Report.fatal, Report.hasErrors_push, hd.errors]
    rfl

/-- Computations that note the same references. -/
theorem recases_tracked {g : α → β} {x : Tracked α} {y : Tracked β} (h : Mirrors Eq g x y) :
    Recases g (tracked x) (tracked y) := by
  intro d d' hd
  have hrun := h d.uses d'.uses hd.uses.symm
  unfold tracked
  generalize x d.uses = r at hrun ⊢
  generalize y d'.uses = r' at hrun ⊢
  cases hrun with
  | ok hu => exact .ok { hd with uses := hu.symm }
  | error hu => exact .error { hd with uses := hu.symm }

/-! ### Names -/

/-- A warning changes nothing else. -/
theorem recases_warn (l l' : Option Location) (message message' : String) :
    Recases id (warn l message) (warn l' message') :=
  mirrors_modify fun d d' hd => { hd with
    errors := by simp only [Report.warn, Report.hasErrors_push, hd.errors]; rfl }

theorem recases_names (scope : ScopeId) : Recases Names.upper (names scope) (names scope) :=
  mirrors_get_bind fun d d' hd => mirrors_pure (by rw [hd.scopes, hd.links, hd.labelKinds]; rfl)

theorem recases_pushScope (parent : ScopeId) : Recases id (pushScope parent) (pushScope parent) :=
  mirrors_modifyGet fun d d' hd =>
    ⟨by simp only [hd.scopes, Scopes.nextScope_upper, id],
      { hd with scopes := by simp only [hd.scopes, Scopes.push_upper] }⟩

theorem recases_allocLabel : Recases id allocLabel allocLabel :=
  mirrors_modifyGet fun d d' hd =>
    ⟨by simp only [hd.addresses, id], { hd with addresses := by simp only [hd.addresses] }⟩

theorem recases_newLocal : Recases id newLocal newLocal :=
  mirrors_modifyGet fun d d' hd =>
    ⟨hd.localCount, { hd with localCount := by simp only [hd.localCount] }⟩

theorem recases_define (scope : ScopeId) (name : Located Identifier) (value : Expression) :
    Recases id (define scope name value) (define scope (name.map .upper) value.upper) := by
  intro d d' hd
  rw [define_eq_ok, define_eq_ok]
  exact .ok { hd with
    scopes := by simp only [hd.scopes, Located.map, Scopes.addSymbol_upper]
    errors := by rw [hasErrors_noting, hasErrors_noting, hd.errors] }

end Compile

/-! ### Selection -/

namespace Node

open Compile

mutual

theorem recases_select : (node : Node) → Recases (List.map upper) node.select node.upper.select
  | .define name tokens => by
    rw [upper, select, select]
    have hdefine : Recases (List.map upper)
        (do
          modify fun d => { d with scopes := d.scopes.addDefinition objectScope name.value tokens }
          return ([] : List Node))
        (do
          modify fun d => { d with
            scopes := d.scopes.addDefinition objectScope name.value.upper (tokens.map upperText) }
          return ([] : List Node)) := by
      refine mirrors_bind (mirrors_modify fun d d' hd => ?_) fun _ => mirrors_pure rfl
      exact { hd with scopes := by simp only [hd.scopes, Scopes.addDefinition_upper] }
    refine mirrors_get_bind fun d d' hd => ?_
    simp only [hd.scopes, Located.map, Scopes.isDefined_upper]
    split
    · exact mirrors_bind (recases_warn _ _ _ _) fun _ => hdefine
    · exact hdefine
  | .ifDefined name negate yes no => by
    rw [upper, select, select]
    refine mirrors_get_bind fun d d' hd => ?_
    simp only [hd.scopes, Scopes.isDefined_upper]
    split
    · exact recases_selectAll yes
    · exact recases_selectAll no
  | .constants _ | .objectVars _ | .objects _ | .data _ | .method _ => mirrors_pure rfl

theorem recases_selectAll : (nodes : List Node) →
    Recases (List.map upper) (selectAll nodes) (selectAll (upperAll nodes))
  | [] => mirrors_pure rfl
  | node :: nodes => by
    rw [upperAll, selectAll, selectAll]
    refine mirrors_bind (recases_select node) fun first => ?_
    exact mirrors_bind (recases_selectAll nodes) fun rest => mirrors_pure (by simp)

end

end Node

namespace Compile

theorem recases_attemptAll {g : α → β} {f : α → Compile Unit} {f' : β → Compile Unit}
    (h : ∀ a, Recases id (f a) (f' (g a))) (xs : List α) :
    Recases id (attemptAll f xs) (attemptAll f' (xs.map g)) := by
  induction xs with
  | nil => exact mirrors_pure rfl
  | cons x xs ih => exact mirrors_bind (recases_attempt (h x)) fun _ => ih

/-! ### Constants -/

theorem recases_lower (e : Expr) : Recases Expression.upper (lower e) (lower e.upper) :=
  mirrors_get_bind fun d d' hd => mirrors_liftExcept (by rw [hd.scopes, Expr.toOption_lower_upper])

theorem recases_lowerOr (default : Int64) (e : Option Expr) :
    Recases Expression.upper (lowerOr default e) (lowerOr default (e.map Expr.upper)) := by
  cases e with
  | none => exact mirrors_pure rfl
  | some e => exact recases_lower e

theorem recases_addConstant (name : Located Identifier) (value : Expression) :
    Recases id (addConstant name value) (addConstant (name.map .upper) value.upper) := by
  refine mirrors_bind (recases_define objectScope name value) fun _ => ?_
  exact mirrors_modify fun d d' hd => { hd with constants := by simp [hd.constants] }

theorem recases_enumerate (step current : Expression) (items : List EnumItem) :
    Recases id (enumerate step current items)
      (enumerate step.upper current.upper (items.map EnumItem.upper)) := by
  induction items generalizing current with
  | nil => exact mirrors_pure rfl
  | cons item items ih =>
    obtain ⟨name, own⟩ := item
    refine mirrors_bind (recases_addConstant name current) fun _ => ?_
    cases own with
    | none => exact mirrors_bind (mirrors_pure (g := Expression.upper) rfl) fun _ => ih _
    | some e => exact mirrors_bind (recases_lower e) fun _ => ih _

theorem recases_addConstants (decl : ConstantDecl) :
    Recases id (addConstants decl) (addConstants decl.upper) := by
  cases decl with
  | assign name value => exact mirrors_bind (recases_lower value) fun v => recases_addConstant name v
  | enumeration start step items =>
    refine mirrors_bind (recases_lowerOr 0 start) fun first => ?_
    exact mirrors_bind (recases_lowerOr 1 step) fun more => recases_enumerate more first items

/-! ### Clock -/

theorem toOption_clockSymbol {d d' : Draft} (hd : d.Recased d') {x : Identifier} (hx : x.upper = x) :
    (clockSymbol d' x).toOption = (clockSymbol d x).toOption := by
  have hsymbol := d.scopes.symbol?_upper objectScope x
  rw [hx] at hsymbol
  simp only [clockSymbol, hd.scopes, hsymbol]
  cases d.scopes.symbol? objectScope x with
  | none => rfl
  | some e =>
    simp only [Option.map_some]
    have hvalue : (e.upper.evalInt { scopes := d.scopes.upper }).toOption =
        (e.evalInt { scopes := d.scopes }).toOption :=
      e.toOption_evalInt_upper { scopes := d.scopes }
    obtain ⟨v, h, h'⟩ | ⟨e, e', h, h'⟩ := ok_or_error_of_toOption hvalue
    · rw [h, h']
      simp only [apply_ite Except.toOption, toOption_error]
    · rw [h, h']
      rfl

/-- The names of the symbols that describe the clock are written in capitals. -/
theorem toOption_clockRequest {d d' : Draft} (hd : d.Recased d') (tolerance : Nat) :
    (clockRequest d' tolerance).toOption = (clockRequest d tolerance).toOption := by
  have hbind : ∀ {α : Type} {x : Identifier} {f f' : Option Nat → Except (Located CompileError) α},
      x.upper = x → (∀ n, (f' n).toOption = (f n).toOption) →
      (clockSymbol d' x >>= f').toOption = (clockSymbol d x >>= f).toOption := by
    intro α x f f' hx hf
    simp only [toOption_bind, toOption_clockSymbol hd hx, hf]
  unfold clockRequest
  refine hbind rfl fun crystal => hbind rfl fun external => hbind rfl fun frequency => ?_
  refine hbind rfl fun fast => hbind rfl fun slow => hbind rfl fun tolerance => ?_
  rfl

theorem recases_publishClock (s : ClockSetting) : Recases id (publishClock s) (publishClock s) := by
  have hbuiltin : ∀ (scopes : Scopes) {x : Identifier} (value : Int64), x.upper = x →
      scopes.upper.addBuiltin objectScope x (.int value) =
        (scopes.addBuiltin objectScope x (.int value)).upper := by
    intro scopes x value hx
    rw [← Scopes.addBuiltin_upper, hx, Expression.upper_int]
  have hmode : (⟨"CLKMODE_"⟩ : Identifier).upper = ⟨"CLKMODE_"⟩ := rfl
  have hfrequency : (⟨"CLKFREQ_"⟩ : Identifier).upper = ⟨"CLKFREQ_"⟩ := rfl
  refine mirrors_modify fun d d' hd => { hd with scopes := ?_ }
  simp only [hd.scopes, hbuiltin _ _ hmode, hbuiltin _ _ hfrequency]

theorem recases_clock (config : Config) : Recases id (clock config) (clock config) := by
  refine mirrors_get_bind fun d d' hd => ?_
  refine mirrors_bind (mirrors_liftExcept (g := id) ?_) fun request => ?_
  · rw [toOption_clockRequest hd, Option.map_id_fun, id]
  · cases request with
    | none => exact mirrors_bind (recases_publishClock _) fun _ => mirrors_pure rfl
    | some request =>
      simp only [id]
      cases request.derive with
      | error e => exact mirrors_throw _ _
      | ok s => exact mirrors_bind (recases_publishClock s) fun _ => mirrors_pure rfl

/-! ### Children -/

theorem recases_elementCount (count : Option Expr) :
    Recases id (elementCount count) (elementCount (count.map Expr.upper)) := by
  cases count with
  | none => exact mirrors_pure rfl
  | some e =>
    refine mirrors_get_bind fun d d' hd => mirrors_liftExcept ?_
    rw [hd.scopes, Expr.toOption_countValue_upper, Option.map_id_fun, id]

theorem recases_linkAt {g : α → β} {x : Except LinkError α} {y : Except LinkError β} (l l' : Location)
    (h : y.toOption = x.toOption.map g) : Recases g (linkAt l x) (linkAt l' y) :=
  mirrors_liftExcept (by rw [toOption_mapError, toOption_mapError, h])

theorem recases_addChild (library : Library) (decl : ObjectDecl) :
    Recases id (addChild library decl) (addChild library.upper decl.upper) := by
  refine mirrors_bind (recases_elementCount decl.count) fun count => ?_
  refine mirrors_bind (recases_linkAt (g := ObjectImage.upper) _ _ ?_) fun image => ?_
  · exact toOption_except_map _ _
  · refine mirrors_get_bind fun d d' hd => ?_
    refine mirrors_bind (recases_linkAt (g := Links.upper) _ _ ?_) fun links => ?_
    · rw [hd.links]
      exact Links.toOption_add_upper _ _ _ _
    · exact mirrors_modify fun d d' hd => { hd with links := rfl }

/-- Nothing but warnings is added to the report. -/
theorem warnAll_eq (ws : List ScopeWarning) (d : Draft) :
    ∃ report : Report, report.hasErrors = d.report.hasErrors ∧
      warnAll ws d = .ok () { d with report } := by
  induction ws generalizing d with
  | nil => exact ⟨d.report, rfl, rfl⟩
  | cons w ws ih =>
    obtain ⟨report, herrors, hrun⟩ := ih { d with report := d.report.warn none w.message }
    refine ⟨report, herrors.trans ?_, hrun⟩
    exact (Report.hasErrors_push ..).trans (Bool.or_false _)

theorem recases_warnAll (ws ws' : List ScopeWarning) : Recases id (warnAll ws) (warnAll ws') := by
  intro d d' hd
  obtain ⟨report, herrors, hrun⟩ := warnAll_eq ws d
  obtain ⟨report', herrors', hrun'⟩ := warnAll_eq ws' d'
  rw [hrun, hrun']
  exact .ok { hd with errors := herrors'.trans (hd.errors.trans herrors.symm) }

theorem recases_addExports : Recases id addExports addExports := by
  refine mirrors_get_bind fun d d' hd => ?_
  have hscopes := Scopes.addSymbols_upper objectScope (d.links.exports 0) d.scopes
  refine mirrors_bind (mirrors_set { hd with scopes := ?_ }) fun _ => recases_warnAll _ _
  simp only [hd.links, hd.scopes, Links.exports_upper, hscopes]

/-! ### Variables and methods -/

theorem recases_addVariable (decl : VariableDecl) :
    Recases id (addVariable decl) (addVariable decl.upper) := by
  refine mirrors_bind (recases_elementCount decl.count) fun count => ?_
  refine mirrors_get_bind fun d d' hd => ?_
  have hlength : d'.objectVars.length = d.objectVars.length := by rw [hd.objectVars, List.length_map]
  rw [hlength]
  refine mirrors_bind (recases_define objectScope decl.name _) fun _ => ?_
  refine mirrors_modify fun d d' hd => { hd with objectVars := ?_ }
  rw [hd.objectVars, List.map_append]
  rfl

theorem recases_addLongs (scope : ScopeId) (offset : Nat) (names : List (Located Identifier)) :
    Recases (List.map LocalVar.upper) (addLongs scope offset names)
      (addLongs scope offset (names.map (Located.map .upper))) := by
  induction names generalizing offset with
  | nil => exact mirrors_pure rfl
  | cons name names ih =>
    refine mirrors_bind recases_newLocal fun n => ?_
    refine mirrors_bind (recases_define scope name _) fun _ => ?_
    exact mirrors_bind (ih _) fun rest => mirrors_pure rfl

theorem recases_addLocals (scope : ScopeId) (offset : Nat) (decls : List LocalDecl) :
    Recases (List.map (Located.map LocalVar.upper)) (addLocals scope offset decls)
      (addLocals scope offset (decls.map LocalDecl.upper)) := by
  induction decls generalizing offset with
  | nil => exact mirrors_pure rfl
  | cons decl decls ih =>
    refine mirrors_bind (recases_attempt (recases_elementCount decl.count)) fun tried => ?_
    rw [Option.map_id_fun, id]
    refine mirrors_bind recases_newLocal fun n => ?_
    refine mirrors_bind (recases_define scope decl.name _) fun _ => ?_
    exact mirrors_bind (ih _) fun rest => mirrors_pure rfl

theorem recases_addMethod (n : Nat) (decl : MethodDecl) :
    Recases MethodDraft.upper (addMethod n decl) (addMethod n decl.upper) := by
  have hmethod : Expression.method
      { id := n, name := decl.upper.name.value, parameters := decl.upper.parameters.length,
        returns := decl.upper.results.length, isPublic := decl.upper.isPublic } =
      (Expression.method
        { id := n, name := decl.name.value, parameters := decl.parameters.length,
          returns := decl.results.length, isPublic := decl.isPublic }).upper := by
    simp [MethodDecl.upper, Expression.upper, Method.upper, Located.map]
  have hlongs : decl.upper.results ++ decl.upper.parameters =
      (decl.results ++ decl.parameters).map (Located.map .upper) := (List.map_append ..).symm
  unfold addMethod
  simp only [hmethod, hlongs]
  refine mirrors_bind (recases_define objectScope decl.name _) fun _ => ?_
  refine mirrors_bind (recases_pushScope objectScope) fun scope => ?_
  refine mirrors_bind (recases_addLongs scope 0 _) fun longs => ?_
  rw [List.length_map]
  refine mirrors_bind (recases_addLocals scope _ decl.locals) fun locals => mirrors_pure ?_
  simp [MethodDraft.upper, MethodDecl.upper, Method.upper, Located.map, Function.comp_def]

theorem recases_addDeclarations (first : Nat) (nodes : List Node) :
    Recases (List.map MethodDraft.upper) (addDeclarations first nodes)
      (addDeclarations first (nodes.map Node.upper)) := by
  induction nodes generalizing first with
  | nil => exact mirrors_pure rfl
  | cons node rest ih =>
    cases node with
    | objectVars decls =>
      exact mirrors_bind (recases_attemptAll recases_addVariable decls) fun _ => ih first
    | method decl =>
      refine mirrors_bind (recases_addMethod first decl) fun m => ?_
      exact mirrors_bind (ih _) fun ms => mirrors_pure rfl
    | _ => exact ih first

/-! ### Assembly code -/

theorem recases_bindLabel (scope current : ScopeId) (line : SourceLine) :
    Recases id (bindLabel scope current line) (bindLabel scope current line.upper) := by
  have hlabel : line.upper.label = line.label.map (Located.map .upper) := rfl
  unfold bindLabel
  simp only [hlabel, SourceLine.kind_upper]
  cases line.label with
  | none => exact mirrors_pure rfl
  | some name =>
    have hhome : Recases id (labelHome scope current name)
        (labelHome scope current (name.map .upper)) := by
      simp only [labelHome, Located.map, Identifier.isLocalLabel_upper]
      split
      · exact mirrors_pure rfl
      · exact mirrors_bind (recases_pushScope scope) fun fresh => mirrors_pure rfl
    refine mirrors_bind recases_allocLabel fun label => mirrors_bind hhome fun home => ?_
    refine mirrors_bind (recases_define home.1 name (.label label)) fun _ => ?_
    refine mirrors_bind (mirrors_modify fun d d' hd => ?_) fun _ => mirrors_pure rfl
    exact { hd with labelKinds := by simp only [hd.labelKinds, id] }

theorem recases_bindLabels (scope current : ScopeId) (lines : List SourceLine) :
    Recases (List.map (Prod.map SourceLine.upper id)) (bindLabels scope current lines)
      (bindLabels scope current (lines.map SourceLine.upper)) := by
  induction lines generalizing current with
  | nil => exact mirrors_pure rfl
  | cons line rest ih =>
    rw [List.map_cons, bindLabels_cons, bindLabels_cons]
    refine mirrors_bind (recases_bindLabel scope current line) fun found => ?_
    exact mirrors_bind (ih _) fun bound => mirrors_pure rfl

theorem recases_convertLines (library : Library)
    (bound : List (SourceLine × Option LabelId × ScopeId)) :
    Recases (List.map AsmLine.upper) (convertLines library bound)
      (convertLines library.upper (bound.map (Prod.map SourceLine.upper id))) := by
  induction bound with
  | nil => exact mirrors_pure rfl
  | cons entry rest ih =>
    obtain ⟨line, label, scope⟩ := entry
    have hline : Recases AsmLine.upper
        (do
          let content ← liftExcept (line.content library (← get).scopes scope)
          return ({ label, content, location := line.location } : AsmLine))
        (do
          let content ← liftExcept (line.upper.content library.upper (← get).scopes scope)
          return ({ label, content, location := line.location } : AsmLine)) := by
      refine mirrors_get_bind fun d d' hd => ?_
      refine mirrors_bind (mirrors_liftExcept ?_) fun content => mirrors_pure rfl
      rw [hd.scopes, SourceLine.toOption_content_upper]
    refine mirrors_bind (recases_attempt hline) fun converted => ?_
    refine mirrors_bind ih fun rest => mirrors_pure ?_
    cases converted <;> simp

theorem recases_convert (library : Library) (scope : ScopeId) (lines : List SourceLine) :
    Recases (List.map AsmLine.upper) (convert library scope lines)
      (convert library.upper scope (lines.map SourceLine.upper)) := by
  refine mirrors_bind (recases_pushScope scope) fun first => ?_
  exact mirrors_bind (recases_bindLabels scope first lines) fun bound => recases_convertLines library bound

end Compile

end Propeller
