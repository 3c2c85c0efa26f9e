import Propeller.Proofs.Case.Draft
import Propeller.Proofs.Compile.WellFormed

/-!
# Case — bodies of methods in capitals

The term of an expression in capitals is its term in capitals (`Expr.mirrors_term`), and so the commands of
a statement in capitals are its commands in capitals (`Statement.recased`).  All parts of an
object are put together in this way (`Compile.recases_parts`).
-/

namespace Propeller

variable {α : Type}

/-! ### Terms -/

theorem mirrors_use (x : Use) : Mirrors Eq id (Tracked.use x) (Tracked.use x) :=
  mirrors_modify fun _ _ h => congrArg (Uses.mark · x) h

namespace Names

variable (n : Names)

@[simp]
theorem symbol?_upper (x : Identifier) : n.upper.symbol? x.upper = (n.symbol? x).map Expression.upper :=
  n.scopes.resolve_upper n.scope x

theorem mirrors_variableOf (x : Identifier) (indexed : Bool) (l : Location) :
    Mirrors Eq Variable.upper (n.variableOf x indexed l) (n.upper.variableOf x.upper indexed l) := by
  unfold variableOf
  rw [symbol?_upper]
  cases n.symbol? x with
  | none => exact mirrors_throw _ _
  | some e =>
    cases e with
    | localVar | objectVar => exact mirrors_bind (mirrors_use _) fun _ => mirrors_pure rfl
    | label line => exact mirrors_pure rfl
    | register a =>
      cases indexed with
      | true => exact mirrors_throw _ _
      | false => exact mirrors_pure rfl
    | _ => exact mirrors_throw _ _

theorem mirrors_methodOf (x : Identifier) (method : Located Identifier) (given : Nat) (wanted : Bool)
    (l : Location) :
    Mirrors Eq Method.upper (n.methodOf x method given wanted l)
      (n.upper.methodOf x.upper (method.map .upper) given wanted l) := by
  unfold methodOf
  rw [symbol?_upper]
  cases n.symbol? x with
  | none => exact mirrors_throw _ _
  | some e =>
    cases e with
    | method m =>
      simp only [Option.map_some, Expression.upper, Method.upper]
      split
      · exact mirrors_throw _ _
      · split
        · exact mirrors_throw _ _
        · exact mirrors_pure rfl
    | _ => exact mirrors_throw _ _

theorem mirrors_callee (object : Option (Located Identifier)) (method : Located Identifier) (given : Nat)
    (wanted : Bool) (l : Location) :
    Mirrors Eq Method.upper (n.callee object method given wanted l)
      (n.upper.callee (object.map (Located.map .upper)) (method.map .upper) given wanted l) := by
  rw [callee_eq, callee_eq]
  cases object with
  | none => exact n.mirrors_methodOf _ _ _ _ _
  | some o =>
    have hchild : (n.upper.links.get? o.value.upper).isNone = (n.links.get? o.value).isNone := by
      rw [upper, Links.get?_upper, Option.isNone_map]
    simp only [Option.map_some, Located.map, hchild, Identifier.qualified_upper]
    split
    · exact mirrors_throw _ _
    · exact n.mirrors_methodOf _ _ _ _ _

end Names

namespace Expr

variable (n : Names)

@[simp]
theorem isStatic_upper (e : Expr) : e.upper.isStatic n.upper = e.isStatic n := by
  induction e using Expr.induct with
  | name l x =>
    simp only [upper, isStatic, Names.symbol?_upper]
    cases n.symbol? x with
    | none => rfl
    | some e => cases e <;> rfl
  | member l object i x _ =>
    simp only [upper, isStatic, Located.map, Identifier.qualified_upper, Names.symbol?_upper]
    cases n.symbol? (object.value.qualified x.value) with
    | none => rfl
    | some e => cases e <;> rfl
  | unary l op operand ih => exact ih
  | binary l op left right ihl ihr => simp only [upper, isStatic, ihl, ihr]
  | ternary l c yes no ihc ihy ihn => simp only [upper, isStatic, ihc, ihy, ihn]
  | _ => rfl

/-- A constant lacks an address in capitals exactly if it lacks one. -/
theorem toOption_staticTerm_upper (e : Expr) :
    (e.upper.staticTerm n.upper).toOption = (e.staticTerm n).toOption.map Term.upper := by
  have hlower : (e.upper.lower n.upper.scopes n.upper.scope).toOption =
      (e.lower n.scopes n.scope).toOption.map Expression.upper :=
    e.toOption_lower_upper n.scopes n.scope
  simp only [staticTerm, toOption_bind, hlower]
  cases (e.lower n.scopes n.scope).toOption with
  | none => rfl
  | some value =>
    have heval : (value.upper.eval { scopes := n.upper.scopes }).mapError EvalError.isUnresolved =
        (value.eval { scopes := n.scopes }).mapError EvalError.isUnresolved :=
      value.eval_upper { scopes := n.scopes }
    simp only [Option.map_some, Option.bind_some]
    cases h : value.eval { scopes := n.scopes } with
    | ok a =>
      rw [h, mapError_ok] at heval
      rw [mapError_eq_ok heval]
      rfl
    | error error =>
      rw [h, mapError_error] at heval
      -- only a missing address leaves a term behind, and it is missing in both or in neither
      obtain ⟨error', h', hsame⟩ := mapError_eq_error heval
      rw [h']
      cases error <;> cases error' <;> first | rfl | cases hsame

theorem mirrors_term_of_dynamic {e : Expr}
    (h : Mirrors Eq Term.upper (e.dynamicTerm n) (e.upper.dynamicTerm n.upper)) :
    Mirrors Eq Term.upper (e.term n) (e.upper.term n.upper) := by
  rw [term_eq, term_eq, isStatic_upper]
  split
  · exact mirrors_liftExcept (toOption_staticTerm_upper n e)
  · exact h

theorem mirrors_termAll_of {es : List Expr}
    (h : ∀ e ∈ es, Mirrors Eq Term.upper (e.term n) (e.upper.term n.upper)) :
    Mirrors Eq (List.map Term.upper) (termAll n es) (termAll n.upper (es.map upper)) := by
  induction es with
  | nil => exact mirrors_pure rfl
  | cons e es ih =>
    obtain ⟨he, hes⟩ := List.forall_mem_cons.mp h
    exact mirrors_bind he fun t => mirrors_bind (ih hes) fun ts => mirrors_pure rfl

theorem mirrors_termOpt_of {e : Option Expr}
    (h : ∀ x ∈ e, Mirrors Eq Term.upper (x.term n) (x.upper.term n.upper)) :
    Mirrors Eq (Option.map Term.upper) (termOpt n e) (termOpt n.upper (e.map upper)) := by
  cases e with
  | none => exact mirrors_pure rfl
  | some e => exact mirrors_bind (h e rfl) fun t => mirrors_pure rfl

/-- **The term of an expression** in capitals. -/
theorem mirrors_term (e : Expr) : Mirrors Eq Term.upper (e.term n) (e.upper.term n.upper) := by
  induction e using Expr.induct with refine mirrors_term_of_dynamic n ?_
  | literal | text => exact mirrors_throw _ _
  | name l x =>
    -- a name that stands for a method is a call without arguments
    simp only [upper, dynamicTerm, Names.symbol?_upper]
    have hread : Mirrors Eq Term.upper
        (do return .read (← n.variableOf x false l) none)
        (do return .read (← n.upper.variableOf x.upper false l) none) :=
      mirrors_bind (n.mirrors_variableOf x false l) fun v => mirrors_pure rfl
    cases n.symbol? x with
    | none => exact hread
    | some e =>
      cases e with
      | method m =>
        refine mirrors_bind (n.mirrors_callee none ⟨x, l⟩ 0 true l) fun m => ?_
        exact mirrors_bind (mirrors_use _) fun _ => mirrors_pure rfl
      | _ => exact hread
  | member l object i x hi =>
    simp only [upper, upperOpt_eq, dynamicTerm]
    refine mirrors_bind (n.mirrors_callee (some object) x 0 true l) fun m => ?_
    refine mirrors_bind (mirrors_termOpt_of n hi) fun i => ?_
    refine mirrors_bind (mirrors_use _) fun _ => mirrors_pure ?_
    simp [Term.upper]
  | index l base i hi =>
    refine mirrors_bind hi fun i => ?_
    exact mirrors_bind (n.mirrors_variableOf _ _ _) fun v => mirrors_pure rfl
  | unary l op operand ih =>
    exact mirrors_bind ih fun t => mirrors_pure rfl
  | binary l op left right ihl ihr =>
    refine mirrors_bind ihl fun x => ?_
    exact mirrors_bind ihr fun y => mirrors_pure rfl
  | ternary l c yes no ihc ihy ihn =>
    refine mirrors_bind ihc fun x => ?_
    exact mirrors_bind ihy fun y => mirrors_bind ihn fun z => mirrors_pure rfl
  | addressOf l operand _ hi =>
    cases operand with
    | name inner x => exact mirrors_bind (n.mirrors_variableOf _ _ _) fun v => mirrors_pure rfl
    | index inner base i =>
      refine mirrors_bind (hi _ _ _ rfl) fun i => ?_
      exact mirrors_bind (n.mirrors_variableOf _ _ _) fun v => mirrors_pure rfl
    | _ => exact mirrors_throw _ _
  | call l object i method arguments hi ha =>
    simp only [upper, upperOpt_eq, upperAll_eq, dynamicTerm, List.length_map]
    refine mirrors_bind (n.mirrors_callee object method _ true l) fun m => ?_
    refine mirrors_bind (mirrors_termAll_of n ha) fun args => ?_
    refine mirrors_bind (mirrors_termOpt_of n hi) fun i => ?_
    refine mirrors_bind (mirrors_use _) fun _ => mirrors_pure ?_
    simp [Term.upper]

theorem mirrors_termAll (es : List Expr) :
    Mirrors Eq (List.map Term.upper) (termAll n es) (termAll n.upper (es.map upper)) :=
  mirrors_termAll_of n fun e _ => e.mirrors_term n

theorem mirrors_termOpt (e : Option Expr) :
    Mirrors Eq (Option.map Term.upper) (termOpt n e) (termOpt n.upper (e.map upper)) :=
  mirrors_termOpt_of n fun e _ => e.mirrors_term n

theorem mirrors_target (e : Expr) :
    Mirrors Eq (Prod.map Variable.upper (Option.map upper)) (e.target n) (e.upper.target n.upper) := by
  cases e with
  | name | index => exact mirrors_bind (n.mirrors_variableOf _ _ _) fun v => mirrors_pure rfl
  | _ => exact mirrors_throw _ _

end Expr

/-! ### Assembly code in methods -/

theorem MethodDraft.registers_upper (m : MethodDraft) :
    m.upper.registers = m.registers.map (Prod.map LocalVar.upper id) := by
  simp only [registers, upper, List.filter_map, List.map_map]
  rfl

namespace Compile

theorem recases_bindRegisters (scope : ScopeId) (registers : List (LocalVar × Nat)) :
    Recases id (bindRegisters scope registers)
      (bindRegisters scope (registers.map (Prod.map LocalVar.upper id))) := by
  induction registers with
  | nil => exact mirrors_pure rfl
  | cons r rest ih =>
    obtain ⟨v, address⟩ := r
    refine mirrors_bind (mirrors_modify fun d d' hd => { hd with scopes := ?_ }) fun _ => ih
    have hbound := d.scopes.addBuiltin_upper scope v.name (.register address)
    rw [hd.scopes]
    exact hbound

theorem recases_splitOrigin (scope : ScopeId) (lines : List SourceLine) :
    Recases (Prod.map id (List.map SourceLine.upper)) (splitOrigin scope lines)
      (splitOrigin scope (lines.map SourceLine.upper)) := by
  cases lines with
  | nil => exact mirrors_pure rfl
  | cons line rest =>
    have hlabel : line.upper.label.isNone = line.label.isNone := Option.isNone_map
    have hoperands : line.upper.operands = line.operands.map SourceOperand.upper := rfl
    simp only [List.map_cons, splitOrigin, SourceLine.directive?_upper, hlabel, hoperands]
    split
    · cases line.operands with
      | nil => exact mirrors_pure rfl
      | cons o more =>
        refine mirrors_get_bind fun d d' hd => ?_
        refine mirrors_bind (mirrors_liftExcept (g := id) ?_) fun origin => mirrors_pure rfl
        rw [hd.scopes, Option.map_id_fun, id]
        exact o.value.toOption_constantValue_upper d.scopes scope
    · exact mirrors_pure rfl

/-- The instruction that ends a block names nothing. -/
theorem toOption_returnLine (l : Location) :
    (returnLine l).toOption = (returnLine l).toOption.map AsmLine.upper := by
  have hmake : ∀ m, (Instruction.make none m [] .none).toOption =
      (Instruction.make none m [] .none).toOption.map Instruction.upper :=
    fun m => Instruction.make_upper none m [] .none
  simp only [returnLine, toOption_bind, toOption_encodeAt, toOption_pure, Option.map_bind,
    Function.comp_def, Option.map_some]
  congr
  funext m
  have hm := hmake m
  cases h : (Instruction.make none m [] .none).toOption with
  | none => rfl
  | some i =>
    rw [h] at hm
    have hi : i = i.upper := Option.some.inj hm
    exact congrArg (fun i => some (AsmLine.mk none (.instruction i) l)) hi

theorem recases_inlineAssembly (library : Library) (m : MethodDraft) (l : Location)
    (lines : List SourceLine) :
    Recases Command.upper (inlineAssembly library m l lines)
      (inlineAssembly library.upper m.upper l (lines.map SourceLine.upper)) := by
  unfold inlineAssembly
  simp only [MethodDraft.registers_upper]
  refine mirrors_bind (recases_pushScope m.scope) fun scope => ?_
  refine mirrors_bind (mirrors_modify fun d d' hd => { hd with uses := ?_ }) fun _ => ?_
  · rw [hd.uses, List.foldl_map]
    rfl
  · refine mirrors_bind (recases_bindRegisters scope m.registers) fun _ => ?_
    refine mirrors_bind (recases_splitOrigin scope lines) fun split => ?_
    obtain ⟨origin, lines⟩ := split
    refine mirrors_bind (recases_convert library scope lines) fun converted => ?_
    refine mirrors_bind (mirrors_liftExcept (toOption_returnLine l)) fun last => ?_
    refine mirrors_modifyGet fun d d' hd => ⟨?_, { hd with blocks := ?_ }⟩
    · simp [hd.blocks, Command.upper]
    · simp [hd.blocks, InlineBlock.upper]

end Compile

/-! ### Expressions in methods -/

namespace MethodContext

open Compile

/-- What a method is compiled with, in capitals. -/
def upper (m : MethodContext) : MethodContext :=
  { m with library := m.library.upper, method := m.method.upper }

variable (m : MethodContext)

theorem recases_term (e : Expr) : Recases Term.upper (m.term e) (m.upper.term e.upper) :=
  mirrors_bind (recases_names m.method.scope) fun n => recases_tracked (e.mirrors_term n)

theorem recases_terms (es : List Expr) :
    Recases (List.map Term.upper) (m.terms es) (m.upper.terms (es.map Expr.upper)) :=
  mirrors_bind (recases_names m.method.scope) fun n => recases_tracked (Expr.mirrors_termAll n es)

theorem recases_termOpt (e : Option Expr) :
    Recases (Option.map Term.upper) (m.termOpt e) (m.upper.termOpt (e.map Expr.upper)) :=
  mirrors_bind (recases_names m.method.scope) fun n => recases_tracked (Expr.mirrors_termOpt n e)

theorem recases_target (e : Expr) :
    Recases (Prod.map Variable.upper (Option.map Expr.upper)) (m.target e) (m.upper.target e.upper) :=
  mirrors_bind (recases_names m.method.scope) fun n => recases_tracked (e.mirrors_target n)

theorem recases_labelAll (ls : List CaseLabel) :
    Recases (List.map Label.upper) (m.labelAll ls) (m.upper.labelAll (ls.map CaseLabel.upper)) := by
  induction ls with
  | nil => exact mirrors_pure rfl
  | cons l ls ih =>
    have hlabel : Recases Label.upper (m.label l) (m.upper.label l.upper) := by
      cases l with
      | value e => exact mirrors_bind (m.recases_term e) fun t => mirrors_pure rfl
      | range low high =>
        refine mirrors_bind (m.recases_term low) fun l => ?_
        exact mirrors_bind (m.recases_term high) fun h => mirrors_pure rfl
    exact mirrors_bind hlabel fun first => mirrors_bind ih fun rest => mirrors_pure rfl

theorem recases_labels (cs : List Choice) :
    Recases (List.map (List.map Label.upper)) (m.labels cs)
      (m.upper.labels (Statement.upperChoices cs)) := by
  induction cs with
  | nil => exact mirrors_pure rfl
  | cons c cs ih =>
    obtain ⟨labels, body⟩ := c
    refine mirrors_bind (m.recases_labelAll labels) fun first => ?_
    exact mirrors_bind ih fun rest => mirrors_pure rfl

theorem recases_assign (target : Expr) (op : Option BinaryOp) (value : Expr) :
    Recases Command.upper (m.assign target op value) (m.upper.assign target.upper op value.upper) := by
  refine mirrors_bind (m.recases_target target) fun found => ?_
  obtain ⟨v, index⟩ := found
  cases op with
  | none =>
    refine mirrors_bind (m.recases_term value) fun value => ?_
    exact mirrors_bind (m.recases_termOpt index) fun index => mirrors_pure rfl
  | some op =>
    refine mirrors_bind (m.recases_termOpt index) fun index => ?_
    exact mirrors_bind (m.recases_term value) fun value => mirrors_pure rfl

theorem recases_invoke (l : Location) (object : Option (Located Identifier)) (index : Option Expr)
    (method : Located Identifier) (arguments : List Expr) :
    Recases Command.upper (m.invoke l object index method arguments)
      (m.upper.invoke l (object.map (Located.map .upper)) (index.map Expr.upper) (method.map .upper)
        (arguments.map Expr.upper)) := by
  unfold invoke
  rw [List.length_map]
  refine mirrors_bind (recases_names m.method.scope) fun n => ?_
  refine mirrors_bind (recases_tracked (n.mirrors_callee object method _ false l)) fun callee => ?_
  refine mirrors_bind (m.recases_terms arguments) fun arguments => ?_
  refine mirrors_bind (m.recases_termOpt index) fun index => ?_
  exact mirrors_bind (recases_tracked (mirrors_use _)) fun _ => mirrors_pure rfl

theorem recases_expression (l : Location) (e : Expr) :
    Recases Command.upper (m.expression l e) (m.upper.expression l e.upper) := by
  have hdiscard : ∀ e : Expr, Recases Command.upper (do return .discard (← m.term e))
      (do return .discard (← m.upper.term e.upper)) :=
    fun e => mirrors_bind (m.recases_term e) fun t => mirrors_pure rfl
  cases e with
  | call inner object index method arguments =>
    simp only [Expr.upper, Expr.upperOpt_eq, Expr.upperAll_eq]
    exact m.recases_invoke l object index method arguments
  | name inner x =>
    refine mirrors_get_bind fun d d' hd => ?_
    have hsymbol : d'.scopes.symbol? m.upper.method.scope x.upper =
        (d.scopes.symbol? m.method.scope x).map Expression.upper := by
      rw [hd.scopes]
      exact d.scopes.symbol?_upper m.method.scope x
    rw [hsymbol]
    cases d.scopes.symbol? m.method.scope x with
    | none => exact hdiscard (.name inner x)
    | some e =>
      cases e with
      | method callee => exact m.recases_invoke l none none ⟨x, inner⟩ []
      | _ => exact hdiscard (.name inner x)
  | _ => exact hdiscard _

theorem debugValues_upper (arguments : List DebugArgument) :
    debugValues (arguments.map DebugArgument.upper) = (debugValues arguments).map Expr.upper := by
  induction arguments with
  | nil => rfl
  | cons a rest ih =>
    cases a with
    | text shown => exact ih
    | value format value name => exact congrArg (value.upper :: ·) ih

theorem length_descriptor_upper (arguments : List DebugArgument) :
    (DebugTable.descriptor ((arguments.map DebugArgument.upper).map DebugArgument.item)).length =
      (DebugTable.descriptor (arguments.map DebugArgument.item)).length := by
  have hitem : ∀ a : DebugArgument, a.upper.item.bytes.length = a.item.bytes.length := by
    intro a
    cases a with
    | text shown => rfl
    | value format value name =>
      simp [DebugArgument.upper, DebugArgument.item, DebugItem.bytes, length_utf8Bytes_upperText]
  unfold DebugTable.descriptor
  induction arguments with
  | nil => rfl
  | cons a rest ih =>
    simp only [List.map_cons, List.flatMap_cons, List.length_append, hitem] at ih ⊢
    omega

theorem recases_debug (l : Location) (arguments : List DebugArgument) :
    Recases (List.map Command.upper) (m.debug l arguments)
      (m.upper.debug l (arguments.map DebugArgument.upper)) := by
  have hconfig : m.upper.config.debug = m.config.debug := rfl
  unfold debug
  rw [hconfig, debugValues_upper]
  split
  · exact mirrors_pure rfl
  · refine mirrors_bind (m.recases_terms (debugValues arguments)) fun values => ?_
    refine mirrors_get_bind fun d d' hd => ?_
    by_cases hroom : d.debug.records.length < DebugTable.capacity
    · simp only [DebugTable.add, hd.recordCount, if_pos hroom]
      refine mirrors_bind (mirrors_modify fun e e' he => { he with records := ?_ }) fun _ =>
        mirrors_pure rfl
      simp only [List.map_append, hd.records, List.map_cons, List.map_nil, length_descriptor_upper]
    · simp only [DebugTable.add, hd.recordCount, if_neg hroom]
      exact mirrors_throw _ _

end MethodContext

/-! ### Statements -/

namespace Statement

open Compile

variable {m : MethodContext}

/-- The commands for a statement are recased, whatever exits there are around it. -/
def Recased (m : MethodContext) (s : Statement) : Prop :=
  ∀ exits, Recases (List.map Command.upper) (commands m exits s) (commands m.upper exits s.upper)

theorem recases_block (exits : Exits) {ss : List Statement} (h : ∀ s ∈ ss, s.Recased m) :
    Recases (List.map Command.upper) (block m exits ss) (block m.upper exits (ss.map upper)) := by
  induction ss with
  | nil => exact mirrors_pure rfl
  | cons s ss ih =>
    rw [List.map_cons, block, block]
    refine mirrors_bind (recases_attempt (h s List.mem_cons_self exits)) fun first => ?_
    refine mirrors_bind (ih fun s hs => h s (.tail _ hs)) fun rest => ?_
    refine mirrors_pure ?_
    cases first with
    | none => rfl
    | some first => exact List.map_append.symm

theorem recases_blocks (exits : Exits) {choices : List Choice}
    (h : ∀ labels body, Choice.mk labels body ∈ choices → ∀ s ∈ body, s.Recased m) :
    Recases (List.map (List.map Command.upper)) (blocks m exits choices)
      (blocks m.upper exits (upperChoices choices)) := by
  induction choices with
  | nil => exact mirrors_pure rfl
  | cons choice choices ih =>
    obtain ⟨labels, body⟩ := choice
    rw [upperChoices, upperAll_eq, blocks, blocks]
    refine mirrors_bind (recases_block exits (h labels body List.mem_cons_self)) fun first => ?_
    refine mirrors_bind (ih fun labels body hm => h labels body (.tail _ hm)) fun _ => ?_
    exact mirrors_pure rfl

theorem recases_guarded (exits : Exits) (hasElse : Bool) {otherwise otherwise' : Compile (List Command)}
    (hotherwise : Recases (List.map Command.upper) otherwise otherwise') {branches : List Guarded}
    (h : ∀ c negate body, Guarded.mk c negate body ∈ branches → ∀ s ∈ body, s.Recased m) :
    Recases (List.map Command.upper) (guarded m exits hasElse otherwise branches)
      (guarded m.upper exits hasElse otherwise' (upperBranches branches)) := by
  induction branches with
  | nil => exact hotherwise
  | cons branch rest ih =>
    obtain ⟨c, negate, body⟩ := branch
    have hempty : (upperBranches rest).isEmpty = rest.isEmpty := by
      cases rest with
      | nil => rfl
      | cons branch rest =>
        obtain ⟨c, negate, body⟩ := branch
        rfl
    rw [upperBranches, upperAll_eq, guarded, guarded, hempty]
    refine mirrors_bind (m.recases_term c) fun c => ?_
    refine mirrors_bind (recases_block exits (h _ negate body List.mem_cons_self)) fun yes => ?_
    split
    · exact mirrors_pure (by simp [Command.upper])
    · refine mirrors_bind (ih fun c negate body hm => h c negate body (.tail _ hm))
        fun no => ?_
      exact mirrors_pure (by simp [Command.upper])

theorem recased (m : MethodContext) (s : Statement) : s.Recased m := by
  induction s using Statement.induct with
    (intro exits
     simp only [upper, upperAll_eq, upperOpt_eq, Option.isSome_map, Option.map_none, Option.map_some, commands])
  | conditional branches otherwise hbranches hotherwise =>
    refine recases_guarded exits _ ?_ hbranches
    cases otherwise <;> exact recases_block exits hotherwise
  | preLoop c isUntil body hbody | countLoop c body hbody =>
    refine mirrors_bind (m.recases_term c) fun c => ?_
    exact mirrors_bind (recases_block .inLoop hbody) fun body => mirrors_pure (by simp [Command.upper])
  | postLoop c isUntil body hbody =>
    refine mirrors_bind (recases_block .inLoop hbody) fun body => ?_
    exact mirrors_bind (m.recases_term c) fun c => mirrors_pure (by simp [Command.upper])
  | forever body hbody =>
    exact mirrors_bind (recases_block .inLoop hbody) fun body => mirrors_pure (by simp [Command.upper])
  | rangeLoop target first last step body hbody =>
    refine mirrors_bind (m.recases_term first) fun first => ?_
    refine mirrors_bind (m.recases_term last) fun last => ?_
    refine mirrors_bind (m.recases_termOpt step) fun step => ?_
    refine mirrors_bind (m.recases_target target) fun found => ?_
    refine mirrors_bind (m.recases_termOpt found.2) fun index => ?_
    refine mirrors_bind (recases_block .inLoop hbody) fun body => mirrors_pure ?_
    cases step <;> simp [Command.upper, Term.upper]
  | forLoop init c step body hinit hstep hbody =>
    refine mirrors_bind (recases_block exits hinit) fun init => ?_
    refine mirrors_bind (m.recases_termOpt c) fun c => ?_
    refine mirrors_bind (recases_block .inLoop hbody) fun body => ?_
    exact mirrors_bind (recases_block .inLoop hstep) fun step => mirrors_pure (by simp [Command.upper])
  | switch value choices otherwise breakable hchoices hotherwise =>
    refine mirrors_bind (m.recases_term value) fun value => ?_
    refine mirrors_bind (m.recases_labels choices) fun labels => ?_
    refine mirrors_bind (g := List.map Command.upper) ?_ fun otherwise => ?_
    · cases otherwise <;> exact recases_block (Command.switchExits exits breakable) hotherwise
    exact mirrors_bind (recases_blocks _ hchoices) fun bodies => mirrors_pure (by simp [Command.upper])
  | leave l | next l =>
    split
    · exact mirrors_pure rfl
    · exact mirrors_throw _ _
  | ret value | abort value =>
    exact mirrors_bind (m.recases_termOpt value) fun value => mirrors_pure rfl
  | assign target op value =>
    exact mirrors_bind (m.recases_assign target op value) fun c => mirrors_pure rfl
  | expression l e => exact mirrors_bind (m.recases_expression l e) fun c => mirrors_pure rfl
  | assembly l lines =>
    exact mirrors_bind (recases_inlineAssembly m.library m.method l lines) fun c => mirrors_pure rfl
  | debug l arguments => exact m.recases_debug l arguments

theorem isReturn_upper (s : Statement) : s.upper.isReturn = s.isReturn := by
  cases s <;> rw [upper] <;> rfl

theorem recases_body (m : MethodContext) (ss : List Statement) :
    Recases (List.map Command.upper) (body m ss) (body m.upper (ss.map upper)) := by
  have hlast : ((ss.map upper).getLast?.map isReturn).getD false =
      (ss.getLast?.map isReturn).getD false := by
    rw [List.getLast?_map, Option.map_map]
    congr 2
    exact funext isReturn_upper
  unfold body
  rw [hlast]
  refine mirrors_bind (recases_block {} fun s _ => s.recased m) fun commands => ?_
  split
  · exact mirrors_pure rfl
  · exact mirrors_pure (by simp [Command.upper])

end Statement

/-! ### Parts of objects -/

/-- The parts of an object with all names in capitals. -/
def Parts.upper (p : Parts) : Parts :=
  { p with dat := p.dat.map AsmLine.upper, methods := p.methods.map MethodDraft.upper }

namespace Node

theorem constantDecls_upper (node : Node) :
    node.upper.constantDecls = node.constantDecls.map ConstantDecl.upper := by
  cases node <;> rw [upper] <;> rfl

theorem objectDecls_upper (node : Node) :
    node.upper.objectDecls = node.objectDecls.map ObjectDecl.upper := by
  cases node <;> rw [upper] <;> rfl

theorem dataLines_upper (node : Node) :
    node.upper.dataLines = node.dataLines.map SourceLine.upper := by
  cases node <;> rw [upper] <;> rfl

theorem methodDecls_upper (node : Node) :
    node.upper.methodDecls = node.methodDecls.map MethodDecl.upper := by
  cases node <;> rw [upper] <;> rfl

/-- What is collected from all parts of an object in capitals. -/
theorem flatMap_upper {f : Node → List α} {g : α → α} (h : ∀ node : Node, f node.upper = (f node).map g)
    (nodes : List Node) : (nodes.map upper).flatMap f = (nodes.flatMap f).map g := by
  rw [List.flatMap_map, List.map_flatMap]
  exact congrArg (List.flatMap · nodes) (funext h)

end Node

namespace Compile

theorem recases_methodBody (config : Config) (library : Library) (m : MethodDraft) (decl : MethodDecl) :
    Recases MethodDraft.upper (methodBody config library m decl)
      (methodBody config library.upper m.upper decl.upper) := by
  refine mirrors_bind (mirrors_modify fun d d' hd => { hd with uses := rfl }) fun _ => ?_
  refine mirrors_bind (Statement.recases_body ⟨config, library, m⟩ decl.body) fun body => ?_
  exact mirrors_get_bind fun d d' hd => mirrors_pure (by rw [hd.uses]; rfl)

theorem recases_methodBodies (config : Config) (library : Library)
    (methods : List (MethodDraft × MethodDecl)) :
    Recases (List.map MethodDraft.upper) (methodBodies config library methods)
      (methodBodies config library.upper
        (methods.map (Prod.map MethodDraft.upper MethodDecl.upper))) := by
  induction methods with
  | nil => exact mirrors_pure rfl
  | cons m rest ih =>
    refine mirrors_bind (recases_methodBody config library m.1 m.2) fun first => ?_
    exact mirrors_bind ih fun rest => mirrors_pure rfl

/-- **The parts of an object** in capitals are its parts, with all names in capitals. -/
theorem recases_parts (config : Config) (library : Library) (nodes : List Node) :
    Recases Parts.upper (parts config library nodes)
      (parts config library.upper (nodes.map Node.upper)) := by
  rw [← Node.upperAll_eq]
  refine mirrors_bind (Node.recases_selectAll nodes) fun nodes => ?_
  simp only [Node.flatMap_upper Node.constantDecls_upper, Node.flatMap_upper Node.objectDecls_upper,
    Node.flatMap_upper Node.dataLines_upper, Node.flatMap_upper Node.methodDecls_upper]
  refine mirrors_bind (recases_attemptAll recases_addConstants _) fun _ => ?_
  refine mirrors_bind (recases_attempt (recases_clock config)) fun clock => ?_
  refine mirrors_bind (recases_attemptAll (recases_addChild library) _) fun _ => ?_
  refine mirrors_bind recases_addExports fun _ => ?_
  refine mirrors_get_bind fun d d' hd => ?_
  rw [hd.links, Links.methodCount_upper]
  refine mirrors_bind (recases_addDeclarations d.links.methodCount nodes) fun methods => ?_
  refine mirrors_bind (recases_convert library objectScope _) fun dat => ?_
  rw [List.zip_map]
  refine mirrors_bind (recases_methodBodies config library _) fun methods => mirrors_pure ?_
  rw [Option.map_id_fun]
  rfl

end Compile

end Propeller
