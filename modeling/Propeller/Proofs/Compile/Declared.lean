import Propeller.Proofs.Compile.Steady
import Propeller.Proofs.Expression.Within

/-!
# Compile — what is declared before the bodies of methods

Everything up to the bodies of methods only binds names: constants, what children make known,
variables, methods and labels.  All of these steps leave the scopes closed, and none of them makes a
block or a descriptor (`Draft.Declared`).

* `Compile.leads_addDeclarations`: the methods that are declared have frames of their own.
* `Compile.leads_convertData`: the lines of assembly code have labels that are there.
* `Compile.Stages`: the stages of compiling the parts of an object, with the draft that each of them leaves.
-/

namespace Propeller

variable {scope parent : ScopeId} {value : Expression} {d : Draft} {library : Library}

/-! ### Steps that bind names -/

/-- The names that a declaration of constants binds. -/
def ConstantDecl.names : ConstantDecl → List Identifier
  | assign name _         => [name.value]
  | enumeration _ _ items => items.map (·.name.value)

/-- The names that the declaration of a method binds, in the object and in the method. -/
def MethodDecl.names (decl : MethodDecl) : List Identifier :=
  decl.name.value :: ((decl.results ++ decl.parameters).map Located.value ++
    decl.locals.map (·.name.value))

namespace Node

mutual

/-- The names that a part of an object declares, without labels that belong to a section of it. -/
def names : Node → List Identifier
  | constants decls       => decls.flatMap ConstantDecl.names
  | objectVars decls      => decls.map (·.name.value)
  | objects decls         => decls.map (·.name.value)
  | data lines            => lines.filterMap SourceLine.globalLabel?
  | method decl           => decl.names
  | define name _         => [name.value]
  | ifDefined _ _ yes no  => namesAll yes ++ namesAll no

/-- The names that several parts of an object declare. -/
def namesAll : List Node → List Identifier
  | []            => []
  | node :: nodes => node.names ++ namesAll nodes

end

open Compile

variable {P : Draft → Prop}

mutual

/-- Parts of an object are selected by definitions, and only definitions are made on the way. -/
theorem keeps_select [Enduring P] : (node : Node) →
    (∀ x ∈ node.names, ∀ tokens d, P d →
      P { d with scopes := d.scopes.addDefinition objectScope x tokens }) → Keeps P node.select
  | .define name tokens, h => by
    rw [select]
    refine keeps_bind keeps_get fun seen => ?_
    have hdefine : Keeps P (do
        modify fun d => { d with scopes := d.scopes.addDefinition objectScope name.value tokens }
        return ([] : List Node)) :=
      leads_bind (leads_modify (Q := fun _ => P) fun d hd =>
        h name.value (List.mem_singleton_self _) tokens d hd) fun _ => keeps_pure _
    split
    · exact keeps_bind (keeps_warn _ _) fun _ => hdefine
    · exact hdefine
  | .ifDefined name negate yes no, h => by
    rw [select]
    refine keeps_bind keeps_get fun seen => ?_
    split
    · exact keeps_selectAll yes fun x hx => h x (List.mem_append_left _ hx)
    · exact keeps_selectAll no fun x hx => h x (List.mem_append_right _ hx)
  | .constants _, _ | .objectVars _, _ | .objects _, _ | .data _, _ | .method _, _ => keeps_pure _

theorem keeps_selectAll [Enduring P] : (nodes : List Node) →
    (∀ x ∈ namesAll nodes, ∀ tokens d, P d →
      P { d with scopes := d.scopes.addDefinition objectScope x tokens }) → Keeps P (selectAll nodes)
  | [], _ => keeps_pure _
  | node :: nodes, h =>
    keeps_bind (keeps_select node fun x hx => h x (List.mem_append_left _ hx)) fun _ =>
      keeps_bind (keeps_selectAll nodes fun x hx => h x (List.mem_append_right _ hx)) fun _ =>
        keeps_pure _

end

end Node

namespace Compile

variable {P : Draft → Prop}

theorem keeps_clock (h : ∀ setting, Keeps P (publishClock setting)) (config : Config) :
    Keeps P (clock config) := by
  refine keeps_bind keeps_get fun seen => keeps_bind (keeps_liftExcept _) fun request => ?_
  split
  · exact keeps_bind (h _) fun _ => keeps_pure _
  · split
    · exact leads_throw fun _ h => h
    · exact keeps_bind (h _) fun _ => keeps_pure _

theorem keeps_addLongs {longs : List (Located Identifier)}
    (hcount : ∀ d, P d → P { d with localCount := d.localCount + 1 })
    (h : ∀ name ∈ longs, ∀ v, Keeps P (define scope name (.localVar v))) (offset : Nat) :
    Keeps P (addLongs scope offset longs) := by
  induction longs generalizing offset with
  | nil => exact keeps_pure _
  | cons name names ih =>
    rw [List.forall_mem_cons] at h
    refine keeps_bind (leads_modifyGet hcount) fun _ => keeps_bind (h.1 _) fun _ => ?_
    exact keeps_bind (ih h.2 _) fun _ => keeps_pure _

theorem keeps_addLocals [Enduring P] {decls : List LocalDecl}
    (hcount : ∀ d, P d → P { d with localCount := d.localCount + 1 })
    (h : ∀ decl ∈ decls, ∀ v, Keeps P (define scope decl.name (.localVar v))) (offset : Nat) :
    Keeps P (addLocals scope offset decls) := by
  induction decls generalizing offset with
  | nil => exact keeps_pure _
  | cons decl decls ih =>
    rw [List.forall_mem_cons] at h
    refine keeps_bind (keeps_attempt (steady_elementCount _).keeps) fun _ => ?_
    refine keeps_bind (leads_modifyGet hcount) fun _ => keeps_bind (h.1 _) fun _ => ?_
    exact keeps_bind (ih h.2 _) fun _ => keeps_pure _

end Compile

/-! ### Closed scopes -/

/-- A draft in which only names have been bound: everything that is bound is within the scopes, of
which there are at least `scopes` frames, and there are at least `labels` labels. -/
structure Draft.Declared (scopes labels : Nat) (d : Draft) : Prop where
  within : d.scopes.Within d.addresses.table.size
  scopes_le : scopes ≤ d.scopes.frames.size
  labels_le : labels ≤ d.addresses.table.size
  blocks_eq : d.blocks = []
  records_eq : d.debug.records = []

namespace Draft.Declared

variable {n k : Nat} {d : Draft}

theorem mono {n' k' : Nat} (hn : n' ≤ n) (hk : k' ≤ k) (h : d.Declared n k) : d.Declared n' k' :=
  { h with scopes_le := Nat.le_trans hn h.scopes_le, labels_le := Nat.le_trans hk h.labels_le }

/-- A draft has as many frames and labels as it has. -/
theorem exact (h : d.Declared n k) : d.Declared d.scopes.frames.size d.addresses.table.size :=
  { h with scopes_le := Nat.le_refl _, labels_le := Nat.le_refl _ }

theorem lt_scopes (h : d.Declared n k) (hs : scope < n) : scope < d.scopes.frames.size :=
  Nat.lt_of_lt_of_le hs h.scopes_le

/-- A frame is changed in what it binds. -/
theorem modifyFrame (h : d.Declared n k) (scope : ScopeId) {f : Frame → Frame}
    (hf : ∀ own frame, frame.Within d.scopes.frames.size d.addresses.table.size own →
      (f frame).Within d.scopes.frames.size d.addresses.table.size own) :
    Draft.Declared n k { d with scopes := d.scopes.modifyFrame scope f } where
  within := by
    intro i frame hi
    simp only [Scopes.modifyFrame, Array.getElem?_modify, Array.size_modify] at hi ⊢
    split at hi
    · obtain ⟨old, hold, rfl⟩ := Option.map_eq_some_iff.mp hi
      exact hf i old (h.within i old hold)
    · exact h.within i frame hi
  scopes_le := by simpa [Scopes.modifyFrame] using h.scopes_le
  labels_le := h.labels_le
  blocks_eq := h.blocks_eq
  records_eq := h.records_eq

/-- A symbol is bound to what is within the scopes. -/
theorem addSymbol (h : d.Declared n k) (scope : ScopeId) (name : Identifier)
    (hv : value.Within d.scopes.frames.size d.addresses.table.size) :
    Draft.Declared n k { d with scopes := d.scopes.addSymbol scope name value } :=
  h.modifyFrame scope fun _ _ hf => { hf with
    symbols := fun b hb => by
      rcases List.mem_cons.mp hb with rfl | hb
      · exact hv
      · exact hf.symbols b hb }

theorem addBuiltin (h : d.Declared n k) (scope : ScopeId) (name : Identifier)
    (hv : value.Within d.scopes.frames.size d.addresses.table.size) :
    Draft.Declared n k { d with scopes := d.scopes.addBuiltin scope name value } :=
  h.modifyFrame scope fun _ _ hf => { hf with
    builtins := fun b hb => by
      rcases List.mem_cons.mp hb with rfl | hb
      · exact hv
      · exact hf.builtins b hb }

/-- A definition of one token may be a name in its frame. -/
theorem addDefinition (h : d.Declared n k) (hs : scope < n) (name : Identifier) (tokens : List String) :
    Draft.Declared n k { d with scopes := d.scopes.addDefinition scope name tokens } :=
  h.modifyFrame scope fun _ _ hf => { hf with
    definitions := fun b hb e he => by
      rcases List.mem_cons.mp hb with rfl | hb
      · unfold Scopes.definitionOf at he
        split at he
        · split at he
          · cases he
            trivial
          · cases he
            exact h.lt_scopes hs
        · cases he
      · exact hf.definitions b hb e he }

/-- A frame is opened in one that is there. -/
theorem push (h : d.Declared n k) (hp : parent < n) :
    Draft.Declared (d.scopes.nextScope + 1) k { d with scopes := d.scopes.push parent } where
  within := by
    intro i frame hi
    simp only [Scopes.push, Array.getElem?_push, Array.size_push] at hi ⊢
    split at hi
    · next he =>
      cases hi
      exact .child (he ▸ h.lt_scopes hp)
    · exact (h.within i frame hi).mono (Nat.le_succ _) (Nat.le_refl _)
  scopes_le := by simp [Scopes.push, Scopes.nextScope]
  labels_le := h.labels_le
  blocks_eq := h.blocks_eq
  records_eq := h.records_eq

/-- A label is added. -/
theorem alloc (h : d.Declared n k) :
    Draft.Declared n (d.addresses.nextLabel + 1) { d with addresses := d.addresses.alloc } where
  within := by
    intro i frame hi
    refine (h.within i frame hi).mono (Nat.le_refl _) ?_
    simp [Addresses.alloc]
  scopes_le := h.scopes_le
  labels_le := by simp [Addresses.alloc, Addresses.nextLabel]
  blocks_eq := h.blocks_eq
  records_eq := h.records_eq

/-- Before anything is declared there are the outermost frame and that of the object. -/
theorem initial (unitName : String) : (Draft.initial unitName).Declared (objectScope + 1) 0 where
  within := by
    intro i frame hi
    match i with
    | 0 =>
      obtain rfl : Scopes.rootFrame = frame := Option.some.inj hi
      exact Scopes.rootFrame_within _ _ _
    | 1 =>
      obtain rfl : { parent := some Scopes.root } = frame := Option.some.inj hi
      exact .child Nat.zero_lt_one
    | i + 2 => cases hi
  scopes_le := Nat.le_refl _
  labels_le := Nat.le_refl _
  blocks_eq := rfl
  records_eq := rfl

end Draft.Declared

namespace Compile

variable {α β : Type} {n k : Nat}

/-! ### Steps -/

instance : Enduring (Draft.Declared n k) := ⟨fun _ _ _ h => { h with }⟩

/-- A frame that is opened in one that is there is there itself. -/
theorem declared_pushScope (hp : parent < n) :
    Leads (Draft.Declared n k) (pushScope parent)
      (fun scope d => d.Declared (max n (scope + 1)) k) (Draft.Declared n k) := by
  refine leads_modifyGet fun d h => ?_
  have hmax : max n (d.scopes.nextScope + 1) = d.scopes.nextScope + 1 :=
    Nat.max_eq_right (Nat.le_succ_of_le h.scopes_le)
  simp only [hmax]
  exact h.push hp

/-- A name is bound to what is within the first frames and labels. -/
theorem declared_define (scope : ScopeId) (name : Located Identifier) (hv : value.Within n k) :
    Keeps (Draft.Declared n k) (define scope name value) :=
  keeps_define fun _ h => h.addSymbol scope name.value (hv.mono h.scopes_le h.labels_le)

/-- A constant expression is within the scopes that it was made in. -/
theorem declared_lower {f : Expression → Compile β} (hn : objectScope < n) (e : Expr)
    (hf : ∀ n' k' v, n ≤ n' → k ≤ k' → v.Within n' k' → Keeps (Draft.Declared n' k') (f v)) :
    Keeps (Draft.Declared n k) (lower e >>= f) := by
  rw [lower, bind_assoc]
  refine leads_seen fun d h => ?_
  refine leads_bind (Q := fun v x => x = d ∧ e.lower d.scopes objectScope = .ok v)
    (leads_liftExcept (fun v _ hv hx => ⟨hx, hv⟩) fun _ hx => hx ▸ h) fun v =>
      leads_of_and fun hv => ?_
  have hwithin := Expr.lower_within h.within (h.lt_scopes hn) hv
  have back := fun (x : Draft) (hx : x.Declared d.scopes.frames.size d.addresses.table.size) =>
    hx.mono h.scopes_le h.labels_le
  exact (hf _ _ v h.scopes_le h.labels_le hwithin).weaken (fun x hx => hx ▸ h.exact) (fun _ => back) back

end Compile

namespace Compile

variable {n k : Nat}

/-! ### Selection, constants and the clock -/

theorem declared_selectAll (hn : objectScope < n) (nodes : List Node) :
    Keeps (Draft.Declared n k) (Node.selectAll nodes) :=
  Node.keeps_selectAll nodes fun x _ tokens _ h => h.addDefinition hn x tokens

theorem declared_addConstant (name : Located Identifier) (hv : value.Within n k) :
    Keeps (Draft.Declared n k) (addConstant name value) :=
  keeps_bind (declared_define objectScope name hv) fun _ => leads_modify fun _ h => { h with }

theorem declared_enumerate (hn : objectScope < n) {step : Expression} (hs : step.Within n k)
    (items : List EnumItem) {current : Expression} (hc : current.Within n k) :
    Keeps (Draft.Declared n k) (enumerate step current items) := by
  induction items generalizing n k current with
  | nil => exact keeps_pure ()
  | cons item items ih =>
    rw [enumerate]
    refine keeps_bind (declared_addConstant item.name hc) fun _ => ?_
    cases item.step with
    | none => exact ih hn hs ⟨hc, hs⟩
    | some e =>
      refine declared_lower hn e fun n' k' v hn' hk' hv => ?_
      exact ih (Nat.lt_of_lt_of_le hn hn') (hs.mono hn' hk') ⟨hc.mono hn' hk', hv⟩

/-- A constant expression that may be missing. -/
theorem declared_lowerOr {β : Type} {f : Expression → Compile β} (hn : objectScope < n)
    (default : Int64) (e : Option Expr)
    (hf : ∀ n' k' v, n ≤ n' → k ≤ k' → v.Within n' k' → Keeps (Draft.Declared n' k') (f v)) :
    Keeps (Draft.Declared n k) (lowerOr default e >>= f) := by
  cases e with
  | none => exact hf n k _ (Nat.le_refl _) (Nat.le_refl _) trivial
  | some e => exact declared_lower hn e hf

theorem declared_addConstants (hn : objectScope < n) (decl : ConstantDecl) :
    Keeps (Draft.Declared n k) (addConstants decl) := by
  cases decl with
  | assign name value => exact declared_lower hn value fun _ _ _ _ _ hv => declared_addConstant name hv
  | enumeration start step items =>
    refine declared_lowerOr hn 0 start fun n₁ k₁ first hn₁ hk₁ hfirst => ?_
    have hobject := Nat.lt_of_lt_of_le hn hn₁
    refine declared_lowerOr hobject 1 step fun n₂ k₂ increment hn₂ hk₂ hincrement => ?_
    exact declared_enumerate (Nat.lt_of_lt_of_le hobject hn₂) hincrement items
      (hfirst.mono hn₂ hk₂)

theorem declared_publishClock (setting : ClockSetting) :
    Keeps (Draft.Declared n k) (publishClock setting) := by
  refine leads_modify fun _ h => (h.addBuiltin objectScope _ ?_).addBuiltin objectScope _ ?_
  · trivial
  · trivial

/-! ### Children -/

theorem declared_addChild (library : Library) (decl : ObjectDecl) :
    Keeps (Draft.Declared n k) (addChild library decl) :=
  (steady_addChild (fun _ _ h => { h with }) library decl).keeps

/-- Children make methods and numbers known. -/
theorem exportsFrom_within (children : List ChildLink) (first : Nat) :
    ∀ b ∈ Links.exportsFrom first children, b.2.Within n k := by
  induction children generalizing first with
  | nil => simp [Links.exportsFrom]
  | cons c cs ih =>
    intro b hb
    simp only [Links.exportsFrom, Links.exportsOf, List.mem_append, List.mem_map] at hb
    rcases hb with (⟨method, -, rfl⟩ | ⟨constant, -, rfl⟩) | hb
    · trivial
    · trivial
    · exact ih _ b hb

theorem addSymbols_declared {exports : List (Identifier × Expression)}
    (he : ∀ b ∈ exports, b.2.Within n k) (h : d.Declared n k) :
    Draft.Declared n k { d with scopes := (Scopes.addSymbols objectScope exports d.scopes).1 } := by
  induction exports generalizing d with
  | nil => exact h
  | cons b rest ih =>
    have hb := he b (.head _)
    exact ih (fun c hc => he c (.tail _ hc))
      (h.addSymbol objectScope b.1 (hb.mono h.scopes_le h.labels_le))

theorem declared_addExports : Keeps (Draft.Declared n k) addExports := by
  refine leads_seen fun d h => ?_
  refine leads_bind (Q := fun _ => Draft.Declared n k) (fun _ _ => ?_) fun _ => keeps_warnAll _
  exact addSymbols_declared (exportsFrom_within _ 0) h

/-! ### Variables and methods -/

theorem declared_addVariable (decl : VariableDecl) :
    Keeps (Draft.Declared n k) (addVariable decl) := by
  refine keeps_bind (steady_elementCount _).keeps fun _ => keeps_bind keeps_get fun _ => ?_
  exact keeps_bind (declared_define _ _ trivial) fun _ => leads_modify fun _ h => { h with }

theorem declared_localVar (scope : ScopeId) (name : Located Identifier) (v : LocalVar) :
    Keeps (Draft.Declared n k) (define scope name (.localVar v)) :=
  declared_define scope name trivial

/-- A method is declared with a frame that is there. -/
theorem declared_addMethod (hn : objectScope < n) (id : Nat) (decl : MethodDecl) :
    Leads (Draft.Declared n k) (addMethod id decl) (fun m d => d.Declared (max n (m.scope + 1)) k)
      (Draft.Declared n k) := by
  refine leads_bind (declared_define _ _ trivial) fun _ => ?_
  refine leads_bind (declared_pushScope hn) fun scope => ?_
  have back := fun (d : Draft) (h : d.Declared (max n (scope + 1)) k) => h.mono (Nat.le_max_left ..) (Nat.le_refl k)
  have hcount : ∀ d : Draft, d.Declared (max n (scope + 1)) k →
      Draft.Declared (max n (scope + 1)) k { d with localCount := d.localCount + 1 } := fun _ h => { h with }
  refine leads_bind ((keeps_addLongs hcount (fun _ _ => declared_localVar scope _) 0).weaken (fun _ h => h)
    (fun _ _ h => h) back) fun _ => ?_
  refine leads_bind ((keeps_addLocals hcount (fun _ _ => declared_localVar scope _) _).weaken (fun _ h => h)
    (fun _ _ h => h) back) fun _ => ?_
  exact leads_pure fun _ h => h

/-- **The methods that are declared** have frames of their own. -/
theorem leads_addDeclarations (hn : objectScope < n) (nodes : List Node) (first : Nat) :
    Leads (Draft.Declared n k) (addDeclarations first nodes)
      (fun methods d => d.Declared n k ∧ ∀ m ∈ methods, m.scope < d.scopes.frames.size)
      (Draft.Declared n k) := by
  induction nodes generalizing n first with
  | nil => exact leads_pure fun _ h => ⟨h, by simp⟩
  | cons node rest ih =>
    cases node with
    | objectVars decls =>
      exact leads_bind (keeps_attemptAll fun decl _ => declared_addVariable decl) fun _ => ih hn first
    | method decl =>
      refine leads_bind (declared_addMethod hn first decl) fun m => ?_
      have hle := Nat.le_max_left n (m.scope + 1)
      refine leads_bind ((ih (Nat.lt_of_lt_of_le hn hle) (first + 1)).weaken (fun _ h => h)
        (fun _ _ h => h) fun _ h => h.mono hle (Nat.le_refl k)) fun ms => ?_
      refine leads_pure fun d h => ⟨h.1.mono hle (Nat.le_refl k), ?_⟩
      intro other hother
      rcases List.mem_cons.mp hother with rfl | hother
      · exact Nat.lt_of_lt_of_le (Nat.le_max_right n _) h.1.scopes_le
      · exact h.2 other hother
    | _ => exact ih hn first

/-! ### Assembly code -/

theorem declared_labelled (hs : scope < n) (current : ScopeId) (line : SourceLine)
    (name : Located Identifier) (h : d.Declared n k) :
    (labelled scope current line name d).Declared n k := by
  have hsection : Draft.Declared n k { d with scopes := openSection scope line d.scopes } := by
    unfold openSection
    split
    · exact (h.push hs).mono (Nat.le_succ_of_le h.scopes_le) (Nat.le_refl k)
    · exact h
  have halloc := hsection.alloc
  have hlabel : (Expression.label d.addresses.nextLabel).Within (openSection scope line d.scopes).frames.size
      d.addresses.alloc.table.size := halloc.labels_le
  have hbound := halloc.addSymbol (homeOf scope current name.value) name.value hlabel
  exact { hbound.mono (Nat.le_refl n) (Nat.le_succ_of_le h.labels_le) with }

theorem declared_bindLabels (hs : scope < n) (current : ScopeId) (lines : List SourceLine) :
    Leads (Draft.Declared n k) (bindLabels scope current lines)
      (fun bound d => d.Declared n k ∧ ∃ first, List.Forall₂ (Binds first d.addresses.table.size) lines bound)
      (Draft.Declared n k) := by
  intro d h
  obtain ⟨bound, _, d', hrun, hd', -, hbound, -⟩ := bindLabels_eq_ok (I := fun _ => Draft.Declared n k)
    (fun line _ name _ current _ h => declared_labelled hs current line name h) h
  rw [hrun]
  exact ⟨hd', _, hbound⟩

/-- No directive aligns to zero bytes. -/
theorem content_ne_align {s : Scopes} {line : SourceLine} {content : Content}
    (h : line.content library s scope = .ok content) : content ≠ .align 0 := by
  rintro rfl
  unfold SourceLine.content at h
  split at h
  · cases h
  · split at h
    · obtain ⟨_, -, h⟩ := Propeller.bind_eq_ok h
      obtain ⟨_, -, h⟩ := Propeller.bind_eq_ok h
      obtain ⟨_, -, h⟩ := Propeller.bind_eq_ok h
      obtain ⟨_, -, h⟩ := Propeller.bind_eq_ok h
      obtain ⟨_, -, h⟩ := Propeller.bind_eq_ok h
      cases h
    · split at h
      · cases h
      · next directive _ _ =>
        cases directive with
        | data kind =>
          obtain ⟨_, -, h⟩ := Propeller.bind_eq_ok h
          cases h
        | file =>
          simp only [SourceLine.directiveContent] at h
          split at h
          · split at h
            · cases h
            · cases h
          · cases h
        | alignw | alignl => cases h
        | res | org | orgh | fit =>
          obtain ⟨_, -, h⟩ := Propeller.bind_eq_ok h
          cases h
        | orgf =>
          obtain ⟨_, -, h⟩ := Propeller.bind_eq_ok h
          split at h
          · cases h
          · cases h

/-- A line of assembly code that a written line was converted to. -/
structure Converts (labels : Nat) (source : SourceLine) (line : AsmLine) : Prop where
  location_eq : line.location = source.location
  label_isSome : line.label.isSome = source.label.isSome
  label_lt : ∀ l, line.label = some l → l < labels
  content_ne : line.content ≠ .align 0

/-- Every line is converted, unless an error is reported. -/
theorem declared_convertLines (library : Library) {first labels : Nat} {lines : List SourceLine}
    {bound : List BoundLine} (hb : List.Forall₂ (Binds first labels) lines bound) :
    Leads (Draft.Declared n k) (convertLines library bound)
      (fun converted d => d.Declared n k ∧
        (d.report.hasErrors = true ∨ List.Forall₂ (Converts labels) lines converted))
      (Draft.Declared n k) := by
  intro d hd
  have hkeeps := keeps_convertLines library bound d hd
  obtain ⟨errors, hrun, -⟩ := convertLines_eq library bound d
  have hall := convertLines_forall₂ hrun
  rw [hrun] at hkeeps ⊢
  refine ⟨hkeeps, (Bool.eq_false_or_eq_true _).imp id fun hnone => ?_⟩
  have hbefore := Report.hasErrors_of_prefix (Report.entries_extend d.report errors ▸ List.prefix_append ..) hnone
  have he := (Report.errors_eq_nil hnone).trans (Report.errors_eq_nil hbefore).symm
  refine forall₂_comp hb (hall he) fun source entry line hentry hline => ?_
  obtain ⟨content, hcontent, rfl⟩ := asmLine?_eq_some hline
  exact ⟨congrArg SourceLine.location hentry.line_eq, hentry.label_isSome,
    fun l hl => (hentry.label_new l hl).2, content_ne_align hcontent⟩

/-- **The lines of assembly code of an object.**  Unless an error is reported there is one for each
written line, with a label that is there if one was written. -/
theorem leads_convertData (library : Library) (hs : scope < n) (lines : List SourceLine) :
    Leads (Draft.Declared n k) (convert library scope lines)
      (fun converted d => d.Declared n k ∧ (d.report.hasErrors = true ∨
        List.Forall₂ (Converts d.addresses.table.size) lines converted))
      (Draft.Declared n k) := by
  refine leads_bind (declared_pushScope hs) fun first => ?_
  have hn := Nat.le_max_left n (first + 1)
  have back := fun (d : Draft) (h : d.Declared (max n (first + 1)) k) => h.mono hn (Nat.le_refl k)
  refine leads_bind ((declared_bindLabels (Nat.lt_of_lt_of_le hs hn) first lines).weaken
    (fun _ h => h) (fun _ _ h => h) back) fun bound => ?_
  refine leads_point fun d ⟨h, _, hbound⟩ => ?_
  have back := fun (x : Draft) (hx : x.Declared d.scopes.frames.size d.addresses.table.size) =>
    back x (hx.mono h.scopes_le h.labels_le)
  refine (declared_convertLines library hbound).weaken (fun x hx => hx ▸ h.exact) ?_ back
  intro converted x hx
  refine ⟨back x hx.1, hx.2.imp id fun hall => hall.imp fun source line hline => ?_⟩
  exact { hline with label_lt := fun l hl => Nat.lt_of_lt_of_le (hline.label_lt l hl) hx.1.labels_le }

/-- The stages of compiling the parts of an object, with the draft that each of them leaves. -/
structure Stages (config : Config) (library : Library) (nodes : List Node) (unitName : String)
    (p : Parts) (last : Draft) where
  selected : List Node
  methods : List MethodDraft
  setting : Option (Option ClockSetting)
  /-- The drafts behind selection, constants, clock, children, their exports, declarations and data. -/
  (selection constants clock children exports declarations data : Draft)
  selection_eq : Node.selectAll nodes (Draft.initial unitName) = .ok selected selection
  constants_eq :
    attemptAll addConstants (selected.flatMap Node.constantDecls) selection = .ok () constants
  clock_eq : attempt (Compile.clock config) constants = .ok setting clock
  children_eq : attemptAll (addChild library) (selected.flatMap Node.objectDecls) clock =
    .ok () children
  exports_eq : addExports children = .ok () exports
  declarations_eq : addDeclarations exports.links.methodCount selected exports =
    .ok methods declarations
  data_eq : convert library objectScope (selected.flatMap Node.dataLines) declarations =
    .ok p.dat data
  bodies_eq : methodBodies config library (methods.zip (selected.flatMap Node.methodDecls)) data =
    .ok p.methods last

theorem parts_stages {config : Config} {nodes : List Node} {unitName : String} {p : Parts}
    (h : parts config library nodes (Draft.initial unitName) = .ok p d) :
    Nonempty (Stages config library nodes unitName p d) := by
  obtain ⟨selected, d₁, hselect, h⟩ := bind_eq_ok h
  obtain ⟨⟨⟩, d₂, hconstants, h⟩ := bind_eq_ok h
  obtain ⟨setting, d₃, hclock, h⟩ := bind_eq_ok h
  obtain ⟨⟨⟩, d₄, hchildren, h⟩ := bind_eq_ok h
  obtain ⟨⟨⟩, d₅, hexports, h⟩ := bind_eq_ok h
  obtain ⟨_, _, hget, h⟩ := bind_eq_ok h
  cases hget
  obtain ⟨methods, d₆, hmethods, h⟩ := bind_eq_ok h
  obtain ⟨dat, d₇, hdat, h⟩ := bind_eq_ok h
  obtain ⟨compiled, d₈, hbodies, h⟩ := bind_eq_ok h
  cases h
  exact ⟨⟨selected, methods, setting, d₁, d₂, d₃, d₄, d₅, d₆, d₇, hselect, hconstants, hclock,
    hchildren, hexports, hmethods, hdat, hbodies⟩⟩

namespace Stages

variable {config : Config} {nodes : List Node} {unitName : String} {p : Parts} {last : Draft} {m : MethodDraft}
  (t : Stages config library nodes unitName p last)

theorem declared_clock : t.clock.Declared (objectScope + 1) 0 := by
  have hn : objectScope < objectScope + 1 := Nat.lt_succ_self _
  have h₁ := (declared_selectAll hn nodes).of_ok (.initial unitName) t.selection_eq
  have h₂ := (keeps_attemptAll fun decl _ => declared_addConstants hn decl).of_ok h₁ t.constants_eq
  exact (keeps_attempt (keeps_clock declared_publishClock config)).of_ok h₂ t.clock_eq

theorem declared_children : t.children.Declared (objectScope + 1) 0 :=
  (keeps_attemptAll fun decl _ => declared_addChild library decl).of_ok t.declared_clock t.children_eq

theorem declared_exports : t.exports.Declared (objectScope + 1) 0 :=
  declared_addExports.of_ok t.declared_children t.exports_eq

theorem declared_declarations : t.declarations.Declared (objectScope + 1) 0 :=
  ((leads_addDeclarations (Nat.lt_succ_self _) t.selected _).of_ok t.declared_exports
    t.declarations_eq).1

theorem scope_lt_declarations (hm : m ∈ t.methods) : m.scope < t.declarations.scopes.frames.size :=
  ((leads_addDeclarations (Nat.lt_succ_self _) t.selected _).of_ok t.declared_exports
    t.declarations_eq).2 m hm

/-- **The lines of assembly code of an object** are converted, unless an error is reported, and the bodies of
methods start from a draft in which everything is declared. -/
theorem data_converts : t.data.Declared (objectScope + 1) 0 ∧ (t.data.report.hasErrors = true ∨
    List.Forall₂ (Converts t.data.addresses.table.size) (t.selected.flatMap Node.dataLines) p.dat) := by
  have hobject := t.declared_declarations.lt_scopes (Nat.lt_succ_self _)
  have h := (leads_convertData library hobject _).of_ok t.declared_declarations.exact t.data_eq
  exact ⟨h.1.mono t.declared_declarations.scopes_le (Nat.zero_le _), h.2⟩

theorem declared_data : t.data.Declared (objectScope + 1) 0 := t.data_converts.1

end Stages

end Compile

end Propeller
