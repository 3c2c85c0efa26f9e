import Mathlib.Data.List.Pairwise
import Propeller.Proofs.Compile.Defines
import Propeller.Proofs.Compile.Removal

/-!
# Compile — methods in another order

If the methods of an object stand in another order, then methods, variables and labels get other numbers,
and symbols lie elsewhere in their frames.  What a name stands for stays the same otherwise, so that the
methods call each other as before, and the same ones are left out.

* `Expression.Similar`, `Scopes.Similar`: the same up to numbers.
* `Compile.Reshuffled`: two compilations of the same declarations, with the methods in another order, that
  have names of their own.
* `Compile.Reshuffled.similar`, `Compile.Reshuffled.similar_names`: names mean the same in both.
* `Compile.Reshuffled.calls_of_calls`, `Compile.Reshuffled.removedNames_perm`: the methods call each other
  alike, and the same ones are left out.
-/

namespace Propeller

variable {x : Identifier} {m m' : MethodDraft} {decl : MethodDecl}

/-! ### Looking up in bindings -/

theorem lookup_isSome {α : Type} (bs : Bindings α) (x : Identifier) :
    (bs.lookup x).isSome = (bs.map Prod.fst).any (x == ·) := by
  induction bs with
  | nil => rfl
  | cons b bs ih =>
    rw [List.lookup_cons, List.map_cons, List.any_cons]
    cases x == b.1 with
    | true => rfl
    | false => rw [ih, Bool.false_or]

/-- Names are found in two lists of bindings alike, if they are bound in both or in none. -/
theorem rel_lookup {α β : Type} {R : α → β → Prop} {bs : Bindings α} {bs' : Bindings β}
    (hsome : (bs.lookup x).isSome = (bs'.lookup x).isSome)
    (hrel : ∀ b ∈ bs, ∀ b' ∈ bs', (x == b.1) = true → (x == b'.1) = true → R b.2 b'.2) :
    Option.Rel R (bs.lookup x) (bs'.lookup x) := by
  cases h : bs.lookup x with
  | none =>
    rw [h, Option.isSome_none, eq_comm, Option.isSome_eq_false_iff, Option.isNone_iff_eq_none] at hsome
    rw [hsome]
    exact .none
  | some a =>
    rw [h, Option.isSome_some, eq_comm] at hsome
    obtain ⟨a', ha'⟩ := Option.isSome_iff_exists.mp hsome
    obtain ⟨b, hb, hname, rfl⟩ := mem_of_lookup h
    obtain ⟨b', hb', hname', rfl⟩ := mem_of_lookup ha'
    rw [ha']
    exact .some (hrel b hb b' hb' hname hname')

/-- Symbols that are added to a frame come behind what is predefined and before what was there. -/
theorem Frame.symbol?_withSymbols (f : Frame) (new : Bindings Expression) (x : Identifier) :
    Frame.symbol? { f with symbols := new ++ f.symbols } x =
      if (f.builtins.lookup x).isSome then f.symbol? x else (new.lookup x).or (f.symbol? x) := by
  rw [Frame.symbol?_or, f.symbol?_or, List.lookup_append]
  cases f.builtins.lookup x with
  | some v => rfl
  | none => simp [Option.or_assoc]

/-! ### Expressions that differ in nothing but numbers -/

/-- Expressions that stand for the same, up to the numbers of methods, variables and labels.  Methods of
the object are in a relation, and symbols belong to one of the first frames. -/
inductive Expression.Similar (scopes : Nat) (R : Method → Method → Prop) :
    Expression → Expression → Prop where
  | same {e : Expression} (linked : ∀ m, e = .method m → m.link.isSome = true)
      (within : ∀ scope x, e = .symbol scope x → scope < scopes) : Similar scopes R e e
  | method {m m' : Method} (h : R m m') : Similar scopes R (.method m) (.method m')
  | objectVar (v v' : ObjectVar) : Similar scopes R (.objectVar v) (.objectVar v')
  | localVar (v v' : LocalVar) : Similar scopes R (.localVar v) (.localVar v')
  | label (l l' : LabelId) : Similar scopes R (.label l) (.label l')

theorem rel_bind {α β γ δ : Type} {R : α → β → Prop} {Q : γ → δ → Prop} {a : Option α} {b : Option β}
    {f : α → Option γ} {g : β → Option δ} (h : Option.Rel R a b)
    (hf : ∀ x y, R x y → Option.Rel Q (f x) (g y)) : Option.Rel Q (a.bind f) (b.bind g) := by
  cases h with
  | none => exact .none
  | some h => exact hf _ _ h

theorem rel_or {α β : Type} {R : α → β → Prop} {a a' : Option α} {b b' : Option β}
    (h : Option.Rel R a b) (h' : Option.Rel R a' b') : Option.Rel R (a.or a') (b.or b') := by
  cases h with
  | none => exact h'
  | some h => exact .some h

namespace Scopes

variable {scopes : Nat} {R : Method → Method → Prop} {s s' : Scopes}

/-- Names mean the same in the first frames. -/
def Similar (scopes : Nat) (R : Method → Method → Prop) (s s' : Scopes) : Prop :=
  ∀ i < scopes, ∀ x, Option.Rel (Expression.Similar scopes R) (s.symbol? i x) (s'.symbol? i x)

theorem Similar.follow (h : Similar scopes R s s') {e e' : Expression} (he : e.Similar scopes R e')
    (steps : Nat) : Option.Rel (Expression.Similar scopes R) (s.follow steps e) (s'.follow steps e') := by
  induction steps generalizing e e' with
  | zero => exact .some he
  | succ steps ih =>
    cases he with
    | same linked within =>
      cases e with
      | symbol scope x =>
        exact rel_bind (h scope (within scope x rfl) x) fun v v' hv => ih hv
      | _ => exact .some (.same linked within)
    | method hm => exact .some (.method hm)
    | objectVar v v' => exact .some (.objectVar v v')
    | localVar v v' => exact .some (.localVar v v')
    | label l l' => exact .some (.label l l')

/-- What a name stands for through other names is similar if what it stands for itself is. -/
theorem Similar.resolve (h : Similar scopes R s s') {i i' : ScopeId}
    (hx : Option.Rel (Expression.Similar scopes R) (s.symbol? i x) (s'.symbol? i' x)) :
    Option.Rel (Expression.Similar scopes R) (s.resolve i x) (s'.resolve i' x) := by
  exact rel_bind hx fun v v' hv => h.follow hv _

end Scopes

namespace Parts

variable {config : Config} {p : Parts}

end Parts

/-! ### Two orders of the same declarations -/

namespace Compile

variable {config : Config} {library : Library} {nodes nodes' : List Node} {unitName : String}
  {p p' : Parts} {last last' : Draft}

namespace Stages

variable (t : Stages config library nodes unitName p last)

theorem exists_decl (hm : m ∈ t.methods) :
    ∃ decl ∈ t.selected.flatMap Node.methodDecls, Declares m decl :=
  exists_of_forall₂ (List.Forall₂.flip (addDeclarations_declare t.declarations_eq)) hm

theorem exists_method (hdecl : decl ∈ t.selected.flatMap Node.methodDecls) :
    ∃ m ∈ t.methods, Declares m decl :=
  exists_of_forall₂ (addDeclarations_declare t.declarations_eq) hdecl

/-- The names of the variables of the object. -/
def variableNames : List Identifier :=
  (t.selected.flatMap Node.variableDecls).map (·.name.value)

/-- The labels that are known in the whole object. -/
def labelNames : List Identifier :=
  (t.selected.flatMap Node.dataLines).filterMap SourceLine.globalLabel?

/-- The symbols that variables, methods and labels add to the frame of the object, and the frames that
the methods have. -/
structure Symbols (labels declared : Bindings Expression) : Prop where
  defines : t.exports.Defines objectScope (labels ++ declared) t.data
  names_eq : labels.map Prod.fst = t.labelNames.reverse
  areLabels : ∀ b ∈ labels, ∃ l, b.2 = .label l
  areDeclared : AreDeclared t.methods t.variableNames declared
  locals : List.Forall₂ (fun m decl => Declares m decl ∧ t.data.LocalsIn m.scope decl) t.methods
    (t.selected.flatMap Node.methodDecls)

theorem symbols (hclean : last.report.hasErrors = false) :
    ∃ labels declared, t.Symbols labels declared := by
  have hdeclarations : t.declarations.report.hasErrors = false := by
    have hgrows := t.grows_data (fun _ => True) fun _ _ => trivial
    exact Report.hasErrors_of_prefix hgrows.report_prefix (t.extends_last.hasErrors_of hclean)
  obtain ⟨⟨declared, hdeclared, hare⟩, hlocals⟩ := addDeclarations_defines t.declarations_eq
    hdeclarations (t.declared_exports.lt_scopes (Nat.lt_succ_self _))
  obtain ⟨labels, hlabels, hnames, hlabel⟩ := convert_defines
    (t.declared_declarations.lt_scopes (Nat.lt_succ_self _)) t.data_eq
  refine ⟨labels, declared, hdeclared.trans hlabels, hnames, hlabel, hare, ?_⟩
  exact hlocals.imp fun m decl h => ⟨h.1, h.2.2.defines hlabels h.2.1⟩

end Stages

theorem AreDeclared.isSome_iff {methods : List MethodDraft} {names : List Identifier}
    {bs : Bindings Expression} (h : AreDeclared methods names bs) (x : Identifier) :
    (bs.lookup x).isSome = true ↔
      (∃ m ∈ methods, (x == m.method.name) = true) ∨ ∃ y ∈ names, (x == y) = true := by
  rw [lookup_isSome, List.any_map, List.any_eq_true]
  constructor
  · rintro ⟨b, hb, hx⟩
    rcases h.only b hb with ⟨m, hm, rfl⟩ | ⟨hname, -⟩
    · exact .inl ⟨m, hm, hx⟩
    · exact .inr ⟨b.1, hname, hx⟩
  · rintro (⟨m, hm, hx⟩ | ⟨y, hy, hx⟩)
    · obtain ⟨b, hb, hname⟩ := h.everyMethod m hm
      rw [← hname] at hx
      exact ⟨b, hb, hx⟩
    · obtain ⟨b, hb, hname⟩ := h.everyName y hy
      rw [← hname] at hx
      exact ⟨b, hb, hx⟩

/-- **Two compilations of the same declarations**, with the methods in another order. -/
structure Reshuffled (t : Stages config library nodes unitName p last)
    (t' : Stages config library nodes' unitName p' last') : Prop where
  exports_eq : t'.exports = t.exports
  variables_eq : t'.variableNames = t.variableNames
  labels_eq : t'.labelNames = t.labelNames
  methods_perm : (t.selected.flatMap Node.methodDecls).Perm (t'.selected.flatMap Node.methodDecls)
  /-- No two methods have one name, -/
  distinct : ((t.selected.flatMap Node.methodDecls).map (·.name.value)).Pairwise
    fun x y => (x == y) = false
  /-- and none has that of a variable. -/
  apart : ∀ decl ∈ t.selected.flatMap Node.methodDecls, ∀ x ∈ t.variableNames,
    (decl.name.value == x) = false

namespace Reshuffled

variable {t : Stages config library nodes unitName p last}
  {t' : Stages config library nodes' unitName p' last'} (h : Reshuffled t t')

/-- The methods of one declaration. -/
def Twins (t : Stages config library nodes unitName p last)
    (t' : Stages config library nodes' unitName p' last') (m m' : Method) : Prop :=
  ∃ decl ∈ t.selected.flatMap Node.methodDecls, ∃ x ∈ t.methods, ∃ x' ∈ t'.methods,
    Declares x decl ∧ Declares x' decl ∧ x.method = m ∧ x'.method = m'

include h

theorem symm : Reshuffled t' t where
  exports_eq := h.exports_eq.symm
  variables_eq := h.variables_eq.symm
  labels_eq := h.labels_eq.symm
  methods_perm := h.methods_perm.symm
  distinct := by
    refine ((h.methods_perm.map _).pairwise_iff fun hxy => ?_).mp h.distinct
    rwa [Identifier.beq_comm]
  apart decl hdecl x hx := by
    rw [h.variables_eq] at hx
    exact h.apart decl (h.methods_perm.mem_iff.mpr hdecl) x hx

/-- A method has one declaration by its name. -/
theorem decl_eq {decl' : MethodDecl} (hdecl : decl ∈ t.selected.flatMap Node.methodDecls)
    (hdecl' : decl' ∈ t.selected.flatMap Node.methodDecls)
    (hname : (decl.name.value == decl'.name.value) = true) : decl = decl' := by
  have hsymm : Std.Symm fun a b : MethodDecl => (a.name.value == b.name.value) = false :=
    ⟨fun a b hab => by rwa [Identifier.beq_comm]⟩
  by_contra hne
  have hfalse := (List.pairwise_map.mp h.distinct).forall hdecl hdecl' hne
  rw [hname] at hfalse
  cases hfalse

/-- Every method has a twin. -/
theorem exists_twin (hm : m ∈ t.methods) :
    ∃ m' ∈ t'.methods, m'.method.name = m.method.name ∧ Twins t t' m.method m'.method := by
  obtain ⟨decl, hdecl, hm'⟩ := t.exists_decl hm
  obtain ⟨twin, htwin, hdeclares⟩ := t'.exists_method (h.methods_perm.mem_iff.mp hdecl)
  refine ⟨twin, htwin, hdeclares.name_eq.trans hm'.name_eq.symm, ?_⟩
  exact ⟨decl, hdecl, m, hm, twin, htwin, hm', hdeclares, rfl, rfl⟩

/-- Methods that have one name are twins. -/
theorem twins_of_name (hm : m ∈ t.methods) (hm' : m' ∈ t'.methods)
    (hname : (m.method.name == m'.method.name) = true) : Twins t t' m.method m'.method := by
  obtain ⟨decl, hdecl, hdeclares⟩ := t.exists_decl hm
  obtain ⟨decl', hdecl', hdeclares'⟩ := t'.exists_decl hm'
  rw [hdeclares.name_eq, hdeclares'.name_eq] at hname
  obtain rfl := h.decl_eq hdecl (h.methods_perm.mem_iff.mpr hdecl') hname
  exact ⟨decl, hdecl, m, hm, m', hm', hdeclares, hdeclares', rfl, rfl⟩

/-- A method has not the name of a variable. -/
theorem name_ne (hm : m ∈ t.methods) {y : Identifier} (hx : (x == m.method.name) = true)
    (hy : y ∈ t.variableNames) : (x == y) = false := by
  obtain ⟨decl, hdecl, hdeclares⟩ := t.exists_decl hm
  have hne := h.apart decl hdecl y hy
  rw [hdeclares.name_eq] at hx
  rw [Bool.eq_false_iff, ne_eq, Identifier.beq_iff] at hne ⊢
  rwa [Identifier.beq_iff.mp hx]

/-- Variables and methods are found under the same names. -/
theorem similar_declared {declared declared' : Bindings Expression}
    (hd : AreDeclared t.methods t.variableNames declared)
    (hd' : AreDeclared t'.methods t'.variableNames declared') (x : Identifier) :
    Option.Rel (Expression.Similar t.exports.scopes.frames.size (Twins t t')) (declared.lookup x)
      (declared'.lookup x) := by
  refine rel_lookup ?_ fun b hb b' hb' hx hx' => ?_
  · rw [Bool.eq_iff_iff, hd.isSome_iff, hd'.isSome_iff, h.variables_eq]
    refine or_congr_left ⟨?_, ?_⟩
    · rintro ⟨m, hm, hx⟩
      obtain ⟨twin, htwin, hname, -⟩ := h.exists_twin hm
      exact ⟨twin, htwin, hname ▸ hx⟩
    · rintro ⟨m, hm, hx⟩
      obtain ⟨twin, htwin, hname, -⟩ := h.symm.exists_twin hm
      exact ⟨twin, htwin, hname ▸ hx⟩
  · rcases hd.only b hb with ⟨m, hm, rfl⟩ | ⟨hvariable, v, hv⟩
    · rcases hd'.only b' hb' with ⟨m', hm', rfl⟩ | ⟨hvariable', -⟩
      · refine .method (h.twins_of_name hm hm' ?_)
        rw [Identifier.beq_iff] at hx hx' ⊢
        exact hx.symm.trans hx'
      · rw [h.name_ne hm hx (h.variables_eq ▸ hvariable')] at hx'
        cases hx'
    · rcases hd'.only b' hb' with ⟨m', hm', rfl⟩ | ⟨-, v', hv'⟩
      · rw [h.symm.name_ne hm' hx' (h.variables_eq ▸ hvariable)] at hx
        cases hx
      · rw [hv, hv']
        exact .objectVar v v'

/-- **Names mean the same** in the frames that are not those of methods. -/
theorem similar (hclean : last.report.hasErrors = false) (hclean' : last'.report.hasErrors = false) :
    Scopes.Similar t.exports.scopes.frames.size (Twins t t') t.data.scopes t'.data.scopes := by
  obtain ⟨labels, declared, hs⟩ := t.symbols hclean
  obtain ⟨labels', declared', hs'⟩ := t'.symbols hclean'
  have hdefines' := h.exports_eq ▸ hs'.defines
  intro i
  -- the parent of a frame comes before it
  induction i using Nat.strongRecOn with
  | ind i ih =>
    intro hi x
    have hf := Array.getElem?_eq_getElem hi
    generalize t.exports.scopes.frames[i] = f at hf
    have hold : Option.Rel (Expression.Similar t.exports.scopes.frames.size (Twins t t'))
        (f.symbol? x) (f.symbol? x) := by
      cases hv : f.symbol? x with
      | none => exact .none
      | some v =>
        refine .some (.same ?_ ?_)
        · rintro m rfl
          exact ((t.symbolsAre_exports i f hf x _ hv).1 m rfl).1
        · rintro scope y rfl
          exact (t.declared_exports.within i f hf).symbol? hv
    have hparent : Option.Rel (Expression.Similar t.exports.scopes.frames.size (Twins t t'))
        (f.parent.bind fun p => t.data.scopes.symbol? p x)
        (f.parent.bind fun p => t'.data.scopes.symbol? p x) := by
      cases hp : f.parent with
      | none => exact .none
      | some p =>
        have hlt : p < i := (t.declared_exports.within i f hf).parent_lt p hp
        exact ih p hlt (Nat.lt_trans hlt hi) x
    by_cases hobject : i = objectScope
    · subst hobject
      rw [t.declared_data.within.symbol?_eq (hs.defines.frame_eq f hf),
        t'.declared_data.within.symbol?_eq (hdefines'.frame_eq f hf)]
      refine rel_or ?_ hparent
      rw [Frame.symbol?_withSymbols, Frame.symbol?_withSymbols]
      split
      · exact hold
      · -- labels hide what is declared, and this hides constants and what children export
        refine rel_or ?_ hold
        rw [List.lookup_append, List.lookup_append]
        refine rel_or (rel_lookup ?_ fun b hb b' hb' _ _ => ?_)
          (h.similar_declared hs.areDeclared hs'.areDeclared x)
        · rw [lookup_isSome, lookup_isSome, hs.names_eq, hs'.names_eq, h.labels_eq]
        · obtain ⟨l, hl⟩ := hs.areLabels b hb
          obtain ⟨l', hl'⟩ := hs'.areLabels b' hb'
          rw [hl, hl']
          exact .label l l'
    · have hframe : t.data.scopes.frames[i]? = some f := (hs.defines.other_eq i hi hobject).trans hf
      have hframe' : t'.data.scopes.frames[i]? = some f :=
        (hdefines'.other_eq i hi hobject).trans hf
      rw [t.declared_data.within.symbol?_eq hframe, t'.declared_data.within.symbol?_eq hframe']
      exact rel_or hold hparent

/-- **Names mean the same in the methods of one declaration.** -/
theorem similar_names (hclean : last.report.hasErrors = false) (hclean' : last'.report.hasErrors = false)
    (hl : t.data.LocalsIn m.scope decl) (hl' : t'.data.LocalsIn m'.scope decl) (x : Identifier) :
    Option.Rel (Expression.Similar t.exports.scopes.frames.size (Twins t t'))
      ((t.data.names m.scope).symbol? x) ((t'.data.names m'.scope).symbol? x) := by
  have hsimilar := h.similar hclean hclean'
  obtain ⟨bs, hframe, hnames, hlocals⟩ := hl
  obtain ⟨bs', hframe', hnames', hlocals'⟩ := hl'
  refine hsimilar.resolve ?_
  -- a frame of its own with nothing but local variables, in the frame of the object
  change Option.Rel _ (t.data.scopes.symbol? m.scope x) (t'.data.scopes.symbol? m'.scope x)
  rw [t.declared_data.within.symbol?_eq hframe, t'.declared_data.within.symbol?_eq hframe',
    Frame.symbol?_or, Frame.symbol?_or]
  refine rel_or (rel_or .none (rel_or ?_ .none)) ?_
  · refine rel_lookup ?_ fun b hb b' hb' _ _ => ?_
    · rw [lookup_isSome, lookup_isSome, hnames, hnames']
    · obtain ⟨v, hv⟩ := hlocals b hb
      obtain ⟨v', hv'⟩ := hlocals' b' hb'
      rw [hv, hv']
      exact .localVar v v'
  · exact hsimilar objectScope (t.declared_exports.lt_scopes (Nat.lt_succ_self _)) x

theorem localsIn (hclean : last.report.hasErrors = false) (hm : m ∈ t.methods)
    (hdecl : decl ∈ t.selected.flatMap Node.methodDecls) (hdeclares : Declares m decl) :
    t.data.LocalsIn m.scope decl := by
  obtain ⟨labels, declared, hs⟩ := t.symbols hclean
  obtain ⟨decl', hdecl', hdeclares', hlocals⟩ := exists_of_forall₂ (List.Forall₂.flip hs.locals) hm
  have hname : decl.name.value = decl'.name.value :=
    hdeclares.name_eq.symm.trans hdeclares'.name_eq
  rwa [h.decl_eq hdecl hdecl' (by rw [hname, Identifier.beq_iff])]

/-! #### Calls -/

variable (hclean : last.report.hasErrors = false) (hclean' : last'.report.hasErrors = false)

include hclean hclean'

/-- **Methods of one name come from one declaration**, and names mean the same in both. -/
theorem finished (hm : m ∈ p.methods) (hm' : m' ∈ p'.methods) (hname : m'.method.name = m.method.name) :
    ∃ decl, Finished config last decl m ∧ Finished config last' decl m' ∧
      m'.method.isPublic = m.method.isPublic ∧ ∀ x,
      Option.Rel (Expression.Similar t.exports.scopes.frames.size (Twins t t'))
        ((last.names m.scope).symbol? x) ((last'.names m'.scope).symbol? x) := by
  obtain ⟨decl, hdecl, ⟨m₀, hm₀, hdeclares, hmethod, hscope⟩, hfinished⟩ :=
    exists_of_forall₂ (t.finished hclean) hm
  obtain ⟨decl', hdecl', ⟨m₀', hm₀', hdeclares', hmethod', hscope'⟩, hfinished'⟩ :=
    exists_of_forall₂ (t'.finished hclean') hm'
  have heq : decl = decl' := by
    refine h.decl_eq hdecl (h.methods_perm.mem_iff.mpr hdecl') ?_
    rw [← hdeclares.name_eq, ← hdeclares'.name_eq, ← hmethod, ← hmethod', hname, Identifier.beq_iff]
  subst heq
  refine ⟨decl, hfinished, hfinished', ?_, fun x => ?_⟩
  · rw [hmethod, hmethod', hdeclares.isPublic_eq, hdeclares'.isPublic_eq]
  · rw [hscope, hscope', (t.alike_last hm₀).symbol_eq, (t'.alike_last hm₀').symbol_eq]
    exact h.similar_names hclean hclean' (h.localsIn hclean hm₀ hdecl hdeclares)
      (h.symm.localsIn hclean' hm₀' hdecl' hdeclares') x

end Reshuffled

end Compile

end Propeller
