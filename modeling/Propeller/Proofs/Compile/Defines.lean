import Propeller.Proofs.Compile.Stages
import Propeller.Proofs.Compile.MethodTable
import Propeller.Proofs.Compile.Sections

/-!
# Compile — the symbols of an object

What variables, methods and labels add to frames, to the last symbol.  Other than for `Draft.Grows`, which
says what may be bound, nothing that is declared may be missing here, so no error may be reported.

* `Draft.Defines`: symbols are added to one frame, and all others stay as they are.
* `Compile.addDeclarations_defines`, `Compile.convert_defines`: variables, methods and labels are added to
  the frame of the object.
* `Compile.LocalsIn`: the results, parameters and local variables of a method, in a frame of its own.
-/

namespace Propeller

/-- Symbols are added to a frame, the last one in front, and all other frames stay as they are. -/
structure Draft.Defines (scope : ScopeId) (bs : Bindings Expression) (d d' : Draft) : Prop where
  frame_eq : ∀ f, d.scopes.frames[scope]? = some f →
    d'.scopes.frames[scope]? = some { f with symbols := bs ++ f.symbols }
  other_eq : ∀ i < d.scopes.frames.size, i ≠ scope → d'.scopes.frames[i]? = d.scopes.frames[i]?
  scopes_le : d.scopes.frames.size ≤ d'.scopes.frames.size

namespace Draft.Defines

variable {scope : ScopeId} {bs bs' : Bindings Expression} {base d d' d'' : Draft}

theorem of_scopes_eq (h : d'.scopes = d.scopes) : d.Defines scope [] d' := by
  refine ⟨fun f hf => ?_, fun i _ _ => by rw [h], Nat.le_of_eq (by rw [h])⟩
  rw [h, hf]
  rfl

theorem refl (d : Draft) : d.Defines scope [] d := of_scopes_eq rfl

theorem trans (h : d.Defines scope bs d') (h' : d'.Defines scope bs' d'') :
    d.Defines scope (bs' ++ bs) d'' where
  frame_eq f hf := by rw [h'.frame_eq _ (h.frame_eq f hf), List.append_assoc]
  other_eq i hi hne := by
    rw [h'.other_eq i (Nat.lt_of_lt_of_le hi h.scopes_le) hne, h.other_eq i hi hne]
  scopes_le := Nat.le_trans h.scopes_le h'.scopes_le

/-- What is added to a new frame leaves those that were there. -/
theorem then_fresh {fresh : ScopeId} (h : base.Defines scope bs d) (h' : d.Defines fresh bs' d')
    (hfresh : base.scopes.frames.size ≤ fresh) : base.Defines scope bs d' where
  frame_eq f hf := by
    have hlt : scope < base.scopes.frames.size := (Array.getElem?_eq_some_iff.mp hf).1
    rw [h'.other_eq scope (Nat.lt_of_lt_of_le hlt h.scopes_le)
      (Nat.ne_of_lt (Nat.lt_of_lt_of_le hlt hfresh)), h.frame_eq f hf]
  other_eq i hi hne := by
    rw [h'.other_eq i (Nat.lt_of_lt_of_le hi h.scopes_le)
      (Nat.ne_of_lt (Nat.lt_of_lt_of_le hi hfresh)), h.other_eq i hi hne]
  scopes_le := Nat.le_trans h.scopes_le h'.scopes_le

end Draft.Defines

namespace Compile

variable {scope : ScopeId} {d d' : Draft}

/-! ### Steps -/

theorem define_defines {name : Located Identifier} {value : Expression}
    (h : define scope name value d = .ok () d') : d.Defines scope [(name.value, value)] d' := by
  have hscopes : d'.scopes = d.scopes.addSymbol scope name.value value := by
    rw [define_eq_ok] at h
    cases h
    rfl
  have hframe : ∀ i, d'.scopes.frames[i]? = if scope = i
      then (d.scopes.frames[i]?).map fun f => { f with symbols := (name.value, value) :: f.symbols }
      else d.scopes.frames[i]? := by
    intro i
    rw [hscopes, Scopes.addSymbol, Scopes.modifyFrame, Array.getElem?_modify]
  refine ⟨fun f hf => ?_, fun i _ hne => ?_, ?_⟩
  · rw [hframe, if_pos rfl, hf]
    rfl
  · rw [hframe, if_neg (Ne.symm hne)]
  · rw [hscopes]
    exact Nat.le_of_eq (Array.size_modify ..).symm

theorem pushScope_defines {parent fresh : ScopeId} (h : pushScope parent d = .ok fresh d') :
    d.Defines scope [] d' ∧ fresh = d.scopes.frames.size ∧
      d'.scopes.frames[fresh]? = some { parent := some parent } := by
  cases h
  have hpush : ∀ i, (d.scopes.push parent).frames[i]? = if i = d.scopes.frames.size
      then some { parent := some parent } else d.scopes.frames[i]? := by
    intro i
    rw [Scopes.push, Array.getElem?_push]
  have hold : ∀ i < d.scopes.frames.size,
      (d.scopes.push parent).frames[i]? = d.scopes.frames[i]? := by
    intro i hi
    rw [hpush, if_neg (Nat.ne_of_lt hi)]
  refine ⟨⟨fun f hf => ?_, fun i hi _ => hold i hi, ?_⟩, rfl, ?_⟩
  · rw [List.nil_append, hold scope (Array.getElem?_eq_some_iff.mp hf).1, hf]
  · exact Nat.le_trans (Nat.le_succ _) (Nat.le_of_eq (Array.size_push ..).symm)
  · exact (hpush _).trans (if_pos rfl)

theorem elementCount_eq_ok {count : Option Expr} {n : Nat} (h : elementCount count d = .ok n d') :
    d' = d :=
  (steady_elementCount (P := fun x => x = d) count).of_ok rfl h

/-! ### Local variables -/

/-- Symbols with some names, all of them local variables. -/
def AreLocals (names : List Identifier) (bs : Bindings Expression) : Prop :=
  bs.map Prod.fst = names.reverse ∧ ∀ b ∈ bs, ∃ v, b.2 = .localVar v

theorem AreLocals.single (x : Identifier) (v : LocalVar) : AreLocals [x] [(x, .localVar v)] :=
  ⟨rfl, by simp⟩

theorem AreLocals.append {names more : List Identifier} {bs bs' : Bindings Expression}
    (h : AreLocals names bs) (h' : AreLocals more bs') : AreLocals (names ++ more) (bs' ++ bs) := by
  refine ⟨by rw [List.map_append, List.reverse_append, h.1, h'.1], fun b hb => ?_⟩
  rcases List.mem_append.mp hb with hb | hb
  · exact h'.2 b hb
  · exact h.2 b hb

theorem addLongs_defines {names : List (Located Identifier)} {offset : Nat} {longs : List LocalVar}
    (h : addLongs scope offset names d = .ok longs d') :
    ∃ bs, d.Defines scope bs d' ∧ AreLocals (names.map Located.value) bs := by
  induction names generalizing offset d longs with
  | nil =>
    cases h
    exact ⟨[], .refl _, rfl, by simp⟩
  | cons name names ih =>
    obtain ⟨id, d₁, hnew, h⟩ := bind_eq_ok h
    obtain ⟨_, d₂, hdefine, h⟩ := bind_eq_ok h
    obtain ⟨rest, d₃, hrest, h⟩ := bind_eq_ok h
    obtain rfl : d₃ = d' := by
      cases h
      rfl
    have hscopes : d₁.scopes = d.scopes := by
      cases hnew
      rfl
    obtain ⟨bs, hbs, hlocals⟩ := ih hrest
    have hfirst := (Draft.Defines.of_scopes_eq hscopes).trans (define_defines hdefine)
    refine ⟨_, hfirst.trans hbs, ?_⟩
    exact (AreLocals.single name.value _).append hlocals

theorem addLocals_defines {decls : List LocalDecl} {offset : Nat} {locals : List (Located LocalVar)}
    (h : addLocals scope offset decls d = .ok locals d') :
    ∃ bs, d.Defines scope bs d' ∧ AreLocals (decls.map (·.name.value)) bs := by
  induction decls generalizing offset d locals with
  | nil =>
    cases h
    exact ⟨[], .refl _, rfl, by simp⟩
  | cons decl decls ih =>
    obtain ⟨count, d₁, hcount, h⟩ := bind_eq_ok h
    obtain ⟨id, d₂, hnew, h⟩ := bind_eq_ok h
    obtain ⟨_, d₃, hdefine, h⟩ := bind_eq_ok h
    obtain ⟨rest, d₄, hrest, h⟩ := bind_eq_ok h
    obtain rfl : d₄ = d' := by
      cases h
      rfl
    have hscopes : d₁.scopes = d.scopes := by
      exact (steady_attempt (P := fun x => x.scopes = d.scopes) (steady_elementCount decl.count)
        fun _ _ _ h => h).of_ok rfl hcount
    have hscopes' : d₂.scopes = d.scopes := by
      rw [← hscopes]
      cases hnew
      rfl
    obtain ⟨bs, hbs, hlocals⟩ := ih hrest
    have hfirst := (Draft.Defines.of_scopes_eq hscopes').trans (define_defines hdefine)
    refine ⟨_, hfirst.trans hbs, ?_⟩
    exact (AreLocals.single decl.name.value _).append hlocals

end Compile

/-! ### Variables and methods -/

/-- The names of results, parameters and local variables. -/
def MethodDecl.localNames (decl : MethodDecl) : List Identifier :=
  (decl.results ++ decl.parameters).map Located.value ++ decl.locals.map (·.name.value)

/-- The variables that a part of an object declares. -/
def Node.variableDecls : Node → List VariableDecl
  | .objectVars decls => decls
  | _                 => []

/-- The results, parameters and local variables of a method, in a frame of their own. -/
def Draft.LocalsIn (d : Draft) (scope : ScopeId) (decl : MethodDecl) : Prop :=
  ∃ bs, d.scopes.frames[scope]? = some { parent := some objectScope, symbols := bs } ∧
    Compile.AreLocals decl.localNames bs

theorem Draft.LocalsIn.defines {d d' : Draft} {scope : ScopeId} {decl : MethodDecl}
    (h : d.LocalsIn scope decl) {bs : Bindings Expression} (hd : d.Defines objectScope bs d')
    (hscope : objectScope < scope) : d'.LocalsIn scope decl := by
  obtain ⟨locals, hframe, hlocals⟩ := h
  refine ⟨locals, ?_, hlocals⟩
  rw [hd.other_eq scope (Array.getElem?_eq_some_iff.mp hframe).1 (Nat.ne_of_gt hscope), hframe]

namespace Compile

variable {d d' : Draft}

/-- Variables are added to the frame of the object, unless an error is reported. -/
theorem addVariables_defines {decls : List VariableDecl}
    (h : attemptAll addVariable decls d = .ok () d') (hclean : d'.report.hasErrors = false) :
    ∃ bs, d.Defines objectScope bs d' ∧ bs.map Prod.fst = (decls.map (·.name.value)).reverse ∧
      ∀ b ∈ bs, ∃ v, b.2 = .objectVar v := by
  induction decls generalizing d with
  | nil =>
    cases h
    exact ⟨[], .refl _, rfl, by simp⟩
  | cons decl decls ih =>
    obtain ⟨tried, d₁, htried, h⟩ := bind_eq_ok h
    obtain ⟨bs, hbs, hnames, hvalues⟩ := ih h
    have hgrows : d₁.Grows (BindsAmong (fun _ => True) [] fun _ => True) d' :=
      addVariables_grows (fun _ _ => trivial) h fun _ _ => trivial
    have hclean₁ := Report.hasErrors_of_prefix hgrows.report_prefix hclean
    cases tried with
    | none =>
      rw [attempt_eq_none htried] at hclean₁
      cases hclean₁
    | some u =>
      obtain ⟨count, d₂, hcount, hadd⟩ := bind_eq_ok (attempt_eq_some htried)
      obtain rfl := elementCount_eq_ok hcount
      obtain ⟨_, _, hget, hadd⟩ := bind_eq_ok hadd
      cases hget
      obtain ⟨_, d₃, hdefine, hadd⟩ := bind_eq_ok hadd
      have hscopes : d₁.scopes = d₃.scopes := by
        cases hadd
        rfl
      have hfirst := (define_defines hdefine).trans (.of_scopes_eq hscopes)
      refine ⟨_, hfirst.trans hbs, ?_, fun b hb => ?_⟩
      · simp [hnames]
      · rcases List.mem_append.mp hb with hb | hb
        · exact hvalues b hb
        · obtain rfl := List.mem_singleton.mp hb
          exact ⟨_, rfl⟩

/-- A method is added to the frame of the object, and its local variables are in a new frame. -/
theorem addMethod_defines {id : Nat} {decl : MethodDecl} {m : MethodDraft}
    (h : addMethod id decl d = .ok m d') :
    d.Defines objectScope [(m.method.name, .method m.method)] d' ∧ d.scopes.frames.size ≤ m.scope ∧
      d'.LocalsIn m.scope decl := by
  obtain ⟨_, d₁, hdefine, h⟩ := bind_eq_ok h
  obtain ⟨scope, d₂, hpush, h⟩ := bind_eq_ok h
  obtain ⟨longs, d₃, hlongs, h⟩ := bind_eq_ok h
  obtain ⟨locals, d₄, hlocals, h⟩ := bind_eq_ok h
  cases h
  have h₁ := define_defines hdefine
  obtain ⟨hpushed, hscope, hframe⟩ := pushScope_defines hpush
  obtain ⟨bs, hbs, hlong⟩ := addLongs_defines hlongs
  obtain ⟨bs', hbs', hlocal⟩ := addLocals_defines hlocals
  have hfresh : d.scopes.frames.size ≤ scope := hscope ▸ h₁.scopes_le
  refine ⟨((h₁.trans hpushed).then_fresh hbs hfresh).then_fresh hbs' hfresh, hfresh, bs' ++ bs, ?_,
    hlong.append hlocal⟩
  have hall := (hbs.trans hbs').frame_eq _ hframe
  rwa [List.append_nil] at hall

/-- Symbols that are the methods and the variables of some names. -/
structure AreDeclared (methods : List MethodDraft) (names : List Identifier)
    (bs : Bindings Expression) : Prop where
  only : ∀ b ∈ bs, (∃ m ∈ methods, b = (m.method.name, .method m.method)) ∨
    (b.1 ∈ names ∧ ∃ v, b.2 = .objectVar v)
  everyMethod : ∀ m ∈ methods, ∃ b ∈ bs, b.1 = m.method.name
  everyName : ∀ x ∈ names, ∃ b ∈ bs, b.1 = x

theorem AreDeclared.append {methods methods' : List MethodDraft} {names names' : List Identifier}
    {bs bs' : Bindings Expression} (h : AreDeclared methods names bs)
    (h' : AreDeclared methods' names' bs') :
    AreDeclared (methods ++ methods') (names ++ names') (bs' ++ bs) where
  only b hb := by
    rcases List.mem_append.mp hb with hb | hb
    · rcases h'.only b hb with ⟨m, hm, rfl⟩ | ⟨hname, hv⟩
      · exact .inl ⟨m, List.mem_append_right _ hm, rfl⟩
      · exact .inr ⟨List.mem_append_right _ hname, hv⟩
    · rcases h.only b hb with ⟨m, hm, rfl⟩ | ⟨hname, hv⟩
      · exact .inl ⟨m, List.mem_append_left _ hm, rfl⟩
      · exact .inr ⟨List.mem_append_left _ hname, hv⟩
  everyMethod m hm := by
    rcases List.mem_append.mp hm with hm | hm
    · exact (h.everyMethod m hm).imp fun b hb => ⟨List.mem_append_right _ hb.1, hb.2⟩
    · exact (h'.everyMethod m hm).imp fun b hb => ⟨List.mem_append_left _ hb.1, hb.2⟩
  everyName x hx := by
    rcases List.mem_append.mp hx with hx | hx
    · exact (h.everyName x hx).imp fun b hb => ⟨List.mem_append_right _ hb.1, hb.2⟩
    · exact (h'.everyName x hx).imp fun b hb => ⟨List.mem_append_left _ hb.1, hb.2⟩

/-- **Variables and methods** are added to the frame of the object, unless an error is reported. -/
theorem addDeclarations_defines {first : Nat} {nodes : List Node} {methods : List MethodDraft}
    (h : addDeclarations first nodes d = .ok methods d') (hclean : d'.report.hasErrors = false)
    (hobject : objectScope < d.scopes.frames.size) :
    (∃ bs, d.Defines objectScope bs d' ∧
      AreDeclared methods ((nodes.flatMap Node.variableDecls).map (·.name.value)) bs) ∧
    List.Forall₂ (fun m decl => Declares m decl ∧ objectScope < m.scope ∧ d'.LocalsIn m.scope decl)
      methods (nodes.flatMap Node.methodDecls) := by
  induction nodes generalizing first d methods with
  | nil =>
    cases h
    exact ⟨⟨[], .refl _, ⟨by simp, by simp, by simp⟩⟩, .nil⟩
  | cons node rest ih =>
    cases node with
    | method decl =>
      obtain ⟨m, d₁, hm, h⟩ := bind_eq_ok h
      obtain ⟨ms, d₂, hms, h⟩ := bind_eq_ok h
      cases h
      obtain ⟨hfirst, hscope, hlocals⟩ := addMethod_defines hm
      obtain ⟨⟨bs, hbs, hdeclared⟩, hall⟩ := ih hms (Nat.lt_of_lt_of_le hobject hfirst.scopes_le)
      have hlt : objectScope < m.scope := Nat.lt_of_lt_of_le hobject hscope
      have hone : AreDeclared [m] [] [(m.method.name, .method m.method)] :=
        ⟨by simp, by simp, by simp⟩
      exact ⟨⟨_, hfirst.trans hbs, hone.append hdeclared⟩,
        .cons ⟨addMethod_declares hm, hlt, hlocals.defines hbs hlt⟩ hall⟩
    | objectVars decls =>
      obtain ⟨_, d₁, hvars, h⟩ := bind_eq_ok h
      obtain ⟨hgrows, -⟩ :=
        addDeclarations_grows (V := fun _ => True) (fun x hx => hx) h fun _ _ => trivial
      obtain ⟨vars, hfirst, hnames, hvalues⟩ :=
        addVariables_defines hvars (Report.hasErrors_of_prefix hgrows.report_prefix hclean)
      obtain ⟨⟨bs, hbs, hdeclared⟩, hall⟩ := ih h (Nat.lt_of_lt_of_le hobject hfirst.scopes_le)
      have hvariables : AreDeclared [] (decls.map (·.name.value)) vars := by
        refine ⟨fun b hb => .inr ⟨?_, hvalues b hb⟩, by simp, fun x hx => ?_⟩
        · exact List.mem_reverse.mp (hnames ▸ List.mem_map_of_mem hb)
        · exact List.mem_map.mp (hnames ▸ List.mem_reverse.mpr hx)
      refine ⟨⟨_, hfirst.trans hbs, ?_⟩, hall⟩
      rw [List.flatMap_cons, List.map_append]
      exact hvariables.append hdeclared
    | _ => exact ih h hobject

/-! ### Labels -/

namespace Labels

variable {lines : List SourceLine} {bound : List BoundLine} (h : Labels scope lines bound d d')

include h

/-- The frames between the enclosing one and the sections stay as they are. -/
theorem bindingsIn_of_lt {j : ScopeId} (hj : j < d.scopes.frames.size) (hne : j ≠ scope) :
    bindingsIn scope j bound = [] := by
  refine List.filterMap_eq_nil_iff.mpr fun e he => Option.eq_none_iff_forall_ne_some.mpr fun b hb => ?_
  obtain ⟨name, _, -, -, hhome, -⟩ := BoundLine.bindingIn?_eq_some.mp hb
  rw [homeOf] at hhome
  split at hhome
  · exact Nat.not_le_of_lt hj (hhome ▸ h.frame_ge he)
  · exact hne hhome.symm

/-- The enclosing frame gets the labels that are known in all sections. -/
theorem map_fst_bindingsIn :
    (bindingsIn scope scope bound).map Prod.fst = lines.filterMap SourceLine.globalLabel? := by
  rw [← h.lines_eq, bindingsIn, List.map_filterMap, List.filterMap_map]
  refine List.filterMap_congr fun e he => ?_
  have hsection : e.2.2 ≠ scope := Nat.ne_of_gt (Nat.lt_of_lt_of_le h.scope_lt (h.frame_ge he))
  cases hlabel : e.1.label with
  | none => simp [BoundLine.bindingIn?, SourceLine.globalLabel?, hlabel]
  | some name =>
    obtain ⟨l, hl⟩ := Option.isSome_iff_exists.mp ((h.isSome_eq e he).trans (hlabel ▸ rfl))
    cases hlocal : name.value.isLocalLabel <;>
      simp [BoundLine.bindingIn?, SourceLine.globalLabel?, homeOf, Option.filter, hlabel, hl,
        hlocal, hsection]

end Labels

/-- **Labels** are added to the frame of the object. -/
theorem convert_defines {library : Library} {lines : List SourceLine} {converted : List AsmLine}
    (hobject : objectScope < d.scopes.frames.size)
    (h : convert library objectScope lines d = .ok converted d') :
    ∃ bs, d.Defines objectScope bs d' ∧
      bs.map Prod.fst = (lines.filterMap SourceLine.globalLabel?).reverse ∧
      ∀ b ∈ bs, ∃ l, b.2 = .label l := by
  obtain ⟨bound, d₁, errors, -, hlabels, hrun, -⟩ := convert_eq_ok library hobject lines
  rw [hrun] at h
  cases h
  have hframe : ∀ (j : ScopeId) (f : Frame), d.scopes.frames[j]? = some f →
      d₁.scopes.frames[j]? = some (f.bind (bindingsIn objectScope j bound)) := by
    intro j f hf
    have hj := (Array.getElem?_eq_some_iff.mp hf).1
    rw [hlabels.frames_eq (Nat.lt_of_lt_of_le hj hlabels.scopes_le), Scopes.frameOr, hf, Option.getD_some]
  refine ⟨(bindingsIn objectScope objectScope bound).reverse, ⟨hframe _, ?_, hlabels.scopes_le⟩, ?_, ?_⟩
  · intro i hi hne
    rw [hframe i _ (Array.getElem?_eq_getElem hi), hlabels.bindingsIn_of_lt hi hne, Frame.bind_nil,
      Array.getElem?_eq_getElem hi]
  · rw [List.map_reverse, hlabels.map_fst_bindingsIn]
  · intro b hb
    obtain ⟨e, -, hb⟩ := List.mem_filterMap.mp (List.mem_reverse.mp hb)
    obtain ⟨_, l, -, -, -, rfl⟩ := BoundLine.bindingIn?_eq_some.mp hb
    exact ⟨l, rfl⟩

end Compile

end Propeller
