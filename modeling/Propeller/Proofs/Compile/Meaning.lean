import Propeller.Proofs.Compile.Declared
import Propeller.Proofs.Compile.Extends
import Propeller.Proofs.Expression.Stable

/-!
# Compile — what expressions mean in a method

The term of an expression depends on what the names in it mean, and on nothing else: not on what has been
referred to before, and not on the frames and labels that assembly code of methods has added
(`Expr.agree_term`).  So an expression has one term in a method, and wherever its term is asked for while
bodies are compiled, it is that one (`Expr.termIn`).

* `Agree`: one computation gives whatever another one gives.
* `Names.Alike`: names mean the same.
-/

namespace Propeller

variable {α β : Type}

/-! ### Computations that agree -/

/-- Whatever one computation gives, another one gives too, whatever has been referred to. -/
def Agree (x y : Tracked α) : Prop := ∀ u u' a u₁, x u = .ok a u₁ → ∃ u₂, y u' = .ok a u₂

theorem agree_pure (a : α) : Agree (pure a) (pure a) := by
  rintro u u' _ _ ⟨⟩
  exact ⟨u', rfl⟩

theorem agree_throw (e e' : Located CompileError) : Agree (throw e : Tracked α) (throw e') := by
  rintro _ _ _ _ ⟨⟩

theorem agree_use (x : Use) : Agree (Tracked.use x) (Tracked.use x) := by
  rintro u u' _ _ ⟨⟩
  exact ⟨u'.mark x, rfl⟩

theorem agree_liftExcept (x : Except (Located CompileError) α) :
    Agree (liftExcept x) (liftExcept x) := by
  cases x with
  | error e => exact agree_throw e e
  | ok a => exact agree_pure a

theorem agree_bind {x y : Tracked α} {f g : α → Tracked β} (hx : Agree x y)
    (hf : ∀ a, Agree (f a) (g a)) : Agree (x >>= f) (y >>= g) := by
  intro u u' b u₁ h
  obtain ⟨a, u₂, ha, hb⟩ := run_bind_eq_ok h
  obtain ⟨u₃, hy⟩ := hx u u' a u₂ ha
  obtain ⟨u₄, hg⟩ := hf a u₂ u₃ b u₁ hb
  exact ⟨u₄, (run_bind_ok hy).trans hg⟩

/-- What a computation gives. -/
def Tracked.value [Inhabited α] (x : Tracked α) : α :=
  match x [] with
  | .ok a _    => a
  | .error _ _ => default

theorem Agree.value_eq [Inhabited α] {x y : Tracked α} (h : Agree x y) {u u₁ : Uses} {a : α}
    (hx : x u = .ok a u₁) : y.value = a := by
  obtain ⟨u₂, hy⟩ := h u [] a u₁ hx
  rw [Tracked.value, hy]

/-! ### Names that mean the same -/

/-- Names mean the same. -/
structure Names.Alike (n n' : Names) : Prop where
  bound_eq : ∀ x, n'.scopes.symbol? n'.scope x = n.scopes.symbol? n.scope x
  symbol_eq : ∀ x, n'.symbol? x = n.symbol? x
  static_eq : ∀ e : Expr, e.staticTerm n' = e.staticTerm n
  links_eq : n'.links = n.links
  kind_eq : ∀ x line, n.symbol? x = some (.label line) → n'.labelKind line = n.labelKind line

namespace Names.Alike

variable {n n' n'' : Names}

theorem refl (n : Names) : n.Alike n := ⟨fun _ => rfl, fun _ => rfl, fun _ => rfl, rfl, fun _ _ _ => rfl⟩

theorem symm (h : n.Alike n') : n'.Alike n where
  bound_eq x := (h.bound_eq x).symm
  symbol_eq x := (h.symbol_eq x).symm
  static_eq e := (h.static_eq e).symm
  links_eq := h.links_eq.symm
  kind_eq x line hx := (h.kind_eq x line ((h.symbol_eq x).symm.trans hx)).symm

theorem trans (h : n.Alike n') (h' : n'.Alike n'') : n.Alike n'' where
  bound_eq x := (h'.bound_eq x).trans (h.bound_eq x)
  symbol_eq x := (h'.symbol_eq x).trans (h.symbol_eq x)
  static_eq e := (h'.static_eq e).trans (h.static_eq e)
  links_eq := h'.links_eq.trans h.links_eq
  kind_eq x line hx := (h'.kind_eq x line ((h.symbol_eq x).trans hx)).trans (h.kind_eq x line hx)

end Names.Alike

section Alike

variable {n n' : Names} (h : n.Alike n')

include h

theorem Names.agree_variableOf (name : Identifier) (indexed : Bool) (location : Location) :
    Agree (n.variableOf name indexed location) (n'.variableOf name indexed location) := by
  unfold variableOf
  rw [h.symbol_eq]
  cases hx : n.symbol? name with
  | none => exact agree_throw _ _
  | some e =>
    cases e with
    | localVar | objectVar => exact agree_bind (agree_use _) fun _ => agree_pure _
    | label line =>
      simp only [h.kind_eq name line hx]
      exact agree_pure _
    | register a =>
      simp only
      split
      · exact agree_throw _ _
      · exact agree_pure _
    | _ => exact agree_throw _ _

theorem Names.agree_methodOf (name : Identifier) (method : Located Identifier) (given : Nat)
    (wanted : Bool) (location : Location) :
    Agree (n.methodOf name method given wanted location)
      (n'.methodOf name method given wanted location) := by
  unfold methodOf
  rw [h.symbol_eq]
  split
  · split
    · exact agree_throw _ _
    · split
      · exact agree_throw _ _
      · exact agree_pure _
  · exact agree_throw _ _
  · exact agree_throw _ _

theorem Names.agree_callee (object : Option (Located Identifier)) (method : Located Identifier)
    (given : Nat) (wanted : Bool) (location : Location) :
    Agree (n.callee object method given wanted location)
      (n'.callee object method given wanted location) := by
  rw [callee_eq, callee_eq, h.links_eq]
  split
  · exact agree_methodOf h _ _ _ _ _
  · split
    · exact agree_throw _ _
    · exact agree_methodOf h _ _ _ _ _

namespace Expr

theorem isStatic_eq (e : Expr) : e.isStatic n' = e.isStatic n := by
  induction e using Expr.induct with
  | name | member => simp only [isStatic, h.symbol_eq]
  | unary l op operand ih => exact ih
  | binary l op left right ihl ihr => simp only [isStatic, ihl, ihr]
  | ternary l c yes no ihc ihy ihn => simp only [isStatic, ihc, ihy, ihn]
  | _ => rfl

/-- Only expressions that are not constant need to be looked at. -/
theorem agree_term_of_dynamic {e : Expr} (he : Agree (e.dynamicTerm n) (e.dynamicTerm n')) :
    Agree (e.term n) (e.term n') := by
  rw [term_eq, term_eq, isStatic_eq h, h.static_eq]
  split
  · exact agree_liftExcept _
  · exact he

omit h in
theorem agree_termAll {es : List Expr} (he : ∀ e ∈ es, Agree (e.term n) (e.term n')) :
    Agree (termAll n es) (termAll n' es) := by
  induction es with
  | nil => exact agree_pure _
  | cons e es ih =>
    refine agree_bind (he e (.head _)) fun t => ?_
    exact agree_bind (ih fun x hx => he x (.tail _ hx)) fun _ => agree_pure _

omit h in
theorem agree_termOpt {e : Option Expr} (he : ∀ x ∈ e, Agree (x.term n) (x.term n')) :
    Agree (termOpt n e) (termOpt n' e) := by
  cases e with
  | none => exact agree_pure _
  | some e => exact agree_bind (he e rfl) fun _ => agree_pure _

/-- **The term of an expression** depends on what names mean, and on nothing else. -/
theorem agree_term (e : Expr) : Agree (e.term n) (e.term n') := by
  induction e using Expr.induct with refine agree_term_of_dynamic h ?_
  | literal | text => exact agree_throw _ _
  | name l x =>
    simp only [dynamicTerm, h.symbol_eq]
    split
    · refine agree_bind (n.agree_callee h _ _ _ _ _) fun m => ?_
      exact agree_bind (agree_use _) fun _ => agree_pure _
    · exact agree_bind (n.agree_variableOf h _ _ _) fun v => agree_pure _
  | member l object index x hi =>
    refine agree_bind (n.agree_callee h _ _ _ _ _) fun m => ?_
    refine agree_bind (agree_termOpt hi) fun i => ?_
    exact agree_bind (agree_use _) fun _ => agree_pure _
  | index l base i hi =>
    refine agree_bind hi fun i => ?_
    exact agree_bind (n.agree_variableOf h _ _ _) fun v => agree_pure _
  | unary l op operand ih => exact agree_bind ih fun t => agree_pure _
  | binary l op left right ihl ihr =>
    refine agree_bind ihl fun x => ?_
    exact agree_bind ihr fun y => agree_pure _
  | ternary l c yes no ihc ihy ihn =>
    refine agree_bind ihc fun x => ?_
    exact agree_bind ihy fun y => agree_bind ihn fun z => agree_pure _
  | addressOf l operand _ hi =>
    cases operand with
    | name inner x => exact agree_bind (n.agree_variableOf h _ _ _) fun v => agree_pure _
    | index inner base i =>
      refine agree_bind (hi _ _ _ rfl) fun i => ?_
      exact agree_bind (n.agree_variableOf h _ _ _) fun v => agree_pure _
    | _ => exact agree_throw _ _
  | call l object index method arguments hi ha =>
    refine agree_bind (n.agree_callee h _ _ _ _ _) fun m => ?_
    refine agree_bind (agree_termAll ha) fun args => agree_bind (agree_termOpt hi) fun i => ?_
    exact agree_bind (agree_use _) fun _ => agree_pure _

theorem agree_target (e : Expr) : Agree (e.target n) (e.target n') := by
  cases e with
  | name | index => exact agree_bind (n.agree_variableOf h _ _ _) fun v => agree_pure _
  | _ => exact agree_throw _ _

end Expr

end Alike

/-! ### Meanings in a method -/

/-- What names mean in a frame of a draft. -/
def Draft.names (d : Draft) (scope : ScopeId) : Names :=
  { scopes := d.scopes, scope, links := d.links,
    labelKind := fun line => (List.lookup line d.labelKinds).getD .long }

/-- **Names mean the same** in every draft that extends one in which they have been declared. -/
theorem Draft.Extends.alike {base d : Draft} {scopes labels : Nat} (hd : base.Declared scopes labels)
    (h : base.Extends d) {scope : ScopeId} (hs : scope < base.scopes.frames.size) :
    (base.names scope).Alike (d.names scope) where
  bound_eq x := Scopes.KeptIn.symbol?_eq hd.within h.frame_eq hs x
  symbol_eq x := Scopes.KeptIn.resolve_eq hd.within h.frame_eq hs x
  static_eq e := by
    have hk : (base.names scope).scopes.KeptIn (d.names scope).scopes := h.frame_eq
    exact Expr.staticTerm_eq hd.within hk rfl hs e
  links_eq := h.links_eq
  kind_eq x line hx := by
    have hline : line < base.addresses.table.size := hd.within.resolve hx
    exact congrArg (Option.getD · .long) (h.kind_eq line hline)

namespace Expr

variable (n : Names)

/-- The term of an expression. -/
def termIn (e : Expr) : Term := (e.term n).value

/-- What an assignment writes to. -/
def targetIn (e : Expr) : Variable × Option Expr := (e.target n).value

section Yields

variable {n n' : Names} (h : n'.Alike n)

include h

theorem yields_termIn (e : Expr) : Yields (e.term n') (· = e.termIn n) :=
  fun _ _ _ ht => ((e.agree_term h).value_eq ht).symm

theorem yields_termAllIn (es : List Expr) : Yields (termAll n' es) (· = es.map (·.termIn n)) := by
  induction es with
  | nil => exact yields_pure rfl
  | cons e es ih =>
    refine yields_bind (yields_termIn h e) fun t ht => yields_bind ih fun ts hts => ?_
    exact yields_pure (by rw [ht, hts]; rfl)

theorem yields_termOptIn (e : Option Expr) : Yields (termOpt n' e) (· = e.map (·.termIn n)) := by
  cases e with
  | none => exact yields_pure rfl
  | some e => exact yields_bind (yields_termIn h e) fun t ht => yields_pure (by rw [ht]; rfl)

theorem yields_targetIn (e : Expr) : Yields (e.target n') (· = e.targetIn n) :=
  fun _ _ _ ht => ((e.agree_target h).value_eq ht).symm

end Yields

end Expr

/-- The label of a choice. -/
def CaseLabel.labelIn (n : Names) : CaseLabel → Label
  | value e        => .value (e.termIn n)
  | range low high => .range (low.termIn n) (high.termIn n)

namespace Names

variable (n : Names)

/-- The command for an assignment. -/
def assignment (target : Expr) (op : Option BinaryOp) (value : Expr) : Command :=
  let (v, index) := target.targetIn n
  .assign v (index.map (·.termIn n)) op (value.termIn n)

/-- The command for a call whose results are dropped. -/
def invocation (location : Location) (object : Option (Located Identifier)) (index : Option Expr)
    (method : Located Identifier) (arguments : List Expr) : Command :=
  .invoke (n.callee object method arguments.length false location).value
    (arguments.map (·.termIn n)) (index.map (·.termIn n))

/-- The command for an expression that stands alone. -/
def alone (location : Location) : Expr → Command
  | .call _ object index method arguments => n.invocation location object index method arguments
  | .name l x =>
    match n.scopes.symbol? n.scope x with
    | some (.method _) => n.invocation location none none ⟨x, l⟩ []
    | _                => .discard ((Expr.name l x).termIn n)
  | e => .discard (e.termIn n)

end Names

end Propeller
