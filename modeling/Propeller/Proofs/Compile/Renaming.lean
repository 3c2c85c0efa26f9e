import Propeller.Proofs.Compile.WellFormed

/-!
# Compile — names that stand for names

A constant that is written as a name, and a definition whose only token is a name, stand for that name.
So a chain of such links leads from a name to what the last one is bound to (`Scopes.Renames`).

Three things follow a chain, and each gives up at its own length.  `Scopes.resolve` looks through
`maxAliases` links, and `Expression.eval` through less than `maxDepth`; `Expr.isStatic` takes whatever
`resolve` has left over for a constant, also if it is a name again.

* `Renames.resolve`, `Renames.resolve_symbol`: what resolving a name gives, on chains that are short
  enough and on others.
* `Renames.eval`, `Renames.eval_recursive`: what evaluating it gives.
* `term_renamed`: the term of a name, for every length of the chain.
-/

namespace Propeller

variable {steps : Nat} {env : Environment} {y : Identifier}

/-! ### Chains -/

/-- A name from which a number of links, each bound to another name, lead to a target. -/
inductive Scopes.Renames (s : Scopes) (target : Expression) : Nat → ScopeId → Identifier → Prop
  | target {scope : ScopeId} {x : Identifier} (h : s.symbol? scope x = some target) :
      Renames s target 0 scope x
  | link {links : Nat} {scope scope' : ScopeId} {x y : Identifier}
      (h : s.symbol? scope x = some (.symbol scope' y)) (rest : Renames s target links scope' y) :
      Renames s target (links + 1) scope x

/-- What code reads or calls. -/
inductive Expression.Accessible : Expression → Prop
  | register (a : Nat) : Accessible (.register a)
  | objectVar (v : ObjectVar) : Accessible (.objectVar v)
  | localVar (v : LocalVar) : Accessible (.localVar v)
  | label (line : LabelId) : Accessible (.label line)
  | method (m : Method) : Accessible (.method m)

/-- What code reads, and what has a number as well: a register its own, and a label its address. -/
inductive Expression.Numbered : Expression → Prop
  | register (a : Nat) : Numbered (.register a)
  | label (line : LabelId) : Numbered (.label line)

namespace Expression

variable {target : Expression}

theorem Accessible.follow (ht : target.Accessible) (s : Scopes) (steps : Nat) :
    s.follow steps target = some target := by
  cases ht <;> cases steps <;> rfl

/-- No definition is nested in a target. -/
theorem Accessible.evalAt (ht : target.Accessible) (env : Environment) (depth : Nat) :
    target.evalAt env depth = target.eval env := by
  cases ht <;> cases depth <;> rfl

/-- A target without a number is not constant. -/
theorem Accessible.eval_eq_error (ht : target.Accessible) (hn : ¬target.Numbered)
    (env : Environment) : ∃ text, target.eval env = .error (.notConstant text) := by
  cases ht with
  | register a => exact absurd (.register a) hn
  | label line => exact absurd (.label line) hn
  | objectVar v | localVar v => exact ⟨v.name.spelling, rfl⟩
  | method m => exact ⟨m.name.spelling, rfl⟩

end Expression

namespace Scopes.Renames

variable {s : Scopes} {target : Expression} {links : Nat} {scope : ScopeId} {x : Identifier}

/-- The target is found if all links are followed. -/
theorem follow (h : s.Renames target links scope x) (ht : target.Accessible) (hle : links ≤ steps) :
    (s.symbol? scope x).bind (s.follow steps) = some target := by
  induction h generalizing steps with
  | target h => rw [h, Option.bind_some, ht.follow]
  | link h _ ih =>
    obtain ⟨steps, rfl⟩ := Nat.exists_eq_succ_of_ne_zero (Nat.ne_zero_of_lt hle)
    rw [h, Option.bind_some, Scopes.follow]
    exact ih (Nat.le_of_succ_le_succ hle)

/-- A name is left over if some are not. -/
theorem follow_symbol (h : s.Renames target links scope x) (hlt : steps < links) :
    ∃ scope' y, (s.symbol? scope x).bind (s.follow steps) = some (.symbol scope' y) := by
  induction h generalizing steps with
  | target h => cases hlt
  | @link links scope scope' x y h _ ih =>
    rw [h, Option.bind_some]
    cases steps with
    | zero => exact ⟨scope', y, rfl⟩
    | succ steps => exact ih (Nat.lt_of_succ_lt_succ hlt)

theorem resolve (h : s.Renames target links scope x) (ht : target.Accessible)
    (hle : links ≤ maxAliases) : s.resolve scope x = some target :=
  h.follow ht hle

theorem resolve_symbol (h : s.Renames target links scope x) (hlt : maxAliases < links) :
    ∃ scope' y, s.resolve scope x = some (.symbol scope' y) :=
  h.follow_symbol hlt

/-- Each link takes one level of nesting, and so does the target. -/
theorem evalAt (h : env.scopes.Renames target links scope x) (depth : Nat) :
    (Expression.symbol scope x).evalAt env (depth + links + 1) = target.evalAt env depth := by
  induction h with
  | target h => simp only [Expression.evalAt, Expression.evalWith, h]
  | link h _ ih =>
    rw [Expression.evalAt]
    simp only [Expression.evalWith, h]
    exact ih

theorem evalAt_recursive (h : env.scopes.Renames target links scope x) {depth : Nat}
    (hle : depth ≤ links) :
    ∃ y, (Expression.symbol scope x).evalAt env depth = .error (.recursive y) := by
  induction h generalizing depth with
  | @target scope x h =>
    obtain rfl := Nat.le_zero.mp hle
    exact ⟨x, rfl⟩
  | @link links scope scope' x y h _ ih =>
    cases depth with
    | zero => exact ⟨x, rfl⟩
    | succ depth =>
      rw [Expression.evalAt]
      simp only [Expression.evalWith, h]
      exact ih (Nat.le_of_succ_le_succ hle)

/-- A name has the value of its target. -/
theorem eval (h : env.scopes.Renames target links scope x) (ht : target.Accessible)
    (hlt : links < maxDepth) : (Expression.symbol scope x).eval env = target.eval env := by
  obtain ⟨depth, hdepth⟩ := Nat.exists_eq_add_of_lt hlt
  rw [Expression.eval, hdepth, Nat.add_comm links depth, h.evalAt, ht.evalAt]

theorem eval_recursive (h : env.scopes.Renames target links scope x) (hle : maxDepth ≤ links) :
    ∃ y, (Expression.symbol scope x).eval env = .error (.recursive y) :=
  h.evalAt_recursive hle

end Scopes.Renames

/-! ### Terms -/

namespace Expr

variable {n : Names} {target : Expression} {x : Identifier} {l : Location} {uses : Uses}

/-- A name that is resolved to what code reads or calls is not constant. -/
theorem term_of_accessible (ht : target.Accessible) (hx : n.symbol? x = some target) :
    (name l x).term n = (name l x).dynamicTerm n := by
  have hstatic : (name l x).isStatic n = false := by
    cases ht <;> simp only [isStatic, hx]
  rw [term_eq, hstatic]
  rfl

/-- The term of a name depends only on what the name is resolved to. -/
theorem term_eq_ok_of_symbol? {n' : Names} (ht : target.Accessible) (hx : n.symbol? x = some target)
    (hy : n'.symbol? y = some target) (hkind : n'.labelKind = n.labelKind) {t : Term} {uses' : Uses}
    (h : (name l x).term n uses = .ok t uses') : (name l y).term n' uses = .ok t uses' := by
  rw [term_of_accessible ht hx] at h
  rw [term_of_accessible ht hy]
  simp only [dynamicTerm, hx] at h
  simp only [dynamicTerm, hy]
  cases ht with
  | method m =>
    simp only [Names.callee_eq, Names.methodOf, hx] at h
    simp only [Names.callee_eq, Names.methodOf, hy]
    split at h
    · cases h
    · split at h
      · cases h
      · next hgiven hwanted =>
        rw [if_neg hgiven, if_neg hwanted]
        exact h
  | _ =>
    simp only [Names.variableOf, hx] at h
    simp only [Names.variableOf, hy, hkind]
    exact h

/-- A name that is resolved to a name is taken for a constant. -/
theorem term_of_symbol {scope' : ScopeId} (hx : n.symbol? x = some (.symbol scope' y)) :
    (name l x).term n = liftExcept ((name l x).staticTerm n) := by
  rw [term_eq, isStatic, hx]
  rfl

/-- The number of a register, and the address of a label, pass for a constant. -/
theorem staticTerm_of_numbered (hn : target.Numbered)
    (heval : (Expression.symbol n.scope x).eval { scopes := n.scopes } =
      target.eval { scopes := n.scopes }) :
    (name l x).staticTerm n = .ok (.constant (.symbol n.scope x)) := by
  have hvalue : (name l x).lower n.scopes n.scope = .ok (.symbol n.scope x) := rfl
  rw [staticTerm, hvalue, ok_bind, heval]
  cases hn with
  | register | label => rfl

theorem staticTerm_of_error {error : EvalError} (hne : error ≠ .unresolved)
    (heval : (Expression.symbol n.scope x).eval { scopes := n.scopes } = .error error) :
    (name l x).staticTerm n = .error ⟨.eval error, l⟩ := by
  have hvalue : (name l x).lower n.scopes n.scope = .ok (.symbol n.scope x) := rfl
  rw [staticTerm, hvalue, ok_bind, heval]
  cases error <;> first | rfl | exact absurd rfl hne

/-- What has a number is read where its name is resolved. -/
theorem term_of_numbered (hn : target.Numbered) (hx : n.symbol? x = some target) :
    ∃ v, (name l x).term n uses = .ok (.read v none) uses := by
  have ht : target.Accessible := by cases hn <;> constructor
  rw [term_of_accessible ht hx]
  simp only [dynamicTerm, Names.variableOf, hx]
  cases hn <;> exact ⟨_, rfl⟩

end Expr

/-- **How far renaming is transparent.**  A name from which links lead to a register, a variable, a label
or a method is compared with a name `y` that a frame binds to the same directly.

* Through at most `maxAliases` links the two compile to the same term and refer to the same, or both
  are refused.
* Through more links, but less than `maxDepth`, a register or a label is read under the name `y`,
  while `x` compiles to a constant, the number of the register or the address of the label.
* In all other cases `x` is refused. -/
theorem term_renamed {n : Names} {target : Expression} (htarget : target.Accessible) {links : Nat}
    {x : Identifier} (hx : n.scopes.Renames target links n.scope x) {scope : ScopeId} {y : Identifier}
    (hy : n.scopes.symbol? scope y = some target) (l : Location) (uses : Uses) :
    (links ≤ maxAliases → ∀ t uses', (Expr.name l x).term n uses = .ok t uses' ↔
      (Expr.name l y).term { n with scope } uses = .ok t uses') ∧
    (maxAliases < links → links < maxDepth → target.Numbered →
      (∃ v, (Expr.name l y).term { n with scope } uses = .ok (.read v none) uses) ∧
      (Expr.name l x).term n uses = .ok (.constant (.symbol n.scope x)) uses ∧
      ∀ env : Environment, env.scopes = n.scopes →
        (Expression.symbol n.scope x).eval env = target.eval env) ∧
    (maxAliases < links → maxDepth ≤ links ∨ ¬target.Numbered →
      ∃ error, (Expr.name l x).term n uses = .error error uses) := by
  have hdirect : Names.symbol? { n with scope } y = some target :=
    (Scopes.Renames.target hy).resolve htarget (Nat.zero_le _)
  refine ⟨fun hle t uses' => ?_, fun hlt hdepth hnumbered => ?_, fun hlt hrefused => ?_⟩
  · have hresolved : n.symbol? x = some target := hx.resolve htarget hle
    exact ⟨Expr.term_eq_ok_of_symbol? htarget hresolved hdirect rfl,
      Expr.term_eq_ok_of_symbol? htarget hdirect hresolved rfl⟩
  · obtain ⟨scope', z, hz⟩ := hx.resolve_symbol hlt
    have hvalue : ∀ env : Environment, env.scopes = n.scopes →
        (Expression.symbol n.scope x).eval env = target.eval env := by
      intro env henv
      rw [← henv] at hx
      exact hx.eval htarget hdepth
    refine ⟨Expr.term_of_numbered hnumbered hdirect, ?_, hvalue⟩
    rw [Expr.term_of_symbol hz, Expr.staticTerm_of_numbered hnumbered (hvalue _ rfl)]
    rfl
  · obtain ⟨scope', z, hz⟩ := hx.resolve_symbol hlt
    have hx' : ({ scopes := n.scopes } : Environment).scopes.Renames target links n.scope x := hx
    rw [Expr.term_of_symbol hz]
    -- a chain that is too long is refused before its target is seen
    by_cases hdepth : maxDepth ≤ links
    · obtain ⟨name, hname⟩ := hx'.eval_recursive hdepth
      rw [Expr.staticTerm_of_error (by simp) hname]
      exact ⟨_, rfl⟩
    · obtain ⟨text, htext⟩ := htarget.eval_eq_error (hrefused.resolve_left hdepth) _
      rw [Expr.staticTerm_of_error (by simp)
        ((hx'.eval htarget (Nat.lt_of_not_le hdepth)).trans htext)]
      exact ⟨_, rfl⟩

/-- A constant that is written as a definition, which stands for a register, is read as the register. -/
theorem term_renamed_outa :
    ∃ n : Names, n.scopes.Renames (.register 0x1FC) 2 n.scope ⟨"port"⟩ ∧
      ∃ v, (Expr.name {} ⟨"port"⟩).term n [] = .ok (.read v none) [] := by
  let defined := (Scopes.initial.push Scopes.root).addDefinition objectScope ⟨"pins"⟩ ["outa"]
  let n : Names :=
    { scopes := defined.addSymbol objectScope ⟨"port"⟩ (.symbol objectScope ⟨"pins"⟩)
      scope := objectScope, links := {}, labelKind := fun _ => .long }
  have hx : n.scopes.Renames (.register 0x1FC) 2 n.scope ⟨"port"⟩ := .link rfl (.link rfl (.target rfl))
  have hy : n.scopes.symbol? Scopes.root ⟨"outa"⟩ = some (.register 0x1FC) := rfl
  exact ⟨n, hx, _, ((term_renamed (.register _) hx hy {} []).1 (by decide) _ _).mpr rfl⟩

/-- The names of constants, each of which stands for the next one and the last for a register. -/
def registerAliases : List String :=
  ["a", "b", "c", "d", "e", "f", "g", "h", "i", "j", "k", "l", "m", "n", "o", "p", "q"]

/-- An object with these constants, and a method that takes the value of a name. -/
def readsThrough (name : String) : ObjectTree where
  name := "t"
  nodes :=
    [ .constants <| (registerAliases.zip (registerAliases.tail ++ ["outa"])).map fun (x, y) =>
        .assign ⟨⟨x⟩, {}⟩ (.name {} ⟨y⟩),
      .objectVars [{ kind := .long, name := ⟨⟨"x"⟩, {}⟩ }],
      .method
        { isPublic := true, name := ⟨⟨"main"⟩, {}⟩,
          body := [.assign (.name {} ⟨"x"⟩) none (.name {} ⟨name⟩)] } ]

/-- The bytes of the object, from the method on. -/
def codeOf (tree : ObjectTree) : Option Bytes :=
  (compile {} {} tree).image.map fun image => image.bytes.drop 8

/-- **Through seventeen links** the number of the register is taken in place of what is in it. -/
theorem number_for_register :
    codeOf (readsThrough "outa") = some [0x49, 0xFC, 0x03, 0x80, 0xB0, 0x81, 0x04] ∧
      codeOf (readsThrough "b") = some [0x49, 0xFC, 0x03, 0x80, 0xB0, 0x81, 0x04] ∧
      codeOf (readsThrough "a") = some [0x42, 0xFC, 0x01, 0xB0, 0x81, 0x04] := by
  decide +kernel

end Propeller
