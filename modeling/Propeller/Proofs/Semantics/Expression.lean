import Propeller.Proofs.Compile.CalledMethods
import Propeller.Proofs.Compile.Instructions
import Propeller.Proofs.Semantics.Evaluation

/-!
# Semantics — the values of expressions

An expression has a value as it is written (`Expr.eval`): operands are evaluated from the left, of a
choice only the side that is selected, and what is constant is the number that its definition gives it,
without regard to how terms are made or where their code stands.  Names mean what they mean in a method.
An expression may have no value, if a name in it means nothing or a constant cannot be computed; so
evaluation is a `Trial`.

Where the code of an expression stands in a program, the interpreter leaves its value on the stack
(`Expr.code_leaves_value`).  There is one place at which the order of evaluation is not the one in which an
expression is written: the index of a call, which says to which of several children it goes, stands in
front of the arguments and is evaluated behind them (`index_behind_arguments`).
-/

namespace Propeller

open Machine

/-! ### Trials -/

/-- Something that may fail, and otherwise happens after a history and gives something. -/
def Trial (α : Type) : Type := History → Option (α × History)

namespace Trial

variable {α β : Type}

instance monad : Monad Trial where
  pure a := fun h => some (a, h)
  bind x f := fun h => (x h).bind fun r => f r.1 r.2

/-- What is known, if it is. -/
def known (o : Option α) : Trial α := fun h => o.map fun a => (a, h)

/-- Something that does not fail. -/
def act (x : Act α) : Trial α := fun h => some (x h)

/-- The number that an instruction leaves. -/
def answer (w : World) (c : Code) (operands : List Long) : Trial Long := do
  return (← act (w.operate c operands)) 0

theorem bind_of_eq_some {x : Trial α} {f : α → Trial β} {h : History} {r : α × History}
    (hx : x h = some r) : (x >>= f) h = f r.1 r.2 :=
  congrArg (Option.bind · _) hx

theorem known_some (a : α) (f : α → Trial β) : known (some a) >>= f = f a := rfl

end Trial

/-! ### What is written -/

namespace Names

variable (n : Names)

/-- The variable that a name stands for. -/
def place? (name : Identifier) : Option Variable :=
  match n.symbol? name with
  | some (.localVar v)  => some ⟨.localVar v, v.kind⟩
  | some (.objectVar v) => some ⟨.objectVar v, v.kind⟩
  | some (.label line)  => some ⟨.dat (.hubLabel line), n.labelKind line⟩
  | some (.register a)  => some ⟨.register (.register a), .long⟩
  | _                   => none

/-- The method that a name stands for. -/
def method? (name : Identifier) : Option Method :=
  match n.symbol? name with
  | some (.method m) => some m
  | _                => none

end Names

/-- The name under which a method of the object itself or of a child is looked up. -/
def calledName (object : Option (Located Identifier)) (method : Located Identifier) : Identifier :=
  match object with
  | none   => method.value
  | some o => o.value.qualified method.value

namespace Expr

section Eval

variable (w : World) (env : Environment) (indexFirst : Bool) (n : Names)

/-- The value of a constant expression: the low 32 bits of the number that it is. -/
def numberValue (e : Expr) : Trial Long := do
  let value ← Trial.known (e.lower n.scopes n.scope).toOption
  let number ← Trial.known (value.eval env).toOption
  let _ ← Trial.act (w.operate (.constant value) [])
  return lowWord number.long

mutual

/-- The value of an expression, in which the index of a call is evaluated before the arguments or behind
them. -/
def eval (e : Expr) : Trial Long :=
  if e.isStatic n then e.numberValue w env n
  else match e with
  | name _ x =>
    match n.method? x with
    | some m => Trial.answer w (.call m false) []
    | none   => do
      let v ← Trial.known (n.place? x)
      Trial.answer w (v.instruction false .read) []
  | member _ object i x => do
    let m ← Trial.known (n.method? (calledName (some object) x))
    let j ← evalOpt i
    Trial.answer w (.call m i.isSome) j
  | index _ base i => do
    let x ← i.eval
    let v ← Trial.known (n.place? base.value)
    Trial.answer w (v.instruction true .read) [x]
  | unary _ op operand => do
    let x ← operand.eval
    Trial.answer w (.op (.unary op)) [x]
  | binary _ op left right => do
    let x ← left.eval
    let y ← right.eval
    Trial.answer w (.op (.binary op)) [y, x]
  | ternary _ condition yes no => do
    if (← condition.eval) = 0 then no.eval else yes.eval
  | addressOf _ (name _ x) => do
    let v ← Trial.known (n.place? x)
    Trial.answer w (v.instruction false .address) []
  | addressOf _ (index _ base i) => do
    let x ← i.eval
    let v ← Trial.known (n.place? base.value)
    Trial.answer w (v.instruction true .address) [x]
  | call _ object i method arguments => do
    let m ← Trial.known (n.method? (calledName object method))
    if indexFirst then
      let j ← evalOpt i
      let xs ← evalAll arguments
      Trial.answer w (.call m i.isSome) (j ++ xs)
    else
      let xs ← evalAll arguments
      let j ← evalOpt i
      Trial.answer w (.call m i.isSome) (j ++ xs)
  | _ => Trial.known none

/-- The values of several expressions, the last one first. -/
def evalAll : List Expr → Trial (List Long)
  | []      => return []
  | e :: es => do
    let x ← e.eval
    let xs ← evalAll es
    return xs ++ [x]

/-- The value of an expression that may be missing. -/
def evalOpt : Option Expr → Trial (List Long)
  | none   => return []
  | some e => do return [← e.eval]

end

end Eval

end Expr

/-! ### Constants in code -/

/-- Every constant in some code has a value. -/
def Listing.Resolved (env : Environment) (l : Listing) : Prop :=
  ∀ value, Entry.code (.constant value) ∈ l → ∃ x, value.eval env = .ok x

/-- An entry is no constant, or one that has a value. -/
def Entry.isResolved (env : Environment) : Entry → Bool
  | .code (.constant value) => (value.eval env).isOk
  | _                       => true

namespace Listing.Resolved

variable {env : Environment} {l l' : Listing}

theorem of_all (h : l.all (·.isResolved env) = true) : Resolved env l := by
  intro value hv
  have hok : (value.eval env).isOk = true := List.all_eq_true.mp h _ hv
  cases hx : value.eval env with
  | ok x => exact ⟨x, rfl⟩
  | error e =>
    rw [hx] at hok
    cases hok

theorem left (h : Resolved env (l ++ l')) : Resolved env l :=
  fun value hv => h value (List.mem_append_left _ hv)

theorem right (h : Resolved env (l ++ l')) : Resolved env l' :=
  fun value hv => h value (List.mem_append_right _ hv)

end Listing.Resolved

/-! ### Values of expressions and of their terms -/

/-- The world answers a constant with its low 32 bits. -/
def World.Knows (w : World) (env : Environment) : Prop :=
  ∀ h value x, value.eval env = .ok x →
    w.answer h (.operation (.constant value) []) 0 = lowWord x.long

namespace Names

variable (n : Names)

/-- The method that is called. -/
theorem yields_method? (object : Option (Located Identifier)) (method : Located Identifier)
    (given : Nat) (wanted : Bool) (location : Location) :
    Yields (n.callee object method given wanted location) fun m =>
      n.method? (calledName object method) = some m := by
  refine (n.yields_callee object method given wanted location).weaken fun m hm => ?_
  have hsymbol : n.symbol? (calledName object method) = some (.method m) := hm.symbol_eq
  rw [method?, hsymbol]

/-- The variable that is read or written. -/
theorem yields_place? (name : Identifier) (indexed : Bool) (location : Location) :
    Yields (n.variableOf name indexed location) fun v =>
      n.place? name = some v ∧ n.method? name = none := by
  unfold variableOf place? method?
  cases n.symbol? name with
  | none => exact yields_throw _
  | some e =>
    cases e with
    | localVar | objectVar => exact yields_bind (yields_any _) fun _ _ => yields_pure ⟨rfl, rfl⟩
    | label line => exact yields_pure ⟨rfl, rfl⟩
    | register a =>
      cases indexed with
      | true => exact yields_throw _
      | false => exact yields_pure ⟨rfl, rfl⟩
    | _ => exact yields_throw _

end Names

namespace Expr

variable {w : World} {env : Environment} {n : Names}

/-- An expression has the value that a term has. -/
def ValueOf (w : World) (env : Environment) (n : Names) (e : Expr) (t : Term) : Prop :=
  ∀ h, e.eval w env false n h = some (t.eval w h)

/-- An expression has the value that its terms have. -/
def Valued (w : World) (env : Environment) (n : Names) (e : Expr) : Prop :=
  Yields (e.term n) fun t => ∀ base, Listing.Resolved env (t.code base) → e.ValueOf w env n t

theorem eval_static {indexFirst : Bool} {e : Expr} (h : e.isStatic n = true) :
    e.eval w env indexFirst n = e.numberValue w env n := by
  rw [eval.eq_def, if_pos h]

/-- The value of a constant is the number that it is. -/
theorem valueOf_static (hw : w.Knows env) {e : Expr} (hs : e.isStatic n = true) {t : Term}
    (ht : e.staticTerm n = .ok t) (base : LineId) (hr : Listing.Resolved env (t.code base)) :
    e.ValueOf w env n t := by
  intro h
  obtain ⟨value, hlower, hvalue⟩ := bind_eq_ok ht
  obtain rfl : t = .constant value := by
    split at hvalue
    · exact (Except.ok.inj hvalue).symm
    · exact (Except.ok.inj hvalue).symm
    · cases hvalue
  obtain ⟨x, hx⟩ := hr value (.head _)
  rw [eval_static hs, numberValue, hlower, toOption_ok, Trial.known_some, hx, toOption_ok,
    Trial.known_some]
  exact congrArg (fun v => some (v, _)) (hw h value x hx).symm

/-- Constants are settled, so that only other expressions need to be looked at. -/
theorem valued_of_dynamic (hw : w.Knows env) {e : Expr}
    (h : ¬e.isStatic n = true → Yields (e.dynamicTerm n) fun t =>
      ∀ base, Listing.Resolved env (t.code base) → e.ValueOf w env n t) : e.Valued w env n := by
  rw [Valued, term_eq]
  split
  · next hs => exact yields_liftExcept fun t ht => valueOf_static hw hs ht
  · next hs => exact h hs

theorem valued_all {es : List Expr} (hes : ∀ e ∈ es, e.Valued w env n) :
    Yields (termAll n es) fun ts => ∀ base, Listing.Resolved env (Term.codeAll base ts) →
      ∀ h, evalAll w env false n es h = some (Term.evalAll w ts h) := by
  induction es with
  | nil => exact yields_pure fun _ _ h => rfl
  | cons e es ih =>
    refine yields_bind (hes e (.head _)) fun t ht => ?_
    refine yields_bind (ih fun x hx => hes x (.tail _ hx)) fun ts hts => yields_pure ?_
    intro base hr h
    refine (Trial.bind_of_eq_some (ht _ hr.left h)).trans ?_
    exact Trial.bind_of_eq_some (hts _ hr.right _)

theorem valued_opt {e : Option Expr} (he : ∀ x ∈ e, x.Valued w env n) :
    Yields (termOpt n e) fun t => t.isSome = e.isSome ∧ ∀ base, Listing.Resolved env (Term.codeOpt base t) →
      ∀ h, evalOpt w env false n e h = some (Term.evalOpt w t h) := by
  cases e with
  | none => exact yields_pure ⟨rfl, fun _ _ h => rfl⟩
  | some e =>
    refine yields_bind (he e rfl) fun t ht => yields_pure ⟨rfl, fun base hr h => ?_⟩
    exact Trial.bind_of_eq_some (ht base hr h)

/-- **The value of an expression** is that of its term. -/
theorem valued (hw : w.Knows env) (e : Expr) : e.Valued w env n := by
  induction e using Expr.induct with refine valued_of_dynamic hw fun hs => ?_
  | literal | text => exact yields_throw _
  | name l x =>
    simp only [dynamicTerm]
    split
    · refine yields_bind (n.yields_method? _ _ _ _ _) fun m hm => ?_
      refine yields_bind (yields_any _) fun _ _ => yields_pure fun _ _ h => ?_
      have hmethod : n.method? x = some m := hm
      rw [eval.eq_def, if_neg hs]
      simp only [hmethod]
      rfl
    · refine yields_bind (n.yields_place? _ _ _) fun v hv => yields_pure fun _ _ h => ?_
      rw [eval.eq_def, if_neg hs]
      simp only [hv.1, hv.2]
      rfl
  | member l object index x hi =>
    refine yields_bind (n.yields_method? _ _ _ _ _) fun m hm => ?_
    refine yields_bind (valued_opt hi) fun t ht => ?_
    refine yields_bind (yields_any _) fun _ _ => yields_pure fun base hr h => ?_
    rw [eval.eq_def, if_neg hs]
    simp only [hm, Trial.known_some, ← ht.1, Term.eval, Term.evalAll, Act.bind_apply, Act.pure_apply,
      List.append_nil]
    exact Trial.bind_of_eq_some (ht.2 _ hr.left.right h)
  | index l base i hi =>
    refine yields_bind hi fun t ht => ?_
    refine yields_bind (n.yields_place? _ _ _) fun v hv => yields_pure fun base hr h => ?_
    rw [eval.eq_def, if_neg hs]
    simp only [hv.1, Trial.known_some]
    exact Trial.bind_of_eq_some (ht _ hr.left h)
  | unary l op operand ih =>
    refine yields_bind ih fun t ht => yields_pure fun base hr h => ?_
    rw [eval.eq_def, if_neg hs]
    exact Trial.bind_of_eq_some (ht _ hr.left h)
  | binary l op left right ihl ihr =>
    refine yields_bind ihl fun t ht => ?_
    refine yields_bind ihr fun t' ht' => yields_pure fun base hr h => ?_
    rw [eval.eq_def, if_neg hs]
    refine (Trial.bind_of_eq_some (ht _ hr.left.left h)).trans ?_
    exact Trial.bind_of_eq_some (ht' _ hr.left.right _)
  | ternary l c yes no ihc ihy ihn =>
    refine yields_bind ihc fun t ht => ?_
    refine yields_bind ihy fun y hy => yields_bind ihn fun z hz => yields_pure fun base hr h => ?_
    rw [eval.eq_def, if_neg hs]
    have hno := hr.left
    have hyes := hno.left.left
    refine (Trial.bind_of_eq_some (ht _ hyes.left.left h)).trans ?_
    simp only [Term.eval, Act.bind_apply]
    by_cases hc : (t.eval w h).1 = 0
    · simp only [if_pos hc]
      exact hz _ hno.right _
    · simp only [if_neg hc]
      exact hy _ hyes.right _
  | addressOf l operand _ hi =>
    cases operand with
    | name inner x =>
      refine yields_bind (n.yields_place? _ _ _) fun v hv => yields_pure fun _ _ h => ?_
      rw [eval.eq_def, if_neg hs]
      simp only [hv.1, Trial.known_some]
      rfl
    | index inner base i =>
      refine yields_bind (hi _ _ _ rfl) fun t ht => ?_
      refine yields_bind (n.yields_place? _ _ _) fun v hv => yields_pure fun base hr h => ?_
      rw [eval.eq_def, if_neg hs]
      simp only [hv.1, Trial.known_some]
      exact Trial.bind_of_eq_some (ht _ hr.left h)
    | _ => exact yields_throw _
  | call l object index method arguments hi ha =>
    refine yields_bind (n.yields_method? _ _ _ _ _) fun m hm => ?_
    refine yields_bind (valued_all ha) fun ts hts => yields_bind (valued_opt hi) fun t ht => ?_
    refine yields_bind (yields_any _) fun _ _ => yields_pure fun base hr h => ?_
    rw [eval.eq_def, if_neg hs]
    simp only [hm, Trial.known_some, ← ht.1, Bool.false_eq_true, if_false]
    refine (Trial.bind_of_eq_some (hts _ hr.left.left.right h)).trans ?_
    exact Trial.bind_of_eq_some (ht.2 _ hr.left.right _)

/-- **The code of an expression leaves its value on the stack**, wherever it stands in a program. -/
theorem code_leaves_value {program rest : Listing} (hn : (Listing.marks program).Nodup) (hw : w.Knows env)
    {e : Expr} {t : Term} {u u' : Uses} (ht : e.term n u = .ok t u') {base : LineId}
    (hsuffix : (t.code base ++ rest) <:+ program) (hr : Listing.Resolved env (t.code base))
    (stack : List Item) (anchors : List Bool) (h : History) :
    ∃ v h', e.eval w env false n h = some (v, h') ∧
      Reaches w program ⟨some (t.code base ++ rest), stack, anchors, h⟩
        ⟨some rest, .long v :: stack, anchors, h'⟩ := by
  refine ⟨_, _, e.valued hw u t u' ht base hr h, ?_⟩
  exact t.reaches_code hn base rest stack anchors h (e.yields_term n u t u' ht) hsuffix

end Expr

/-! ### In which order -/

/-- A world in which constants have their values, and anything else is answered with how much has happened
before, followed by the operands as digits. -/
def World.counting (env : Environment) : World where
  answer h e _ :=
    match e with
    | .operation (.constant value) _ => ((value.eval env).toOption.map fun x => lowWord x.long).getD 0
    | .operation _ operands          => operands.foldl (fun n x => 10 * n + x) (BitVec.ofNat 32 h.length)
    | _                              => 0
  inRange _ _ _ := false

theorem World.knows_counting (env : Environment) : (World.counting env).Knows env := by
  intro h value x hx
  have hanswer : (counting env).answer h (.operation (.constant value) []) 0 =
      ((value.eval env).toOption.map fun x => lowWord x.long).getD 0 := rfl
  rw [hanswer, hx]
  rfl

/-- The names of an object with a variable `x`, methods `first` and `second`, and children `kid` that have
a method `sum` with one parameter. -/
def Names.ofKids : Names where
  scopes := ⟨#[{ symbols := [
    (⟨"x"⟩, .objectVar { id := 0, name := ⟨"x"⟩, kind := .long, count := 4 }),
    (⟨"first"⟩, .method { id := 0, name := ⟨"first"⟩, parameters := 0, returns := 1 }),
    (⟨"second"⟩, .method { id := 1, name := ⟨"second"⟩, parameters := 0, returns := 1 }),
    (⟨"kid.sum"⟩, .method
      { id := 2, name := ⟨"kid.sum"⟩, parameters := 1, returns := 1, link := some ⟨0, 0⟩ })] }]⟩
  scope := 0
  links := ⟨[{ name := ⟨"kid"⟩, image := default, count := 2, index := 0 }]⟩
  labelKind _ := .long

namespace Expr

/-- `(x ? kid[first].sum(x[1 + 2]) : -second) * 2`. -/
def chosenCall : Expr :=
  let number (v : Int64) : Expr := .literal {} (Literal.ofInt v)
  .binary {} (.integer .mul)
    (.ternary {} (.name {} ⟨"x"⟩)
      (.call {} (some ⟨⟨"kid"⟩, {}⟩) (some (.name {} ⟨"first"⟩)) ⟨⟨"sum"⟩, {}⟩
        [.index {} ⟨⟨"x"⟩, {}⟩ (.binary {} (.integer .add) (number 1) (number 2))])
      (.unary {} .negate (.name {} ⟨"second"⟩)))
    (number 2)

/-- An operator on a choice between a call, with an index and a constant in it, and an operator; the answers
count what has happened before, so that the value shows the order of evaluation. -/
theorem code_leaves_value_chosenCall :
    ∃ t u', chosenCall.term .ofKids [] = .ok t u' ∧
      ∃ v h', chosenCall.eval (.counting default) default false .ofKids [.advance []] = some (v, h') ∧
        Reaches (.counting default) (t.code 0) ⟨some (t.code 0), [], [], [.advance []]⟩
          ⟨some [], [.long v], [], h'⟩ ∧ v = 1293 := by
  refine ⟨_, _, rfl, ?_⟩
  obtain ⟨v, h', hvalue, hreaches⟩ := @code_leaves_value (.counting default) default .ofKids _ []
    (by decide) (World.knows_counting default) chosenCall _ [] _ rfl 0 (List.suffix_refl _)
    (.of_all (by decide)) [] [] [.advance []]
  refine ⟨v, h', hvalue, hreaches, ?_⟩
  have hdigits : (chosenCall.eval (.counting default) default false .ofKids [.advance []]).map Prod.fst =
      some 1293 := by decide +kernel
  rw [hvalue] at hdigits
  exact Option.some.inj hdigits

/-- `kid[first].sum(second)`. -/
def callOfIndexed : Expr :=
  .call {} (some ⟨⟨"kid"⟩, {}⟩) (some (.name {} ⟨"first"⟩)) ⟨⟨"sum"⟩, {}⟩ [.name {} ⟨"second"⟩]

/-- The index of a call is evaluated behind the arguments, although it is written in front of them: what
the code leaves on the stack at its end is not the value from left to right. -/
theorem index_behind_arguments :
    ∃ t u', callOfIndexed.term .ofKids [] = .ok t u' ∧
      ∃ v h', Reaches (.counting default) (t.code 0) ⟨some (t.code 0), [], [], []⟩
          ⟨some [], [.long v], [], h'⟩ ∧
        (callOfIndexed.eval (.counting default) default true .ofKids []).map Prod.fst ≠ some v := by
  refine ⟨_, _, rfl, ?_⟩
  have hreaches := @Term.reaches_code (.counting default) _ (by decide) _ 0 [] [] [] []
    (callOfIndexed.yields_term .ofKids [] _ _ rfl) (List.suffix_refl _)
  exact ⟨_, _, hreaches, by decide +kernel⟩

end Expr

end Propeller
