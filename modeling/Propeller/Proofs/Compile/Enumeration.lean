import Propeller.Proofs.Compile.Inline
import Propeller.Proofs.Expression.Derivation

/-!
# Compile — the values of an enumeration

The items of an enumeration are bound to sums that are not evaluated yet: the first value, and what each item
before adds to it (`Expression.plus`).  An item adds its own step, or that of the enumeration.

* `Compile.enumerate_binds`: what the items are bound to.
* `Compile.enumeration_values`: what these sums are worth wherever their parts are integers.
-/

namespace Propeller

namespace Expression

/-- An expression with others added to it, from left to right. -/
def plus (first : Expression) (increments : List Expression) : Expression :=
  increments.foldl (.binary (.integer .add)) first

/-- A sum of integers is an integer, in 64 bits. -/
theorem eval_plus {env : Environment} {first : Expression} {v : Int64} {increments : List Expression}
    {steps : List Int64} (hfirst : first.evalInt env = .ok v)
    (hsteps : List.Forall₂ (fun e s => e.evalInt env = .ok s) increments steps) :
    (first.plus increments).eval env = .ok (.int (steps.foldl (· + ·) v)) := by
  have hint {e : Expression} {s : Int64} (h : e.evalInt env = .ok s) : e.eval env = .ok (.int s) := by
    obtain ⟨n, hn, h⟩ := bind_eq_ok h
    cases n with
    | float x => cases h
    | int w =>
      cases h
      exact hn
  induction hsteps generalizing first v with
  | nil => exact hint hfirst
  | @cons e s _ _ he _ ih =>
    have hsum : (binary (.integer .add) first e).evalInt env = .ok (v + s) := by
      rw [evalInt, eval, evalAt_binary, ← eval, ← eval, hint hfirst, hint he]
      rfl
    exact ih hsum

end Expression

namespace Compile

/-- What the items of an enumeration are bound to: the first one to an expression, and each other one to that of the
item before it and an increment. -/
def sums (first : Expression) (increments : List Expression) (items : List EnumItem) :
    List (Identifier × Expression) :=
  items.mapIdx fun k item => (item.name.value, first.plus (increments.take k))

theorem sums_cons (first increment : Expression) (increments : List Expression) (item : EnumItem)
    (items : List EnumItem) :
    sums first (increment :: increments) (item :: items) =
      (item.name.value, first) :: sums (.binary (.integer .add) first increment) increments items := by
  simp only [sums, List.mapIdx_cons]
  rfl

/-- An expression is the one for what is written, or a default where nothing is. -/
def Means (s : Scopes) (default : Expression) (written : Option Expr) (e : Expression) : Prop :=
  match written with
  | none   => e = default
  | some w => w.lower s objectScope = .ok e

variable {d d' : Draft} {e : Expression} {items : List EnumItem}

theorem lower_eq_ok {w : Expr} (h : lower w d = .ok e d') : w.lower d.scopes objectScope = .ok e ∧ d' = d :=
  liftExcept_eq_ok h

theorem lowerOr_eq_ok {default : Int64} {written : Option Expr} (h : lowerOr default written d = .ok e d') :
    Means d.scopes (.int default) written e ∧ d' = d := by
  cases written with
  | none =>
    cases h
    exact ⟨rfl, rfl⟩
  | some w => exact lower_eq_ok h

/-- **What the items are bound to.**  An increment is made from the step of its item when the items up to it have been
bound. -/
theorem enumerate_binds {step current : Expression} (h : enumerate step current items d = .ok () d') :
    ∃ increments, increments.length = items.length ∧
      (∀ k item e, items[k]? = some item → increments[k]? = some e →
        Means (Scopes.addSymbols objectScope ((sums current increments items).take (k + 1)) d.scopes).1 step
          item.step e) ∧
      d'.scopes = (Scopes.addSymbols objectScope (sums current increments items) d.scopes).1 ∧
      d'.constants = d.constants ++ items.map EnumItem.name := by
  induction items generalizing current d with
  | nil =>
    cases h
    exact ⟨[], rfl, by simp, rfl, by simp⟩
  | cons item items ih =>
    obtain ⟨_, d₁, hfirst, h⟩ := bind_eq_ok h
    obtain ⟨_, d₀, hdefine, hfirst⟩ := bind_eq_ok hfirst
    rw [define_eq_ok] at hdefine
    cases hdefine
    cases hfirst
    obtain ⟨increment, hmeans, h⟩ : ∃ increment, Means (d.scopes.addSymbol objectScope item.name.value current) step
        item.step increment ∧ enumerate step (.binary (.integer .add) current increment) items _ = .ok () d' := by
      cases hstep : item.step with
      | none =>
        rw [hstep] at h
        exact ⟨step, rfl, h⟩
      | some w =>
        rw [hstep] at h
        obtain ⟨increment, d₂, hlower, hrest⟩ := bind_eq_ok h
        obtain ⟨hmeans, rfl⟩ := lower_eq_ok hlower
        exact ⟨increment, hmeans, hrest⟩
    obtain ⟨increments, hlength, hincrements, hscopes, hconstants⟩ := ih h
    refine ⟨increment :: increments, by simp [hlength], ?_, ?_, ?_⟩
    · intro k item' e hitem he
      rw [sums_cons]
      cases k with
      | zero =>
        cases hitem
        cases he
        exact hmeans
      | succ k => exact hincrements k item' e hitem he
    · rw [sums_cons]
      exact hscopes
    · rw [hconstants, List.map_cons, List.append_cons]

/-- **The values of an enumeration.**  Let a declaration of an enumeration be taken in without an error.

* There are expressions for its start, 0 if there is none, for its step, 1 if there is none, and for what each item
  adds: the item's own step if it has one, and the step of the enumeration otherwise.
* The names are bound in the frame of the object, in order, each to the sum of the start and of what the items before
  it add.
* Wherever the start and the increments are integers, the name with number `k` is worth the start plus the first `k`
  of them, in 64 bits. -/
theorem enumeration_values {start step : Option Expr}
    (h : addConstants (.enumeration start step items) d = .ok () d') :
    ∃ first default increments, Means d.scopes (.int 0) start first ∧ Means d.scopes (.int 1) step default ∧
      increments.length = items.length ∧
      (∀ k item e, items[k]? = some item → increments[k]? = some e →
        Means (Scopes.addSymbols objectScope ((sums first increments items).take (k + 1)) d.scopes).1 default
          item.step e) ∧
      d'.scopes = (Scopes.addSymbols objectScope (sums first increments items) d.scopes).1 ∧
      d'.constants = d.constants ++ items.map EnumItem.name ∧
      ∀ env v steps, first.evalInt env = .ok v →
        List.Forall₂ (fun (e : Expression) s => e.evalInt env = .ok s) increments steps →
        ∀ (k : Nat) (item : EnumItem), items[k]? = some item →
          ∃ e : Expression, (sums first increments items)[k]? = some (item.name.value, e) ∧
            e.eval env = .ok (.int ((steps.take k).foldl (· + ·) v)) := by
  obtain ⟨first, d₁, hstart, h₁⟩ := bind_eq_ok h
  obtain ⟨default, d₂, hstep, h₂⟩ := bind_eq_ok h₁
  obtain ⟨hfirst, rfl⟩ := lowerOr_eq_ok hstart
  obtain ⟨hdefault, rfl⟩ := lowerOr_eq_ok hstep
  obtain ⟨increments, hlength, hincrements, hscopes, hconstants⟩ := enumerate_binds h₂
  refine ⟨first, default, increments, hfirst, hdefault, hlength, hincrements, hscopes, hconstants, ?_⟩
  intro env v steps hv hsteps k item hitem
  refine ⟨first.plus (increments.take k), ?_, Expression.eval_plus hv (List.forall₂_take k hsteps)⟩
  rw [sums, List.getElem?_mapIdx, hitem, Option.map_some]

/-- An enumeration from 5 on, whose first item has a step of its own, which is defined somewhere else. -/
def enumerationFromFive : ConstantDecl :=
  .enumeration (some (.literal {} (.ofInt 5))) none
    [⟨⟨⟨"A"⟩, {}⟩, some (.name {} ⟨"gap"⟩)⟩, ⟨⟨⟨"B"⟩, {}⟩, none⟩, ⟨⟨⟨"C"⟩, {}⟩, none⟩]

/-- Scopes with that step. -/
def gapOfThree : Environment := { scopes := (Draft.initial "t").scopes.addSymbol objectScope ⟨"gap"⟩ (.int 3) }

/-- Where the step is 3, the third item is 9. -/
theorem enumeration_values_gap :
    ∃ d' e, addConstants enumerationFromFive (Draft.initial "t") = .ok () d' ∧
      d'.scopes.symbol? objectScope ⟨"C"⟩ = some e ∧ e.eval gapOfThree = .ok (.int 9) := by
  have hrun : addConstants enumerationFromFive (Draft.initial "t") = .ok () _ := rfl
  obtain ⟨first, default, increments, hfirst, hdefault, hlength, hincrements, hscopes, -, hvalues⟩ :=
    enumeration_values hrun
  obtain ⟨a, b, c, rfl⟩ := List.length_eq_three.mp hlength
  cases hfirst
  cases hdefault
  cases hincrements 0 _ a rfl rfl
  cases hincrements 1 _ b rfl rfl
  cases hincrements 2 _ c rfl rfl
  obtain ⟨e, he, hvalue⟩ := hvalues gapOfThree 5 [3, 1, 1] rfl (.cons rfl (.cons rfl (.cons rfl .nil))) 2 _ rfl
  cases he
  exact ⟨_, _, hrun, rfl, hvalue⟩

end Compile

end Propeller
