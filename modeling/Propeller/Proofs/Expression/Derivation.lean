import Mathlib.Logic.Relation
import Propeller.Proofs.Outcome

/-!
# Expressions — values without a limit

What an expression is worth is said here by rules that know nothing of a limit: operators are applied to the
values of their operands, of a ternary the chosen arm is evaluated, and a symbol has the value of its definition.
A `Derivation` is a finite tree of such rules.

Evaluation follows definitions to a depth of `maxDepth`.  It finds exactly the values with a derivation in which
no more definitions than that are nested (`Derivation.evalAt_eq`, `exists_derivation`).  A derivation is finite,
so that nothing has one that leads back to itself (`Derivation.acc`); and the limit is what makes evaluation end in
that case too (`calls_wellFounded`).

`eval_exact` is the main statement.
-/

namespace Propeller

namespace Expression

/-- A derivation of the value of an expression. -/
inductive Derivation (env : Environment) : Expression → Number → Type
  | number (literal : Literal) : Derivation env (.number literal) literal.value
  | text {t : String} {v : Number} (value : textValue t = .ok v) : Derivation env (.text t) v
  | register (a : Nat) : Derivation env (.register a) (.int (Int64.ofNat a))
  | label {line : LabelId} {a : Address} (placed : env.addresses.get? line = some a) :
      Derivation env (.label line) (.int (Int64.ofInt a.address))
  | hubLabel {line : LabelId} {a : Address} (placed : env.addresses.get? line = some a) :
      Derivation env (.hubLabel line) (.int (Int64.ofInt a.object))
  | unary {op : UnaryOp} {e : Expression} {a v : Number} (operand : Derivation env e a)
      (value : op.apply a = .ok v) : Derivation env (.unary op e) v
  | binary {op : BinaryOp} {l r : Expression} {a b v : Number} (left : Derivation env l a)
      (right : Derivation env r b) (value : op.apply a b = .ok v) : Derivation env (.binary op l r) v
  | yes {c y n : Expression} {k : Int64} {v : Number} (condition : Derivation env c (.int k)) (chosen : k ≠ 0)
      (arm : Derivation env y v) : Derivation env (.ternary c y n) v
  | no {c y n : Expression} {v : Number} (condition : Derivation env c (.int 0))
      (arm : Derivation env n v) : Derivation env (.ternary c y n) v
  | symbol {scope : ScopeId} {name : Identifier} {e : Expression} {v : Number}
      (definition : env.scopes.symbol? scope name = some e) (value : Derivation env e v) :
      Derivation env (.symbol scope name) v

variable {env : Environment}

/-- How many definitions are nested in a derivation. -/
def Derivation.nesting {e : Expression} {v : Number} : Derivation env e v → Nat
  | .number _ | .text _ | .register _ | .label _ | .hubLabel _ => 0
  | .unary operand _       => operand.nesting
  | .binary left right _   => max left.nesting right.nesting
  | .yes condition _ arm   => max condition.nesting arm.nesting
  | .no condition arm      => max condition.nesting arm.nesting
  | .symbol _ value        => value.nesting + 1

/-! ### Evaluation at a depth -/

section EvalAt

variable (env) (depth : Nat)

theorem evalAt_unary (op : UnaryOp) (e : Expression) :
    evalAt env depth (.unary op e) = evalAt env depth e >>= op.apply := by
  cases depth <;> rfl

theorem evalAt_binary (op : BinaryOp) (l r : Expression) :
    evalAt env depth (.binary op l r) =
      evalAt env depth l >>= fun a => evalAt env depth r >>= fun b => op.apply a b := by
  cases depth <;> rfl

theorem evalAt_ternary (c y n : Expression) :
    evalAt env depth (.ternary c y n) =
      evalAt env depth c >>= fun a => a.toInt >>= fun k =>
        if k ≠ 0 then evalAt env depth y else evalAt env depth n := by
  cases depth <;> rfl

/-- A ternary whose condition is known has the value of the chosen arm. -/
theorem evalAt_ternary_of_int {c : Expression} {k : Int64} (h : evalAt env depth c = .ok (.int k))
    (y n : Expression) :
    evalAt env depth (.ternary c y n) = if k ≠ 0 then evalAt env depth y else evalAt env depth n := by
  have hint : (Number.int k).toInt = .ok k := rfl
  rw [evalAt_ternary, h, ok_bind, hint, ok_bind]

/-- No definition is entered at the limit. -/
theorem evalAt_symbol_zero (scope : ScopeId) (name : Identifier) :
    evalAt env 0 (.symbol scope name) = .error (.recursive name) := rfl

/-- A definition is evaluated one level deeper. -/
theorem evalAt_symbol_succ (scope : ScopeId) (name : Identifier) :
    evalAt env (depth + 1) (.symbol scope name) =
      (env.scopes.symbol? scope name).elim (.error (.undefined name)) (evalAt env depth) := by
  simp only [evalAt, evalWith]
  cases env.scopes.symbol? scope name <;> rfl

end EvalAt

/-! ### Derivations and evaluation -/

section Exact

variable {e : Expression} {v : Number} {depth : Nat}

/-- **A derivation within the limit** is found. -/
theorem Derivation.evalAt_eq (d : Derivation env e v) (h : d.nesting ≤ depth) :
    evalAt env depth e = .ok v := by
  induction d generalizing depth with
  | number | register => cases depth <;> rfl
  | text value => cases depth <;> exact value
  | label placed | hubLabel placed => cases depth <;> simp only [evalAt, evalWith, placed]
  | unary operand value ih => rw [evalAt_unary, ih h, ok_bind, value]
  | binary left right value ihl ihr =>
    obtain ⟨hl, hr⟩ := Nat.max_le.mp h
    rw [evalAt_binary, ihl hl, ok_bind, ihr hr, ok_bind, value]
  | yes condition chosen arm ihc iha =>
    obtain ⟨hc, ha⟩ := Nat.max_le.mp h
    rw [evalAt_ternary_of_int env depth (ihc hc), if_pos chosen, iha ha]
  | no condition arm ihc iha =>
    obtain ⟨hc, ha⟩ := Nat.max_le.mp h
    rw [evalAt_ternary_of_int env depth (ihc hc), if_neg (fun h0 => h0 rfl), iha ha]
  | symbol definition value ih =>
    obtain ⟨k, rfl⟩ := Nat.exists_eq_succ_of_ne_zero (Nat.ne_zero_of_lt h)
    rw [evalAt_symbol_succ, definition, Option.elim_some, ih (Nat.le_of_succ_le_succ h)]

/-- What is too deep makes the whole too deep. -/
theorem recursive_bind {x : Except EvalError Number} (f : Number → Except EvalError Number)
    (h : ∃ name, x = .error (.recursive name)) : ∃ name, x >>= f = .error (.recursive name) := by
  obtain ⟨name, rfl⟩ := h
  exact ⟨name, rfl⟩

/-- A ternary is too deep if its condition or the chosen arm is. -/
theorem recursive_ternary {c y n : Expression} {k : Int64} {arm : Nat} (condition : Derivation env c (.int k))
    (hcondition : depth < condition.nesting → ∃ name, evalAt env depth c = .error (.recursive name))
    (harm : depth < arm → ∃ name,
      (if k ≠ 0 then evalAt env depth y else evalAt env depth n) = .error (.recursive name))
    (h : depth < max condition.nesting arm) :
    ∃ name, evalAt env depth (.ternary c y n) = .error (.recursive name) := by
  by_cases hc : depth < condition.nesting
  · rw [evalAt_ternary]
    exact recursive_bind _ (hcondition hc)
  · rw [evalAt_ternary_of_int env depth (condition.evalAt_eq (Nat.le_of_not_lt hc))]
    exact harm (by omega)

/-- **A derivation beyond the limit** is given up: its first part that is too deep says so. -/
theorem Derivation.evalAt_recursive (d : Derivation env e v) (h : depth < d.nesting) :
    ∃ name, evalAt env depth e = .error (.recursive name) := by
  induction d generalizing depth with
  | number | text | register | label | hubLabel => cases h
  | unary operand value ih =>
    rw [evalAt_unary]
    exact recursive_bind _ (ih h)
  | binary left right value ihl ihr =>
    rw [evalAt_binary]
    by_cases hl : depth < left.nesting
    · exact recursive_bind _ (ihl hl)
    · have hr : depth < right.nesting := by
        rw [nesting] at h
        omega
      rw [left.evalAt_eq (Nat.le_of_not_lt hl), ok_bind]
      exact recursive_bind _ (ihr hr)
  | yes condition chosen arm ihc iha =>
    refine recursive_ternary condition ihc (fun ha => ?_) h
    rw [if_pos chosen]
    exact iha ha
  | no condition arm ihc iha =>
    refine recursive_ternary condition ihc (fun ha => ?_) h
    rw [if_neg fun h0 => h0 rfl]
    exact iha ha
  | @symbol scope name _ _ definition value ih =>
    cases depth with
    | zero => exact ⟨name, evalAt_symbol_zero ..⟩
    | succ depth =>
      rw [evalAt_symbol_succ, definition, Option.elim_some]
      exact ih (Nat.lt_of_succ_lt_succ h)

/-- Two derivations for one expression give the same value. -/
theorem Derivation.value_unique {w : Number} (d : Derivation env e v) (d' : Derivation env e w) : v = w := by
  have hv := d.evalAt_eq (Nat.le_max_left d.nesting d'.nesting)
  have hw := d'.evalAt_eq (Nat.le_max_right d.nesting d'.nesting)
  exact Except.ok.inj (hv.symm.trans hw)

/-- A value is derived, if those of symbols are. -/
theorem exists_derivation_of_symbols {symbol : ScopeId → Identifier → Except EvalError Number}
    (symbols : ∀ {scope : ScopeId} {name : Identifier} {v : Number}, symbol scope name = .ok v →
      ∃ d : Derivation env (.symbol scope name) v, d.nesting ≤ depth)
    (h : e.evalWith symbol env.addresses.get? = .ok v) : ∃ d : Derivation env e v, d.nesting ≤ depth := by
  induction e generalizing v with
  | number literal =>
    cases h
    exact ⟨.number literal, Nat.zero_le _⟩
  | text t => exact ⟨.text h, Nat.zero_le _⟩
  | register a =>
    cases h
    exact ⟨.register a, Nat.zero_le _⟩
  | label line =>
    rw [evalWith] at h
    split at h
    · next hline =>
      cases h
      exact ⟨.label hline, Nat.zero_le _⟩
    · cases h
  | hubLabel line =>
    rw [evalWith] at h
    split at h
    · next hline =>
      cases h
      exact ⟨.hubLabel hline, Nat.zero_le _⟩
    · cases h
  | unary op operand ih =>
    obtain ⟨a, ha, h⟩ := bind_eq_ok h
    obtain ⟨d, hd⟩ := ih ha
    exact ⟨.unary d h, hd⟩
  | binary op left right ihl ihr =>
    obtain ⟨a, ha, h⟩ := bind_eq_ok h
    obtain ⟨b, hb, h⟩ := bind_eq_ok h
    obtain ⟨dl, hl⟩ := ihl ha
    obtain ⟨dr, hr⟩ := ihr hb
    exact ⟨.binary dl dr h, Nat.max_le.mpr ⟨hl, hr⟩⟩
  | ternary c yes no ihc ihy ihn =>
    obtain ⟨a, ha, h⟩ := bind_eq_ok h
    obtain ⟨k, hk, harm⟩ := bind_eq_ok h
    -- a float is no condition
    cases a with
    | float x => cases hk
    | int k =>
      cases hk
      obtain ⟨dc, hc⟩ := ihc ha
      by_cases chosen : k ≠ 0
      · rw [if_pos chosen] at harm
        obtain ⟨dy, hy⟩ := ihy harm
        exact ⟨.yes dc chosen dy, Nat.max_le.mpr ⟨hc, hy⟩⟩
      · rw [if_neg chosen] at harm
        cases Decidable.not_not.mp chosen
        obtain ⟨dn, hn⟩ := ihn harm
        exact ⟨.no dc dn, Nat.max_le.mpr ⟨hc, hn⟩⟩
  | symbol scope name => exact symbols h
  | _ => cases h

/-- **A value that was found at a depth** is derived with no more definitions nested. -/
theorem exists_derivation (h : evalAt env depth e = .ok v) :
    ∃ d : Derivation env e v, d.nesting ≤ depth := by
  induction depth generalizing e v with
  | zero =>
    refine exists_derivation_of_symbols (fun hsymbol => ?_) h
    cases hsymbol
  | succ depth ih =>
    refine exists_derivation_of_symbols (fun hsymbol => ?_) h
    split at hsymbol
    · next hdefinition =>
      obtain ⟨d, hd⟩ := ih hsymbol
      exact ⟨.symbol hdefinition d, Nat.succ_le_succ hd⟩
    · cases hsymbol

end Exact

/-! ### What an evaluation needs -/

/-- The evaluation of an expression evaluates another, which is a part of it: the right operand once the left
one has a value, and of a ternary the condition and the arm that it chooses. -/
inductive EvaluatesPart (env : Environment) : Expression → Expression → Prop
  | operand (op : UnaryOp) (e : Expression) : EvaluatesPart env (.unary op e) e
  | left (op : BinaryOp) (l r : Expression) : EvaluatesPart env (.binary op l r) l
  | right (op : BinaryOp) {l : Expression} (r : Expression) {a : Number} (left : Derivation env l a) :
      EvaluatesPart env (.binary op l r) r
  | condition (c y n : Expression) : EvaluatesPart env (.ternary c y n) c
  | yes {c : Expression} (y n : Expression) {k : Int64} (condition : Derivation env c (.int k))
      (chosen : k ≠ 0) : EvaluatesPart env (.ternary c y n) y
  | no {c : Expression} (y n : Expression) (condition : Derivation env c (.int 0)) :
      EvaluatesPart env (.ternary c y n) n

/-- The evaluation of an expression goes on with the definition that it names. -/
inductive EntersDefinition (env : Environment) : Expression → Expression → Prop
  | symbol {scope : ScopeId} {name : Identifier} {e : Expression}
      (definition : env.scopes.symbol? scope name = some e) : EntersDefinition env (.symbol scope name) e

/-- The evaluation of an expression needs the value of another. -/
def Needs (env : Environment) (e e' : Expression) : Prop := EvaluatesPart env e e' ∨ EntersDefinition env e e'

/-- **A derivation is finite**: nothing that it needs goes on for ever. -/
theorem Derivation.acc {e : Expression} {v : Number} (d : Derivation env e v) :
    Acc (Function.swap (Needs env)) e := by
  induction d with
  | number | text | register | label | hubLabel =>
    refine ⟨_, ?_⟩
    rintro e' (h | h) <;> cases h
  | unary operand value ih =>
    refine ⟨_, ?_⟩
    rintro e' (h | h) <;> cases h
    exact ih
  | binary left right value ihl ihr =>
    refine ⟨_, ?_⟩
    rintro e' (h | h) <;> cases h
    · exact ihl
    · exact ihr
  | yes condition chosen arm ihc iha =>
    refine ⟨_, ?_⟩
    rintro e' (h | h)
    · cases h with
      | condition => exact ihc
      | yes => exact iha
      | no _ _ condition' =>
        -- the condition has one value only
        cases condition.value_unique condition'
        exact absurd rfl chosen
    · cases h
  | no condition arm ihc iha =>
    refine ⟨_, ?_⟩
    rintro e' (h | h)
    · cases h with
      | condition => exact ihc
      | no => exact iha
      | yes _ _ condition' chosen =>
        cases condition.value_unique condition'
        exact absurd rfl chosen
    · cases h
  | symbol definition value ih =>
    refine ⟨_, ?_⟩
    rintro e' (h | h)
    · cases h
    · cases h with
      | symbol definition' =>
        cases definition.symm.trans definition'
        exact ih

/-- What has only finite descents does not descend to itself. -/
theorem not_rel_self_of_acc {α : Type} {r : α → α → Prop} {a : α} (h : Acc r a) : ¬ r a a := by
  induction h with
  | intro a _ ih => exact fun haa => ih a haa haa

/-- What can be reached from an expression with a derivation does not lead back to itself. -/
theorem Derivation.acyclic {e c : Expression} {v : Number} (d : Derivation env e v)
    (hreach : Relation.ReflTransGen (Needs env) e c) : ¬ Relation.TransGen (Needs env) c c := by
  have hacc : Acc (Function.swap (Needs env)) c := by
    induction hreach with
    | refl => exact d.acc
    | tail _ hneeds ih => exact ih.inv hneeds
  intro hcycle
  exact not_rel_self_of_acc hacc.transGen (Relation.transGen_swap.mpr hcycle)

/-! ### The end of evaluation -/

/-- An evaluation with as many definitions as the number says still to go evaluates another expression directly:
a part with the same number, a definition with one less. -/
inductive Calls (env : Environment) : Nat × Expression → Nat × Expression → Prop
  | part (depth : Nat) {e e' : Expression} (h : EvaluatesPart env e e') : Calls env (depth, e') (depth, e)
  | definition (depth : Nat) {e e' : Expression} (h : EntersDefinition env e e') :
      Calls env (depth, e') (depth + 1, e)

/-- A part is smaller than the whole. -/
theorem EvaluatesPart.sizeOf_lt {e e' : Expression} (h : EvaluatesPart env e e') : sizeOf e' < sizeOf e := by
  cases h <;> simp +arith

/-- **Evaluation ends**: there is no endless chain of expressions of which each is evaluated for the one before. -/
theorem calls_wellFounded : WellFounded (Calls env) := by
  refine Subrelation.wf ?_ (InvImage.wf (fun call : Nat × Expression => (call.1, sizeOf call.2))
    (Prod.lex Nat.lt_wfRel Nat.lt_wfRel).wf)
  intro later earlier h
  cases h with
  | part depth h => exact Prod.Lex.right depth h.sizeOf_lt
  | definition depth h => exact Prod.Lex.left _ _ (Nat.lt_succ_self depth)

/-- **The limit on nested definitions is exact.**  An expression has a value if and only if that value has a
derivation with at most 64 definitions nested, and one with more is reported as such.  What needs, at some point,
the value of an expression that leads back to itself has no value, and evaluation ends in any case. -/
theorem eval_exact (env : Environment) (e : Expression) :
    (∀ v, e.eval env = .ok v ↔ ∃ d : Derivation env e v, d.nesting ≤ 64) ∧
    (∀ v (d : Derivation env e v), 64 < d.nesting → ∃ name, e.eval env = .error (.recursive name)) ∧
    (∀ c, Relation.ReflTransGen (Needs env) e c → Relation.TransGen (Needs env) c c →
      ∀ v, e.eval env ≠ .ok v) ∧
    WellFounded (Calls env) := by
  refine ⟨fun v => ⟨exists_derivation, ?_⟩, fun v d h => d.evalAt_recursive h, ?_, calls_wellFounded⟩
  · rintro ⟨d, h⟩
    exact d.evalAt_eq h
  · intro c hreach hcycle v hv
    obtain ⟨d, -⟩ := exists_derivation hv
    exact d.acyclic hreach hcycle

/-- A chain of definitions: each frame has one, for the name in the frame before it.  In the first frame there are also
two that lead to each other. -/
def longChain : Environment where
  scopes := ⟨(
    { symbols := [(⟨"x"⟩, .int 7), (⟨"a"⟩, .unary .negate (.symbol 0 ⟨"b"⟩)), (⟨"b"⟩, .symbol 0 ⟨"a"⟩)] } ::
    (List.range 64).map fun i => { symbols := [(⟨"x"⟩, .symbol i ⟨"x"⟩)] }).toArray⟩

theorem longChain_symbol?_succ {i : Nat} (h : i < 64) :
    longChain.scopes.symbol? (i + 1) ⟨"x"⟩ = some (.symbol i ⟨"x"⟩) := by
  have hframe : longChain.scopes.frames[i + 1]? = some { symbols := [(⟨"x"⟩, .symbol i ⟨"x"⟩)] } := by
    simp [longChain, h]
  rw [Scopes.symbol?, Scopes.chain, Scopes.outward, hframe]
  rfl

theorem longChain_symbol?_x : longChain.scopes.symbol? 0 ⟨"x"⟩ = some (.int 7) := rfl

theorem longChain_symbol?_a :
    longChain.scopes.symbol? 0 ⟨"a"⟩ = some (.unary .negate (.symbol 0 ⟨"b"⟩)) := rfl

theorem longChain_symbol?_b : longChain.scopes.symbol? 0 ⟨"b"⟩ = some (.symbol 0 ⟨"a"⟩) := rfl

/-- The value at the end of the chain, with one definition more for each frame on the way. -/
theorem exists_derivation_longChain {i : Nat} (h : i ≤ 64) :
    ∃ d : Derivation longChain (.symbol i ⟨"x"⟩) (.int 7), d.nesting = i + 1 := by
  induction i with
  | zero => exact ⟨.symbol longChain_symbol?_x (.number (.ofInt 7)), rfl⟩
  | succ i ih =>
    obtain ⟨d, hd⟩ := ih (Nat.le_of_succ_le h)
    exact ⟨.symbol (longChain_symbol?_succ h) d, congrArg Nat.succ hd⟩

theorem eval_exact_longChain :
    (Expression.symbol 63 ⟨"x"⟩).eval longChain = .ok (.int 7) ∧
    (∃ name, (Expression.symbol 64 ⟨"x"⟩).eval longChain = .error (.recursive name)) ∧
    ∀ v, (Expression.symbol 0 ⟨"b"⟩).eval longChain ≠ .ok v := by
  obtain ⟨d, hd⟩ := exists_derivation_longChain (show 63 ≤ 64 by decide)
  obtain ⟨d', hd'⟩ := exists_derivation_longChain (show 64 ≤ 64 by decide)
  refine ⟨?_, ?_, ?_⟩
  · exact ((eval_exact longChain _).1 _).mpr ⟨d, Nat.le_of_eq hd⟩
  · exact (eval_exact longChain _).2.1 _ d' (by rw [hd']; decide)
  · refine (eval_exact longChain _).2.2.1 (.symbol 0 ⟨"b"⟩) .refl ?_
    -- from one name to the other, through the operator and back
    exact .tail (.tail (.single (.inr (.symbol longChain_symbol?_b))) (.inr (.symbol longChain_symbol?_a)))
      (.inl (.operand ..))

end Expression

end Propeller
