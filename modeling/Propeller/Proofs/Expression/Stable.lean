import Propeller.Proofs.Expression.Within

/-!
# Expressions — scopes that grow

When frames are added to closed scopes, nothing changes in the frames that were there: names stand for the
same expressions (`Scopes.KeptIn.symbol?_eq`, `Scopes.KeptIn.resolve_eq`), and a constant expression is
the same one, with the same value (`Expr.staticTerm_eq`).
-/

namespace Propeller

variable {steps : Nat} {scope : ScopeId} {e : Expression}

namespace Scopes

/-- The frames of some scopes are there in others as well. -/
def KeptIn (s s' : Scopes) : Prop := ∀ i < s.frames.size, s'.frames[i]? = s.frames[i]?

namespace KeptIn

variable {s s' : Scopes} {labels : Nat} (h : s.Within labels) (hk : s.KeptIn s')

include h hk

theorem outward_eq (hs : scope < s.frames.size) : s'.outward steps scope = s.outward steps scope := by
  induction steps generalizing scope with
  | zero => rfl
  | succ steps ih =>
    rw [outward, outward, hk scope hs]
    cases hf : s.frames[scope]? with
    | none => rfl
    | some f =>
      cases hp : f.parent with
      | none => simp [hp]
      | some parent =>
        have hlt : parent < scope := (h scope f hf).parent_lt parent hp
        simp only [hp, ih (Nat.lt_trans hlt hs)]

theorem symbol?_eq (hs : scope < s.frames.size) (name : Identifier) :
    s'.symbol? scope name = s.symbol? scope name := by
  rw [symbol?, symbol?, chain, chain, outward_eq h hk hs]

theorem follow_eq (he : e.Within s.frames.size labels) : s'.follow steps e = s.follow steps e := by
  induction steps generalizing e with
  | zero => rfl
  | succ steps ih =>
    cases e with
    | symbol scope name =>
      rw [follow, follow, symbol?_eq h hk he]
      cases hx : s.symbol? scope name with
      | none => rfl
      | some x => exact ih (h.symbol? hx)
    | _ => rfl

/-- **Names stand for the same.** -/
theorem resolve_eq (hs : scope < s.frames.size) (name : Identifier) :
    s'.resolve scope name = s.resolve scope name := by
  rw [resolve, resolve, symbol?_eq h hk hs]
  cases hx : s.symbol? scope name with
  | none => rfl
  | some x => exact follow_eq h hk (h.symbol? hx)

end KeptIn

end Scopes

/-- A value depends on the symbols of the frames that an expression names. -/
theorem Expression.evalWith_congr {scopes labels : Nat} (he : e.Within scopes labels)
    {f g : ScopeId → Identifier → Except EvalError Number}
    (hfg : ∀ scope < scopes, ∀ name, f scope name = g scope name) (address : LabelId → Option Address) :
    e.evalWith f address = e.evalWith g address := by
  induction e with
  | symbol scope name => exact hfg scope he name
  | unary op operand ih => simp only [evalWith, ih he]
  | binary op left right ihl ihr => simp only [evalWith, ihl he.1, ihr he.2]
  | ternary c yes no ihc ihy ihn => simp only [evalWith, ihc he.1, ihy he.2.1, ihn he.2.2]
  | _ => rfl

section Kept

variable {s s' : Scopes} {labels : Nat} (h : s.Within labels) (hk : s.KeptIn s')

include h hk

theorem Expression.evalAt_eq {depth : Nat} (he : e.Within s.frames.size labels) (addresses : Addresses) :
    e.evalAt ⟨s', addresses⟩ depth = e.evalAt ⟨s, addresses⟩ depth := by
  induction depth generalizing e with
  | zero => rfl
  | succ depth ih =>
    refine evalWith_congr he (fun scope hs name => ?_) _
    rw [Scopes.KeptIn.symbol?_eq h hk hs]
    cases hx : s.symbol? scope name with
    | none => rfl
    | some x => exact ih (h.symbol? hx)

theorem Expr.lower_eq (hs : scope < s.frames.size) (e : Expr) : e.lower s' scope = e.lower s scope := by
  induction e using Expr.induct with
  | unary l op operand ih => simp only [lower, ih]
  | binary l op left right ihl ihr => simp only [lower, ihl, ihr]
  | ternary l c yes no ihc ihy ihn => simp only [lower, ihc, ihy, ihn]
  | addressOf l operand _ _ =>
    cases operand with
    | name inner x => simp only [lower, Scopes.KeptIn.resolve_eq h hk hs]
    | _ => rfl
  | _ => rfl

end Kept

/-- **A constant expression** stays the same, and has the same value. -/
theorem Expr.staticTerm_eq {n n' : Names} {labels : Nat} (h : n.scopes.Within labels)
    (hk : n.scopes.KeptIn n'.scopes) (hscope : n'.scope = n.scope)
    (hs : n.scope < n.scopes.frames.size) (e : Expr) : e.staticTerm n' = e.staticTerm n := by
  rw [staticTerm, staticTerm, hscope, lower_eq h hk hs]
  refine bind_congr_ok fun v hv => ?_
  have hvalue : v.eval { scopes := n'.scopes } = v.eval { scopes := n.scopes } := by
    rw [Expression.eval, Expression.eval, v.evalAt_eq h hk (lower_within h hs hv)]
  rw [hvalue]

end Propeller
