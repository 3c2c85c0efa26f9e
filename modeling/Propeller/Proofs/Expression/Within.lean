import Propeller.Proofs.Compile.Induction
import Propeller.Proofs.Outcome

/-!
# Expressions — closed scopes

An expression names frames and labels by number.  It is *within* some scopes when these frames and
labels are there, and scopes are closed when everything that is bound in them is within them and every
parent comes before its child.  What is found by looking up a name is then within the scopes again
(`Scopes.Within.symbol?`, `Scopes.Within.resolve`), and so is a constant expression
(`Expr.lower_within`).
-/

namespace Propeller

variable {n n' k k' own steps : Nat} {e : Expression} {f : Frame} {name : Identifier} {s : Scopes}
  {scope : ScopeId}

/-- The frames and the labels that an expression names are among the first ones. -/
def Expression.Within (scopes labels : Nat) : Expression → Prop
  | .symbol scope _        => scope < scopes
  | .label line            => line < labels
  | .hubLabel line         => line < labels
  | .unary _ operand       => operand.Within scopes labels
  | .binary _ left right   => left.Within scopes labels ∧ right.Within scopes labels
  | .ternary c yes no      =>
    c.Within scopes labels ∧ yes.Within scopes labels ∧ no.Within scopes labels
  | .number _ | .text _ | .objectVar _ | .localVar _ | .method _ | .register _ => True

theorem Expression.Within.mono (hn : n ≤ n') (hk : k ≤ k') (h : e.Within n k) : e.Within n' k' := by
  induction e with
  | symbol scope name => exact Nat.lt_of_lt_of_le h hn
  | label | hubLabel => exact Nat.lt_of_lt_of_le h hk
  | unary op operand ih => exact ih h
  | binary op left right ihl ihr => exact ⟨ihl h.1, ihr h.2⟩
  | ternary c yes no ihc ihy ihn => exact ⟨ihc h.1, ihy h.2.1, ihn h.2.2⟩
  | _ => trivial

/-- What a frame binds is within some scopes, and its parent comes before it. -/
structure Frame.Within (scopes labels own : Nat) (f : Frame) : Prop where
  parent_lt : ∀ p, f.parent = some p → p < own
  symbols : ∀ b ∈ f.symbols, b.2.Within scopes labels
  builtins : ∀ b ∈ f.builtins, b.2.Within scopes labels
  definitions : ∀ b ∈ f.definitions, ∀ e, b.2.expression = some e → e.Within scopes labels

theorem Frame.Within.mono (hn : n ≤ n') (hk : k ≤ k') (h : f.Within n k own) : f.Within n' k' own where
  parent_lt := h.parent_lt
  symbols b hb := (h.symbols b hb).mono hn hk
  builtins b hb := (h.builtins b hb).mono hn hk
  definitions b hb e he := (h.definitions b hb e he).mono hn hk

/-- A frame that binds nothing. -/
theorem Frame.Within.child {parent : Nat} (h : parent < own) :
    Frame.Within n k own { parent := some parent } := by
  refine ⟨?_, by simp, by simp, by simp⟩
  rintro p ⟨⟩
  exact h

/-- The outermost frame binds registers and numbers. -/
theorem Scopes.rootFrame_within (n k own : Nat) : Scopes.rootFrame.Within n k own := by
  refine ⟨by simp [Scopes.rootFrame], by simp [Scopes.rootFrame], ?_, by simp [Scopes.rootFrame]⟩
  intro b hb
  simp only [Scopes.rootFrame, List.mem_append, List.mem_map] at hb
  rcases hb with ⟨register, -, rfl⟩ | ⟨constant, -, rfl⟩
  · trivial
  · trivial

/-- What is looked up in bindings is bound there to the name. -/
theorem mem_of_lookup {α : Type} {bindings : Bindings α} {a : α} (h : bindings.lookup name = some a) :
    ∃ b ∈ bindings, (name == b.1) = true ∧ b.2 = a := by
  induction bindings with
  | nil => cases h
  | cons b rest ih =>
    rw [List.lookup_cons] at h
    split at h
    · next hname => exact ⟨b, List.mem_cons_self .., hname, Option.some.inj h⟩
    · obtain ⟨c, hc, hname, rfl⟩ := ih h
      exact ⟨c, List.mem_cons_of_mem _ hc, hname, rfl⟩

theorem Frame.Within.symbol? (h : f.Within n k own) (he : f.symbol? name = some e) : e.Within n k := by
  rw [Frame.symbol?] at he
  cases hb : f.builtins.lookup name with
  | some v =>
    rw [hb] at he
    cases he
    obtain ⟨b, hm, -, rfl⟩ := mem_of_lookup hb
    exact h.builtins b hm
  | none =>
    rw [hb] at he
    cases hs : f.symbols.lookup name with
    | some v =>
      rw [hs] at he
      cases he
      obtain ⟨b, hb, -, rfl⟩ := mem_of_lookup hs
      exact h.symbols b hb
    | none =>
      rw [hs] at he
      obtain ⟨definition, hd, he⟩ := Option.bind_eq_some_iff.mp he
      obtain ⟨b, hb, -, rfl⟩ := mem_of_lookup hd
      exact h.definitions b hb e he

namespace Scopes

/-- Everything that is bound in the scopes is within them. -/
def Within (s : Scopes) (labels : Nat) : Prop :=
  ∀ (i : ScopeId) (f : Frame), s.frames[i]? = some f → f.Within s.frames.size labels i

/-- From a frame outwards there are frames. -/
theorem mem_outward (hf : f ∈ s.outward steps scope) : ∃ i : ScopeId, s.frames[i]? = some f := by
  induction steps generalizing scope with
  | zero => cases hf
  | succ steps ih =>
    rw [outward] at hf
    split at hf
    · cases hf
    · next frame hframe =>
      rcases List.mem_cons.mp hf with rfl | hf
      · exact ⟨scope, hframe⟩
      · split at hf
        · cases hf
        · exact ih hf

namespace Within

variable {s : Scopes} {labels : Nat}

theorem outward (h : s.Within labels) (hf : f ∈ s.outward steps scope) :
    ∃ own, f.Within s.frames.size labels own := by
  obtain ⟨own, hown⟩ := mem_outward hf
  exact ⟨own, h own f hown⟩

/-- **What a name stands for** is within the scopes. -/
theorem symbol? (h : s.Within labels) (he : s.symbol? scope name = some e) :
    e.Within s.frames.size labels := by
  obtain ⟨f, hf, he⟩ := List.exists_of_findSome?_eq_some he
  obtain ⟨own, hown⟩ := h.outward hf
  exact hown.symbol? he

theorem follow (h : s.Within labels) {e' : Expression} (hw : e.Within s.frames.size labels)
    (he : s.follow steps e = some e') : e'.Within s.frames.size labels := by
  induction steps generalizing e with
  | zero =>
    cases he
    exact hw
  | succ steps ih =>
    rw [Scopes.follow.eq_def] at he
    split at he
    · next scope name hs =>
      cases hs
      obtain ⟨found, hfound, he⟩ := Option.bind_eq_some_iff.mp he
      exact ih (h.symbol? hfound) he
    · cases he
      exact hw

/-- What a name stands for through other names is within the scopes. -/
theorem resolve (h : s.Within labels) (he : s.resolve scope name = some e) :
    e.Within s.frames.size labels := by
  obtain ⟨found, hfound, he⟩ := Option.bind_eq_some_iff.mp he
  exact h.follow (h.symbol? hfound) he

end Within

end Scopes

/-- **A constant expression** of a frame is within the scopes of the frame. -/
theorem Expr.lower_within {labels : Nat} (h : s.Within labels) (hs : scope < s.frames.size) {e : Expr}
    {v : Expression} (he : e.lower s scope = .ok v) : v.Within s.frames.size labels := by
  induction e using Expr.induct generalizing v with
  | literal l value | text l value =>
    cases he
    trivial
  | name l x | member l object index x _ =>
    cases he
    exact hs
  | unary l op operand ih =>
    obtain ⟨a, ha, he⟩ := bind_eq_ok he
    cases he
    exact (ih ha : a.Within _ _)
  | binary l op left right ihl ihr =>
    obtain ⟨a, ha, he⟩ := bind_eq_ok he
    obtain ⟨b, hb, he⟩ := bind_eq_ok he
    cases he
    exact ⟨ihl ha, ihr hb⟩
  | ternary l c yes no ihc ihy ihn =>
    obtain ⟨a, ha, he⟩ := bind_eq_ok he
    obtain ⟨b, hb, he⟩ := bind_eq_ok he
    obtain ⟨o, ho, he⟩ := bind_eq_ok he
    cases he
    exact ⟨ihc ha, ihy hb, ihn ho⟩
  | addressOf l operand _ _ =>
    cases operand with
    | name inner x =>
      simp only [lower] at he
      split at he
      · next line hline =>
        cases he
        exact (h.resolve hline : (Expression.label line).Within _ _)
      · cases he
      · cases he
    | _ => cases he
  | index | call => cases he

end Propeller
