import Mathlib.Data.Set.Insert
import Propeller.Proofs.Bytecode.Decode
import Propeller.Proofs.Compile.Calls
import Propeller.Proofs.Compile.WellFormed

/-!
# Compile — the terms of expressions

An expression is looked at once, and everything that is asked of its term is said of this one computation:
what it notes, what it gives, and with what it fails (`Notes`).  References are only added, so that a
property that speaks of what has been noted holds on from where it is found.

* `Code.Common`: a property of all instructions that the compiler emits, but for those that access
  variables.
* `Term.Proper`: a term is saturated, and every instruction of it has a property.
* `Names.Accesses`: every access to a variable that a name can stand for has a property.
* `Expr.notes_term`: the term of an expression is proper and calls the methods that are noted.
-/

namespace Propeller

variable {α β : Type} {a : α}
variable {line : LineId} {o : Op} {v : Variable} {ts arguments : List Term} {t index : Option Term}

/-! ### Listings -/

/-- What holds of instructions of every kind that the compiler emits, accesses to variables apart. -/
structure Code.Common (C : Code → Prop) : Prop where
  op (o : Op) : o.Plain → C (.op o)
  constant (value : Expression) : C (.constant value)
  branch (b : Branch) (line : LineId) : C (.branch b line)
  pop (size : Nat) : C (.pop size)
  call (m : Method) (indexed : Bool) : C (.call m indexed)
  inline (origin number : Nat) : C (.inline origin number)
  debug {values record : Nat} : values < 2 ^ 8 → record < 2 ^ 8 → C (.debug values record)

theorem Code.common_true : Code.Common fun _ => True :=
  ⟨fun _ _ => trivial, fun _ => trivial, fun _ _ => trivial, fun _ => trivial, fun _ _ => trivial,
    fun _ _ => trivial, fun _ _ => trivial⟩

/-- Every instruction of a listing has a property. -/
def Listing.Every (C : Code → Prop) (l : Listing) : Prop := ∀ c, Entry.code c ∈ l → C c

/-- Every access to a variable has a property. -/
def Variable.Suits (C : Code → Prop) (v : Variable) (indexed : Bool) : Prop :=
  ∀ o, C (.access { slot := v.slot, kind := v.kind, indexed } o)

namespace Listing

variable {C : Code → Prop} {rest : Listing}

@[simp]
theorem every_nil : Every C [] := by simp [Every]

@[simp]
theorem every_mark : Every C (.mark line :: rest) ↔ Every C rest := by
  simp [Every]

@[simp]
theorem every_code {c : Code} : Every C (.code c :: rest) ↔ C c ∧ Every C rest := by
  simp [Every, or_imp, forall_and]

@[simp]
theorem every_op : Every C (.op o :: rest) ↔ C (.op o) ∧ Every C rest :=
  every_code

@[simp]
theorem every_branch {b : Branch} :
    Every C (.branch b line :: rest) ↔ C (.branch b line) ∧ Every C rest :=
  every_code

@[simp]
theorem every_append {a b : Listing} : Every C (a ++ b) ↔ Every C a ∧ Every C b := by
  simp [Every, or_imp, forall_and]

theorem every_access {indexed : Bool} (hv : v.Suits C indexed) :
    Every C (v.access indexed o :: rest) ↔ Every C rest :=
  every_code.trans (and_iff_right (hv o))

end Listing

/-! ### Terms -/

namespace Term

variable {C : Code → Prop}

/-- A term is saturated, and every instruction of it has a property, wherever its lines begin. -/
structure Proper (C : Code → Prop) (t : Term) : Prop where
  every : ∀ base, (t.code base).Every C
  saturated : t.Saturated

theorem every_codeAll (h : ∀ t ∈ ts, t.Proper C) (base : LineId) : (codeAll base ts).Every C := by
  induction ts generalizing base with
  | nil => exact Listing.every_nil
  | cons t ts ih =>
    rw [codeAll, Listing.every_append]
    exact ⟨(h t (.head _)).every base, ih (fun x hx => h x (.tail _ hx)) _⟩

theorem every_codeOpt (h : ∀ x ∈ t, x.Proper C) (base : LineId) : (codeOpt base t).Every C := by
  cases t with
  | none => exact Listing.every_nil
  | some t => exact (h t rfl).every base

theorem saturatedAll_of (h : ∀ t ∈ ts, t.Proper C) : SaturatedAll ts :=
  saturatedAll_iff.mpr fun t ht => (h t ht).saturated

theorem saturatedOpt_of (h : ∀ x ∈ t, x.Proper C) : SaturatedOpt t :=
  saturatedOpt_iff.mpr fun x hx => (h x hx).saturated

theorem proper_constant (hC : Code.Common C) (value : Expression) : (constant value).Proper C :=
  ⟨fun base => by simp [code, hC.constant], trivial⟩

theorem proper_read (hv : v.Suits C index.isSome) (hi : ∀ i ∈ index, i.Proper C) :
    (read v index).Proper C :=
  ⟨fun base => by simp [code, Listing.every_access hv, every_codeOpt hi], saturatedOpt_of hi⟩

theorem proper_address (hv : v.Suits C index.isSome) (hi : ∀ i ∈ index, i.Proper C) :
    (address v index).Proper C :=
  ⟨fun base => by simp [code, Listing.every_access hv, every_codeOpt hi], saturatedOpt_of hi⟩

theorem proper_unary (hC : Code.Common C) {op : UnaryOp} {operand : Term} (h : operand.Proper C) :
    (unary op operand).Proper C :=
  ⟨fun base => by simp [code, h.every, hC.op (.unary op) trivial], h.saturated⟩

theorem proper_binary (hC : Code.Common C) {op : BinaryOp} {left right : Term} (hl : left.Proper C)
    (hr : right.Proper C) : (binary op left right).Proper C :=
  ⟨fun base => by simp [code, hl.every, hr.every, hC.op (.binary op) trivial], hl.saturated, hr.saturated⟩

theorem proper_ternary (hC : Code.Common C) {c yes no : Term} (hc : c.Proper C) (hy : yes.Proper C)
    (hn : no.Proper C) : (ternary c yes no).Proper C :=
  ⟨fun base => by simp [code, hc.every, hy.every, hn.every, hC.branch], hc.saturated, hy.saturated,
    hn.saturated⟩

theorem proper_call (hC : Code.Common C) {m : Method}
    (hm : arguments.length = m.parameters ∧ m.returns ≠ 0) (ha : ∀ a ∈ arguments, a.Proper C)
    (hi : ∀ i ∈ index, i.Proper C) : (call m arguments index).Proper C :=
  ⟨fun base => by simp [code, every_codeAll ha, every_codeOpt hi, hC.op .anchorPush trivial, hC.call],
    hm.1, hm.2, saturatedAll_of ha, saturatedOpt_of hi⟩

end Term

/-! ### Methods of calls -/

/-- The numbers of the methods that are called. -/
def callIds (cs : List Call) : Set Nat := {i | ∃ c ∈ cs, c.method.id = i}

@[simp]
theorem callIds_nil : callIds [] = ∅ := by
  ext i
  simp [callIds]

@[simp]
theorem callIds_append (cs cs' : List Call) : callIds (cs ++ cs') = callIds cs ∪ callIds cs' := by
  ext i
  simp [callIds, or_and_right, exists_or]

@[simp]
theorem callIds_singleton (c : Call) : callIds [c] = {c.method.id} := by
  ext i
  simp [callIds, eq_comm]

/-- The methods that are noted afterwards are those from before and some more. -/
def Noted (u u' : Uses) (ids : Set Nat) : Prop :=
  ∀ i, Use.method i ∈ u' ↔ Use.method i ∈ u ∨ i ∈ ids

theorem Noted.refl (u : Uses) : Noted u u ∅ := fun i => by simp

theorem Noted.trans {u u' u'' : Uses} {ids ids' : Set Nat} (h : Noted u u' ids)
    (h' : Noted u' u'' ids') : Noted u u'' (ids ∪ ids') := by
  intro i
  rw [h' i, h i, Set.mem_union, or_assoc]

/-! ### Computations that note references -/

/-- References are only added, and a failure is not about an exit.  What is given has a property, together with
the methods that are noted, and with the references that have been noted by then, or with more of them. -/
def Notes (x : Tracked α) (Q : Uses → α → Set Nat → Prop) : Prop :=
  ∀ u, match x u with
    | .ok a u'    => u ⊆ u' ∧ ∃ ids, Noted u u' ids ∧ ∀ v, u' ⊆ v → Q v a ids
    | .error e u' => u ⊆ u' ∧ e.value.exit? = none

section Notes

variable {Q : Uses → α → Set Nat → Prop} {R : Uses → β → Set Nat → Prop}

theorem Notes.of_ok {x : Tracked α} (h : Notes x Q) {u u' : Uses} (hx : x u = .ok a u') :
    ∃ ids, Q u' a ids ∧ Noted u u' ids := by
  have hrun := h u
  rw [hx] at hrun
  obtain ⟨-, ids, hids, hq⟩ := hrun
  exact ⟨ids, hq u' (List.Subset.refl _), hids⟩

theorem Notes.of_error {x : Tracked α} (h : Notes x Q) {e : Located CompileError} {u u' : Uses}
    (hx : x u = .error e u') : e.value.exit? = none := by
  have hrun := h u
  rw [hx] at hrun
  exact hrun.2

theorem Notes.weaken {Q' : Uses → α → Set Nat → Prop} {x : Tracked α} (h : Notes x Q)
    (hQ : ∀ u a ids, Q u a ids → Q' u a ids) : Notes x Q' := by
  intro u
  have hrun := h u
  cases hx : x u with
  | ok a u' =>
    rw [hx] at hrun
    obtain ⟨hgrows, ids, hids, hq⟩ := hrun
    exact ⟨hgrows, ids, hids, fun v hv => hQ v a ids (hq v hv)⟩
  | error e u' =>
    rw [hx] at hrun
    exact hrun

theorem notes_pure (h : ∀ u, Q u a ∅) : Notes (pure a) Q :=
  fun u => ⟨List.Subset.refl u, ∅, .refl u, fun v _ => h v⟩

theorem notes_throw {e : Located CompileError} (h : e.value.exit? = none) :
    Notes (throw e : Tracked α) Q :=
  fun u => ⟨List.Subset.refl u, h⟩

/-- What the first computation gives still has its property behind the second one. -/
theorem notes_bind {x : Tracked α} {f : α → Tracked β} (hx : Notes x Q)
    (hf : ∀ a, Notes (f a) fun u b more => ∀ ids, Q u a ids → R u b (ids ∪ more)) :
    Notes (x >>= f) R := by
  intro u
  have hfirst := hx u
  cases hrun : x u with
  | error e u' =>
    rw [run_bind_error hrun]
    rw [hrun] at hfirst
    exact hfirst
  | ok a u' =>
    rw [run_bind_ok hrun]
    rw [hrun] at hfirst
    obtain ⟨hgrows, ids, hids, hq⟩ := hfirst
    have hsecond := hf a u'
    cases hnext : f a u' with
    | error e u'' =>
      rw [hnext] at hsecond
      exact ⟨List.Subset.trans hgrows hsecond.1, hsecond.2⟩
    | ok b u'' =>
      rw [hnext] at hsecond
      obtain ⟨hmore, more, hnoted, hr⟩ := hsecond
      exact ⟨List.Subset.trans hgrows hmore, ids ∪ more, hids.trans hnoted,
        fun v hv => hr v hv ids (hq v (List.Subset.trans hmore hv))⟩

theorem notes_liftExcept {x : Except (Located CompileError) α} (hx : OtherError x)
    (h : ∀ a, x = .ok a → ∀ u, Q u a ∅) : Notes (liftExcept x) Q := by
  cases x with
  | ok a => exact notes_pure (h a rfl)
  | error e => exact notes_throw (hx e rfl)

theorem Tracked.notes_use (x : Use) :
    Notes (Tracked.use x) fun u _ ids => x ∈ u ∧ ids = {i | x = .method i} := by
  refine fun u => ⟨List.subset_cons_self _ _, _, fun i => ?_, fun v hv => ⟨hv (.head _), rfl⟩⟩
  simp [Uses.mark, eq_comm, or_comm]

end Notes

namespace Names

variable (n : Names)

/-- Looking up a variable notes no method.  A register is a long and has no elements.  A variable of the object
is one that the name stands for, and the reference to it is noted. -/
theorem notes_variableOf (x : Identifier) (indexed : Bool) (l : Location) :
    Notes (n.variableOf x indexed l) fun u v ids => ids = ∅ ∧
      (∀ address, v.slot = .register address → v.kind = .long ∧ indexed = false) ∧
      ∀ w, v.slot = .objectVar w → n.symbol? x = some (.objectVar w) ∧ Use.objectVar w.id ∈ u := by
  have hrefused : (if indexed then CompileError.notIndexable x else .notAssignable).exit? = none := by
    split <;> rfl
  unfold variableOf
  cases hx : n.symbol? x with
  | none => exact notes_throw rfl
  | some value =>
    cases value with
    | localVar w =>
      refine notes_bind (Tracked.notes_use _) fun _ => notes_pure ?_
      rintro u _ ⟨-, rfl⟩
      simp
    | objectVar w =>
      refine notes_bind (Tracked.notes_use _) fun _ => notes_pure ?_
      rintro u _ ⟨hnoted, rfl⟩
      simpa using hnoted
    | label line => exact notes_pure fun u => by simp
    | register address =>
      simp only
      split
      · exact notes_throw rfl
      · next hplain => exact notes_pure fun u => by simpa using hplain
    | _ => exact notes_throw hrefused

/-- Looking up a method does not note it yet. -/
theorem notes_callee (object : Option (Located Identifier)) (method : Located Identifier)
    (given : Nat) (wanted : Bool) (location : Location) :
    Notes (n.callee object method given wanted location)
      fun _ m ids => ids = ∅ ∧ n.MayCall object method given wanted m := by
  obtain ⟨r, hr, hother, hok⟩ := n.exists_callee object method given wanted location
  rw [hr]
  exact notes_liftExcept hother fun m hm _ => ⟨rfl, hok m hm⟩

/-- Every access to a variable that a name stands for has a property. -/
def Accesses (C : Uses → Code → Prop) (n : Names) : Prop :=
  ∀ x indexed l, Notes (n.variableOf x indexed l) fun u v ids => ids = ∅ ∧ v.Suits (C u) indexed

theorem accesses_true : n.Accesses fun _ _ => True :=
  fun x indexed l => (n.notes_variableOf x indexed l).weaken fun _ _ _ h => ⟨h.1, fun _ => trivial⟩

end Names

/-! ### Expressions -/

/-- The index of the element that an assignment writes to. -/
def Expr.targetIndex : Expr → Option Expr
  | .index _ _ i => some i
  | _            => none

namespace Expr

variable {n : Names} {C : Uses → Code → Prop}

theorem notes_termAll {es : List Expr} (h : ∀ e ∈ es, Notes (e.term n) fun u t ids =>
      t.Proper (C u) ∧ ids = callIds t.calls) :
    Notes (termAll n es) fun u ts ids =>
      (ts.length = es.length ∧ ∀ t ∈ ts, t.Proper (C u)) ∧ ids = callIds (Term.callsAll ts) := by
  induction es with
  | nil => exact notes_pure (by simp [Term.callsAll])
  | cons e es ih =>
    refine notes_bind (h e (.head _)) fun t => ?_
    refine notes_bind (ih fun x hx => h x (.tail _ hx)) fun ts => notes_pure ?_
    rintro u _ ⟨hts, rfl⟩ _ ⟨ht, rfl⟩
    exact ⟨⟨congrArg (· + 1) hts.1, List.forall_mem_cons.mpr ⟨ht, hts.2⟩⟩, by simp [Term.callsAll]⟩

theorem notes_termOpt {e : Option Expr} (h : ∀ x ∈ e, Notes (x.term n) fun u t ids =>
      t.Proper (C u) ∧ ids = callIds t.calls) :
    Notes (termOpt n e) fun u t ids =>
      (t.isSome = e.isSome ∧ ∀ x ∈ t, x.Proper (C u)) ∧ ids = callIds (Term.callsOpt t) := by
  cases e with
  | none => exact notes_pure (by simp [Term.callsOpt])
  | some e =>
    refine notes_bind (h e rfl) fun t => notes_pure ?_
    rintro u _ ⟨ht, rfl⟩
    exact ⟨by simpa using ht, by simp [Term.callsOpt]⟩

variable (hC : ∀ u, Code.Common (C u))
include hC

/-- A constant is proper and calls nothing, so that only other expressions need to be looked at. -/
theorem notes_term_of_dynamic {e : Expr}
    (h : Notes (e.dynamicTerm n) fun u t ids => t.Proper (C u) ∧ ids = callIds t.calls) :
    Notes (e.term n) fun u t ids => t.Proper (C u) ∧ ids = callIds t.calls := by
  rw [term_eq]
  split
  · refine notes_liftExcept (otherError_staticTerm n e) fun t ht u => ?_
    obtain ⟨value, rfl⟩ := staticTerm_eq_ok n ht
    exact ⟨Term.proper_constant (hC u) value, by simp [Term.calls]⟩
  · exact h

variable (hn : n.Accesses C)
include hn

/-- **The term of an expression** is proper, and calls the methods that are noted. -/
theorem notes_term (e : Expr) :
    Notes (e.term n) fun u t ids => t.Proper (C u) ∧ ids = callIds t.calls := by
  have hnone : ∀ u, ∀ i ∈ (none : Option Term), i.Proper (C u) := by simp
  have hsome : ∀ u i, Term.Proper (C u) i → ∀ x ∈ some i, x.Proper (C u) := by simp
  induction e using Expr.induct with refine notes_term_of_dynamic hC ?_
  | literal | text => exact notes_throw rfl
  | name l x =>
    simp only [dynamicTerm]
    split
    · refine notes_bind (n.notes_callee _ _ _ _ _) fun m => ?_
      refine notes_bind (Tracked.notes_use _) fun _ => notes_pure ?_
      rintro u _ ⟨-, rfl⟩ _ ⟨rfl, hm⟩
      refine ⟨Term.proper_call (hC u) ⟨hm.parameters_eq, hm.returns_ne rfl⟩ (by simp) (hnone u), ?_⟩
      simp [Term.calls, Term.callsAll, Term.callsOpt]
    · refine notes_bind (hn _ _ _) fun v => notes_pure ?_
      rintro u _ ⟨rfl, hv⟩
      exact ⟨Term.proper_read hv (hnone u), by simp [Term.calls, Term.callsOpt]⟩
  | member l object index x hi =>
    refine notes_bind (n.notes_callee _ _ _ _ _) fun m => ?_
    refine notes_bind (notes_termOpt hi) fun i => notes_bind (Tracked.notes_use _) fun _ => notes_pure ?_
    rintro u _ ⟨-, rfl⟩ _ ⟨hindex, rfl⟩ _ ⟨rfl, hm⟩
    refine ⟨Term.proper_call (hC u) ⟨hm.parameters_eq, hm.returns_ne rfl⟩ (by simp) hindex.2, ?_⟩
    simp [Term.calls, Term.callsAll]
  | index l base i hi =>
    refine notes_bind hi fun i => notes_bind (hn _ _ _) fun v => notes_pure ?_
    rintro u _ ⟨rfl, hv⟩ _ ⟨hindex, rfl⟩
    exact ⟨Term.proper_read hv (hsome u i hindex), by simp [Term.calls, Term.callsOpt]⟩
  | unary l op operand ih =>
    refine notes_bind ih fun t => notes_pure ?_
    rintro u _ ⟨ht, rfl⟩
    exact ⟨Term.proper_unary (hC u) ht, by simp [Term.calls]⟩
  | binary l op left right ihl ihr =>
    refine notes_bind ihl fun x => notes_bind ihr fun y => notes_pure ?_
    rintro u _ ⟨hy, rfl⟩ _ ⟨hx, rfl⟩
    exact ⟨Term.proper_binary (hC u) hx hy, by simp [Term.calls]⟩
  | ternary l c yes no ihc ihy ihn =>
    refine notes_bind ihc fun x => notes_bind ihy fun y => notes_bind ihn fun z => notes_pure ?_
    rintro u _ ⟨hz, rfl⟩ _ ⟨hy, rfl⟩ _ ⟨hx, rfl⟩
    exact ⟨Term.proper_ternary (hC u) hx hy hz, by simp [Term.calls]⟩
  | addressOf l operand _ hi =>
    cases operand with
    | name inner x =>
      refine notes_bind (hn _ _ _) fun v => notes_pure ?_
      rintro u _ ⟨rfl, hv⟩
      exact ⟨Term.proper_address hv (hnone u), by simp [Term.calls, Term.callsOpt]⟩
    | index inner base i =>
      refine notes_bind (hi _ _ _ rfl) fun i => notes_bind (hn _ _ _) fun v => notes_pure ?_
      rintro u _ ⟨rfl, hv⟩ _ ⟨hindex, rfl⟩
      exact ⟨Term.proper_address hv (hsome u i hindex), by simp [Term.calls, Term.callsOpt]⟩
    | _ => exact notes_throw rfl
  | call l object index method arguments hi ha =>
    refine notes_bind (n.notes_callee _ _ _ _ _) fun m => ?_
    refine notes_bind (notes_termAll ha) fun args => notes_bind (notes_termOpt hi) fun i => ?_
    refine notes_bind (Tracked.notes_use _) fun _ => notes_pure ?_
    rintro u _ ⟨-, rfl⟩ _ ⟨hindex, rfl⟩ _ ⟨hargs, rfl⟩ _ ⟨rfl, hm⟩
    refine ⟨Term.proper_call (hC u) ⟨hargs.1.trans hm.parameters_eq, hm.returns_ne rfl⟩ hargs.2 hindex.2, ?_⟩
    simp [Term.calls]

omit hC hn in
/-- The same, with nothing to be said of the instructions. -/
theorem notes_saturated (n : Names) (e : Expr) :
    Notes (e.term n) fun _ t ids => t.Proper (fun _ => True) ∧ ids = callIds t.calls :=
  notes_term (fun _ => Code.common_true) n.accesses_true e

omit hC in
/-- What an assignment writes to has elements if an index is given.  The index itself is looked at later. -/
theorem notes_target (e : Expr) :
    Notes (e.target n) fun u t ids => t.1.Suits (C u) t.2.isSome ∧ t.2 = e.targetIndex ∧ ids = ∅ := by
  cases e with
  | name | index =>
    refine notes_bind (hn _ _ _) fun v => notes_pure ?_
    rintro u _ ⟨rfl, hv⟩
    exact ⟨hv, rfl, Set.union_empty _⟩
  | _ => exact notes_throw rfl

end Expr

end Propeller
