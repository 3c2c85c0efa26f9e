import Mathlib.Data.Int.ModEq
import Propeller.Proofs.Outcome

/-!
# Numbers — one meaning for each long

A long has 32 bits and is held in 64, in more than one way: `-1` and `$FFFF_FFFF` are the same long.  Most operators
do not tell such numbers apart.  Some look at the low 32 bits of their operands only (`readsWords`); others work
on 64 bits, but the low 32 bits of their result come from those of the operands (`carriesWords`).  So constant
expressions made of these operators have one meaning, whichever way their literals are written.

* `UnaryOp.apply_congr`, `IntegerOp.apply_congr`: one operator.
* `Expression.Congruent.eval`: expressions.
* `Expression.congruent_same_code`: they fail alike, or give the same long, and the same bytes are pushed for it.
-/

namespace Propeller

/-- Two integers stand for the same long. -/
def SameLong (v v' : Int64) : Prop := v.toInt ≡ v'.toInt [ZMOD 2 ^ 32]

instance decidableSameLong (v v' : Int64) : Decidable (SameLong v v') :=
  inferInstanceAs (Decidable (v.toInt ≡ v'.toInt [ZMOD 2 ^ 32]))

/-- The low 32 bits tell the long. -/
theorem sameLong_iff {v v' : Int64} : SameLong v v' ↔ lowWord v = lowWord v' := by
  have hint : ∀ x : Int64, x.toInt % 2 ^ 32 = ((lowWord x).toNat : Int) := by
    intro x
    have hx : x.toInt = _ := BitVec.toInt_eq_toNat_cond x.toBitVec
    rw [hx, lowWord, BitVec.toNat_setWidth]
    split <;> omega
  rw [SameLong, Int.ModEq, hint, hint, Int.natCast_inj, BitVec.toNat_inj]

/-! ### Low words -/

section LowWord

variable (v w : Int64)

theorem lowWord_neg : lowWord (-v) = -lowWord v := BitVec.setWidth_neg_of_le (by decide)

theorem lowWord_not : lowWord (~~~v) = ~~~lowWord v := BitVec.setWidth_not (by decide)

theorem lowWord_and : lowWord (v &&& w) = lowWord v &&& lowWord w := BitVec.setWidth_and

theorem lowWord_or : lowWord (v ||| w) = lowWord v ||| lowWord w := BitVec.setWidth_or

theorem lowWord_xor : lowWord (v ^^^ w) = lowWord v ^^^ lowWord w := BitVec.setWidth_xor

theorem lowWord_add : lowWord (v + w) = lowWord v + lowWord w := BitVec.setWidth_add _ _ (by decide)

theorem lowWord_mul : lowWord (v * w) = lowWord v * lowWord w := BitVec.setWidth_mul _ _ (by decide)

theorem lowWord_sub : lowWord (v - w) = lowWord v - lowWord w := by
  rw [Int64.sub_eq_add_neg, lowWord_add, lowWord_neg, BitVec.sub_eq_add_neg]

end LowWord

/-! ### Operators -/

/-- The operators that look at the low 32 bits of their operand only. -/
def UnaryOp.readsWords : UnaryOp → Bool
  | .encod | .decod | .bmask | .ones | .sqrt => true
  | _ => false

/-- The operators on 64 bits that take low words to low words. -/
def UnaryOp.carriesWords : UnaryOp → Bool
  | .negate | .bitNot => true
  | _ => false

/-- The operators that look at the low 32 bits of their operands only. -/
def IntegerOp.readsWords : IntegerOp → Bool
  | .shr | .shl | .sar | .ror | .rol | .rev | .zerox | .signx
  | .divUnsigned | .remUnsigned | .sca | .scas | .frac
  | .lessUnsigned | .lessOrEqualUnsigned | .greaterOrEqualUnsigned | .greaterUnsigned
  | .equal | .notEqual => true
  | _ => false

/-- The operators on 64 bits that take low words to low words. -/
def IntegerOp.carriesWords : IntegerOp → Bool
  | .and | .xor | .or | .mul | .add | .sub => true
  | _ => false

/-- An operator does not tell numbers apart that stand for the same long. -/
def UnaryOp.OnLongs (op : UnaryOp) : Prop := op.readsWords = true ∨ op.carriesWords = true

/-- An operator does not tell numbers apart that stand for the same long. -/
def IntegerOp.OnLongs (op : IntegerOp) : Prop := op.readsWords = true ∨ op.carriesWords = true

/-- Two evaluations end alike: with the same failure, or with the same long. -/
inductive SameOutcome : Except EvalError Number → Except EvalError Number → Prop
  | failure (e : EvalError) : SameOutcome (.error e) (.error e)
  | long {v v' : Int64} (same : SameLong v v') : SameOutcome (.ok (.int v)) (.ok (.int v'))

theorem SameOutcome.of_lowWord {v v' : Int64} (h : lowWord v = lowWord v') :
    SameOutcome (.ok (.int v)) (.ok (.int v')) :=
  .long (sameLong_iff.mpr h)

theorem SameOutcome.refl_int (x : Except EvalError Int64) : SameOutcome (x.map .int) (x.map .int) := by
  cases x with
  | error e => exact .failure e
  | ok v => exact .of_lowWord rfl

/-- **A unary operator** gives the same long for the same long. -/
theorem UnaryOp.apply_congr {op : UnaryOp} (hop : op.OnLongs) {v v' : Int64} (h : SameLong v v') :
    SameOutcome (op.apply (.int v)) (op.apply (.int v')) := by
  rw [sameLong_iff] at h
  rcases hop with hreads | hcarries
  · cases op <;> cases hreads <;> simp only [UnaryOp.apply, bitIndex, h] <;> exact .of_lowWord rfl
  · cases op with
    | negate => exact .of_lowWord (by rw [lowWord_neg, lowWord_neg, h])
    | bitNot => exact .of_lowWord (by rw [lowWord_not, lowWord_not, h])
    | _ => cases hcarries

/-- An operator that looks at low words gives the same for the same longs. -/
theorem IntegerOp.apply_eq_of_readsWords {op : IntegerOp} (hop : op.readsWords = true) {l l' r r' : Int64}
    (hl : lowWord l = lowWord l') (hr : lowWord r = lowWord r') : op.apply l r = op.apply l' r' := by
  cases op <;> cases hop <;> simp only [IntegerOp.apply, bitIndex, hl, hr]

/-- **An integer operator** fails alike for the same longs, or gives the same long. -/
theorem IntegerOp.apply_congr {op : IntegerOp} (hop : op.OnLongs) {l l' r r' : Int64}
    (hl : SameLong l l') (hr : SameLong r r') :
    SameOutcome (BinaryOp.apply (.integer op) (.int l) (.int r))
      (BinaryOp.apply (.integer op) (.int l') (.int r')) := by
  rw [sameLong_iff] at hl hr
  rcases hop with hreads | hcarries
  · have heq := apply_eq_of_readsWords hreads hl hr
    simp only [BinaryOp.apply, heq]
    exact .refl_int _
  · cases op with
    | and => exact .of_lowWord (by rw [lowWord_and, lowWord_and, hl, hr])
    | xor => exact .of_lowWord (by rw [lowWord_xor, lowWord_xor, hl, hr])
    | or => exact .of_lowWord (by rw [lowWord_or, lowWord_or, hl, hr])
    | mul => exact .of_lowWord (by rw [lowWord_mul, lowWord_mul, hl, hr])
    | add => exact .of_lowWord (by rw [lowWord_add, lowWord_add, hl, hr])
    | sub => exact .of_lowWord (by rw [lowWord_sub, lowWord_sub, hl, hr])
    | _ => cases hcarries

/-! ### Expressions -/

namespace Expression

/-- Expressions made of integer literals and of operators that do not tell longs apart, which differ only in
how the longs of their literals are written. -/
inductive Congruent : Expression → Expression → Prop
  | literal {v v' : Int64} (base base' : Nat) (same : SameLong v v') :
      Congruent (.number ⟨.int v, base⟩) (.number ⟨.int v', base'⟩)
  | unary {op : UnaryOp} {e e' : Expression} (onLongs : op.OnLongs) (operand : Congruent e e') :
      Congruent (.unary op e) (.unary op e')
  | binary {op : IntegerOp} {l l' r r' : Expression} (onLongs : op.OnLongs) (left : Congruent l l')
      (right : Congruent r r') : Congruent (.binary (.integer op) l r) (.binary (.integer op) l' r')

namespace Congruent

variable {e e' : Expression}

/-- They are evaluated alike, whatever names and lines stand for. -/
theorem evalWith (h : Congruent e e') (symbol symbol' : ScopeId → Identifier → Except EvalError Number)
    (address address' : LabelId → Option Address) :
    SameOutcome (e.evalWith symbol address) (e'.evalWith symbol' address') := by
  induction h with
  | literal base base' same => exact .long same
  | @unary op e e' onLongs _ ih =>
    rw [Expression.evalWith, Expression.evalWith]
    generalize e.evalWith symbol address = x at ih
    generalize e'.evalWith symbol' address' = x' at ih
    cases ih with
    | failure err => exact .failure err
    | long same => exact UnaryOp.apply_congr onLongs same
  | @binary op l l' r r' onLongs _ _ ihl ihr =>
    rw [Expression.evalWith, Expression.evalWith]
    generalize l.evalWith symbol address = x at ihl
    generalize l'.evalWith symbol' address' = x' at ihl
    generalize r.evalWith symbol address = y at ihr
    generalize r'.evalWith symbol' address' = y' at ihr
    -- the left operand is evaluated first, so its failure is the one that shows
    cases ihl with
    | failure err => exact .failure err
    | long hl =>
      cases ihr with
      | failure err => exact .failure err
      | long hr => exact IntegerOp.apply_congr onLongs hl hr

theorem eval (h : Congruent e e') (env env' : Environment) : SameOutcome (e.eval env) (e'.eval env') := by
  rw [Expression.eval, Expression.eval, maxDepth, evalAt, evalAt]
  exact h.evalWith ..

end Congruent

/-- **A long has one meaning.**  If the literals of an expression are written in another way, it fails as before or
gives the same long, and the bytes that push it as a constant are the same. -/
theorem congruent_same_code {e e' : Expression} (h : Congruent e e') :
    (∀ env env' : Environment, SameOutcome (e.eval env) (e'.eval env')) ∧
    ∀ (r r' : Resolution) (here here' : Int) (lines lines' : Array Int),
      (Code.constant e).encode r here lines = (Code.constant e').encode r' here' lines' := by
  refine ⟨h.eval, fun r r' here here' lines lines' => ?_⟩
  have houtcome := h.eval r.environment r'.environment
  rw [Code.encode, Code.encode]
  generalize e.eval r.environment = x at houtcome
  generalize e'.eval r'.environment = x' at houtcome
  cases houtcome with
  | failure err => rfl
  | @long v v' same =>
    have hword : (Number.int v).word = (Number.int v').word := congrArg BitVec.toNat (sameLong_iff.mp same)
    rw [mapError_ok, mapError_ok, ok_bind, ok_bind, hword]

/-- `-1 * 3 + 0` and `$FFFF_FFFF * 3 + $1_0000_0000` are different numbers, but one long. -/
theorem congruent_same_code_minusThree :
    let sum (v w : Int64) : Expression :=
      .binary (.integer .add) (.binary (.integer .mul) (.int v) (.int 3)) (.number ⟨.int w, 16⟩)
    let env : Environment := { scopes := .initial }
    Congruent (sum (-1) 0) (sum 0xFFFFFFFF 0x100000000) ∧
      (sum (-1) 0).eval env = .ok (.int (-3)) ∧
      (sum 0xFFFFFFFF 0x100000000).eval env = .ok (.int 0x3FFFFFFFD) ∧
      SameOutcome ((sum (-1) 0).eval env) ((sum 0xFFFFFFFF 0x100000000).eval env) ∧
      (Code.constant (sum (-1) 0)).encode { environment := env } 0 #[] =
        (Code.constant (sum 0xFFFFFFFF 0x100000000)).encode { environment := env } 0 #[] := by
  intro sum env
  have hsame : Congruent (sum (-1) 0) (sum 0xFFFFFFFF 0x100000000) :=
    .binary (.inr rfl) (.binary (.inr rfl) (.literal 10 10 (by decide)) (.literal 10 10 (by decide)))
      (.literal 16 16 (by decide))
  exact ⟨hsame, rfl, rfl, (congruent_same_code hsame).1 _ _, (congruent_same_code hsame).2 ..⟩

end Expression

end Propeller
