import Mathlib.Data.List.Forall2
import Propeller.Proofs.Outcome

/-!
# Assembly — what a data directive stores and what it refuses

An operand of a data directive has a count, which has to be a number of 32 bits, and stands for some
integers: the bytes of a text, or one number.  Its width has to hold each of them (`DataType.Admits`).  An
operand offends when one of these fails (`DataValue.Offends`), and `DataValue.Violates` says which error
that is.

* `DataValue.stores_of_bytes`, `DataValue.violates_of_bytes`: what becomes of one operand.
* `DataDirective.bytes_outcome`: all operands are looked at, whatever became of those before them.
* `DataDirective.bytes_or_violations`: a directive stores all its operands, or it reports exactly those that
  offend, in order, and they are the leaves of its diagnostic.
-/

namespace Propeller

variable {n : Nat} {kind : DataType} {x : Int64} {e : EncodeError} {es : List Int64}

/-! ### Integers in a width -/

namespace DataType

/-- A width can hold a number; a long takes the low 32 bits of any. -/
def Admits : DataType → Int → Prop
  | byte, x => -0x80 ≤ x ∧ x ≤ 0xFF
  | word, x => -0x8000 ≤ x ∧ x ≤ 0xFFFF
  | long, _ => True

instance : (kind : DataType) → (x : Int) → Decidable (kind.Admits x)
  | byte, x => inferInstanceAs (Decidable (-0x80 ≤ x ∧ x ≤ 0xFF))
  | word, x => inferInstanceAs (Decidable (-0x8000 ≤ x ∧ x ≤ 0xFFFF))
  | long, _ => inferInstanceAs (Decidable True)

/-- How the range of a width is written. -/
def rangeText : DataType → String
  | byte => "-0x80..0xFF"
  | word => "-0x8000..0xFFFF"
  | long => ""

end DataType

/-- The low bytes of a number in two's complement, the least significant first. -/
def lowBytes (width : Nat) (x : Int) : Bytes :=
  (List.range width).map fun i => UInt8.ofNat (x / 256 ^ i % 256).toNat

/-- The bytes of a number, one by one. -/
theorem littleEndian_eq_map (width n : Nat) :
    littleEndian width n = (List.range width).map fun i => UInt8.ofNat (n / 256 ^ i) := by
  induction width generalizing n with
  | zero => rfl
  | succ width ih =>
    rw [littleEndian, ih, List.range_succ_eq_map, List.map_cons, List.map_map, Nat.pow_zero, Nat.div_one]
    refine congrArg _ (List.map_congr_left fun i _ => congrArg _ ?_)
    rw [Nat.div_div_eq_div_mul, ← Nat.pow_succ']

theorem uint8_ofNat_eq {m : Nat} (h : m % 256 = n % 256) : UInt8.ofNat m = UInt8.ofNat n := by
  rw [← UInt8.toNat_inj, UInt8.toNat_ofNat', UInt8.toNat_ofNat']
  exact h

namespace DataType

theorem littleEndian_eq_lowBytes (kind : DataType) (x : Int64) :
    littleEndian kind.size x.toBitVec.toNat = lowBytes kind.size x.toInt := by
  have hx : x.toInt = if 2 * x.toBitVec.toNat < 2 ^ 64 then (x.toBitVec.toNat : Int)
      else x.toBitVec.toNat - (2 ^ 64 : Nat) := BitVec.toInt_eq_toNat_cond _
  have hsize : kind.size ≤ 4 := by cases kind <;> decide
  rw [littleEndian_eq_map, lowBytes]
  refine List.map_congr_left fun i hi => uint8_ofNat_eq ?_
  rw [List.mem_range] at hi
  -- the sign adds a multiple of 2 ^ 64, which does not reach the first four bytes
  obtain rfl | rfl | rfl | rfl : i = 0 ∨ i = 1 ∨ i = 2 ∨ i = 3 := by omega
  all_goals split at hx <;> omega

/-- A number that the width can hold is stored, -/
theorem store_of_admits (h : kind.Admits x.toInt) : kind.store x = .ok (lowBytes kind.size x.toInt) := by
  rw [← kind.littleEndian_eq_lowBytes]
  cases kind with
  | byte | word => exact if_pos h
  | long => rfl

/-- and any other is refused. -/
theorem store_of_not_admits (h : ¬ kind.Admits x.toInt) :
    kind.store x = .error (.valueOutOfRange x.toInt kind.rangeText) := by
  cases kind with
  | byte | word => exact if_neg h
  | long => exact absurd trivial h

end DataType

/-! ### One operand -/

namespace DataValue

variable {v : DataValue} {kind : DataType} {env : Environment}

/-- How often a value is repeated: once, unless it has a count, which is a number of 32 bits. -/
inductive Repeats (env : Environment) (v : DataValue) : Nat → Prop
  | once : v.count = none → Repeats env v 1
  | counted {count : Expression} {n : Int64} : v.count = some count → count.evalInt env = .ok n →
      0 ≤ n.toInt → n.toInt < 2 ^ 32 → Repeats env v n.toInt.toNat

/-- The integers that a value stands for. -/
inductive StandsFor (env : Environment) (v : DataValue) : List Int → Prop
  | text {text : String} : v.value.text? = some text →
      StandsFor env v ((utf8Bytes text).map fun b => (b.toNat : Int))
  | number {x : Number} : v.value.text? = none → v.value.eval env = .ok x →
      StandsFor env v [x.long.toInt]

/-- The bytes that are stored for a value. -/
inductive Stores (kind : DataType) (env : Environment) (v : DataValue) : Bytes → Prop
  | mk {count : Nat} {xs : List Int} : v.Repeats env count → v.StandsFor env xs →
      (∀ x ∈ xs, (v.width.getD kind).Admits x) →
      Stores kind env v
        (xs.flatMap fun x => (List.replicate count (lowBytes (v.width.getD kind).size x)).flatten)

/-- A value cannot be stored. -/
inductive Offends (kind : DataType) (env : Environment) (v : DataValue) : Prop
  | count {count : Expression} : v.count = some count →
      (¬ ∃ n, count.evalInt env = .ok n ∧ 0 ≤ n.toInt ∧ n.toInt < 2 ^ 32) → Offends kind env v
  | value : v.value.text? = none → (¬ ∃ x, v.value.eval env = .ok x) → Offends kind env v
  | range {xs : List Int} {x : Int} : v.StandsFor env xs → x ∈ xs →
      ¬ (v.width.getD kind).Admits x → Offends kind env v

/-- The error of a value that cannot be stored.  The count is looked at first. -/
inductive Violates (kind : DataType) (env : Environment) (v : DataValue) : EncodeError → Prop
  | countEval {count : Expression} {e : EvalError} : v.count = some count →
      count.evalInt env = .error e → Violates kind env v (.eval e)
  | countRange {count : Expression} {n : Int64} : v.count = some count → count.evalInt env = .ok n →
      ¬ (0 ≤ n.toInt ∧ n.toInt < 2 ^ 32) →
      Violates kind env v (.valueOutOfRange n.toInt "0..$FFFFFFFF")
  | valueEval {count : Nat} {e : EvalError} : v.Repeats env count → v.value.text? = none →
      v.value.eval env = .error e → Violates kind env v (.eval e)
  | valueRange {count : Nat} {xs : List Int} {x : Int} : v.Repeats env count → v.StandsFor env xs →
      x ∈ xs → ¬ (v.width.getD kind).Admits x →
      Violates kind env v (.valueOutOfRange x (v.width.getD kind).rangeText)

theorem repeats_of_repetitions (h : v.repetitions env = .ok n) : v.Repeats env n := by
  unfold repetitions at h
  split at h
  · next hcount =>
    cases h
    exact .once hcount
  · next count hcount =>
    obtain ⟨x, hx, h⟩ := bind_eq_ok h
    split at h
    · next hrange =>
      cases h
      exact .counted hcount (mapError_eq_ok hx) hrange.1 hrange.2
    · cases h

theorem violates_of_repetitions (h : v.repetitions env = .error e) : v.Violates kind env e := by
  unfold repetitions at h
  split at h
  · cases h
  · next count hcount =>
    rcases bind_eq_error h with hx | ⟨x, hx, h⟩
    · obtain ⟨e', he, rfl⟩ := mapError_eq_error hx
      exact .countEval hcount he
    · split at h
      · cases h
      · next hrange =>
        cases h
        exact .countRange hcount (mapError_eq_ok hx) hrange

theorem toInt_byte (b : UInt8) : (Int64.ofNat b.toNat).toInt = b.toNat :=
  Int64.toInt_ofNat_of_lt (by have := b.toNat_lt; omega)

theorem standsFor_of_elements (h : v.elements env = .ok es) : v.StandsFor env (es.map Int64.toInt) := by
  unfold elements at h
  split at h
  · next text htext =>
    cases h
    have hbytes : ((utf8Bytes text).map fun b => Int64.ofNat b.toNat).map Int64.toInt =
        (utf8Bytes text).map fun b => (b.toNat : Int) := by
      rw [List.map_map]
      exact List.map_congr_left fun b _ => toInt_byte b
    rw [hbytes]
    exact .text htext
  · next htext =>
    obtain ⟨x, hx, h⟩ := bind_eq_ok h
    cases h
    exact .number htext (mapError_eq_ok hx)

theorem eval_of_elements (h : v.elements env = .error e) :
    v.value.text? = none ∧ ∃ e', v.value.eval env = .error e' ∧ EncodeError.eval e' = e := by
  unfold elements at h
  split at h
  · cases h
  · next htext =>
    rcases bind_eq_error h with hx | ⟨x, -, h⟩
    · exact ⟨htext, mapError_eq_error hx⟩
    · cases h

/-- Integers that are all stored, -/
theorem mapM_store_eq_ok {stored : List Bytes} (h : es.mapM kind.store = .ok stored) :
    (∀ x ∈ es, kind.Admits x.toInt) ∧ stored = es.map fun x => lowBytes kind.size x.toInt := by
  induction es generalizing stored with
  | nil =>
    cases h
    exact ⟨by simp, rfl⟩
  | cons x es ih =>
    rw [List.mapM_cons] at h
    obtain ⟨first, hx, h⟩ := bind_eq_ok h
    obtain ⟨rest, hes, h⟩ := bind_eq_ok h
    cases h
    obtain ⟨hadmits, rfl⟩ := ih hes
    by_cases hx' : kind.Admits x.toInt
    · rw [DataType.store_of_admits hx'] at hx
      cases hx
      exact ⟨List.forall_mem_cons.mpr ⟨hx', hadmits⟩, rfl⟩
    · rw [DataType.store_of_not_admits hx'] at hx
      cases hx

/-- and integers of which one is not. -/
theorem mapM_store_eq_error (h : es.mapM kind.store = .error e) :
    ∃ x ∈ es, ¬ kind.Admits x.toInt ∧ e = .valueOutOfRange x.toInt kind.rangeText := by
  induction es with
  | nil => cases h
  | cons x es ih =>
    rw [List.mapM_cons] at h
    rcases bind_eq_error h with hx | ⟨first, -, h⟩
    · by_cases hx' : kind.Admits x.toInt
      · rw [DataType.store_of_admits hx'] at hx
        cases hx
      · rw [DataType.store_of_not_admits hx'] at hx
        cases hx
        exact ⟨x, List.mem_cons_self .., hx', rfl⟩
    · rcases bind_eq_error h with hes | ⟨rest, -, h⟩
      · obtain ⟨y, hy, hy'⟩ := ih hes
        exact ⟨y, List.mem_cons_of_mem _ hy, hy'⟩
      · cases h

/-- **An operand that has bytes** is stored as it should be. -/
theorem stores_of_bytes {bytes : Bytes} (h : v.bytes kind env = .ok bytes) : v.Stores kind env bytes := by
  obtain ⟨count, hcount, h⟩ := bind_eq_ok h
  obtain ⟨es, hes, h⟩ := bind_eq_ok h
  obtain ⟨stored, hstored, h⟩ := bind_eq_ok h
  cases h
  obtain ⟨hadmits, rfl⟩ := mapM_store_eq_ok hstored
  have hstores : v.Stores kind env _ :=
    .mk (repeats_of_repetitions hcount) (standsFor_of_elements hes) (List.forall_mem_map.mpr hadmits)
  rwa [List.flatMap_map] at hstores ⊢

/-- **An operand that has none** violates a rule, and that is its error. -/
theorem violates_of_bytes (h : v.bytes kind env = .error e) : v.Violates kind env e := by
  rcases bind_eq_error h with hcount | ⟨count, hcount, h⟩
  · exact violates_of_repetitions hcount
  have hrepeats := repeats_of_repetitions hcount
  rcases bind_eq_error h with hes | ⟨es, hes, h⟩
  · obtain ⟨htext, e', heval, rfl⟩ := eval_of_elements hes
    exact .valueEval hrepeats htext heval
  rcases bind_eq_error h with hstored | ⟨stored, -, h⟩
  · obtain ⟨x, hx, hnot, rfl⟩ := mapM_store_eq_error hstored
    exact .valueRange hrepeats (standsFor_of_elements hes) (List.mem_map_of_mem hx) hnot
  · cases h

/-- What violates a rule cannot be stored. -/
theorem Violates.offends (h : v.Violates kind env e) : v.Offends kind env := by
  cases h with
  | countEval hcount heval =>
    refine .count hcount ?_
    rintro ⟨n, hn, -⟩
    rw [heval] at hn
    cases hn
  | countRange hcount heval hrange =>
    refine .count hcount ?_
    rintro ⟨n, hn, hn'⟩
    cases heval.symm.trans hn
    exact hrange hn'
  | valueEval _ htext heval =>
    refine .value htext ?_
    rintro ⟨x, hx⟩
    rw [heval] at hx
    cases hx
  | valueRange _ hstands hx hnot => exact .range hstands hx hnot

theorem StandsFor.eq {xs ys : List Int} (h : v.StandsFor env xs) (h' : v.StandsFor env ys) : xs = ys := by
  cases h with
  | text htext =>
    cases h' with
    | text htext' => cases htext.symm.trans htext'; rfl
    | number htext' _ => cases htext.symm.trans htext'
  | number htext heval =>
    cases h' with
    | text htext' => cases htext.symm.trans htext'
    | number _ heval' => cases heval.symm.trans heval'; rfl

/-- What is stored does not offend. -/
theorem Stores.not_offends {bytes : Bytes} (h : v.Stores kind env bytes) : ¬ v.Offends kind env := by
  obtain ⟨hrepeats, hstands, hadmits⟩ := h
  intro hoffends
  cases hoffends with
  | count hcount hnot =>
    cases hrepeats with
    | once hnone => cases hcount.symm.trans hnone
    | counted hcount' heval hpos hlt =>
      cases hcount.symm.trans hcount'
      exact hnot ⟨_, heval, hpos, hlt⟩
  | value htext hnot =>
    cases hstands with
    | text htext' => cases htext.symm.trans htext'
    | number _ heval => exact hnot ⟨_, heval⟩
  | range hstands' hx hnot =>
    cases hstands.eq hstands'
    exact hnot (hadmits _ hx)

/-- An operand offends exactly when it has no bytes. -/
theorem offends_iff : v.Offends kind env ↔ (v.bytes kind env).isOk = false := by
  cases h : v.bytes kind env with
  | ok bytes =>
    refine ⟨fun hoffends => absurd hoffends (stores_of_bytes h).not_offends, fun hfalse => ?_⟩
    cases hfalse
  | error e => exact ⟨fun _ => rfl, fun _ => (violates_of_bytes h).offends⟩

instance : Decidable (v.Offends kind env) := decidable_of_iff _ offends_iff.symm

end DataValue

/-! ### All operands -/

theorem Diagnostic.allLeaves_errors (errors : List (Located EncodeError)) :
    Diagnostic.allLeaves (errors.map fun e => .error (some e.location) e.value.message) =
      errors.map fun e => .error (some e.location) e.value.message := by
  induction errors with
  | nil => rfl
  | cons e errors ih => rw [List.map_cons, Diagnostic.allLeaves, ih]; rfl

/-- The leaves of a diagnostic of several errors are the errors. -/
theorem leaves_violations {errors : List (Located EncodeError)} (h : errors ≠ []) :
    (violations errors).leaves = errors.map fun e => .error (some e.location) e.value.message := by
  cases errors with
  | nil => exact absurd rfl h
  | cons e errors =>
    cases errors with
    | nil => rfl
    | cons e' errors =>
      rw [violations, List.map_cons, Diagnostic.leaves, Diagnostic.allLeaves_errors]
      · rfl
      · simp

namespace DataDirective

variable {kind : DataType} {v : Located DataValue} {env : Environment}

/-- The others are looked at after an operand that has bytes, -/
theorem bytes_cons_of_ok (vs : List (Located DataValue)) {first : Bytes}
    (hv : v.value.bytes kind env = .ok first) :
    DataDirective.bytes ⟨kind, v :: vs⟩ env = (DataDirective.bytes ⟨kind, vs⟩ env).map (first ++ ·) := by
  simp only [DataDirective.bytes, List.map_cons, hv, mapError_ok, List.filterMap_cons, List.flatMap_cons]
  split <;> rfl

/-- and after one that has none. -/
theorem bytes_cons_of_error (vs : List (Located DataValue)) (hv : v.value.bytes kind env = .error e) :
    (∀ bytes, DataDirective.bytes ⟨kind, vs⟩ env = .ok bytes →
      DataDirective.bytes ⟨kind, v :: vs⟩ env = .error [⟨e, v.location⟩]) ∧
    ∀ errors, DataDirective.bytes ⟨kind, vs⟩ env = .error errors →
      DataDirective.bytes ⟨kind, v :: vs⟩ env = .error (⟨e, v.location⟩ :: errors) := by
  simp only [DataDirective.bytes, List.map_cons, hv, mapError_error, List.filterMap_cons,
    List.isEmpty_cons, Bool.false_eq_true, if_false]
  constructor
  · intro bytes h
    split at h
    · next hempty => rw [List.isEmpty_iff.mp hempty]
    · cases h
  · intro errors h
    split at h
    · cases h
    · cases h
      rfl

/-- An error is that of an operand, and stands where the operand does. -/
def Reports (kind : DataType) (env : Environment) (v : Located DataValue) (e : Located EncodeError) : Prop :=
  e.location = v.location ∧ v.value.Violates kind env e.value

theorem not_offends_of_stores {vs : List (Located DataValue)} {parts : List Bytes}
    (h : List.Forall₂ (fun v part => v.value.Stores kind env part) vs parts) :
    ∀ v ∈ vs, ¬ v.value.Offends kind env := by
  induction h with
  | nil => simp
  | cons hstores _ ih => exact List.forall_mem_cons.mpr ⟨hstores.not_offends, ih⟩

/-- **Operand by operand**: all are stored, or each one that offends is reported. -/
theorem bytes_outcome (kind : DataType) (vs : List (Located DataValue)) (env : Environment) :
    (∃ parts, List.Forall₂ (fun v part => v.value.Stores kind env part) vs parts ∧
      DataDirective.bytes ⟨kind, vs⟩ env = .ok parts.flatten) ∨
    ∃ errors, errors ≠ [] ∧ DataDirective.bytes ⟨kind, vs⟩ env = .error errors ∧
      List.Forall₂ (Reports kind env) (vs.filter fun v => v.value.Offends kind env) errors := by
  induction vs with
  | nil => exact .inl ⟨[], .nil, rfl⟩
  | cons v vs ih =>
    cases hv : v.value.bytes kind env with
    | ok first =>
      have hstores := DataValue.stores_of_bytes hv
      have hstep := bytes_cons_of_ok vs hv
      rcases ih with ⟨parts, hparts, hrest⟩ | ⟨errors, hne, hrest, herrors⟩
      · refine .inl ⟨first :: parts, .cons hstores hparts, ?_⟩
        rw [hstep, hrest, List.flatten_cons]
        rfl
      · refine .inr ⟨errors, hne, ?_, ?_⟩
        · rw [hstep, hrest]
          rfl
        · rwa [List.filter_cons_of_neg (by simpa using hstores.not_offends)]
    | error e =>
      have hviolates := DataValue.violates_of_bytes hv
      have hstep := bytes_cons_of_error vs hv
      have hkept : (v :: vs).filter (fun v => v.value.Offends kind env) =
          v :: vs.filter fun v => v.value.Offends kind env :=
        List.filter_cons_of_pos (by simpa using hviolates.offends)
      rw [hkept]
      rcases ih with ⟨parts, hparts, hrest⟩ | ⟨errors, hne, hrest, herrors⟩
      · refine .inr ⟨_, List.cons_ne_nil _ _, hstep.1 _ hrest, ?_⟩
        have hnone : vs.filter (fun v => v.value.Offends kind env) = [] :=
          List.filter_eq_nil_iff.mpr (by simpa using not_offends_of_stores hparts)
        rw [hnone]
        exact .cons ⟨rfl, hviolates⟩ .nil
      · exact .inr ⟨_, List.cons_ne_nil _ _, hstep.2 _ hrest, .cons ⟨rfl, hviolates⟩ herrors⟩

/-- **A directive stores all its operands, or it reports those that offend.**  It fails exactly when some
operand offends.  Then there is one error for each such operand, in their order and where they stand, and
these are the leaves of its diagnostic; otherwise its bytes are those of the operands one after the other. -/
theorem bytes_or_violations (d : DataDirective) (env : Environment) :
    ((∃ errors, d.bytes env = .error errors) ↔ ∃ v ∈ d.values, v.value.Offends d.kind env) ∧
    (∀ errors, d.bytes env = .error errors →
      List.Forall₂ (Reports d.kind env) (d.values.filter fun v => v.value.Offends d.kind env) errors ∧
      (violations errors).leaves = errors.map fun e => .error (some e.location) e.value.message) ∧
    ∀ bytes, d.bytes env = .ok bytes →
      ∃ parts, List.Forall₂ (fun v part => v.value.Stores d.kind env part) d.values parts ∧
        bytes = parts.flatten := by
  rcases bytes_outcome d.kind d.values env with ⟨parts, hparts, hbytes⟩ | ⟨errors, hne, hbytes, herrors⟩
  · refine ⟨⟨?_, ?_⟩, ?_, ?_⟩
    · rintro ⟨errors, herrors⟩
      cases hbytes.symm.trans herrors
    · rintro ⟨v, hv, hoffends⟩
      exact absurd hoffends (not_offends_of_stores hparts v hv)
    · intro errors herrors
      cases hbytes.symm.trans herrors
    · intro bytes hok
      cases hbytes.symm.trans hok
      exact ⟨parts, hparts, rfl⟩
  · refine ⟨⟨fun _ => ?_, fun _ => ⟨errors, hbytes⟩⟩, ?_, ?_⟩
    · -- the first error is that of some operand
      have hkept : d.values.filter (fun v => v.value.Offends d.kind env) ≠ [] := by
        intro hnil
        rw [hnil, List.forall₂_nil_left_iff] at herrors
        exact hne herrors
      obtain ⟨v, hv⟩ := List.exists_mem_of_ne_nil _ hkept
      rw [List.mem_filter, decide_eq_true_eq] at hv
      exact ⟨v, hv⟩
    · intro errors' herrors'
      cases hbytes.symm.trans herrors'
      exact ⟨herrors, leaves_violations hne⟩
    · intro bytes hok
      cases hbytes.symm.trans hok

/-- `BYTE 256, "no", WORD 256, 1[-1]`: a byte that is too large and a count below zero are reported, the
text and the word between them are not. -/
theorem bytes_or_violations_mixed :
    let number (x : Int64) : Expression := .number (Literal.ofInt x)
    let operands : List DataValue := [{ value := number 256 }, { value := .text "no" },
      { value := number 256, width := some .word }, { value := number 1, count := some (number (-1)) }]
    let d : DataDirective := ⟨.byte, operands.map (⟨·, {}⟩)⟩
    ∃ errors, d.bytes default = .error errors ∧ (violations errors).leaves =
      [.error (some {}) "Value 256 exceeds range -0x80..0xFF",
        .error (some {}) "Value -1 exceeds range 0..$FFFFFFFF"] := by
  intro number operands d
  obtain ⟨errors, herrors⟩ := (d.bytes_or_violations default).1.mpr
    ⟨⟨{ value := number 256 }, {}⟩, by simp [d, operands],
      .range (.number rfl rfl) (List.mem_singleton_self _) (by decide)⟩
  refine ⟨errors, herrors, ((d.bytes_or_violations default).2.1 errors herrors).2.trans ?_⟩
  cases herrors
  rfl

end DataDirective

end Propeller
