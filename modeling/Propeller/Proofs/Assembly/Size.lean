import Propeller.Proofs.Bytes
import Propeller.Proofs.Outcome

/-!
# Assembly — how many bytes a line takes

Sizes are asked for before addresses are known, and the bytes are made afterwards by a separate case
analysis.  In one environment the two agree: whatever can be encoded has as many bytes as its size
says.

* `Instruction.length_encode`: an instruction is one word, and one more for every operand that is
  split.
* `DataDirective.size_of_bytes`: a directive has the bytes of each value, as often as it is
  repeated.
-/

namespace Propeller

/-! ### Instructions -/

namespace Instruction

variable {env : Environment}

@[simp]
theorem length_augmentWords (i : Instruction) (base : Nat) (f : Field) :
    (i.augmentWords base f).length = bit f.upper.isSome := by
  cases h : f.upper <;> simp [augmentWords, bit, h]

/-- The field of an operand has upper bits exactly when the operand counts as split. -/
theorem isSome_upper {most : Nat} {o : Operand} {f : Field} (h : fieldOf env most o = .ok f) :
    f.upper.isSome = isSplit env most o := by
  unfold fieldOf at h
  split at h
  · next hr =>
    obtain ⟨v, -, h⟩ := bind_eq_ok h
    cases h
    simp [isSplit, show o.kind = .register by simpa [Operand.isRegister] using hr]
  · next hr =>
    obtain ⟨n, hn, h⟩ := bind_eq_ok h
    have hn := mapError_eq_ok hn
    cases h
    cases hk : o.kind with
    | register => simp [Operand.isRegister, hk] at hr
    | immediate => simp only [isSplit, hk, hn]; split <;> simp_all
    | longLiteral => simp [isSplit, hk]

/-- The words of an instruction are itself and one for each operand that is split. -/
theorem length_words {i : Instruction} {origin : Origin} {ws : List Nat}
    (h : i.words env origin = .ok ws) : ws.length = 1 + i.splitCount env := by
  unfold words at h
  unfold splitCount
  cases ha : i.arguments with
  | source d s =>
    simp only [ha] at h ⊢
    obtain ⟨d, -, h⟩ := bind_eq_ok h
    obtain ⟨f, hf, h⟩ := bind_eq_ok h
    cases h
    simp [isSome_upper hf, Nat.add_comm]
  | pair d s =>
    simp only [ha] at h ⊢
    obtain ⟨f, hf, h⟩ := bind_eq_ok h
    obtain ⟨g, hg, h⟩ := bind_eq_ok h
    cases h
    simp [isSome_upper hf, isSome_upper hg]
    omega
  | dest d =>
    simp only [ha] at h ⊢
    obtain ⟨f, hf, h⟩ := bind_eq_ok h
    cases h
    simp [isSome_upper hf, Nat.add_comm]
  | field most d s n =>
    simp only [ha] at h ⊢
    obtain ⟨d, -, h⟩ := bind_eq_ok h
    obtain ⟨f, hf, h⟩ := bind_eq_ok h
    obtain ⟨n, -, h⟩ := bind_eq_ok h
    cases h
    simp [isSome_upper hf, Nat.add_comm]
  | relBranch d target =>
    simp only [ha] at h ⊢
    obtain ⟨d, -, h⟩ := bind_eq_ok h
    split at h
    all_goals
      obtain ⟨s, -, h⟩ := bind_eq_ok h
      cases h
      rfl
  | pointerJump pointer target =>
    simp only [ha] at h ⊢
    obtain ⟨p, -, h⟩ := bind_eq_ok h
    obtain ⟨a, -, h⟩ := bind_eq_ok h
    cases h
    rfl
  | reg d | registerJump base d | jump target | augment n =>
    simp only [ha] at h ⊢
    obtain ⟨a, -, h⟩ := bind_eq_ok h
    cases h
    rfl
  | bare =>
    simp only [ha] at h ⊢
    cases h
    rfl

/-- **The size of an instruction** is that of its bytes, wherever it stands. -/
theorem length_encode {i : Instruction} {origin : Origin} {bytes : Bytes}
    (h : i.encode env origin = .ok bytes) : bytes.length = i.size env := by
  obtain ⟨ws, hw, h⟩ := bind_eq_ok h
  cases h
  rw [length_flatMap_of_forall fun w _ => length_littleEndian 4 w, length_words hw, size]

end Instruction

/-! ### Data -/

theorem length_store {kind : DataType} {v : Int64} {bytes : Bytes}
    (h : kind.store v = .ok bytes) : bytes.length = kind.size := by
  unfold DataType.store at h
  split at h
  · cases h
    exact length_littleEndian _ _
  · split at h
    · cases h
      exact length_littleEndian _ _
    · cases h

namespace DataValue

variable {v : DataValue} {kind : DataType} {env : Environment}

theorem length_elements {es : List Int64} (h : v.elements env = .ok es) :
    es.length = v.elementCount := by
  unfold elements at h
  unfold elementCount
  split at h
  · cases h
    simp
  · obtain ⟨n, -, h⟩ := bind_eq_ok h
    cases h
    rfl

/-- The bytes of a value are as many as its size says. -/
theorem size_of_bytes {bytes : Bytes} (h : v.bytes kind env = .ok bytes) :
    v.size kind env = .ok bytes.length := by
  obtain ⟨count, hc, h⟩ := bind_eq_ok h
  obtain ⟨es, he, h⟩ := bind_eq_ok h
  obtain ⟨stored, hs, h⟩ := bind_eq_ok h
  cases h
  obtain ⟨hlen, hstored⟩ := mapM_eq_ok hs
  -- each element is stored in one width, and then repeated
  have each : ∀ b ∈ stored, (List.replicate count b).flatten.length =
      count * (v.width.getD kind).size := by
    intro b hb
    obtain ⟨e, -, hb⟩ := hstored b hb
    rw [List.length_flatten, List.map_replicate, List.sum_replicate_nat, length_store hb]
  rw [length_flatMap_of_forall each, hlen, length_elements he, size, hc]
  rfl

end DataValue

namespace DataDirective

variable {kind : DataType} {v : Located DataValue} {vs : List (Located DataValue)}
  {env : Environment} {bytes : Bytes}

/-- A directive that can be stored has the bytes of its first value, and then those of the others. -/
theorem bytes_cons_eq_ok (h : DataDirective.bytes ⟨kind, v :: vs⟩ env = .ok bytes) :
    ∃ first rest, v.value.bytes kind env = .ok first ∧
      DataDirective.bytes ⟨kind, vs⟩ env = .ok rest ∧ bytes = first ++ rest := by
  cases hv : v.value.bytes kind env with
  | error e => simp [DataDirective.bytes, hv] at h
  | ok first =>
    simp only [DataDirective.bytes, List.map_cons, hv, mapError_ok, List.filterMap_cons,
      List.flatMap_cons] at h ⊢
    split at h
    · next he =>
      cases h
      exact ⟨first, _, rfl, if_pos he, rfl⟩
    · cases h

/-- A directive takes the bytes of its first value and those of the others. -/
theorem size_cons_eq_ok {m n : Nat} (hv : v.value.size kind env = .ok m)
    (hvs : DataDirective.size ⟨kind, vs⟩ env = .ok n) :
    DataDirective.size ⟨kind, v :: vs⟩ env = .ok (m + n) := by
  obtain ⟨sizes, hs, h⟩ := bind_eq_ok hvs
  cases h
  simp only at hs
  simp only [DataDirective.size, List.mapM_cons, hv, hs]
  rfl

/-- **The size of a directive** is that of its bytes. -/
theorem size_of_bytes {d : DataDirective} (h : d.bytes env = .ok bytes) :
    d.size env = .ok bytes.length := by
  obtain ⟨kind, values⟩ := d
  induction values generalizing bytes with
  | nil =>
    cases h
    rfl
  | cons v vs ih =>
    obtain ⟨first, rest, hf, hr, rfl⟩ := bytes_cons_eq_ok h
    rw [List.length_append]
    exact size_cons_eq_ok (DataValue.size_of_bytes hf) (ih hr)

end DataDirective

end Propeller
