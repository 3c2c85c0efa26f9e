import Mathlib
import Propeller.Expression.Eval

/-!
# Case — names in capitals

Two names are the same exactly if they are the same text when both are written in capitals
(`Identifier.upper_eq_iff`).  What looks at a name sees no difference between it and its capitals:
comparison, lookup, and reading a literal, whose letters are digits or the mark of an exponent
(`Literal.read?_upperText`).
-/

namespace Propeller

/-! ### Characters -/

namespace Letter

theorem toNat_toUpper (c : Char) :
    c.toUpper.toNat = if 97 ≤ c.toNat ∧ c.toNat ≤ 122 then c.toNat - 32 else c.toNat := by
  simp only [Char.toUpper, Char.toNat, UInt32.le_iff_toNat_le]
  split
  · next h =>
    have hsmall : 97 ≤ c.val.toNat ∧ c.val.toNat ≤ 122 := h
    rw [if_pos hsmall, UInt32.toNat_add]
    show (c.val.toNat + 4294967264) % 4294967296 = _
    omega
  · next h =>
    have hother : ¬(97 ≤ c.val.toNat ∧ c.val.toNat ≤ 122) := h
    rw [if_neg hother]

/-- A character that is no letter is the capital of itself only. -/
theorem toUpper_eq_iff {c d : Char} (hd : d.isAlpha = false) : c.toUpper = d ↔ c = d := by
  have hno : ¬(65 ≤ d.toNat ∧ d.toNat ≤ 90) ∧ ¬(97 ≤ d.toNat ∧ d.toNat ≤ 122) := by
    simpa [Char.isAlpha, Char.isUpper, Char.isLower, UInt32.le_iff_toNat_le, ← Char.toNat_val]
      using hd
  rw [← Char.toNat_inj, ← Char.toNat_inj, toNat_toUpper]
  grind

/-- A letter takes as many bytes as its capital. -/
theorem utf8Size_toUpper (c : Char) : c.toUpper.utf8Size = c.utf8Size := by
  have hsize : ∀ c : Char, c.utf8Size =
      if c.toNat ≤ 127 then 1 else if c.toNat ≤ 2047 then 2 else if c.toNat ≤ 65535 then 3 else 4 := by
    intro c
    simp only [Char.utf8Size, UInt32.le_iff_toNat_le]
    rfl
  grind [toNat_toUpper]

end Letter

/-! ### Texts -/

/-- A text in capitals. -/
def upperText (text : String) : String := String.ofList (text.toList.map Char.toUpper)

@[simp]
theorem toList_upperText (text : String) :
    (upperText text).toList = text.toList.map Char.toUpper := by
  simp [upperText]

@[simp]
theorem upperText_upperText (text : String) : upperText (upperText text) = upperText text := by
  simp [upperText, Function.comp_def]

@[simp]
theorem foldCase_upperText (text : String) : foldCase (upperText text) = foldCase text := by
  simp [foldCase]

@[simp]
theorem sameName_upperText_left (a b : String) : sameName (upperText a) b = sameName a b := by
  rw [sameName, sameName, foldCase_upperText]

@[simp]
theorem sameName_upperText_right (a b : String) : sameName a (upperText b) = sameName a b := by
  rw [sameName, sameName, foldCase_upperText]

theorem upperText_append (a b : String) : upperText (a ++ b) = upperText a ++ upperText b := by
  simp [upperText, String.ofList_append]

theorem length_utf8Bytes_upperText (text : String) :
    (utf8Bytes (upperText text)).length = (utf8Bytes text).length := by
  simp [utf8Bytes, List.length_flatMap, Function.comp_def, Letter.utf8Size_toUpper]

/-! ### Identifiers -/

namespace Identifier

/-- A name in capitals. -/
def upper (n : Identifier) : Identifier := ⟨upperText n.spelling⟩

@[simp]
theorem key_upper (n : Identifier) : n.upper.key = n.key := foldCase_upperText n.spelling

/-- Names are the same exactly if they are the same in capitals. -/
theorem upper_eq_iff {a b : Identifier} : a.upper = b.upper ↔ a.key = b.key := by
  constructor
  · intro h
    rw [← key_upper a, h, key_upper]
  · intro h
    have hfold : ∀ n : Identifier, n.upper = ⟨String.ofList (n.key.map Char.toUpper)⟩ := by
      intro n
      simp [upper, upperText, key, foldCase, Function.comp_def]
    rw [hfold, hfold, h]

@[simp]
theorem beq_upper (a b : Identifier) : (a.upper == b.upper) = (a == b) :=
  Bool.eq_iff_iff.mpr (by simp only [beq_iff, key_upper])

@[simp]
theorem qualified_upper (object member : Identifier) :
    object.upper.qualified member.upper = (object.qualified member).upper := by
  simp [qualified, upper, upperText_append, toString]
  rfl

@[simp]
theorem isLocalLabel_upper (n : Identifier) : n.upper.isLocalLabel = n.isLocalLabel := by
  apply Bool.eq_iff_iff.mpr
  cases h : n.spelling.toList with
  | nil => simp [isLocalLabel, upper, h]
  | cons c cs => simp [isLocalLabel, upper, h, Letter.toUpper_eq_iff (d := '.') rfl]

/-- What names in capitals are bound to. -/
theorem lookup_upper {α β : Type} (f : α → β) (bindings : Bindings α) (n : Identifier) :
    (bindings.map (Prod.map upper f)).lookup n.upper = (bindings.lookup n).map f := by
  induction bindings with
  | nil => rfl
  | cons b bs ih =>
    obtain ⟨name, value⟩ := b
    simp only [List.map_cons, Prod.map, List.lookup_cons, beq_upper, ih]
    cases n == name <;> rfl

end Identifier

/-! ### Literals -/

namespace Numeral

/-- A digit may be written as a small letter. -/
theorem digitValue?_toUpper (base : Nat) (c : Char) :
    digitValue? base c.toUpper = digitValue? base c := by
  have hle : ∀ a b : Char, a ≤ b ↔ a.toNat ≤ b.toNat := by
    intro a b
    exact UInt32.le_iff_toNat_le
  simp only [digitValue?, hle, Letter.toNat_toUpper]
  grind

theorem readFrom?_upper (base high : Nat) (cs : List Char) :
    readFrom? base high (cs.map Char.toUpper) = readFrom? base high cs := by
  induction cs generalizing high with
  | nil => rfl
  | cons c cs ih => simp only [List.map_cons, readFrom?, digitValue?_toUpper, ih]

theorem read?_upper (base : Nat) (cs : List Char) :
    read? base (cs.map Char.toUpper) = read? base cs := by
  simp only [read?, List.isEmpty_map, readFrom?_upper]

end Numeral

namespace Single

theorem splitSign_upper (cs : List Char) :
    splitSign (cs.map Char.toUpper) = (splitSign cs).map id (List.map Char.toUpper) := by
  cases cs with
  | nil => rfl
  | cons c cs =>
    have hminus := Letter.toUpper_eq_iff (c := c) (d := '-') rfl
    have hplus := Letter.toUpper_eq_iff (c := c) (d := '+') rfl
    by_cases hm : c = '-'
    · subst hm
      rfl
    · by_cases hp : c = '+'
      · subst hp
        rfl
      · simp [splitSign, hm, hp, hminus, hplus]

theorem isDigit_toUpper (c : Char) : c.toUpper.isDigit = c.isDigit := by
  have hdigit : ∀ c : Char, c.isDigit = decide (48 ≤ c.toNat ∧ c.toNat ≤ 57) := by
    intro c
    simp [Char.isDigit, UInt32.le_iff_toNat_le, ← Char.toNat_val]
  grind [Letter.toNat_toUpper]

theorem spanDigits_upper (cs : List Char) :
    spanDigits (cs.map Char.toUpper) =
      (spanDigits cs).map (List.map Char.toUpper) (List.map Char.toUpper) := by
  simp only [spanDigits, List.takeWhile_map, List.dropWhile_map, Function.comp_def, isDigit_toUpper,
    Prod.map]

theorem readExponent?_upper (cs : List Char) :
    readExponent? (cs.map Char.toUpper) = readExponent? cs := by
  cases cs with
  | nil => rfl
  | cons c cs =>
    have hmark : (c.toUpper = 'e' ∨ c.toUpper = 'E') ↔ (c = 'e' ∨ c = 'E') := by
      simp only [← Char.toNat_inj, Letter.toNat_toUpper]
      show (_ = 101 ∨ _ = 69) ↔ (_ = 101 ∨ _ = 69)
      grind
    simp only [List.map_cons, readExponent?, hmark, splitSign_upper, Prod.map, id,
      Numeral.read?_upper]

theorem magnitudeOfDecimal_upper (digits : List Char) (exponent : Int) :
    magnitudeOfDecimal (digits.map Char.toUpper) exponent = magnitudeOfDecimal digits exponent := by
  simp only [magnitudeOfDecimal, Numeral.read?_upper, List.dropWhile_map, Function.comp_def,
    Letter.toUpper_eq_iff (d := '0') rfl, List.length_map]

theorem read?_upper (cs : List Char) : read? (cs.map Char.toUpper) = read? cs := by
  have hmagnitude : ∀ (whole fraction : List Char) (e : Int),
      magnitudeOfDecimal (whole.map Char.toUpper ++ fraction.map Char.toUpper) e =
        magnitudeOfDecimal (whole ++ fraction) e := by
    intro whole fraction e
    rw [← List.map_append, magnitudeOfDecimal_upper]
  simp only [read?, splitSign_upper, Prod.map, id, spanDigits_upper]
  -- the point, if there is one, stands where it stood
  cases (spanDigits (splitSign cs).2).2 with
  | nil => simp only [List.map_nil, readExponent?, magnitudeOfDecimal_upper, List.append_nil]
  | cons c rest =>
    by_cases hc : c = '.'
    · subst hc
      have hpoint : Char.toUpper '.' = '.' := rfl
      simp only [List.map_cons, hpoint, spanDigits_upper, Prod.map, readExponent?_upper, hmagnitude,
        List.length_map]
    · have hupper := mt (Letter.toUpper_eq_iff (c := c) (d := '.') rfl).mp hc
      have hexponent := readExponent?_upper (c :: rest)
      rw [List.map_cons] at hexponent
      simp [hc, hupper, hexponent, magnitudeOfDecimal_upper]

end Single

namespace Literal

theorem splitMark_upper (cs : List Char) :
    splitMark (cs.map Char.toUpper) = (splitMark cs).map id (List.map Char.toUpper) := by
  have hpercent : ∀ {c : Char}, c.toUpper = '%' ↔ c = '%' := Letter.toUpper_eq_iff rfl
  have hdollar : ∀ {c : Char}, c.toUpper = '$' ↔ c = '$' := Letter.toUpper_eq_iff rfl
  cases cs with
  | nil => rfl
  | cons c cs =>
    by_cases hd : c = '$'
    · subst hd
      rfl
    · by_cases hp : c = '%'
      · subst hp
        cases cs with
        | nil => rfl
        | cons c cs =>
          by_cases hp : c = '%'
          · subst hp
            rfl
          · have hfirst : Char.toUpper '%' = '%' := rfl
            simp [splitMark, hp, hpercent, hfirst]
      · simp [splitMark, hd, hp, hpercent, hdollar]

theorem readInt?_upper (base : Nat) (cs : List Char) :
    readInt? base (cs.map Char.toUpper) = readInt? base cs := by
  simp only [readInt?, Single.splitSign_upper, Prod.map, id, Numeral.read?_upper]

theorem marksFloat_toUpper (c : Char) : marksFloat c.toUpper = marksFloat c := by
  simp only [marksFloat, ← Char.toNat_inj, Letter.toNat_toUpper]
  show decide (_ = 46 ∨ _ = 101 ∨ _ = 69) = decide (_ = 46 ∨ _ = 101 ∨ _ = 69)
  grind

theorem readUnsigned?_upper (negative : Bool) (cs : List Char) :
    readUnsigned? negative (cs.map Char.toUpper) = readUnsigned? negative cs := by
  have hblank : ∀ c : Char, c.toUpper = '_' ↔ c = '_' := fun c => Letter.toUpper_eq_iff rfl
  simp only [readUnsigned?, splitMark_upper, Prod.map, id, List.filter_map, Function.comp_def, ne_eq,
    hblank, List.isEmpty_map, List.any_map, marksFloat_toUpper, Single.read?_upper, readInt?_upper]

/-- A literal may be written in capitals. -/
theorem read?_upperText (text : String) : read? (upperText text) = read? text := by
  rw [read?, toList_upperText, read?]
  cases text.toList with
  | nil => rfl
  | cons c cs =>
    by_cases hc : c = '-'
    · subst hc
      exact readUnsigned?_upper true cs
    · have hupper := mt (Letter.toUpper_eq_iff (c := c) (d := '-') rfl).mp hc
      have hread := readUnsigned?_upper false (c :: cs)
      rw [List.map_cons] at hread
      simp [hc, hupper, hread]

end Literal

end Propeller
