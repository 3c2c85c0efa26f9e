import Propeller.Number.Literal

/-!
# Numbers — reading literals back

A literal prints as a sign, the mark of its base and its digits, and it is read in the same order.  The digits
read back as their number (`Numeral.read?_digits`), and no digit can be mistaken for a sign, a mark or a
separator (`Numeral.digit_of_mem`), so that what is read is what was printed.  One number has no way back: the
least one, because its size is read before its sign is put on.

* `Literal.readUnsigned?_digits`: what a mark and digits are read as.
* `Literal.reads_back`: a printed literal is read back, and no two literals print alike.
-/

namespace Propeller

variable {base n : Nat} {c : Char}

namespace Numeral

/-- The character of a digit is read as that digit. -/
theorem digitValue?_digitChar :
    ∀ base ≤ 16, ∀ d < base, digitValue? base (digitChar d) = some d := by
  decide

/-- **Digits are read back.**  What stands behind them is read on top of their number. -/
theorem readFrom?_digitsOnto (hbase : base ≤ 16) {places : Nat} (hn : n < base ^ places)
    (rest : List Char) : readFrom? base 0 (digitsOnto base places n rest) = readFrom? base n rest := by
  -- the last digit is written first, so it is part of what stands behind the others
  induction places generalizing n rest with
  | zero =>
    obtain rfl : n = 0 := Nat.lt_one_iff.mp hn
    rfl
  | succ places ih =>
    have hpos : 0 < base := Nat.pos_of_ne_zero fun hzero => by simp [hzero] at hn
    have hlast : ∀ high, readFrom? base high (digitChar (n % base) :: rest) =
        readFrom? base (high * base + n % base) rest := by
      intro high
      rw [readFrom?, digitValue?_digitChar base hbase _ (Nat.mod_lt n hpos), Option.bind_some]
    rw [digitsOnto]
    split
    · next hsmall =>
      rw [hlast, Nat.zero_mul, Nat.zero_add, Nat.mod_eq_of_lt (Nat.lt_of_div_eq_zero hpos hsmall)]
    · have hdiv : n / base < base ^ places := Nat.div_lt_of_lt_mul (by rwa [Nat.pow_succ'] at hn)
      rw [ih hdiv, hlast, Nat.div_add_mod']

/-- There are places enough for all digits. -/
theorem lt_pow_places (hbase : 2 ≤ base) (n : Nat) : n < base ^ (n.log2 + 1) :=
  Nat.lt_of_lt_of_le Nat.lt_log2_self (Nat.pow_le_pow_left hbase _)

/-- What is written in front of other characters is digits. -/
theorem digitsOnto_eq_append (hbase : 0 < base) (places n : Nat) (rest : List Char) :
    ∃ ds : List Nat, digitsOnto base places n rest = ds.map digitChar ++ rest ∧
      (∀ d ∈ ds, d < base) ∧ (places ≠ 0 → ds ≠ []) := by
  induction places generalizing n rest with
  | zero => exact ⟨[], rfl, by simp, by simp⟩
  | succ places ih =>
    rw [digitsOnto]
    split
    · exact ⟨[n % base], rfl, by simpa using Nat.mod_lt n hbase, by simp⟩
    · obtain ⟨ds, hds, hlt, -⟩ := ih (n / base) (digitChar (n % base) :: rest)
      refine ⟨ds ++ [n % base], by simp [hds], ?_, by simp⟩
      intro d hd
      rcases List.mem_append.mp hd with hd | hd
      · exact hlt d hd
      · rw [List.mem_singleton.mp hd]
        exact Nat.mod_lt n hbase

/-- A number is written with at least one digit. -/
theorem digits_ne_nil (hbase : 0 < base) (n : Nat) : digits base n ≠ [] := by
  obtain ⟨ds, hds, -, hne⟩ := digitsOnto_eq_append hbase (n.log2 + 1) n []
  rw [digits, hds]
  simpa using hne

theorem digit_of_mem (hbase : 0 < base) (hc : c ∈ digits base n) : ∃ d < base, digitChar d = c := by
  obtain ⟨ds, hds, hlt, -⟩ := digitsOnto_eq_append hbase (n.log2 + 1) n []
  rw [digits, hds, List.append_nil] at hc
  obtain ⟨d, hd, rfl⟩ := List.mem_map.mp hc
  exact ⟨d, hlt d hd, rfl⟩

theorem read?_digits (htwo : 2 ≤ base) (hbase : base ≤ 16) (n : Nat) :
    read? base (digits base n) = some n := by
  have hne := digits_ne_nil (Nat.lt_of_lt_of_le Nat.two_pos htwo) n
  rw [read?, if_neg (by simpa using hne), digits, readFrom?_digitsOnto hbase (lt_pow_places htwo n), readFrom?]

end Numeral

namespace Literal

open Numeral

/-- The bases that have a notation. -/
def bases : List Nat := [2, 4, 10, 16]

/-- A character that means something else than a digit in a literal. -/
def isSpecial (c : Char) : Bool := c ∈ ['-', '+', '%', '$', '_']

theorem digitBase_eq : ∀ b ∈ bases, digitBase b = b := by decide

theorem bases_range : ∀ b ∈ bases, 2 ≤ b ∧ b ≤ 16 := by decide

theorem ne_of_not_isSpecial {d : Char} (hc : isSpecial c = false) (hd : isSpecial d = true) : c ≠ d := by
  rintro rfl
  exact Bool.false_ne_true (hc.symm.trans hd)

section Bases

variable {b : Nat} (hb : b ∈ bases)

include hb

/-- No digit is special. -/
theorem not_isSpecial_of_mem (hc : c ∈ digits b n) : isSpecial c = false := by
  have hdigits : ∀ d < 16, isSpecial (digitChar d) = false := by decide
  obtain ⟨htwo, hle⟩ := bases_range b hb
  obtain ⟨d, hd, rfl⟩ := digit_of_mem (Nat.lt_of_lt_of_le Nat.two_pos htwo) hc
  exact hdigits d (Nat.lt_of_lt_of_le hd hle)

/-- Digits begin with a character that is not special. -/
theorem exists_digits_eq_cons (n : Nat) : ∃ c cs, digits b n = c :: cs ∧ isSpecial c = false := by
  have hne := digits_ne_nil (Nat.lt_of_lt_of_le Nat.two_pos (bases_range b hb).1) n
  obtain ⟨c, cs, hcons⟩ := List.exists_cons_of_ne_nil hne
  exact ⟨c, cs, hcons, not_isSpecial_of_mem hb (hcons ▸ List.mem_cons_self ..)⟩

/-- **The mark of a base** is told apart from the digits behind it. -/
theorem splitMark_mark (n : Nat) : splitMark (mark b ++ digits b n) = (b, digits b n) := by
  obtain ⟨c, cs, hcons, hspecial⟩ := exists_digits_eq_cons hb n
  have hpercent : c ≠ '%' := ne_of_not_isSpecial hspecial rfl
  have hdollar : c ≠ '$' := ne_of_not_isSpecial hspecial rfl
  rw [hcons]
  simp only [bases, List.mem_cons, List.not_mem_nil, or_false] at hb
  rcases hb with rfl | rfl | rfl | rfl <;> simp [mark, splitMark, hpercent, hdollar]

theorem splitSign_digits (n : Nat) : Single.splitSign (digits b n) = (false, digits b n) := by
  obtain ⟨c, cs, hcons, hspecial⟩ := exists_digits_eq_cons hb n
  have hminus : c ≠ '-' := ne_of_not_isSpecial hspecial rfl
  have hplus : c ≠ '+' := ne_of_not_isSpecial hspecial rfl
  rw [hcons]
  simp [Single.splitSign, hminus, hplus]

theorem filter_digits (n : Nat) : (digits b n).filter (· ≠ '_') = digits b n := by
  refine List.filter_eq_self.mpr fun c hc => decide_eq_true ?_
  exact ne_of_not_isSpecial (not_isSpecial_of_mem hb hc) rfl

/-- A decimal of an integer does not look like a float. -/
theorem not_marksFloat (n : Nat) : ¬ (b = 10 ∧ (digits b n).any marksFloat = true) := by
  have hdigits : ∀ d < 10, marksFloat (digitChar d) = false := by decide
  rintro ⟨rfl, hany⟩
  obtain ⟨c, hc, hmark⟩ := List.any_eq_true.mp hany
  obtain ⟨d, hd, rfl⟩ := digit_of_mem (by decide) hc
  rw [hdigits d hd] at hmark
  cases hmark

/-- Digits are read as an integer if their number is small enough. -/
theorem readInt?_digits (n : Nat) :
    readInt? b (digits b n) = if n < 2 ^ 63 then some (Int64.ofNat n) else none := by
  obtain ⟨htwo, hle⟩ := bases_range b hb
  rw [readInt?, splitSign_digits hb]
  dsimp only
  rw [read?_digits htwo hle, Option.bind_some, if_neg Bool.false_ne_true]
  by_cases hn : n < 2 ^ 63
  · rw [if_pos hn, if_pos ⟨by omega, by omega⟩, Int64.ofInt_eq_ofNat]
  · rw [if_neg hn, if_neg (by omega)]

/-- **A mark and digits.** -/
theorem readUnsigned?_digits (negative : Bool) (n : Nat) :
    readUnsigned? negative (mark b ++ digits b n) =
      if n < 2 ^ 63 then some ⟨.int (if negative then -Int64.ofNat n else Int64.ofNat n), b⟩ else none := by
  obtain ⟨c, cs, hcons, -⟩ := exists_digits_eq_cons hb n
  have hempty : (digits b n).isEmpty = false := by rw [hcons]; rfl
  simp only [readUnsigned?, splitMark_mark hb, filter_digits hb, hempty, not_marksFloat hb, readInt?_digits hb,
    Bool.false_eq_true, if_false]
  by_cases hn : n < 2 ^ 63
  · rw [if_pos hn, if_pos hn, Option.map_some]
  · rw [if_neg hn, if_neg hn, Option.map_none]

/-- A mark and digits do not begin with a minus. -/
theorem exists_mark_eq_cons (n : Nat) : ∃ c cs, mark b ++ digits b n = c :: cs ∧ c ≠ '-' := by
  obtain ⟨c, cs, hcons, hspecial⟩ := exists_digits_eq_cons hb n
  have hminus : c ≠ '-' := ne_of_not_isSpecial hspecial rfl
  rw [hcons]
  simp only [bases, List.mem_cons, List.not_mem_nil, or_false] at hb
  rcases hb with rfl | rfl | rfl | rfl <;> simp [mark, hminus]

theorem toList_text (v : Int64) :
    (text ⟨.int v, b⟩).toList = (if v < 0 then ['-'] else []) ++ (mark b ++ digits b v.toInt.natAbs) := by
  simp only [text, digitBase_eq b hb, String.toList_ofList, List.append_assoc]

/-- Text without a minus in front. -/
theorem read?_of_toList {text : String} (h : text.toList = mark b ++ digits b n) :
    read? text = readUnsigned? false (mark b ++ digits b n) := by
  obtain ⟨c, cs, hcons, hminus⟩ := exists_mark_eq_cons hb n
  rw [read?, h, hcons]
  split
  · next heq => exact absurd (List.cons.inj heq).1 hminus
  · rfl

/-- **A printed literal** is read back, unless it is the least one. -/
theorem read?_text (v : Int64) :
    read? (text ⟨.int v, b⟩) = if v = Int64.minValue then none else some ⟨.int v, b⟩ := by
  have hmin : v = Int64.minValue ↔ v.toInt = -2 ^ 63 := Int64.toInt_inj.symm
  have hnegative : v < 0 ↔ v.toInt < 0 := Int64.lt_iff_toInt_lt
  have hle := v.le_toInt
  have hlt := v.toInt_lt
  have htext := toList_text hb v
  by_cases hv : v < 0
  · have hneg := hnegative.mp hv
    have hback : -Int64.ofNat v.toInt.natAbs = v := by
      rw [Int64.neg_ofNat, Int.ofNat_natAbs_of_nonpos (Int.le_of_lt hneg), Int.neg_neg, Int64.ofInt_toInt]
    rw [if_pos hv] at htext
    have hread : read? (text ⟨.int v, b⟩) = readUnsigned? true (mark b ++ digits b v.toInt.natAbs) := by
      rw [read?, htext]
      rfl
    rw [hread, readUnsigned?_digits hb, if_pos rfl, hback]
    by_cases heq : v = Int64.minValue
    · rw [if_pos heq, if_neg (by have := hmin.mp heq; omega)]
    · rw [if_neg heq, if_pos (by have := mt hmin.mpr heq; omega)]
  · have hpos : 0 ≤ v.toInt := Int.not_lt.mp (mt hnegative.mpr hv)
    have hback : Int64.ofNat v.toInt.natAbs = v := by
      rw [← Int64.ofInt_eq_ofNat, Int.natAbs_of_nonneg hpos, Int64.ofInt_toInt]
    rw [if_neg hv, List.nil_append] at htext
    rw [read?_of_toList hb htext, readUnsigned?_digits hb, if_pos (by omega), if_neg Bool.false_ne_true, hback,
      if_neg (mt hmin.mp (by omega))]

/-- Texts of different bases are different. -/
theorem base_eq_of_text_eq {b' : Nat} (hb' : b' ∈ bases) {v : Int64}
    (h : text ⟨.int v, b⟩ = text ⟨.int v, b'⟩) : b = b' := by
  have hlist := congrArg String.toList h
  rw [toList_text hb, toList_text hb', List.append_cancel_left_eq] at hlist
  have hsplit := congrArg splitMark hlist
  rw [splitMark_mark hb, splitMark_mark hb'] at hsplit
  exact congrArg Prod.fst hsplit

end Bases

/-- **Literals are read back as they were printed**, in all four bases and with every value but the least, whose
text is not a literal.  So no two literals print alike. -/
theorem reads_back :
    (∀ v : Int64, ∀ b ∈ bases,
      read? (text ⟨.int v, b⟩) = if v = Int64.minValue then none else some ⟨.int v, b⟩) ∧
    ∀ v v' : Int64, ∀ b ∈ bases, ∀ b' ∈ bases, text ⟨.int v, b⟩ = text ⟨.int v', b'⟩ → v = v' ∧ b = b' := by
  refine ⟨fun v b hb => read?_text hb v, fun v v' b hb b' hb' h => ?_⟩
  have hread := congrArg read? h
  rw [read?_text hb, read?_text hb'] at hread
  by_cases hv : v = Int64.minValue
  · by_cases hv' : v' = Int64.minValue
    · rw [hv, hv'] at h
      exact ⟨hv.trans hv'.symm, base_eq_of_text_eq hb hb' h⟩
    · rw [if_pos hv, if_neg hv'] at hread
      cases hread
  · by_cases hv' : v' = Int64.minValue
    · rw [if_neg hv, if_pos hv'] at hread
      cases hread
    · rw [if_neg hv, if_neg hv'] at hread
      cases hread
      exact ⟨rfl, rfl⟩

/-- The least numbers in base four. -/
theorem reads_back_base_four :
    4 ∈ bases ∧ text ⟨.int (-9223372036854775807), 4⟩ = "-%%13333333333333333333333333333333" ∧
      read? (text ⟨.int (-9223372036854775807), 4⟩) = some ⟨.int (-9223372036854775807), 4⟩ ∧
      text ⟨.int Int64.minValue, 4⟩ = "-%%20000000000000000000000000000000" ∧
      read? (text ⟨.int Int64.minValue, 4⟩) = none := by
  have hfour : 4 ∈ bases := by decide
  have hread := reads_back.1
  exact ⟨hfour, by decide +kernel, hread _ 4 hfour, by decide +kernel, hread _ 4 hfour⟩

end Literal

end Propeller
