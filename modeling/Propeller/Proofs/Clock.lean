import Mathlib.Algebra.Order.Round
import Mathlib.Data.Rat.Floor
import Mathlib.Tactic.FieldSimp
import Propeller.Clock

/-!
# Clock mode — the search for the factors

`pllMode` goes through all post codes and dividers once and remembers the best candidate so far.  What it
looks for is said here without the search, in rational numbers: `PllChoice` is a post code with a divider,
`PllChoice.Admissible` says when the loop can run with it, and `PllChoice.Best` that no other choice comes
nearer to the target, and none that is tried later comes as near.

* `Remembers.foldl`: what is remembered after some candidates is the last one of the least error.
* `ClockSetting.fields`: the fields of a mode word do not run into each other.
* `pllMode_best`: there is a setting exactly when some admissible choice is within the tolerance, and then
  the mode word holds the factors of the best one.
* `frequency_saturated`: a frequency of 2³² Hz is reported one hertz too low.
* `derive_near`: how near the output of a derived setting is to the frequency that was asked for.
-/

namespace Propeller

variable {c' : PllChoice} {x : PllCandidate} {seen : List PllCandidate} {best : Option PllCandidate}

/-! ### Choices -/

/-- A number rounded to the nearest integer, a half away from zero. -/
def nearest (q : ℚ) : ℤ := if 0 ≤ q then ⌊q + 1 / 2⌋ else -⌊-q + 1 / 2⌋

/-- A post code and a divider. -/
structure PllChoice where
  postCode : ℕ
  divider : ℕ

namespace PllChoice

variable (input target tolerance : ℕ) (c : PllChoice)

/-- What the frequency inside the loop is divided by. -/
def post : ℕ := if c.postCode = 0 then 1 else 2 * c.postCode

/-- The frequency of the divided input. -/
def reference : ℤ := nearest (input / c.divider)

/-- The multiplier that comes nearest to the target. -/
def multiplier : ℤ := nearest (target * c.post / c.reference input)

/-- The frequency inside the loop. -/
def internal : ℤ := c.reference input * c.multiplier input target

/-- The frequency that comes out. -/
def output : ℤ := nearest (c.internal input target / c.post)

/-- How far the output is from the target. -/
def error : ℤ := |c.output input target - target|

/-- The loop can run with a choice. -/
structure Admissible : Prop where
  postCode_lt : c.postCode < 16
  divider_pos : 1 ≤ c.divider
  divider_le : c.divider ≤ 64
  reference_ge : 250000 ≤ c.reference input
  multiplier_le : c.multiplier input target ≤ 1024
  internal_gt : 99000000 < c.internal input target
  internal_le : c.internal input target ≤ 201000000 ∨ c.internal input target ≤ target + tolerance

/-- Post codes are tried from the least, and with each of them dividers from the greatest. -/
def Before (c c' : PllChoice) : Prop :=
  c.postCode < c'.postCode ∨ c.postCode = c'.postCode ∧ c'.divider < c.divider

/-- The last choice of the least error. -/
structure Best : Prop where
  admissible : c.Admissible input target tolerance
  least : ∀ c' : PllChoice, c'.Admissible input target tolerance →
    c.error input target ≤ c'.error input target
  last : ∀ c' : PllChoice, c'.Admissible input target tolerance → c.Before c' →
    c.error input target < c'.error input target

variable {input target tolerance}

/-- Two choices are the same, or one of them is tried first. -/
theorem eq_or_before (c c' : PllChoice) : c = c' ∨ c.Before c' ∨ c'.Before c := by
  obtain ⟨p, d⟩ := c
  obtain ⟨p', d'⟩ := c'
  simp only [Before, mk.injEq]
  omega

theorem before_irrefl (c : PllChoice) : ¬ c.Before c := by
  simp [Before]

theorem Before.asymm {c : PllChoice} (h : c.Before c') : ¬ c'.Before c := by
  simp only [Before] at h ⊢
  omega

/-- There is one best choice. -/
theorem Best.eq {c : PllChoice} (h : c.Best input target tolerance) (h' : c'.Best input target tolerance) :
    c = c' := by
  rcases c.eq_or_before c' with heq | hbefore | hbefore
  · exact heq
  · exact absurd (h.last c' h'.admissible hbefore) (not_lt.mpr (h'.least c h.admissible))
  · exact absurd (h'.last c h.admissible hbefore) (not_lt.mpr (h.least c' h'.admissible))

end PllChoice

/-! ### Candidates -/

/-- Rounding in integers. -/
theorem nearest_div (num den : ℕ) : nearest (num / den) = roundHalfUp num den := by
  have hpos : (0 : ℚ) ≤ num / den := by positivity
  rw [nearest, if_pos hpos, roundHalfUp]
  rcases Nat.eq_zero_or_pos den with rfl | hden
  · norm_num
  · have hden' : (den : ℚ) ≠ 0 := by exact_mod_cast hden.ne'
    have hsum : (num / den + 1 / 2 : ℚ) = ((2 * num + den : ℕ) : ℤ) / ((2 * den : ℕ) : ℚ) := by
      push_cast
      field_simp
    rw [hsum, Rat.floor_intCast_div_natCast]
    norm_cast

namespace PllCandidate

variable {input target tolerance : ℕ}

/-- The candidate of a choice. -/
def ofChoice (input target : ℕ) (c : PllChoice) : PllCandidate :=
  make input target c.postCode c.divider

/-- The choice that a candidate was made for. -/
def choice (c : PllCandidate) : PllChoice := ⟨c.postCode, c.divider⟩

theorem reference_ofChoice (input target : ℕ) (c : PllChoice) :
    ((ofChoice input target c).reference : ℤ) = c.reference input :=
  (nearest_div ..).symm

theorem multiplier_ofChoice (input target : ℕ) (c : PllChoice) :
    ((ofChoice input target c).multiplier : ℤ) = c.multiplier input target := by
  rw [PllChoice.multiplier, ← reference_ofChoice input target]
  have := nearest_div (target * c.post) (ofChoice input target c).reference
  push_cast at this ⊢
  exact this.symm

theorem internal_ofChoice (input target : ℕ) (c : PllChoice) :
    ((ofChoice input target c).internal : ℤ) = c.internal input target := by
  rw [PllChoice.internal, ← reference_ofChoice input target, ← multiplier_ofChoice]
  rfl

theorem output_ofChoice (input target : ℕ) (c : PllChoice) :
    ((ofChoice input target c).output : ℤ) = c.output input target := by
  rw [PllChoice.output, ← internal_ofChoice]
  exact (nearest_div ..).symm

theorem error_ofChoice (input target : ℕ) (c : PllChoice) :
    ((ofChoice input target c).error target : ℤ) = c.error input target := by
  rw [PllChoice.error, ← output_ofChoice, PllCandidate.error, Int.abs_eq_natAbs]
  omega

/-- A candidate is admissible if its choice is. -/
theorem admissible_ofChoice {c : PllChoice} (hpost : c.postCode < 16) (hpos : 1 ≤ c.divider)
    (hle : c.divider ≤ 64) :
    (ofChoice input target c).admissible target tolerance = true ↔
      c.Admissible input target tolerance := by
  have href := reference_ofChoice input target c
  have hmult := multiplier_ofChoice input target c
  have hint := internal_ofChoice input target c
  simp only [PllCandidate.admissible, Bool.and_eq_true, Bool.or_eq_true, decide_eq_true_eq]
  constructor
  · rintro ⟨⟨⟨h₁, h₂⟩, h₃⟩, h₄⟩
    exact ⟨hpost, hpos, hle, by omega, by omega, by omega, by omega⟩
  · intro h
    obtain ⟨-, -, -, h₁, h₂, h₃, h₄⟩ := h
    exact ⟨⟨⟨by omega, by omega⟩, by omega⟩, by omega⟩

/-- The candidates are those of all post codes and dividers, -/
theorem mem_pllCandidates :
    x ∈ pllCandidates input target ↔ ∃ c : PllChoice, c.postCode < 16 ∧ 1 ≤ c.divider ∧
      c.divider ≤ 64 ∧ ofChoice input target c = x := by
  simp only [pllCandidates, List.mem_flatMap, List.mem_map, List.mem_range]
  constructor
  · rintro ⟨p, hp, i, hi, rfl⟩
    exact ⟨⟨p, 64 - i⟩, hp, by simp only; omega, by simp only; omega, rfl⟩
  · rintro ⟨⟨p, d⟩, hp, hpos, hle, rfl⟩
    simp only at hpos hle
    refine ⟨p, hp, 64 - d, by omega, ?_⟩
    rw [ofChoice, Nat.sub_sub_self hle]

/-- in the order in which they are tried. -/
theorem pairwise_pllCandidates (input target : ℕ) :
    (pllCandidates input target).Pairwise fun x y => x.choice.Before y.choice := by
  rw [pllCandidates, List.pairwise_flatMap]
  constructor
  · intro p _
    rw [List.pairwise_map]
    refine List.Pairwise.imp_of_mem (fun {i j} hi hj hij => ?_) List.pairwise_lt_range
    rw [List.mem_range] at hi hj
    refine .inr ⟨rfl, ?_⟩
    simp only [choice, make]
    omega
  · refine List.pairwise_lt_range.imp fun {p q} hpq x hx y hy => ?_
    obtain ⟨i, -, rfl⟩ := List.mem_map.mp hx
    obtain ⟨j, -, rfl⟩ := List.mem_map.mp hy
    exact .inl hpq

/-! ### The search -/

/-- Of the candidates seen so far the last one of the least error is remembered. -/
def Remembers (target : ℕ) (seen : List PllCandidate) : Option PllCandidate → Prop
  | none   => seen = []
  | some b => ∃ front back, seen = front ++ b :: back ∧
      (∀ x ∈ front, b.error target ≤ x.error target) ∧ ∀ x ∈ back, b.error target < x.error target

/-- One more candidate is better, or at least as good, or it is forgotten. -/
theorem Remembers.better (h : Remembers target seen best) (x : PllCandidate) :
    Remembers target (seen ++ [x]) (PllCandidate.better target best x) := by
  cases best with
  | none =>
    obtain rfl : seen = [] := h
    exact ⟨[], [], rfl, by simp, by simp⟩
  | some b =>
    obtain ⟨front, back, rfl, hfront, hback⟩ := h
    rw [PllCandidate.better]
    split
    · next hle =>
      refine ⟨front ++ b :: back, [], rfl, fun y hy => ?_, by simp⟩
      rcases List.mem_append.mp hy with hy | hy
      · exact hle.trans (hfront y hy)
      · rcases List.mem_cons.mp hy with rfl | hy
        · exact hle
        · exact hle.trans (hback y hy).le
    · next hlt =>
      refine ⟨front, back ++ [x], by simp, hfront, fun y hy => ?_⟩
      rcases List.mem_append.mp hy with hy | hy
      · exact hback y hy
      · rw [List.mem_singleton.mp hy]
        exact not_le.mp hlt

/-- **The search** remembers the last candidate of the least error. -/
theorem Remembers.foldl (h : Remembers target seen best) (xs : List PllCandidate) :
    Remembers target (seen ++ xs) (xs.foldl (PllCandidate.better target) best) := by
  induction xs generalizing seen best with
  | nil => rwa [List.append_nil]
  | cons x xs ih =>
    rw [List.append_cons]
    exact ih (h.better x)

/-- The candidates that are looked at are those of admissible choices. -/
theorem mem_admissible :
    x ∈ (pllCandidates input target).filter (·.admissible target tolerance) ↔
      ∃ c : PllChoice, c.Admissible input target tolerance ∧ ofChoice input target c = x := by
  rw [List.mem_filter, mem_pllCandidates]
  constructor
  · rintro ⟨⟨c, hpost, hpos, hle, rfl⟩, hx⟩
    exact ⟨c, (admissible_ofChoice hpost hpos hle).mp hx, rfl⟩
  · rintro ⟨c, hc, rfl⟩
    obtain ⟨hpost, hpos, hle, -⟩ := id hc
    exact ⟨⟨c, hpost, hpos, hle, rfl⟩, (admissible_ofChoice hpost hpos hle).mpr hc⟩

theorem remembers_bestCandidate (input target tolerance : ℕ) :
    Remembers target ((pllCandidates input target).filter (·.admissible target tolerance))
      (bestCandidate input target tolerance) :=
  have hstart : Remembers target [] none := rfl
  hstart.foldl _

theorem bestCandidate_eq_none (h : bestCandidate input target tolerance = none) (c : PllChoice) :
    ¬ c.Admissible input target tolerance := by
  intro hc
  have hempty := remembers_bestCandidate input target tolerance
  rw [h] at hempty
  have hmem := mem_admissible.mpr ⟨c, hc, rfl⟩
  rw [show _ = [] from hempty] at hmem
  cases hmem

/-- **The candidate that is found** is that of the best choice. -/
theorem bestCandidate_eq_some (h : bestCandidate input target tolerance = some x) :
    ∃ c : PllChoice, c.Best input target tolerance ∧ ofChoice input target c = x := by
  have hfound := remembers_bestCandidate input target tolerance
  rw [h] at hfound
  obtain ⟨front, back, hsplit, hfront, hback⟩ := hfound
  have hmem : ∀ c : PllChoice, c.Admissible input target tolerance →
      ofChoice input target c ∈ front ∨ ofChoice input target c = x ∨
        ofChoice input target c ∈ back := by
    intro c hc
    have hin := mem_admissible.mpr ⟨c, hc, rfl⟩
    rwa [hsplit, List.mem_append, List.mem_cons] at hin
  have hx : x ∈ (pllCandidates input target).filter (·.admissible target tolerance) := by
    simp [hsplit]
  obtain ⟨c, hc, rfl⟩ := mem_admissible.mp hx
  -- what stands in front was tried before
  have horder := (pairwise_pllCandidates input target).filter
    (·.admissible target tolerance)
  rw [hsplit, List.pairwise_append] at horder
  refine ⟨c, ⟨hc, fun c' hc' => ?_, fun c' hc' hbefore => ?_⟩, rfl⟩
  · rw [← error_ofChoice, ← error_ofChoice, Int.ofNat_le]
    rcases hmem c' hc' with hin | heq | hin
    · exact hfront _ hin
    · rw [heq]
    · exact (hback _ hin).le
  · rw [← error_ofChoice, ← error_ofChoice, Int.ofNat_lt]
    rcases hmem c' hc' with hin | heq | hin
    · have hafter : c'.Before c := horder.2.2 _ hin _ (.head _)
      exact absurd hbefore hafter.asymm
    · have hsame : c' = c := congrArg choice heq
      exact absurd hbefore (hsame ▸ c.before_irrefl)
    · exact hback _ hin

/-! ### The mode word -/

/-- Fields that do not overlap are added. -/
theorem or_eq_add {a b k : ℕ} (h : b < 2 ^ k) : a * 2 ^ k ||| b = a * 2 ^ k + b := by
  rw [Nat.mul_comm, Nat.two_pow_add_eq_or_of_lt h]

theorem mode_eq {select : ℕ} (hdivider : x.divider ≤ 64) (hmultiplier : x.multiplier ≤ 1024)
    (hselect : select < 4) :
    x.mode select = 2 ^ 24 + (x.divider - 1) * 2 ^ 18 + (x.multiplier - 1) * 2 ^ 8 +
      (x.postCode + 15) % 16 * 2 ^ 4 + select * 2 ^ 2 + 3 := by
  have hs : select * 2 ^ 2 % 2 ^ 32 = select * 2 ^ 2 := Nat.mod_eq_of_lt (by omega)
  have h := Nat.mod_lt (x.postCode + 15) (y := 16) (by omega)
  simp only [mode, hs, Nat.or_assoc]
  rw [or_eq_add (k := 2) (by omega), or_eq_add (k := 4) (by omega), or_eq_add (k := 8) (by omega),
    or_eq_add (k := 18) (by omega), show (2 : ℕ) ^ 24 = 1 * 2 ^ 24 from rfl,
    or_eq_add (k := 24) (by omega)]
  omega

end PllCandidate

/-- The fields of a mode word are read off its sum. -/
theorem ClockSetting.fields {s : ClockSetting} {divider multiplier code select : ℕ}
    (hmode : s.mode = 2 ^ 24 + divider * 2 ^ 18 + multiplier * 2 ^ 8 + code * 2 ^ 4 + select * 2 ^ 2 + 3)
    (hd : divider < 64) (hm : multiplier < 1024) (hc : code < 16) (hs : select < 4) :
    s.usesPll = true ∧ s.divider = divider + 1 ∧ s.multiplier = multiplier + 1 ∧
      s.mode / 2 ^ 4 % 16 = code ∧ s.mode / 2 ^ 2 % 2 ^ 2 = select ∧ s.mode % 2 ^ 2 = 3 ∧
      s.mode < 2 ^ 25 := by
  rw [usesPll, Nat.testBit_eq_decide_div_mod_eq, decide_eq_true_eq, ClockSetting.divider,
    ClockSetting.multiplier]
  omega

/-- The post divider that a post code is written for: the code zero is written as fifteen. -/
theorem ClockSetting.postDivider_eq {s : ClockSetting} {c : PllChoice} (hc : c.postCode < 16)
    (h : s.mode / 2 ^ 4 % 16 = (c.postCode + 15) % 16) : s.postDivider = c.post := by
  have hcases : s.postDivider =
      if s.mode / 2 ^ 4 % 16 = 15 then 1 else (s.mode / 2 ^ 4 % 16 + 1) * 2 := by
    unfold postDivider
    split
    · next hcode => rw [if_pos hcode]
    · next hcode => rw [if_neg hcode]
  rw [hcases, h, PllChoice.post]
  split <;> split <;> omega

/-- A setting holds the factors of a choice. -/
structure ClockSetting.Holds (input target select : ℕ) (c : PllChoice) (s : ClockSetting) : Prop where
  on : s.usesPll = true
  divider_eq : s.divider = c.divider
  multiplier_eq : s.multiplier = c.multiplier input target
  post_eq : s.postDivider = c.post
  /-- The source is chosen in two bits, and the loop in the last two. -/
  select_eq : s.mode / 2 ^ 2 % 2 ^ 2 = select
  loop_eq : s.mode % 2 ^ 2 = 3
  mode_lt : s.mode < 2 ^ 25
  /-- The frequency is the output as far as 32 bits can hold it. -/
  frequency_eq : s.frequency = min (c.output input target) (2 ^ 32 - 1)

open PllCandidate

/-- **The mode word** of an admissible choice holds its factors. -/
theorem PllChoice.Admissible.holds {input target tolerance select : ℕ} {c : PllChoice}
    (h : c.Admissible input target tolerance) (hselect : select < 4) {s : ClockSetting}
    (hmode : s.mode = (ofChoice input target c).mode select)
    (hfrequency : s.frequency = min (ofChoice input target c).output (2 ^ 32 - 1)) :
    s.Holds input target select c := by
  have hmultiplier := multiplier_ofChoice input target c
  have houtput := output_ofChoice input target c
  obtain ⟨hpost, hpos, hle, -, hmult, hinternal, -⟩ := h
  -- with a multiplier of zero nothing would be left inside the loop
  have hone : 1 ≤ (ofChoice input target c).multiplier := by
    refine Nat.one_le_iff_ne_zero.mpr fun hzero => ?_
    rw [PllChoice.internal, ← hmultiplier, hzero, Int.natCast_zero, Int.mul_zero] at hinternal
    omega
  have hsum := hmode.trans (mode_eq hle (by omega) hselect)
  have hcode : (c.postCode + 15) % 16 < 16 := Nat.mod_lt _ (by omega)
  have hdivider : c.divider - 1 < 64 := by omega
  obtain ⟨hon, hd, hm, hp, hs, hloop, hlt⟩ :=
    ClockSetting.fields hsum hdivider (by omega) hcode hselect
  exact ⟨hon, hd.trans (Nat.sub_add_cancel hpos), by omega, ClockSetting.postDivider_eq hpost hp, hs,
    hloop, hlt, by omega⟩

/-- **The search finds the nearest setting.**  There is one exactly when the output of some admissible
choice is within the tolerance, and it holds the factors of the best choice. -/
theorem pllMode_best (input target tolerance : ℕ) {select : ℕ} (hselect : select < 4) :
    ((∃ s, pllMode input target tolerance select = .ok s) ↔
      ∃ c : PllChoice, c.Admissible input target tolerance ∧ c.error input target ≤ tolerance) ∧
    ∀ s, pllMode input target tolerance select = .ok s →
      ∃ c : PllChoice, c.Best input target tolerance ∧ s.Holds input target select c := by
  cases hfound : bestCandidate input target tolerance with
  | none =>
    have hnone := bestCandidate_eq_none hfound
    simp only [pllMode, hfound]
    refine ⟨⟨by simp, ?_⟩, by simp⟩
    rintro ⟨c, hc, -⟩
    exact absurd hc (hnone c)
  | some x =>
    obtain ⟨c, hbest, rfl⟩ := bestCandidate_eq_some hfound
    have herror := error_ofChoice input target c
    simp only [pllMode, hfound]
    split
    · next hnear =>
      refine ⟨⟨fun _ => ⟨c, hbest.admissible, by omega⟩, fun _ => ⟨_, rfl⟩⟩, ?_⟩
      rintro s ⟨⟩
      exact ⟨c, hbest, hbest.admissible.holds hselect rfl rfl⟩
    · next hfar =>
      refine ⟨⟨by simp, ?_⟩, by simp⟩
      rintro ⟨c', hc', hnear⟩
      have hleast := hbest.least c' hc'
      omega

/-- 160 MHz out of a clock of 20 MHz: the input is multiplied by eight. -/
theorem pllMode_best_eightfold :
    1 < 4 ∧ pllMode 20000000 160000000 defaultTolerance 1 = .ok ⟨0x10007F7, 160000000⟩ ∧
      ∃ c : PllChoice, c.Best 20000000 160000000 defaultTolerance ∧
        ClockSetting.Holds 20000000 160000000 1 c ⟨0x10007F7, 160000000⟩ := by
  have hmode : pllMode 20000000 160000000 defaultTolerance 1 = .ok ⟨0x10007F7, 160000000⟩ := by
    decide +kernel
  exact ⟨by decide, hmode, (pllMode_best 20000000 160000000 defaultTolerance (by decide)).2 _ hmode⟩

/-- The output of the best choice may be 2³² Hz, one more than 32 bits can hold. -/
theorem frequency_saturated :
    ∃ s, pllMode 67108864 4294967295 1 2 = .ok s ∧
      ∀ c : PllChoice, c.Best 67108864 4294967295 1 →
        (s.frequency : ℤ) ≠ c.output 67108864 4294967295 := by
  have hmode : pllMode 67108864 4294967295 1 2 = .ok ⟨0x1003FFB, 4294967295⟩ := by decide +kernel
  have hfound : (bestCandidate 67108864 4294967295 1).map (·.output) = some 4294967296 := by
    decide +kernel
  obtain ⟨x, hx, houtput⟩ := Option.map_eq_some_iff.mp hfound
  obtain ⟨c, hbest, rfl⟩ := bestCandidate_eq_some hx
  refine ⟨_, hmode, fun c' hbest' => ?_⟩
  rw [hbest'.eq hbest, ← output_ofChoice, houtput]
  decide

/-! ### The frequency that is really made

The search reckons in whole hertz: the divided input is rounded before it is multiplied, and so is the output.
What the loop really makes is the exact ratio, and the two are apart by what was rounded. -/

/-- How far a number of `den` parts can be from the nearest integer: at most half of them, in whole parts. -/
def roundingError (den : ℕ) : ℚ := (den / 2 : ℕ) / den

theorem roundingError_nonneg (den : ℕ) : 0 ≤ roundingError den := by
  rw [roundingError]
  positivity

theorem roundingError_le_half (den : ℕ) : roundingError den ≤ 1 / 2 := by
  have hhalf : ((den / 2 : ℕ) : ℚ) * 2 ≤ den := by exact_mod_cast Nat.div_mul_le_self den 2
  refine div_le_of_le_mul₀ (by positivity) (by norm_num) ?_
  linarith

theorem abs_nearest_sub_le (num : ℕ) {den : ℕ} (hden : 0 < den) :
    |(nearest (num / den) : ℚ) - num / den| ≤ roundingError den := by
  have hden' : (0 : ℚ) < den := by exact_mod_cast hden
  have hparts : |(roundHalfUp num den * den : ℤ) - num| ≤ (den / 2 : ℕ) := by
    have hsplit := Nat.div_add_mod (2 * num + den) (2 * den)
    have hlt := Nat.mod_lt (2 * num + den) (y := 2 * den) (by omega)
    rw [← roundHalfUp, mul_assoc, mul_comm den] at hsplit
    rw [abs_le]
    constructor <;> push_cast <;> grind
  have hcast : ((|(roundHalfUp num den * den : ℤ) - num| : ℤ) : ℚ) ≤ ((den / 2 : ℕ) : ℤ) :=
    Int.cast_le.mpr hparts
  calc |(nearest (num / den) : ℚ) - num / den|
      = |((roundHalfUp num den * den - num : ℤ) : ℚ)| / den := by
        rw [nearest_div, ← abs_of_pos hden', ← abs_div, abs_of_pos hden']
        push_cast
        rw [sub_div, mul_div_cancel_right₀ _ hden'.ne']
    _ ≤ roundingError den := by
        rw [Int.cast_abs, Int.cast_natCast] at hcast
        rw [roundingError]
        gcongr

/-- A natural number is not rounded. -/
theorem nearest_natCast (n : ℕ) : nearest n = n := by
  have hdiv := nearest_div n 1
  rw [Nat.cast_one, div_one] at hdiv
  rw [hdiv, roundHalfUp]
  omega

namespace ClockSetting

variable (s : ClockSetting) (input : ℕ)

/-- The frequency that a mode word makes of an input. -/
def exactOutput : ℚ := input * s.multiplier / (s.divider * s.postDivider)

/-- The same with the divided input and the output rounded to whole hertz. -/
def wholeOutput : ℤ := nearest (nearest (input / s.divider) * s.multiplier / s.postDivider)

/-- What can get lost in whole hertz: the error of the divided input is multiplied and divided again, and that
of the output comes on top. -/
def roundingLoss : ℚ :=
  s.multiplier * roundingError s.divider / s.postDivider + roundingError s.postDivider

theorem divider_pos : 0 < s.divider := Nat.succ_pos _

theorem postDivider_pos : 0 < s.postDivider := by
  unfold postDivider
  split
  · exact Nat.one_pos
  · exact Nat.mul_pos (Nat.succ_pos _) Nat.two_pos

/-- **Whole hertz** are not far from the exact frequency. -/
theorem abs_exactOutput_sub_wholeOutput_le :
    |s.exactOutput input - s.wholeOutput input| ≤ s.roundingLoss := by
  have hd : (s.divider : ℚ) ≠ 0 := by exact_mod_cast s.divider_pos.ne'
  have hp : (s.postDivider : ℚ) ≠ 0 := by exact_mod_cast s.postDivider_pos.ne'
  -- the divided input, rounded, is a natural number
  obtain ⟨ref, href⟩ : ∃ ref : ℕ, nearest (input / s.divider) = ref := ⟨_, nearest_div ..⟩
  have hinput := abs_nearest_sub_le input s.divider_pos
  have houtput := abs_nearest_sub_le (ref * s.multiplier) s.postDivider_pos
  rw [href, Int.cast_natCast] at hinput
  push_cast at houtput
  have hsplit : s.exactOutput input - s.wholeOutput input =
      -((ref - input / s.divider) * s.multiplier / s.postDivider) -
        (s.wholeOutput input - ref * s.multiplier / s.postDivider) := by
    rw [exactOutput]
    field_simp
    ring
  calc |s.exactOutput input - s.wholeOutput input|
      ≤ |(ref - input / s.divider : ℚ)| * s.multiplier / s.postDivider +
          |(s.wholeOutput input - ref * s.multiplier / s.postDivider : ℚ)| := by
        rw [hsplit]
        refine (abs_sub _ _).trans_eq ?_
        rw [abs_neg, abs_div, abs_mul, Nat.abs_cast, Nat.abs_cast]
    _ ≤ s.roundingLoss := by
        rw [wholeOutput, href, Int.cast_natCast, roundingLoss, mul_comm (s.multiplier : ℚ)]
        gcongr

/-- No more than 512 hertz get lost. -/
theorem roundingLoss_le : s.roundingLoss ≤ 512 := by
  have hm : (s.multiplier : ℚ) ≤ 1024 := by
    have hlt := Nat.mod_lt (s.mode / 2 ^ 8) (y := 1024) (by decide)
    exact_mod_cast hlt
  have hd := roundingError_le_half s.divider
  have hd' := roundingError_nonneg s.divider
  rcases Nat.eq_or_lt_of_le (show 1 ≤ s.postDivider from s.postDivider_pos) with hone | htwo
  · calc s.roundingLoss = s.multiplier * roundingError s.divider := by
          -- an output that is not divided is not rounded either
          simp [roundingLoss, ← hone, roundingError]
      _ ≤ 1024 * (1 / 2) := by gcongr
      _ = 512 := by norm_num
  · have htwo' : (2 : ℚ) ≤ s.postDivider := by exact_mod_cast htwo
    have hp := roundingError_le_half s.postDivider
    calc s.roundingLoss ≤ 1024 * (1 / 2) / 2 + 1 / 2 := by
          rw [roundingLoss]
          gcongr
      _ ≤ 512 := by norm_num

/-- Nothing is rounded when both divisions come out even. -/
theorem exactOutput_eq_wholeOutput {s : ClockSetting} {input : ℕ} (hinput : s.divider ∣ input)
    (houtput : s.postDivider ∣ input / s.divider * s.multiplier) :
    s.exactOutput input = s.wholeOutput input := by
  have hp : (s.postDivider : ℚ) ≠ 0 := by exact_mod_cast s.postDivider_pos.ne'
  have hd : (s.divider : ℚ) ≠ 0 := by exact_mod_cast s.divider_pos.ne'
  obtain ⟨ref, rfl⟩ := hinput
  rw [Nat.mul_div_cancel_left _ s.divider_pos] at houtput
  obtain ⟨out, hout⟩ := houtput
  have hout' : (ref * s.multiplier : ℚ) = s.postDivider * out := by exact_mod_cast hout
  rw [exactOutput, wholeOutput, Nat.cast_mul, mul_div_cancel_left₀ _ hd, nearest_natCast, Int.cast_natCast,
    hout', mul_div_cancel_left₀ _ hp, nearest_natCast, Int.cast_natCast, mul_assoc, hout']
  field_simp

/-- A setting that holds the factors of a choice makes its output, in whole hertz. -/
theorem Holds.wholeOutput_eq {input target select : ℕ} {c : PllChoice} {s : ClockSetting}
    (h : s.Holds input target select c) : s.wholeOutput input = c.output input target := by
  have hm : (s.multiplier : ℚ) = c.multiplier input target := by exact_mod_cast h.multiplier_eq
  rw [wholeOutput, h.divider_eq, hm, h.post_eq, PllChoice.output, PllChoice.internal, Int.cast_mul,
    PllChoice.reference]

end ClockSetting

/-- A setting that is found holds the factors of an admissible choice within the tolerance. -/
theorem exists_holds_of_pllMode {input target tolerance select : ℕ} (hselect : select < 4)
    {s : ClockSetting} (h : pllMode input target tolerance select = .ok s) :
    ∃ c : PllChoice, c.error input target ≤ tolerance ∧ s.Holds input target select c := by
  unfold pllMode at h
  split at h
  · cases h
  · next x hx =>
    obtain ⟨c, hbest, rfl⟩ := bestCandidate_eq_some hx
    split at h
    · next hnear =>
      cases h
      refine ⟨c, ?_, hbest.admissible.holds hselect rfl rfl⟩
      rw [← error_ofChoice]
      exact_mod_cast hnear
    · cases h

/-- **The output of a derived setting.**  In whole hertz it is as near to the frequency that was asked for as
the tolerance says.  What the mode word really makes may be off by what gets lost in whole hertz on top of
that, which is at most 512 Hz, and nothing where both divisions come out even. -/
theorem derive_near {r : ClockRequest} {input : ℕ} {s : ClockSetting}
    (hsource : r.source = .crystal input ∨ r.source = .external input) (h : r.derive = .ok s) :
    s.usesPll = true ∧
    |s.wholeOutput input - r.frequency.getD input| ≤ r.tolerance ∧
    |s.exactOutput input - r.frequency.getD input| ≤ r.tolerance + s.roundingLoss ∧
    s.roundingLoss ≤ 512 ∧
    (s.divider ∣ input → s.postDivider ∣ input / s.divider * s.multiplier →
      |s.exactOutput input - r.frequency.getD input| ≤ r.tolerance) := by
  obtain ⟨select, hselect, hmode⟩ :
      ∃ select < 4, pllMode input (r.frequency.getD input) r.tolerance select = .ok s := by
    unfold ClockRequest.derive at h
    rcases hsource with hsource | hsource <;> rw [hsource] at h
    · exact ⟨2, by decide, h⟩
    · exact ⟨1, by decide, h⟩
  obtain ⟨c, herror, hholds⟩ := exists_holds_of_pllMode hselect hmode
  rw [PllChoice.error, ← hholds.wholeOutput_eq] at herror
  have hwhole : |(s.wholeOutput input : ℚ) - r.frequency.getD input| ≤ r.tolerance := by
    exact_mod_cast herror
  refine ⟨hholds.on, herror, ?_, s.roundingLoss_le, fun hinput houtput => ?_⟩
  · calc |s.exactOutput input - r.frequency.getD input|
        ≤ |s.exactOutput input - s.wholeOutput input| +
            |(s.wholeOutput input : ℚ) - r.frequency.getD input| := abs_sub_le ..
      _ ≤ s.roundingLoss + r.tolerance := by
          gcongr
          exact s.abs_exactOutput_sub_wholeOutput_le input
      _ = r.tolerance + s.roundingLoss := add_comm ..
  · rw [ClockSetting.exactOutput_eq_wholeOutput hinput houtput]
    exact hwhole

/-- 160 MHz out of a clock of 20 MHz: nothing is rounded. -/
theorem derive_near_eightfold :
    ClockRequest.derive { source := .external 20000000, frequency := some 160000000 } =
        .ok ⟨0x10007F7, 160000000⟩ ∧
      |ClockSetting.exactOutput ⟨0x10007F7, 160000000⟩ 20000000 - 160000000| ≤ defaultTolerance := by
  have hmode : ClockRequest.derive { source := .external 20000000, frequency := some 160000000 } =
      .ok ⟨0x10007F7, 160000000⟩ := by decide +kernel
  exact ⟨hmode, (derive_near (.inr rfl) hmode).2.2.2.2 (by decide) (by decide)⟩

/-- A crystal of 15 999 968 Hz is divided by 64 into 249 999.5 Hz.  In whole hertz these are 250 000, so that
1024 times as much seems to be 256 MHz exactly; it is 512 Hz less, which is all that can get lost. -/
theorem exactOutput_outside_tolerance :
    ClockRequest.derive { source := .crystal 15999968, frequency := some 256000000, tolerance := 0 } =
        .ok ⟨0x1FFFFFB, 256000000⟩ ∧
      ClockSetting.roundingLoss ⟨0x1FFFFFB, 256000000⟩ = 512 ∧
      |ClockSetting.exactOutput ⟨0x1FFFFFB, 256000000⟩ 15999968 - 256000000| = 512 ∧
      ¬ |ClockSetting.exactOutput ⟨0x1FFFFFB, 256000000⟩ 15999968 - 256000000| ≤ (0 : ℕ) := by
  have hfields : ClockSetting.divider ⟨0x1FFFFFB, 256000000⟩ = 64 ∧
      ClockSetting.multiplier ⟨0x1FFFFFB, 256000000⟩ = 1024 ∧
      ClockSetting.postDivider ⟨0x1FFFFFB, 256000000⟩ = 1 := by decide
  obtain ⟨hd, hm, hp⟩ := hfields
  have hfar : |ClockSetting.exactOutput ⟨0x1FFFFFB, 256000000⟩ 15999968 - 256000000| = 512 := by
    rw [ClockSetting.exactOutput, hd, hm, hp]
    norm_num
  refine ⟨by decide +kernel, ?_, hfar, ?_⟩
  · rw [ClockSetting.roundingLoss, hd, hm, hp, roundingError, roundingError]
    norm_num
  · rw [hfar]
    norm_num

end Propeller
