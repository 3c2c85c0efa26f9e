import Propeller.Arithmetic

/-!
# Clock mode

The phase-locked loop makes `input / divider · multiplier / post` hertz, and the mode word packs
the three factors with the choice of the source:

    0000_000E_DDDD_DDMM_MMMM_MMMM_PPPP_CCSS

`pllMode` tries every post code and every divider and keeps the last candidate of the least error;
everything is done in exact integers, rounding a half up.
-/

namespace Propeller

/-- The frequency of the fast internal oscillator. -/
def rcFastFrequency : Nat := 20000000

/-- The frequency of the slow internal oscillator. -/
def rcSlowFrequency : Nat := 20000

/-- How far the frequency may be off when nothing is said about it. -/
def defaultTolerance : Nat := 1000000

/-- Why there is no clock mode. -/
inductive ClockError
  | unreachable (input target tolerance : Nat)
  | conflict (first second : String)
  | range (symbol : String) (value : Int)
deriving DecidableEq, Inhabited

/-- The text of the failure. -/
def ClockError.message : ClockError → String
  | .unreachable input target tolerance =>
      s!"Unable to derive {target} Hz from {input} Hz within {tolerance} Hz"
  | .conflict first second =>
      s!"Clock symbols `{first}` and `{second}` are mutually exclusive"
  | .range symbol value =>
      s!"Clock symbol `{symbol}` has out of range value {value}"

/-- Where the clock comes from. -/
inductive ClockSource
  | rcFast
  | rcSlow
  /-- A crystal of the given frequency. -/
  | crystal (input : Nat)
  /-- An external clock of the given frequency. -/
  | external (input : Nat)
deriving DecidableEq, Inhabited

/-- A clock that is asked for. -/
structure ClockRequest where
  source : ClockSource := .rcFast
  frequency : Option Nat := none
  tolerance : Nat := defaultTolerance
deriving DecidableEq, Inhabited

/-- A mode word and the frequency it stands for. -/
structure ClockSetting where
  mode : Nat
  frequency : Nat
deriving DecidableEq, Inhabited

/-! ### The factors in a mode word -/

namespace ClockSetting

/-- The loop is switched on. -/
def usesPll (s : ClockSetting) : Bool := s.mode.testBit 24

/-- What the input is divided by. -/
def divider (s : ClockSetting) : Nat := s.mode / 2 ^ 18 % 64 + 1

/-- What the divided input is multiplied by. -/
def multiplier (s : ClockSetting) : Nat := s.mode / 2 ^ 8 % 1024 + 1

/-- What the product is divided by in the end. -/
def postDivider (s : ClockSetting) : Nat :=
  match s.mode / 2 ^ 4 % 16 with
  | 15   => 1
  | code => (code + 1) * 2

/-- The frequency that the mode word really makes of an input, if the loop is on. -/
def output (s : ClockSetting) (input : Nat) : Option Float :=
  if s.usesPll then
    some (input.toFloat / s.divider.toFloat * s.multiplier.toFloat / s.postDivider.toFloat)
  else none

end ClockSetting

/-! ### The search -/

/-- `num / den` rounded to the nearest integer, a half up. -/
def roundHalfUp (num den : Nat) : Nat := (2 * num + den) / (2 * den)

/-- One way to set the loop. -/
structure PllCandidate where
  postCode : Nat
  divider : Nat
  multiplier : Nat
  /-- The frequency of the divided input. -/
  reference : Nat
  /-- The frequency inside the loop. -/
  internal : Nat
  /-- The frequency that comes out. -/
  output : Nat
deriving DecidableEq, Inhabited

namespace PllCandidate

/-- The post divider that a post code stands for. -/
def postOf (postCode : Nat) : Nat := if postCode = 0 then 1 else 2 * postCode

/-- The best multiplier for a post code and a divider. -/
def make (input target postCode divider : Nat) : PllCandidate :=
  let post := postOf postCode
  let reference := roundHalfUp input divider
  let multiplier := roundHalfUp (target * post) reference
  let internal := reference * multiplier
  { postCode, divider, multiplier, reference, internal, output := roundHalfUp internal post }

/-- The loop can run like this. -/
def admissible (target tolerance : Nat) (c : PllCandidate) : Bool :=
  250000 ≤ c.reference && c.multiplier ≤ 1024 && 99000000 < c.internal &&
    (c.internal ≤ 201000000 || c.internal ≤ target + tolerance)

/-- How far the output is from the target. -/
def error (target : Nat) (c : PllCandidate) : Nat := (c.output - target) + (target - c.output)

/-- The mode word of a candidate. -/
def mode (select : Nat) (c : PllCandidate) : Nat :=
  let fields := 2 ^ 24 ||| (c.divider - 1) * 2 ^ 18 ||| (c.multiplier - 1) * 2 ^ 8
  let post := (c.postCode + 15) % 16 * 2 ^ 4
  (fields ||| post ||| select * 2 ^ 2 % 2 ^ 32) ||| 3

end PllCandidate

/-- Every post code from the least, and with each every divider from the greatest. -/
def pllCandidates (input target : Nat) : List PllCandidate :=
  (List.range 16).flatMap fun postCode =>
    (List.range 64).map fun i => PllCandidate.make input target postCode (64 - i)

/-- The better of two candidates; of two equally good ones the later. -/
def PllCandidate.better (target : Nat) (best : Option PllCandidate) (c : PllCandidate) :
    Option PllCandidate :=
  match best with
  | none   => some c
  | some b => if c.error target ≤ b.error target then some c else some b

/-- The candidate of the least error among those the loop can run with. -/
def bestCandidate (input target tolerance : Nat) : Option PllCandidate :=
  ((pllCandidates input target).filter (·.admissible target tolerance)).foldl
    (PllCandidate.better target) none

/-- The setting of the loop that comes nearest to a target, if it is near enough. -/
def pllMode (input target tolerance select : Nat) : Except ClockError ClockSetting :=
  match bestCandidate input target tolerance with
  | none   => .error (.unreachable input target tolerance)
  | some c =>
    if c.error target ≤ tolerance then
      .ok { mode := c.mode select, frequency := min c.output (2 ^ 32 - 1) }
    else .error (.unreachable input target tolerance)

/-- The setting for a request. -/
def ClockRequest.derive (r : ClockRequest) : Except ClockError ClockSetting :=
  match r.source with
  | .rcFast         => .ok { mode := 0, frequency := rcFastFrequency }
  | .rcSlow         => .ok { mode := 1, frequency := rcSlowFrequency }
  | .crystal input  => pllMode input (r.frequency.getD input) r.tolerance 2
  | .external input => pllMode input (r.frequency.getD input) r.tolerance 1

end Propeller
