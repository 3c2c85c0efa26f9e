import Propeller.Assembly.Placement
import Propeller.Bytecode.Code

/-!
# Bytecode — listings and layout

The body of a method is a listing: instructions in the order in which they are stored, and among
them marks, where lines begin.  Methods are stored one after the other.  How long a branch is
depends on how far it goes, and this on what stands in between, so that addresses are found by
going over all listings until no line moves (`layoutMethods`).  `emitListing` then gives the bytes.
-/

namespace Propeller

/-- A piece of a listing. -/
inductive Entry
  /-- A line begins here. -/
  | mark (line : LineId)
  | code (c : Code)
deriving Inhabited

/-- Instructions and line marks in the order in which they are stored. -/
abbrev Listing := List Entry

/-- A listing whose lines have numbers below `lineCount`. -/
structure Body where
  lineCount : Nat
  listing : Listing
deriving Inhabited

/-- Where a method and its lines are. -/
structure MethodLayout where
  address : Int := 0
  size : Nat := 0
  /-- The address of each line. -/
  lines : Array Int
deriving DecidableEq, Inhabited

/-- Go over a listing from an address on: the address after it, the addresses of its lines, and
whether one of them moved. -/
def sweep (r : Resolution) : Listing → Int → Array Int → Int × Array Int × Bool
  | [], here, lines => (here, lines, false)
  | .mark line :: rest, here, lines =>
    let moved := decide (lines.getD line 0 ≠ here)
    let (stop, lines, others) := sweep r rest here (lines.setIfInBounds line here)
    (stop, lines, moved || others)
  | .code c :: rest, here, lines => sweep r rest (here + c.size r here lines) lines

/-- Go over all methods from an address on: where they are, and whether anything moved. -/
def layoutRound (r : Resolution) :
    Int → List (Body × MethodLayout) → List (Body × MethodLayout) × Bool
  | _, [] => ([], false)
  | here, (body, layout) :: rest =>
    let (stop, lines, moved) := sweep r body.listing here layout.lines
    let (later, others) := layoutRound r stop rest
    ((body, { address := here, size := (stop - here).toNat, lines }) :: later,
      decide (layout.address ≠ here) || moved || others)

/-- Go over all methods until nothing moves, at most `rounds` times. -/
def layoutWithin (r : Resolution) (start : Int) :
    (rounds : Nat) → List (Body × MethodLayout) → Option (List (Body × MethodLayout))
  | 0, _ => none
  | rounds + 1, methods =>
    match layoutRound r start methods with
    | (methods, false) => some methods
    | (methods, true)  => layoutWithin r start rounds methods

/-- Where methods are that are stored one after the other. -/
def layoutMethods (r : Resolution) (start : Int) (limit : Nat) (bodies : List Body) :
    Except PlacementError (List MethodLayout) :=
  let blank := bodies.map fun b => (b, { lines := Array.replicate b.lineCount 0 : MethodLayout })
  match layoutWithin r start limit blank with
  | some methods => .ok (methods.map (·.2))
  | none         => .error (.diverged limit)

/-- The bytes of a listing at an address, up to the first instruction that cannot be encoded. -/
def emitListing (r : Resolution) (lines : Array Int) :
    Listing → Int → Bytes × Option EncodeError
  | [], _ => ([], none)
  | .mark _ :: rest, here => emitListing r lines rest here
  | .code c :: rest, here =>
    match c.encode r here lines with
    | .error e  => ([], some e)
    | .ok bytes =>
      let (later, problem) := emitListing r lines rest (here + bytes.length)
      (bytes ++ later, problem)

/-- The bytes of a method that has been laid out. -/
def MethodLayout.emit (layout : MethodLayout) (r : Resolution) (body : Body) :
    Bytes × Option EncodeError :=
  emitListing r layout.lines body.listing layout.address

end Propeller
