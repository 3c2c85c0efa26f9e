import Propeller.Assembly.Data
import Propeller.Assembly.Instruction
import Propeller.Diagnostic

/-!
# Assembly — placement

Lines of assembly code are placed one after the other.  A line has a logical address, which labels
and branches speak of, and an offset in the image; code for a cog counts its logical address in
longs from an origin, code for the hub in bytes.  How many bytes an instruction takes can depend on
labels that come later, so that `place` is run until no label moves (`converge`); after that
`emit` gives the bytes.

Inside, every address is counted in bytes.
-/

namespace Propeller

/-! ### Lines -/

/-- What a line of assembly code holds. -/
inductive Content
  | empty
  | instruction (i : Instruction)
  | data (d : DataDirective)
  /-- The contents of a file. -/
  | file (contents : Bytes)
  /-- Room for longs, without contents. -/
  | res (count : Expression)
  | align (size : Nat)
  | org (origin : Option Expression)
  | orgh (origin : Option Expression)
  | orgf (target : Expression)
  | fit (limit : Option Expression)
deriving Inhabited

/-- A line of assembly code. -/
structure AsmLine where
  label : Option LabelId := none
  content : Content
  location : Location := {}
deriving Inhabited

/-! ### Failures -/

/-- Why code cannot be placed. -/
inductive PlacementError
  | misaligned
  | overflow (longs : Int)
  | fit (limit address : Int)
  | orgRange (address : Int)
  | orgfBackwards (target address : Int)
  | cogOnly (directive : String)
  | diverged (limit : Nat)
  | encode (error : EncodeError)
  | eval (error : EvalError)
deriving Inhabited

/-- The text of the failure. -/
def PlacementError.message : PlacementError → String
  | .misaligned            => "Cog address is not long aligned"
  | .overflow longs        => s!"Code exceeds the cog limit by {longs} longs"
  | .fit limit address     =>
      s!"Code does not fit below ${Numeral.hex64 limit}, address is ${Numeral.hex64 address}"
  | .orgRange address      => s!"ORG address ${Numeral.hex64 address} out of range"
  | .orgfBackwards target address =>
      let target := Numeral.hex64 target
      s!"ORGF address ${target} is below the current address ${Numeral.hex64 address}"
  | .cogOnly directive     => s!"`{directive}` is only allowed in cog mode"
  | .diverged limit        => s!"Address resolution did not converge after {limit} iterations"
  | .encode error          => error.message
  | .eval error            => error.message

/-! ### Limits -/

/-- The end of the code of a cog, in longs. -/
def cogLimit : Int := 0x1F8

/-- The end of the lookup memory, in longs. -/
def lutLimit : Int := 0x400

/-- Where code has to end when nothing else is asked for, in longs. -/
def fitDefault : Int := 0x1F0

/-- The end of hub memory, in bytes. -/
def hubLimit : Int := 0x100000

/-! ### One line -/

/-- The long that a byte address is in. -/
def longAddress (address : Int) : Int := address.tdiv 4

/-- Where code starts. -/
inductive Start
  /-- In hub memory, at this offset of the image. -/
  | hub (object : Int)
  /-- In a cog, at this long. -/
  | cog (origin : Int)
deriving DecidableEq, Inhabited

/-- The offset in the image at which code starts. -/
def Start.object : Start → Int
  | hub object => object
  | cog _      => 0

/-- The state between two lines. -/
structure Cursor where
  address : Int
  object : Int
  hub : Bool
  /-- The logical address that code must not pass. -/
  limit : Int
deriving DecidableEq, Inhabited

namespace Cursor

/-- Go to a long of the cog or of the lookup memory. -/
def org (c : Cursor) (origin : Int) : Cursor :=
  { c with
    hub := false
    address := origin * 4
    limit := (if 0x200 ≤ origin then lutLimit else cogLimit) * 4 }

/-- The state before the first line. -/
def ofStart : Start → Cursor
  | .hub object => { address := object, object, hub := true, limit := hubLimit }
  | .cog origin => Cursor.org { address := 0, object := 0, hub := false, limit := 0 } origin

/-- Skip bytes, in memory and in the image. -/
def skip (c : Cursor) (bytes : Int) : Cursor :=
  { c with address := c.address + bytes, object := c.object + bytes }

end Cursor

/-- Where a line is: its logical address in bytes, its offset in the image, and how many bytes of
the image it takes. -/
structure Placement where
  address : Int
  object : Int
  hub : Bool
  size : Nat
deriving DecidableEq, Inhabited

namespace Placement

/-- Where an instruction with this placement stands. -/
def origin (p : Placement) : Origin :=
  { address := if p.hub then p.address else longAddress p.address, hub := p.hub }

/-- The address that a label gets. -/
def label (p : Placement) : Address :=
  { address := if p.hub then p.address else longAddress p.address
    object := p.object
    hub := p.hub }

end Placement

/-- The value of an operand, or what is taken when it is left out. -/
def evalOr (env : Environment) (default : Int) : Option Expression → Except PlacementError Int
  | none   => .ok default
  | some e => do return (← (e.evalInt env).mapError .eval).toInt

namespace Content

/-- Where a line begins: what it asks for about the address is done. -/
def moveTo (content : Content) (env : Environment) (c : Cursor) : Except PlacementError Cursor :=
  match content with
  | .org origin => do
    let origin ← evalOr env 0 origin
    if 0 ≤ origin ∧ origin < lutLimit then .ok (c.org origin) else .error (.orgRange origin)
  | .orgh origin => do
    let address ← evalOr env c.object origin
    if 0 ≤ address ∧ address < hubLimit then
      .ok { c with hub := true, limit := hubLimit, address }
    else .error (.orgRange address)
  | .orgf target => do
    if c.hub then .error (.cogOnly "ORGF")
    else
      let target ← (target.evalInt env).mapError .eval
      if target.toInt * 4 < c.address then
        .error (.orgfBackwards target.toInt (longAddress c.address))
      else .ok (c.skip ((target.toInt * 4 - c.address) % 2 ^ 32))
  | .align size =>
    let here := if c.hub then c.object else c.address
    .ok (c.skip (-here % size))
  | .fit limit => do
    if c.hub then .error (.cogOnly "FIT")
    else
      let limit ← evalOr env fitDefault limit
      if limit * 4 < c.address then .error (.fit limit (longAddress c.address)) else .ok c
  | _ => .ok c

/-- How many bytes a line takes, and whether it takes them in the image as well. -/
def extent (content : Content) (env : Environment) (c : Cursor) :
    Except PlacementError (Nat × Bool) :=
  match content with
  | .instruction i =>
    if !c.hub ∧ c.address % 4 ≠ 0 then .error .misaligned else .ok (i.size env, true)
  | .data d =>
    match d.size env with
    | .ok size => .ok (size, true)
    | .error e => .error (.encode e.value)
  | .file contents => .ok (contents.length, true)
  | .res count => do
    if c.hub then .error (.cogOnly "RES")
    else
      let longs := max 0 (← (count.evalInt env).mapError .eval).toInt
      let room := max 0 (c.limit - c.address) / 4
      if room < longs then .error (.overflow (longs - room)) else .ok (longs.toNat * 4, false)
  | _ => .ok (0, true)

/-- Place a line: where it is, and where the next one goes. -/
def place (content : Content) (env : Environment) (c : Cursor) :
    Except PlacementError (Placement × Cursor) := do
  let c ← content.moveTo env c
  let (size, stored) ← content.extent env c
  let placement : Placement :=
    { address := c.address, object := c.object, hub := c.hub, size := if stored then size else 0 }
  let next : Cursor :=
    { c with address := c.address + size, object := c.object + placement.size }
  if next.address ≤ next.limit then .ok (placement, next)
  else if next.hub then .error (.orgRange next.address)
  else .error (.overflow ((next.address - next.limit + 3) / 4))

end Content

/-! ### All lines -/

/-- Give the label of a line its address; true if that is a new one.  A label of cog code stands at
a long. -/
def AsmLine.record (line : AsmLine) (p : Placement) (addresses : Addresses) :
    Except PlacementError (Addresses × Bool) :=
  match line.label with
  | none => .ok (addresses, false)
  | some label =>
    if !p.hub ∧ p.address % 4 ≠ 0 then .error .misaligned
    else
      let moved := addresses.moves label p.label
      .ok (addresses.set label p.label, moved)

/-- What one pass over the lines gives.  The addresses of labels that were placed before a failure
stay as they were found. -/
structure Pass where
  addresses : Addresses
  /-- Where each line is, and whether a label moved. -/
  outcome : Except (Located PlacementError) (List Placement × Bool)

/-- Place lines from a state on. -/
def place (scopes : Scopes) : Cursor → List AsmLine → Addresses → Pass
  | _, [], addresses => ⟨addresses, .ok ([], false)⟩
  | c, line :: rest, addresses =>
    match line.content.place ⟨scopes, addresses⟩ c with
    | .error e => ⟨addresses, .error ⟨e, line.location⟩⟩
    | .ok (p, next) =>
      match line.record p addresses with
      | .error e => ⟨addresses, .error ⟨e, line.location⟩⟩
      | .ok (addresses, moved) =>
        let later := place scopes next rest addresses
        ⟨later.addresses, later.outcome.map fun (ps, others) => (p :: ps, moved || others)⟩

/-- Place lines again until no label moves, at most `rounds` times; `limit` is how often that was
at the beginning. -/
def convergeWithin (scopes : Scopes) (start : Start) (lines : List AsmLine) (limit : Nat) :
    (rounds : Nat) → Addresses → Addresses × Except (Located PlacementError) (List Placement)
  | 0, addresses =>
    let location := (lines.head?.map AsmLine.location).getD {}
    (addresses, .error ⟨.diverged limit, location⟩)
  | rounds + 1, addresses =>
    let pass := place scopes (.ofStart start) lines addresses
    match pass.outcome with
    | .error e                => (pass.addresses, .error e)
    | .ok (placements, false) => (pass.addresses, .ok placements)
    | .ok (_, true)           => convergeWithin scopes start lines limit rounds pass.addresses

/-- Place lines until no label moves, at most `limit` times. -/
def converge (scopes : Scopes) (start : Start) (lines : List AsmLine) (limit : Nat)
    (addresses : Addresses) : Addresses × Except (Located PlacementError) (List Placement) :=
  convergeWithin scopes start lines limit limit addresses

/-! ### Bytes -/

/-- The bytes of a line, or everything that is wrong with it. -/
def AsmLine.bytes (line : AsmLine) (env : Environment) (p : Placement) :
    Except (List (Located EncodeError)) Bytes :=
  match line.content with
  | .instruction i => (i.encode env p.origin).mapError fun e => [⟨e, line.location⟩]
  | .data d        => d.bytes env
  | .file contents => .ok contents
  | _              => .ok []

/-- One diagnostic for what is wrong with a line: a single violation stands for itself, several are
put behind one that counts them. -/
def violations : List (Located EncodeError) → Diagnostic
  | [e]    => .error (some e.location) e.value.message
  | errors =>
    .mk .error s!"{errors.length} values are out of range" (errors.head?.map Located.location)
      (errors.map fun e => .error (some e.location) e.value.message)

/-- The bytes of placed lines, of which `written` have been written, and what is wrong with them.
A line that has no bytes leaves room for them. -/
def emitFrom (env : Environment) (start : Int) :
    (written : Nat) → List (AsmLine × Placement) → Bytes × List Diagnostic
  | _, [] => ([], [])
  | written, (line, p) :: rest =>
    let gap := (p.object - start).toNat - written
    let (bytes, problems) := match line.bytes env p with
      | .ok bytes     => (bytes, [])
      | .error errors => (zeros p.size, [violations errors])
    let (later, others) := emitFrom env start (written + gap + bytes.length) rest
    (zeros gap ++ bytes ++ later, problems ++ others)

/-- The bytes of placed lines, and what is wrong with them. -/
def emit (env : Environment) (start : Start) (lines : List AsmLine)
    (placements : List Placement) : Bytes × List Diagnostic :=
  emitFrom env start.object 0 (lines.zip placements)

/-- What assembling lines gives. -/
structure Assembled where
  addresses : Addresses
  bytes : Bytes
  problems : List Diagnostic

/-- Place lines and give their bytes. -/
def assemble (scopes : Scopes) (start : Start) (lines : List AsmLine) (limit : Nat)
    (addresses : Addresses) : Assembled :=
  match converge scopes start lines limit addresses with
  | (addresses, .error e) =>
    ⟨addresses, [], [.error (some e.location) e.value.message]⟩
  | (addresses, .ok placements) =>
    let (bytes, problems) := emit ⟨scopes, addresses⟩ start lines placements
    ⟨addresses, bytes, problems⟩

end Propeller
