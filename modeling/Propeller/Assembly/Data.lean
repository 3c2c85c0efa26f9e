import Propeller.Assembly.Directive
import Propeller.Bytes
import Propeller.Expression.Eval
import Propeller.Source.Location

/-!
# Assembly — data

A data directive lists values of a width.  A value may have a width of its own and may be repeated,
and a text stands for its bytes.  `DataDirective.bytes` gives all bytes, or every operand that
cannot be stored, each at its place.
-/

namespace Propeller

/-- A value of a data directive. -/
structure DataValue where
  value : Expression
  /-- How often it is repeated. -/
  count : Option Expression := none
  /-- A width that replaces that of the directive. -/
  width : Option DataType := none
deriving Inhabited

/-- A directive that stores values. -/
structure DataDirective where
  kind : DataType
  values : List (Located DataValue)
deriving Inhabited

/-- The least and the greatest value that a width can hold, and how that range is written; a long
takes the low 32 bits of anything. -/
def DataType.range? : DataType → Option (Int × Int × String)
  | .byte => some (-0x80, 0xFF, "-0x80..0xFF")
  | .word => some (-0x8000, 0xFFFF, "-0x8000..0xFFFF")
  | .long => none

/-- The bytes of a value of the given width. -/
def DataType.store (kind : DataType) (v : Int64) : Except EncodeError Bytes :=
  let bytes := littleEndian kind.size v.toBitVec.toNat
  match kind.range? with
  | none => .ok bytes
  | some (least, greatest, shown) =>
    if least ≤ v.toInt ∧ v.toInt ≤ greatest then .ok bytes
    else .error (.valueOutOfRange v.toInt shown)

namespace DataValue

/-- How often a value is repeated. -/
def repetitions (v : DataValue) (env : Environment) : Except EncodeError Nat := do
  match v.count with
  | none => return 1
  | some count =>
    let n ← (count.evalInt env).mapError .eval
    if 0 ≤ n.toInt ∧ n.toInt < 2 ^ 32 then return n.toInt.toNat
    else .error (.valueOutOfRange n.toInt "0..$FFFFFFFF")

/-- The integers that a value stands for. -/
def elements (v : DataValue) (env : Environment) : Except EncodeError (List Int64) :=
  match v.value.text? with
  | some text => .ok ((utf8Bytes text).map fun b => Int64.ofNat b.toNat)
  | none      => do return [(← (v.value.eval env).mapError .eval).long]

/-- How many integers a value stands for, also while it cannot be evaluated. -/
def elementCount (v : DataValue) : Nat :=
  match v.value.text? with
  | some text => (utf8Bytes text).length
  | none      => 1

/-- The bytes of a value: those of each element, repeated. -/
def bytes (v : DataValue) (kind : DataType) (env : Environment) : Except EncodeError Bytes := do
  let count ← v.repetitions env
  let elements ← v.elements env
  let stored ← elements.mapM (v.width.getD kind).store
  return stored.flatMap fun b => (List.replicate count b).flatten

/-- How many bytes a value takes. -/
def size (v : DataValue) (kind : DataType) (env : Environment) : Except EncodeError Nat := do
  return (← v.repetitions env) * (v.width.getD kind).size * v.elementCount

end DataValue

namespace DataDirective

/-- How many bytes a directive takes, or the first operand whose repetition is no number. -/
def size (d : DataDirective) (env : Environment) : Except (Located EncodeError) Nat := do
  let sizes ← d.values.mapM fun v => (v.value.size d.kind env).mapError (⟨·, v.location⟩)
  return sizes.sum

/-- The bytes of a directive, or all operands that cannot be stored. -/
def bytes (d : DataDirective) (env : Environment) : Except (List (Located EncodeError)) Bytes :=
  let parts := d.values.map fun v => (v.value.bytes d.kind env).mapError (⟨·, v.location⟩)
  let errors := parts.filterMap fun
    | .error e => some e
    | .ok _    => none
  if errors.isEmpty then
    .ok (parts.flatMap fun
      | .ok b    => b
      | .error _ => [])
  else .error errors

end DataDirective

end Propeller
