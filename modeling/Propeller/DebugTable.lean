import Propeller.Bytes

/-!
# Debug descriptors

Every debug statement of a program has a descriptor that says how to show the values it leaves on
the stack.  The table of descriptors is stored as their number, the offset of each from the start
of the table, and the descriptors themselves, all numbers in two bytes.
-/

namespace Propeller

/-- How a value is shown. -/
inductive DebugFormat
  | udec | sdec | uhex | ubin
deriving DecidableEq, Inhabited

/-- The number of a format. -/
def DebugFormat.code : DebugFormat → Nat
  | .udec => 0
  | .sdec => 1
  | .uhex => 2
  | .ubin => 3

/-- One thing that a debug statement shows. -/
inductive DebugItem
  | text (shown : String)
  | value (format : DebugFormat) (name : String)
deriving DecidableEq, Inhabited

/-- The bytes of one item: a kind, a text, and a zero. -/
def DebugItem.bytes : DebugItem → Bytes
  | .text shown        => 0x01 :: utf8Bytes shown ++ [0]
  | .value format name => UInt8.ofNat (0x40 + 4 * format.code) :: utf8Bytes name ++ [0]

/-- Why the table cannot be made. -/
inductive DebugError
  | tooManyRecords (most : Nat)
  | tooLarge (size limit : Nat)
deriving DecidableEq, Inhabited

/-- The text of the failure. -/
def DebugError.message : DebugError → String
  | .tooManyRecords most => s!"Too many DEBUG statements, at most {most} are allowed"
  | .tooLarge size limit => s!"Debug data is {size} bytes, exceeding the {limit} byte limit"

/-- How large the table may be when nothing is said about it. -/
def defaultDebugLimit : Nat := 16384

/-- The descriptors, by number. -/
structure DebugTable where
  records : List Bytes := []
deriving DecidableEq, Inhabited

namespace DebugTable

/-- A record number has one byte. -/
def capacity : Nat := 256

/-- The descriptor of a statement: its items and a closing zero. -/
def descriptor (items : List DebugItem) : Bytes := items.flatMap DebugItem.bytes ++ [0]

/-- Add the descriptor of a statement; the result has its number. -/
def add (t : DebugTable) (items : List DebugItem) : Except DebugError (Nat × DebugTable) :=
  if t.records.length < capacity then
    .ok (t.records.length, ⟨t.records ++ [descriptor items]⟩)
  else .error (.tooManyRecords capacity)

/-- The size of the count and the offsets. -/
def headerSize (t : DebugTable) : Nat := 2 + 2 * t.records.length

/-- The offsets of records that begin at `start`. -/
def offsets (start : Nat) : List Bytes → List Nat
  | []      => []
  | r :: rs => start :: offsets (start + r.length) rs

/-- The stored form of the table, if it is within the limit. -/
def serialize (t : DebugTable) (limit : Nat) : Except DebugError Bytes :=
  let size := t.headerSize + t.records.flatten.length
  if limit < size then .error (.tooLarge size limit)
  else
    .ok (littleEndian 2 t.records.length ++
      (offsets t.headerSize t.records).flatMap (littleEndian 2) ++ t.records.flatten)

end DebugTable

end Propeller
