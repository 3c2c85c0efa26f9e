/-!
# Source — locations

Where a piece of source text stands: a file and a half-open range of line and column positions.
A location made of one column prints as `file:line:column`, a longer one as
`file:[line:column-line:column]` with both ends inside the range.
-/

namespace Propeller

/-- A line and a column, both counted from one. -/
structure Position where
  line : Nat := 1
  column : Nat := 1
deriving DecidableEq, Inhabited

namespace Position

/-- The position one column to the right. -/
def advance (p : Position) : Position := { p with column := p.column + 1 }

/-- The position one column to the left; there is none to the left of column zero. -/
def back (p : Position) : Position := { p with column := p.column - 1 }

/-- The text `line:column`. -/
def text (p : Position) : String := s!"{p.line}:{p.column}"

@[simp]
theorem back_advance (p : Position) : p.advance.back = p := rfl

end Position

/-- A range of positions in a file: `start` is inside, `stop` is just past the end. -/
structure Location where
  file : String := "<unknown>"
  start : Position := {}
  stop : Position := start.advance
deriving DecidableEq, Inhabited

namespace Location

/-- The location of the one column `column` of `line`. -/
def point (file : String) (line column : Nat) : Location := { file, start := { line, column } }

/-- The location from the start of `a` to the end of `b`; both are in the file of `a`. -/
def span (a b : Location) : Location := { a with stop := b.stop }

/-- The text of a location, as diagnostics show it. -/
def text (l : Location) : String :=
  if l.stop = l.start.advance then s!"{l.file}:{l.start.text}"
  else s!"{l.file}:[{l.start.text}-{l.stop.back.text}]"

end Location

/-- A value with the location it came from. -/
structure Located (α : Type) where
  value : α
  location : Location := {}
deriving DecidableEq, Inhabited

namespace Located

/-- Change the value and keep the location. -/
def map {α β : Type} (f : α → β) (x : Located α) : Located β := ⟨f x.value, x.location⟩

end Located

end Propeller
