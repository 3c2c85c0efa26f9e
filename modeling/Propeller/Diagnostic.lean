import Propeller.Source.Location

/-!
# Diagnostics

A diagnostic is a message with a severity, possibly a location, and possibly children that give
the single violations behind it.  One error anywhere in the tree marks the whole diagnostic as an
error (`Diagnostic.isError`), and a report with such a diagnostic as failed (`Report.hasErrors`).
-/

namespace Propeller

/-- How bad a diagnostic is. -/
inductive Severity
  | warning
  | error
deriving DecidableEq, Inhabited

/-- The word that opens a diagnostic's text. -/
def Severity.text : Severity → String
  | .warning => "warning"
  | .error   => "error"

/-- A message with its severity, its location if it has one, and the diagnostics behind it. -/
inductive Diagnostic
  | mk (severity : Severity) (message : String) (location : Option Location)
      (children : List Diagnostic)
deriving Inhabited

namespace Diagnostic

def severity : Diagnostic → Severity | mk s _ _ _ => s
def message : Diagnostic → String | mk _ m _ _ => m
def location : Diagnostic → Option Location | mk _ _ l _ => l
def children : Diagnostic → List Diagnostic | mk _ _ _ c => c

/-- An error without children. -/
def error (location : Option Location) (message : String) : Diagnostic :=
  mk .error message location []

/-- A warning without children. -/
def warning (location : Option Location) (message : String) : Diagnostic :=
  mk .warning message location []

mutual

/-- The diagnostic or one below it is an error. -/
def isError : Diagnostic → Bool
  | mk severity _ _ children => severity == .error || anyError children

/-- One of the diagnostics, or one below them, is an error. -/
def anyError : List Diagnostic → Bool
  | []      => false
  | d :: ds => d.isError || anyError ds

end

mutual

/-- The diagnostics without children, from left to right. -/
def leaves : Diagnostic → List Diagnostic
  | mk severity message location [] => [mk severity message location []]
  | mk _ _ _ (d :: ds)              => d.leaves ++ allLeaves ds

/-- The leaves of several diagnostics, from left to right. -/
def allLeaves : List Diagnostic → List Diagnostic
  | []      => []
  | d :: ds => d.leaves ++ allLeaves ds

end

/-- Two blanks for each level of nesting. -/
def indentation (depth : Nat) : String := String.ofList (List.replicate (2 * depth) ' ')

mutual

/-- The text of a diagnostic, with the diagnostics behind it indented below it. -/
def text (depth : Nat) : Diagnostic → String
  | mk severity message location children =>
    let pad := indentation depth
    let head := s!"{pad}{severity.text}: {message}\n"
    let place := match location with
      | none   => ""
      | some l => s!"{pad} --> {l.text}\n"
    head ++ place ++ allText (depth + 1) children

/-- The texts of several diagnostics, one after the other. -/
def allText (depth : Nat) : List Diagnostic → String
  | []      => ""
  | d :: ds => d.text depth ++ allText depth ds

end

theorem anyError_eq_any (ds : List Diagnostic) : anyError ds = ds.any isError := by
  induction ds with
  | nil => rfl
  | cons d ds ih => simp [anyError, ih]

theorem anyError_append (a b : List Diagnostic) :
    anyError (a ++ b) = (anyError a || anyError b) := by
  simp [anyError_eq_any]

end Diagnostic

/-- What was reported about one unit of compilation, in order. -/
structure Report where
  unitName : String
  entries : List Diagnostic := []
deriving Inhabited

namespace Report

/-- Add a diagnostic at the end. -/
def push (r : Report) (d : Diagnostic) : Report := { r with entries := r.entries ++ [d] }

/-- Add several diagnostics at the end, in order. -/
def extend (r : Report) (ds : List Diagnostic) : Report := ds.foldl push r

/-- Add an error at a location. -/
def fatal (r : Report) (e : Located String) : Report :=
  r.push (.error (some e.location) e.value)

/-- Add a warning. -/
def warn (r : Report) (location : Option Location) (message : String) : Report :=
  r.push (.warning location message)

/-- There is an error at some depth. -/
def hasErrors (r : Report) : Bool := Diagnostic.anyError r.entries

/-- The entries that are errors, themselves or through something behind them. -/
def errors (r : Report) : List Diagnostic := r.entries.filter Diagnostic.isError

/-- The entries of warning severity. -/
def warnings (r : Report) : List Diagnostic := r.entries.filter (·.severity == .warning)

/-- The diagnostics without children, in order. -/
def leaves (r : Report) : List Diagnostic := Diagnostic.allLeaves r.entries

/-- The text of a report: every entry with a blank line after it, then the verdict. -/
def text (r : Report) : String :=
  if r.entries.isEmpty then "No errors were reported\n" else
  let body := String.join (r.entries.map fun d => d.text 0 ++ "\n")
  let count := r.errors.length
  let verdict :=
    if count = 0 then ""
    else
      let noun := if count = 1 then "error" else "errors"
      s!"Build of {r.unitName} failed with {count} {noun}\n"
  body ++ verdict

@[simp]
theorem entries_push (r : Report) (d : Diagnostic) : (r.push d).entries = r.entries ++ [d] := rfl

theorem hasErrors_push (r : Report) (d : Diagnostic) :
    (r.push d).hasErrors = (r.hasErrors || d.isError) := by
  simp [hasErrors, Diagnostic.anyError_append, Diagnostic.anyError]

/-- What is an error stays one when more is reported. -/
theorem hasErrors_of_prefix {r r' : Report} (h : r.entries <+: r'.entries)
    (he : r'.hasErrors = false) : r.hasErrors = false := by
  obtain ⟨more, hmore⟩ := h
  rw [hasErrors, ← hmore, Diagnostic.anyError_append, Bool.or_eq_false_iff] at he
  exact he.1

end Report

end Propeller
