import Propeller.Diagnostic

/-!
# Diagnostics — errors at any depth

`Diagnostic.Within d e` says that `d` is `e` or stands at some depth below it, and `Report.Holds` that it
stands at some depth of a report.  The tests that a compilation makes look through the whole tree:

* `Diagnostic.isError_iff`: a diagnostic counts as an error exactly if there is an error within it.
* `Report.hasErrors_iff`: a report has errors exactly if it holds an error, however deep.
-/

namespace Propeller

namespace Diagnostic

/-- A diagnostic is another one, or stands at some depth below it. -/
inductive Within (d : Diagnostic) : Diagnostic → Prop
  | self : Within d d
  | deeper {severity : Severity} {message : String} {location : Option Location}
      {children : List Diagnostic} {child : Diagnostic} :
      child ∈ children → Within d child → Within d (mk severity message location children)

mutual

/-- **A diagnostic counts as an error** exactly if there is an error within it. -/
theorem isError_iff : (d : Diagnostic) →
    (d.isError = true ↔ ∃ e : Diagnostic, e.Within d ∧ e.severity = .error)
  | mk severity message location children => by
    rw [isError, Bool.or_eq_true, anyError_iff children, beq_iff_eq]
    constructor
    · rintro (rfl | ⟨child, hchild, e, he, herror⟩)
      · exact ⟨_, .self, rfl⟩
      · exact ⟨e, .deeper hchild he, herror⟩
    · rintro ⟨e, he, herror⟩
      cases he with
      | self => exact Or.inl herror
      | deeper hchild he => exact Or.inr ⟨_, hchild, e, he, herror⟩

theorem anyError_iff : (ds : List Diagnostic) →
    (anyError ds = true ↔ ∃ d ∈ ds, ∃ e : Diagnostic, e.Within d ∧ e.severity = .error)
  | [] => by simp [anyError]
  | d :: ds => by
    rw [anyError, Bool.or_eq_true, isError_iff d, anyError_iff ds]
    simp only [List.mem_cons, exists_eq_or_imp]

end

/-- An error without children is an error. -/
@[simp]
theorem isError_error (location : Option Location) (message : String) :
    (error location message).isError = true := rfl

@[simp]
theorem isError_warning (location : Option Location) (message : String) :
    (warning location message).isError = false := rfl

/-- Diagnostics that are all errors have an error among them, unless there are none. -/
theorem anyError_of_forall {ds : List Diagnostic} (h : ∀ d ∈ ds, d.isError = true) (hne : ds ≠ []) :
    anyError ds = true := by
  obtain ⟨d, hd⟩ := List.exists_mem_of_ne_nil ds hne
  rw [anyError_eq_any, List.any_eq_true]
  exact ⟨d, hd, h d hd⟩

end Diagnostic

namespace Report

/-- A diagnostic stands in a report, at some depth. -/
def Holds (r : Report) (d : Diagnostic) : Prop := ∃ entry ∈ r.entries, d.Within entry

/-- **A report has errors** exactly if it holds one, however deep. -/
theorem hasErrors_iff (r : Report) : r.hasErrors = true ↔ ∃ d, r.Holds d ∧ d.severity = .error := by
  rw [hasErrors, Diagnostic.anyError_iff]
  constructor
  · rintro ⟨entry, hentry, d, hd, herror⟩
    exact ⟨d, ⟨entry, hentry, hd⟩, herror⟩
  · rintro ⟨d, ⟨entry, hentry, hd⟩, herror⟩
    exact ⟨entry, hentry, d, hd, herror⟩

/-- A report has no errors exactly if it holds nothing but warnings. -/
theorem hasErrors_eq_false_iff (r : Report) :
    r.hasErrors = false ↔ ∀ d, r.Holds d → d.severity = .warning := by
  rw [← Bool.not_eq_true, hasErrors_iff, not_exists]
  refine forall_congr' fun d => ?_
  cases d.severity with
  | warning | error => simp

@[simp]
theorem entries_extend (r : Report) (ds : List Diagnostic) :
    (r.extend ds).entries = r.entries ++ ds := by
  unfold extend
  induction ds generalizing r with
  | nil => simp
  | cons d ds ih => rw [List.foldl_cons, ih, entries_push, List.append_assoc, List.singleton_append]

theorem errors_extend (r : Report) {ds : List Diagnostic} (h : ∀ d ∈ ds, d.isError = true) :
    (r.extend ds).errors = r.errors ++ ds := by
  rw [errors, entries_extend, List.filter_append, List.filter_eq_self.mpr h, errors]

/-- Errors stay reported. -/
theorem errors_mono {r r' : Report} (h : r.entries <+: r'.entries) : r.errors <+: r'.errors := h.filter _

/-- If nothing has been added to the errors in the end, then neither before. -/
theorem errors_eq_of_prefix {r r' r'' : Report} (h : r.entries <+: r'.entries)
    (h' : r'.entries <+: r''.entries) (he : r''.errors = r.errors) :
    r'.errors = r.errors ∧ r''.errors = r'.errors := by
  have hle : r'.errors <+: r.errors := he ▸ errors_mono h'
  have heq := (errors_mono h).eq_of_length_le hle.length_le
  exact ⟨heq.symm, he.trans heq⟩

theorem errors_eq_nil {r : Report} (h : r.hasErrors = false) : r.errors = [] := by
  rw [hasErrors, Diagnostic.anyError_eq_any, List.any_eq_false] at h
  exact List.filter_eq_nil_iff.mpr h

theorem hasErrors_extend (r : Report) (ds : List Diagnostic) :
    (r.extend ds).hasErrors = (r.hasErrors || Diagnostic.anyError ds) := by
  rw [hasErrors, entries_extend, Diagnostic.anyError_append, hasErrors]

end Report

end Propeller
