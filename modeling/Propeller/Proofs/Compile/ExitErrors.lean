import Propeller.Proofs.Compile.Verdict

/-!
# Compile — errors about exits

An exit with nowhere to go is an error of its own, with a text of its own: no other error has that text
(`CompileError.message_eq_iff`).  So the exits that are misplaced can be read off a report
(`Report.misplaced`).  They are found while the parts of an object are compiled, and what comes behind that
says nothing about exits (`compile_misplaced`).
-/

namespace Propeller

variable {s t : String} {d x : Diagnostic} {config : Config} {p : Parts}

/-! ### Texts -/

/-- The error about an exit with nowhere to go. -/
def Exit.misplaced : Exit → CompileError
  | .leave => .misplacedLeave
  | .next  => .misplacedNext

/-- A text begins with something else than a quote. -/
def Unquoted (s : String) : Prop := s.toList.head?.any (· ≠ '`') = true

/-- A text ends with a character that no text about an exit ends with. -/
def EndsOtherwise (s : String) : Prop := s.toList.getLast?.any (fun c => c ≠ 'h' ∧ c ≠ 'p') = true

theorem unquoted_append (h : Unquoted s) : Unquoted (s ++ t) := by
  unfold Unquoted at *
  rw [String.toList_append, List.head?_append]
  cases hs : s.toList.head? with
  | none =>
    rw [hs] at h
    cases h
  | some c =>
    rw [hs] at h
    exact h

theorem endsOtherwise_append (h : EndsOtherwise t) : EndsOtherwise (s ++ t) := by
  unfold EndsOtherwise at *
  rw [String.toList_append, List.getLast?_append]
  cases ht : t.toList.getLast? with
  | none =>
    rw [ht] at h
    cases h
  | some c =>
    rw [ht] at h
    exact h

theorem Unquoted.ne_misplaced (h : Unquoted s) (e : Exit) : s ≠ e.misplaced.message := by
  rintro rfl
  cases e <;> cases h

theorem EndsOtherwise.ne_misplaced (h : EndsOtherwise s) (e : Exit) : s ≠ e.misplaced.message := by
  rintro rfl
  cases e <;> cases h

theorem EvalError.unquoted_message (error : EvalError) : Unquoted error.message := by
  cases error with
  | unresolved | divisionByZero => rfl
  | _ =>
    exact unquoted_append (unquoted_append rfl)

theorem EncodeError.unquoted_message (error : EncodeError) : Unquoted error.message := by
  cases error with
  | unalignedBranch | pointerRegister => rfl
  | eval error => exact error.unquoted_message
  | valueOutOfRange _ _ => exact unquoted_append (unquoted_append (unquoted_append rfl))
  | invalidArguments | invalidEffect =>
    exact unquoted_append (unquoted_append (unquoted_append (unquoted_append rfl)))
  | _ =>
    exact unquoted_append (unquoted_append rfl)

theorem LinkError.unquoted_message (error : LinkError) : Unquoted error.message := by
  cases error <;> exact unquoted_append (unquoted_append rfl)

theorem ClockError.unquoted_message (error : ClockError) : Unquoted error.message := by
  cases error with
  | unreachable _ _ _ =>
    exact unquoted_append (unquoted_append (unquoted_append (unquoted_append
      (unquoted_append (unquoted_append rfl)))))
  | conflict _ _ => exact unquoted_append (unquoted_append (unquoted_append (unquoted_append rfl)))
  | range _ _ => exact unquoted_append (unquoted_append (unquoted_append rfl))

theorem DebugError.unquoted_message (error : DebugError) : Unquoted error.message := by
  cases error with
  | tooManyRecords _ => exact unquoted_append (unquoted_append rfl)
  | tooLarge _ _ => exact unquoted_append (unquoted_append (unquoted_append (unquoted_append rfl)))

theorem PlacementError.message_ne_misplaced (error : PlacementError) (e : Exit) :
    error.message ≠ e.misplaced.message := by
  cases error with
  | misaligned => exact Unquoted.ne_misplaced (by rfl) e
  | cogOnly _ => exact EndsOtherwise.ne_misplaced (endsOtherwise_append (by rfl)) e
  | encode error | eval error => exact error.unquoted_message.ne_misplaced e
  | overflow | orgRange | diverged =>
    exact Unquoted.ne_misplaced (unquoted_append (unquoted_append (by rfl))) e
  | fit | orgfBackwards =>
    exact Unquoted.ne_misplaced (unquoted_append (unquoted_append (unquoted_append (by rfl)))) e

/-- **No other error has the text of one about an exit.** -/
theorem CompileError.message_eq_iff (error : CompileError) (e : Exit) :
    error.message = e.misplaced.message ↔ error.exit? = some e := by
  have hunquoted : ∀ {s : String}, Unquoted s → (s = e.misplaced.message ↔ none = some e) :=
    fun h => iff_of_false (h.ne_misplaced e) (Option.some_ne_none e).symm
  have hends : ∀ {s : String}, EndsOtherwise s → (s = e.misplaced.message ↔ none = some e) :=
    fun h => iff_of_false (h.ne_misplaced e) (Option.some_ne_none e).symm
  cases error with
  | misplacedLeave | misplacedNext => cases e <;> decide
  | notAMethod | notAnObject | notIndexable => exact hends (endsOtherwise_append (by rfl))
  | notAssignable | expectedFileName => exact hunquoted rfl
  | undefined | noResult | directiveModifiers =>
    exact hunquoted (unquoted_append (unquoted_append (by rfl)))
  | argumentCount _ _ _ =>
    exact hunquoted (unquoted_append (unquoted_append (unquoted_append (unquoted_append
      (unquoted_append (by rfl))))))
  | eval error | encode error | link error | clock error => exact hunquoted error.unquoted_message
  | debug error => exact hunquoted error.unquoted_message

/-! ### The report -/

/-- Where exits are reported as misplaced, in order. -/
def Report.misplaced (r : Report) (e : Exit) : List (Option Location) :=
  (r.entries.filter fun d => d.severity = .error ∧ d.message = e.misplaced.message).map
    Diagnostic.location

/-- What an error adds to them. -/
def CompileError.misplacedAt (error : Located CompileError) (e : Exit) : List (Option Location) :=
  if error.value.exit? = some e then [some error.location] else []

namespace Report

variable (r : Report) (e : Exit)

theorem misplaced_fatal (error : Located CompileError) :
    (r.fatal (error.map CompileError.message)).misplaced e =
      r.misplaced e ++ CompileError.misplacedAt error e := by
  generalize hentry : Diagnostic.error (some error.location) error.value.message = entry
  have hentries : (r.fatal (error.map CompileError.message)).entries = r.entries ++ [entry] := by
    rw [← hentry]
    rfl
  have hiff : entry.severity = .error ∧ entry.message = e.misplaced.message ↔
      error.value.exit? = some e := by
    rw [← CompileError.message_eq_iff, ← hentry]
    exact and_iff_right rfl
  unfold misplaced CompileError.misplacedAt
  rw [hentries, List.filter_append, List.map_append, List.filter_cons, List.filter_nil]
  by_cases hexit : error.value.exit? = some e
  · rw [if_pos hexit, if_pos (decide_eq_true (hiff.mpr hexit)), ← hentry]
    rfl
  · rw [if_neg hexit, if_neg fun h => hexit (hiff.mp (of_decide_eq_true h))]
    rfl

theorem misplaced_warn (location : Option Location) (message : String) :
    (r.warn location message).misplaced e = r.misplaced e := by
  unfold misplaced
  rw [warn, entries_push, List.filter_append, List.map_append]
  exact List.append_nil _

end Report

/-! ### The stages behind the methods -/

/-- A diagnostic is not an error about an exit. -/
def Diagnostic.Other (d : Diagnostic) : Prop :=
  ∀ e : Exit, ¬(d.severity = .error ∧ d.message = e.misplaced.message)

theorem Problem.other (h : Problem d) : d.Other := by
  cases h with
  | placement location error => exact fun e h => error.message_ne_misplaced e h.2
  | encode location error => exact fun e h => error.unquoted_message.ne_misplaced e h.2
  | violations errors =>
    unfold Propeller.violations
    split
    · next error => exact fun e h => error.value.unquoted_message.ne_misplaced e h.2
    · exact fun e h => EndsOtherwise.ne_misplaced (endsOtherwise_append (by rfl)) e h.2

theorem Parts.other_problems {d : Draft} (hx : x ∈ p.problems config d) : x.Other := by
  unfold problems at hx
  split at hx
  · cases hx
  · cases hbuild : buildImage config d p (p.removed config) with
    | ok image =>
      rw [hbuild] at hx
      cases hx
    | error problems =>
      rw [hbuild] at hx
      exact ((buildImage_problems hbuild).2 x hx).other

theorem Parts.other_debugProblems {d : Draft} (hx : x ∈ Parts.debugProblems config d) : x.Other := by
  unfold debugProblems at hx
  split at hx
  · cases hx
  · cases hstored : d.debug.serialize config.debugLimit with
    | ok bytes =>
      rw [hstored] at hx
      cases hx
    | error error =>
      rw [hstored] at hx
      obtain rfl := List.mem_singleton.mp hx
      exact fun e h => error.unquoted_message.ne_misplaced e h.2

/-- **What a compilation reports about exits** is what its parts have reported. -/
theorem compile_misplaced {library : Library} {tree : ObjectTree} {d : Draft}
    (h : Compile.parts config library tree.nodes (Draft.initial tree.name) = .ok p d) :
    (compile config library tree).report.misplaced = d.report.misplaced := by
  obtain ⟨warnings, report, hwarnings, hentries, hcompile⟩ := compile_parts h
  have hnone : ∀ {ds : List Diagnostic}, (∀ x ∈ ds, x.Other) → ∀ e : Exit,
      ds.filter (fun x => x.severity = .error ∧ x.message = e.misplaced.message) = [] := by
    intro ds hds e
    exact List.filter_eq_nil_iff.mpr fun x hx hx' => hds x hx e (of_decide_eq_true hx')
  have hwarning : ∀ x ∈ warnings, x.Other := by
    intro x hx e hx'
    rw [Diagnostic.anyError_eq_any, List.any_eq_false] at hwarnings
    refine hwarnings x hx ?_
    obtain ⟨severity, message, location, children⟩ := x
    obtain rfl : severity = .error := hx'.1
    rfl
  funext e
  rw [hcompile]
  simp only [Report.misplaced, hentries, List.filter_append, hnone hwarning,
    hnone fun _ => Parts.other_problems, hnone fun _ => Parts.other_debugProblems, List.append_nil]

end Propeller
