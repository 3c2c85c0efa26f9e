import Mathlib.Data.List.Forall2
import Propeller.Compile.Lines
import Propeller.Proofs.Compile.Step
import Propeller.Proofs.Diagnostic

/-!
# Compile — lines of assembly code

`bindLabels` goes over lines of assembly code with the frame of the section that it is in.  What it does
for one line is named here (`bindLabel`), so that facts about all lines follow from facts about one.

`convertLines` depends on the scopes only, and changes nothing: what a line is converted to is `asmLine?`, and
lines that are wrong are reported (`convertLines_eq`).
-/

namespace Propeller

/-- What has a counterpart in another list. -/
theorem exists_of_forall₂ {α β : Type} {R : α → β → Prop} {as : List α} {bs : List β}
    (h : List.Forall₂ R as bs) {b : β} (hb : b ∈ bs) : ∃ a ∈ as, R a b := by
  induction h with
  | nil => cases hb
  | @cons a b' as bs hab _ ih =>
    rcases List.mem_cons.mp hb with rfl | hb
    · exact ⟨a, List.mem_cons_self .., hab⟩
    · obtain ⟨a', ha', hr⟩ := ih hb
      exact ⟨a', List.mem_cons_of_mem _ ha', hr⟩

/-- The label of a line, if it is known in the whole object. -/
def SourceLine.globalLabel? (line : SourceLine) : Option Identifier :=
  (line.label.map Located.value).filter (!·.isLocalLabel)

/-- A line opens a section. -/
def SourceLine.opens (line : SourceLine) : Bool := line.globalLabel?.isSome

theorem SourceLine.opens_of_none {line : SourceLine} (h : line.label = none) : line.opens = false := by
  simp [opens, globalLabel?, h]

theorem SourceLine.opens_of_some {line : SourceLine} {name : Located Identifier}
    (h : line.label = some name) : line.opens = !name.value.isLocalLabel := by
  cases hlocal : name.value.isLocalLabel <;> simp [opens, globalLabel?, h, hlocal]

namespace Compile

/-- A line with its label and the frame of its section. -/
abbrev BoundLine := SourceLine × Option LabelId × ScopeId

/-- The frame in which a name is bound that stands in a section. -/
def homeOf (scope current : ScopeId) (name : Identifier) : ScopeId :=
  if name.isLocalLabel then current else scope

/-- The frame that a label is bound in, and the frame of the section behind it. -/
def labelHome (scope current : ScopeId) (name : Located Identifier) :
    Compile (ScopeId × ScopeId) :=
  if name.value.isLocalLabel then pure (current, current)
  else do
    let fresh ← pushScope scope
    pure (scope, fresh)

/-- The label of a line, and the frame of the section that it is in. -/
def bindLabel (scope current : ScopeId) (line : SourceLine) : Compile (Option LabelId × ScopeId) :=
  match line.label with
  | none => pure (none, current)
  | some name => do
    let label ← allocLabel
    let home ← labelHome scope current name
    define home.1 name (.label label)
    modify fun d => { d with labelKinds := (label, line.kind) :: d.labelKinds }
    pure (some label, home.2)

/-- Labels are bound line by line. -/
theorem bindLabels_cons (scope current : ScopeId) (line : SourceLine) (rest : List SourceLine) :
    bindLabels scope current (line :: rest) =
      (do
        let found ← bindLabel scope current line
        let bound ← bindLabels scope found.2 rest
        pure ((line, found.1, found.2) :: bound)) := by
  rw [bindLabels, bindLabel]
  cases line.label with
  | none => rfl
  | some name =>
    simp only [labelHome, bind_assoc, pure_bind]
    congr
    funext label
    split <;> simp only [bind_assoc, pure_bind]

/-- The scopes in which the label of a line is bound. -/
def openSection (scope : ScopeId) (line : SourceLine) (s : Scopes) : Scopes :=
  if line.opens then s.push scope else s

/-- The frame of the section of a line. -/
def sectionFrame (current : ScopeId) (line : SourceLine) (s : Scopes) : ScopeId :=
  if line.opens then s.nextScope else current

/-- A line without a label changes nothing. -/
theorem bindLabel_none {line : SourceLine} (h : line.label = none) (scope current : ScopeId) (d : Draft) :
    bindLabel scope current line d = .ok (none, current) d := by
  simp only [bindLabel, h]
  rfl

/-- The draft behind a line that has a label. -/
def labelled (scope current : ScopeId) (line : SourceLine) (name : Located Identifier) (d : Draft) : Draft :=
  let scopes := openSection scope line d.scopes
  let home := homeOf scope current name.value
  { d with
    scopes := scopes.addSymbol home name.value (.label d.addresses.nextLabel)
    addresses := d.addresses.alloc
    report := noting name d.report (scopes.warningFor home name.value)
    labelKinds := (d.addresses.nextLabel, line.kind) :: d.labelKinds }

/-- A label is new, and it is bound in the frame that it belongs to. -/
theorem bindLabel_some {line : SourceLine} {name : Located Identifier} (h : line.label = some name)
    (scope current : ScopeId) (d : Draft) :
    bindLabel scope current line d =
      .ok (some d.addresses.nextLabel, sectionFrame current line d.scopes)
        (labelled scope current line name d) := by
  have hhome : labelHome scope current name { d with addresses := d.addresses.alloc } =
      .ok (homeOf scope current name.value, sectionFrame current line d.scopes)
        { d with addresses := d.addresses.alloc, scopes := openSection scope line d.scopes } := by
    unfold labelHome homeOf sectionFrame openSection
    rw [SourceLine.opens_of_some h]
    cases name.value.isLocalLabel <;> rfl
  simp only [bindLabel, h]
  rw [run_bind_ok (rfl : allocLabel d = .ok d.addresses.nextLabel _), run_bind_ok hhome,
    run_bind_ok (define_eq_ok ..)]
  rfl

/-- A line with the label that it is bound with, if one was written, which is one of the new labels. -/
structure Binds (first labels : Nat) (source : SourceLine) (entry : BoundLine) : Prop where
  line_eq : entry.1 = source
  label_isSome : entry.2.1.isSome = source.label.isSome
  label_new : ∀ l, entry.2.1 = some l → first ≤ l ∧ l < labels

theorem Binds.mono {first first' labels labels' : Nat} {source : SourceLine} {entry : BoundLine}
    (h : Binds first labels source entry) (hfirst : first' ≤ first) (hlabels : labels ≤ labels') :
    Binds first' labels' source entry :=
  { h with label_new := fun l hl =>
      ⟨Nat.le_trans hfirst (h.label_new l hl).1, Nat.lt_of_lt_of_le (h.label_new l hl).2 hlabels⟩ }

theorem Binds.lines_eq {first labels : Nat} {lines : List SourceLine} {bound : List BoundLine}
    (h : List.Forall₂ (Binds first labels) lines bound) : bound.map Prod.fst = lines := by
  have heq : List.Forall₂ Eq lines (bound.map Prod.fst) :=
    List.forall₂_map_right_iff.mpr (h.imp fun _ _ hb => hb.line_eq.symm)
  rw [List.forall₂_eq_eq_eq] at heq
  exact heq.symm

/-- Lines have different labels. -/
def Distinct (bound : List BoundLine) : Prop :=
  bound.Pairwise fun e e' => ∀ l, e.2.1 = some l → e'.2.1 ≠ some l

/-- **Labels are always bound.**  What the label of one line keeps, all of them keep. -/
theorem bindLabels_eq_ok {scope : ScopeId} {lines : List SourceLine} {I : ScopeId → Draft → Prop}
    (hstep : ∀ line ∈ lines, ∀ name, line.label = some name → ∀ current d, I current d →
      I (sectionFrame current line d.scopes) (labelled scope current line name d))
    {current : ScopeId} {d : Draft} (h : I current d) :
    ∃ bound last d', bindLabels scope current lines d = .ok bound d' ∧ I last d' ∧
      d.addresses.nextLabel ≤ d'.addresses.nextLabel ∧
      List.Forall₂ (Binds d.addresses.nextLabel d'.addresses.nextLabel) lines bound ∧ Distinct bound := by
  induction lines generalizing current d with
  | nil => exact ⟨[], current, d, rfl, h, Nat.le_refl _, .nil, .nil⟩
  | cons line rest ih =>
    have hrest := @ih fun l hl => hstep l (.tail _ hl)
    rw [bindLabels_cons]
    cases hlabel : line.label with
    | none =>
      obtain ⟨bound, last, d', hrun, hlast, hle, hbound, hdistinct⟩ := hrest h
      refine ⟨(line, none, current) :: bound, last, d', ?_, hlast, hle,
        .cons ⟨rfl, by rw [hlabel]; rfl, by simp⟩ hbound, .cons (by simp) hdistinct⟩
      rw [run_bind_ok (bindLabel_none hlabel scope current d), run_bind_ok hrun]
      rfl
    | some name =>
      obtain ⟨bound, last, d', hrun, hlast, hle, hbound, hdistinct⟩ :=
        hrest (hstep line (.head _) name hlabel current d h)
      have hnext : (labelled scope current line name d).addresses.nextLabel =
          d.addresses.nextLabel + 1 := Array.size_push ..
      rw [hnext] at hle hbound
      refine ⟨(line, some d.addresses.nextLabel, sectionFrame current line d.scopes) :: bound, last, d', ?_,
        hlast, Nat.le_of_succ_le hle, .cons ⟨rfl, by rw [hlabel]; rfl, ?_⟩ ?_, .cons ?_ hdistinct⟩
      · rw [run_bind_ok (bindLabel_some hlabel scope current d), run_bind_ok hrun]
        rfl
      · rintro l ⟨⟩
        exact ⟨Nat.le_refl _, hle⟩
      · exact hbound.imp fun _ _ hb => hb.mono (Nat.le_succ _) (Nat.le_refl _)
      · rintro e he l ⟨⟩ hl
        obtain ⟨_, -, hb⟩ := exists_of_forall₂ hbound he
        exact Nat.not_succ_le_self _ (hb.label_new _ hl).1

theorem bindLabels_binds {scope current : ScopeId} {lines : List SourceLine} {bound : List BoundLine}
    {d d' : Draft} (h : bindLabels scope current lines d = .ok bound d') :
    List.Forall₂ (Binds d.addresses.nextLabel d'.addresses.nextLabel) lines bound ∧ Distinct bound := by
  obtain ⟨_, _, _, hrun, -, -, hbound⟩ :=
    @bindLabels_eq_ok scope lines (fun _ _ => True) (fun _ _ _ _ _ _ => id) current d trivial
  cases hrun.symm.trans h
  exact hbound

/-! ### Conversion -/

/-- What a line is converted to whose label has been bound, unless it is wrong. -/
def asmLine? (library : Library) (s : Scopes) (entry : BoundLine) : Option AsmLine :=
  (entry.1.content library s entry.2.2).toOption.map fun content =>
    { label := entry.2.1, content, location := entry.1.location }

theorem asmLine?_eq_some {library : Library} {s : Scopes}
    {entry : BoundLine} {line : AsmLine}
    (h : asmLine? library s entry = some line) :
    ∃ content, entry.1.content library s entry.2.2 = .ok content ∧
      line = { label := entry.2.1, content, location := entry.1.location } := by
  obtain ⟨content, hcontent, rfl⟩ := Option.map_eq_some_iff.mp h
  cases hrun : entry.1.content library s entry.2.2 with
  | error e =>
    rw [hrun] at hcontent
    cases hcontent
  | ok c =>
    rw [hrun] at hcontent
    cases hcontent
    exact ⟨_, rfl, rfl⟩

/-- **Lines are converted** one by one.  What is wrong is reported, and left out. -/
theorem convertLines_eq (library : Library) (bound : List BoundLine)
    (d : Draft) :
    ∃ errors : List Diagnostic,
      convertLines library bound d = .ok (bound.filterMap (asmLine? library d.scopes))
        { d with report := d.report.extend errors } ∧
      (∀ x ∈ errors, x.isError = true) ∧
      (errors = [] → ∀ entry ∈ bound, (asmLine? library d.scopes entry).isSome = true) := by
  induction bound generalizing d with
  | nil => exact ⟨[], rfl, by simp, by simp⟩
  | cons entry rest ih =>
    obtain ⟨line, label, scope⟩ := entry
    let step : Compile AsmLine := do
      let content ← liftExcept (line.content library (← get).scopes scope)
      return { label, content, location := line.location }
    have hstep : step d = (liftExcept (line.content library d.scopes scope) >>= fun content =>
        pure { label, content, location := line.location } : Compile AsmLine) d := rfl
    cases hcontent : line.content library d.scopes scope with
    | ok content =>
      obtain ⟨errors, hrun, herrors, hall⟩ := ih d
      have hline : asmLine? library d.scopes (line, label, scope) =
          some { label, content, location := line.location } := by
        simp [asmLine?, hcontent, Except.toOption]
      refine ⟨errors, ?_, herrors, fun hnil => ?_⟩
      · rw [hcontent] at hstep
        rw [convertLines, run_bind_ok (attempt_of_ok hstep), run_bind_ok hrun,
          List.filterMap_cons_some hline]
        rfl
      · exact List.forall_mem_cons.mpr ⟨by rw [hline]; rfl, hall hnil⟩
    | error e =>
      obtain ⟨errors, hrun, herrors, -⟩ :=
        ih { d with report := d.report.fatal (e.map CompileError.message) }
      have hline : asmLine? library d.scopes (line, label, scope) = none := by
        simp [asmLine?, hcontent, Except.toOption]
      refine ⟨.error (some e.location) e.value.message :: errors, ?_, ?_, by simp⟩
      · rw [hcontent] at hstep
        rw [convertLines, run_bind_ok (attempt_of_error hstep), run_bind_ok hrun,
          List.filterMap_cons_none hline]
        rfl
      · exact List.forall_mem_cons.mpr ⟨Diagnostic.isError_error .., herrors⟩

theorem forall₂_comp {α β γ : Type} {R : α → β → Prop} {S : β → γ → Prop} {T : α → γ → Prop}
    {as : List α} {bs : List β} {cs : List γ} (h : List.Forall₂ R as bs) (h' : List.Forall₂ S bs cs)
    (hT : ∀ a b c, R a b → S b c → T a c) : List.Forall₂ T as cs := by
  induction h generalizing cs with
  | nil =>
    cases h'
    exact .nil
  | cons hab _ ih =>
    cases h' with
    | cons hbc hrest => exact .cons (hT _ _ _ hab hbc) (ih hrest)

/-- Every line is converted, unless an error is reported. -/
theorem convertLines_forall₂ {library : Library} {bound : List BoundLine}
    {converted : List AsmLine} {d d' : Draft} (h : convertLines library bound d = .ok converted d')
    (he : d'.report.errors = d.report.errors) :
    List.Forall₂ (fun entry line => asmLine? library d.scopes entry = some line) bound converted := by
  obtain ⟨errors, hrun, herrors, hall⟩ := convertLines_eq library bound d
  rw [hrun] at h
  cases h
  rw [Report.errors_extend _ herrors, List.append_right_eq_self] at he
  replace hall := hall he
  clear hrun
  induction bound with
  | nil => exact .nil
  | cons entry rest ih =>
    rw [List.forall_mem_cons] at hall
    obtain ⟨line, hline⟩ := Option.isSome_iff_exists.mp hall.1
    rw [List.filterMap_cons_some hline]
    exact .cons hline (ih hall.2)

theorem keeps_convertLines {P : Draft → Prop} [Enduring P] (library : Library)
    (bound : List BoundLine) : Keeps P (convertLines library bound) := by
  intro d hd
  obtain ⟨errors, hrun, -⟩ := convertLines_eq library bound d
  rw [hrun]
  refine Enduring.report d _ ?_ hd
  rw [Report.entries_extend]
  exact List.prefix_append ..

end Compile

end Propeller
