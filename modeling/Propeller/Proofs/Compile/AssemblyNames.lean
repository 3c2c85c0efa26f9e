import Propeller.Proofs.Compile.CalledMethods
import Propeller.Proofs.Compile.References
import Propeller.Proofs.Compile.Sections

/-!
# Compile — names of labels in assembly code

When lines of assembly code are converted, all of their labels are bound before any operand is looked at, and
an operand that names a label is evaluated long after.  What a name in an operand stands for is said here for
every draft that comes later (`Resolved`, `Assembled.resolved`): a name with a point stays within the section
of its line, and one without a point is known in all lines.
-/

namespace Propeller

variable {d later d' : Draft} {scope : ScopeId} {lines : List SourceLine}

/-- What is added later changes nothing about a name. -/
theorem Draft.Extends.symbol?_eq (h : d.Extends later) (hd : d.scopes.ParentsFirst) {frame : ScopeId}
    (hframe : frame < d.scopes.frames.size) (x : Identifier) :
    later.scopes.symbol? frame x = d.scopes.symbol? frame x :=
  hd.nearest?_congr hframe fun j f hf =>
    ⟨f, (h.frame_eq j (Array.getElem?_eq_some_iff.mp hf).1).trans hf, rfl, fun _ => rfl⟩

namespace Compile

/-- What names stand for in the frame of a line, in scopes that come later. -/
structure Resolved (scope : ScopeId) (lines : List SourceLine) (bound : List BoundLine) (s later : Scopes)
    (i : Nat) (frame : ScopeId) : Prop where
  /-- A name with a point stands for the last label of that name in the section of the line.  If there is
  none, it stands for what it stood for before. -/
  pointed : ∀ x : Identifier, x.isLocalLabel = true →
    (∃ l, LastLabel bound (fun j => sectionOf lines j = sectionOf lines i) x l ∧
        later.symbol? frame x = some (.label l)) ∨
      (∀ j line, lines[j]? = some line → sectionOf lines j = sectionOf lines i → ¬ line.HasLabel x) ∧
        later.symbol? frame x = s.symbol? scope x
  /-- A label without a point is known in every line, unless its name is a predefined one. -/
  plain : ∀ x : Identifier, x.isLocalLabel = false →
    (∀ f, s.frames[scope]? = some f → f.builtins.lookup x = none) →
    (∃ line ∈ lines, line.HasLabel x) →
    ∃ l, LastLabel bound (fun _ => True) x l ∧ later.symbol? frame x = some (.label l)

theorem Labels.resolved {bound : List BoundLine} (h : Labels scope lines bound d d')
    (hd : d.scopes.ParentsFirst) (hlater : d'.Extends later) {i : Nat} {e : BoundLine}
    (hi : bound[i]? = some e) : Resolved scope lines bound d.scopes later.scopes i e.2.2 := by
  have he := List.mem_of_getElem? hi
  have hlookup := hlater.symbol?_eq (h.parentsFirst hd) (h.frame_lt he)
  constructor
  · intro x hx
    rw [hlookup]
    exact h.symbol?_local hd hx hi
  · rintro x hx hbuiltin ⟨line, hline, hhas⟩
    rw [hlookup]
    exact h.symbol?_global hd hx hbuiltin hline hhas he

/-- A label of the lines is not known before. -/
theorem Labels.symbol?_ne {bound : List BoundLine} (h : Labels scope lines bound d d')
    (hd : d.scopes.Within d.addresses.table.size) {e : BoundLine} (he : e ∈ bound) {l : LabelId}
    (hl : e.2.1 = some l) (x : Identifier) : d.scopes.symbol? scope x ≠ some (.label l) := by
  intro hfound
  obtain ⟨_, -, hb⟩ := exists_of_forall₂ h.binds he
  have hlt : l < d.addresses.table.size := hd.symbol? hfound
  exact Nat.not_le_of_lt hlt (hb.label_new l hl).1

/-- Lines of assembly code as they are converted in the frame `scope` of a draft.  `bound` are the lines with
their labels and the frames of their sections, and `ws` is what is said about these labels. -/
structure Assembled (library : Library) (scope : ScopeId) (lines : List SourceLine) (d : Draft)
    (bound : List BoundLine) (ws : List (Option ScopeWarning)) (d' : Draft) : Prop where
  /-- All lines are converted but for those that are wrong. -/
  run_eq : convert library scope lines d = .ok (bound.filterMap (asmLine? library d'.scopes)) d'
  /-- Every label that is written is a new one. -/
  binds : List.Forall₂ (Binds d.addresses.nextLabel d'.addresses.nextLabel) lines bound
  distinct : Distinct bound
  /-- A name that stood for something before did not stand for one of these labels. -/
  known_before : ∀ e ∈ bound, ∀ l, e.2.1 = some l → ∀ x, d.scopes.symbol? scope x ≠ some (.label l)
  /-- The names that are written in a line are found again in what it holds. -/
  refers : ∀ e ∈ bound, ∀ line, asmLine? library d'.scopes e = some line →
    List.Forall₂ (Refers d'.scopes e.2.2) e.1.nameUses line.content.references
  /-- They stand for labels as they should, now and later. -/
  resolved : ∀ later, d'.Extends later → ∀ i e, bound[i]? = some e →
    Resolved scope lines bound d.scopes later.scopes i e.2.2
  report_eq : ∃ errors : List Diagnostic, (∀ x ∈ errors, x.isError = true) ∧
    d'.report.entries = d.report.entries ++ (List.zipWith noteFor lines ws).flatten ++ errors
  length_eq : ws.length = lines.length
  /-- A label with a point is there already if its section had one of that name before. -/
  duplicate_iff : ∀ i line name, lines[i]? = some line → line.label = some name →
    name.value.isLocalLabel = true → ¬ d.scopes.HasSymbol scope name.value →
    (ws[i]? = some (some (.duplicate name.value)) ↔ ∃ k < i, ∃ earlier, lines[k]? = some earlier ∧
      sectionOf lines k = sectionOf lines i ∧ earlier.HasLabel name.value)

theorem convert_assembled (library : Library) (hd : d.scopes.Within d.addresses.table.size)
    (hscope : scope < d.scopes.frames.size) (lines : List SourceLine) :
    ∃ bound ws d', Assembled library scope lines d bound ws d' := by
  obtain ⟨bound, d₁, errors, hbound, hlabels, hrun, herrors, -⟩ := convert_eq_ok library hscope lines
  obtain ⟨ws, hlength, hreport, hws⟩ := bindLabels_notes hbound
  have hextends : d₁.Extends { d₁ with report := d₁.report.extend errors } :=
    (Draft.Extends.refl d₁).withReport (by rw [Report.entries_extend]; exact List.prefix_append ..)
  refine ⟨bound, ws, { d₁ with report := d₁.report.extend errors }, hrun, hlabels.binds, hlabels.distinct,
    fun e he l hl => hlabels.symbol?_ne hd he hl, fun e he line hline => ?_, fun later hlater i e hi => ?_,
    ⟨errors, herrors, by rw [Report.entries_extend, hreport]⟩, hlength, ?_⟩
  · obtain ⟨content, hcontent, rfl⟩ := asmLine?_eq_some hline
    exact SourceLine.content_refers hcontent
  · exact hlabels.resolved hd.parentsFirst (hextends.trans hlater) hi
  · intro i line name hi hname hlocal houtside
    obtain ⟨e, he, rfl⟩ := hlabels.exists_bound hi
    obtain ⟨before, hbefore, hwarning⟩ := hws i e name he hname hlocal
    obtain ⟨_, _, hrun', hearlier⟩ := bindLabels_labels hscope (lines.take i)
    cases hrun'.symm.trans hbefore
    rw [hwarning, Option.some.injEq, hlabels.warning_local hd.parentsFirst hearlier he hname hlocal,
      or_iff_left houtside]

/-- **Names of labels in assembly code** stand for what they should, in whatever draft the lines are
converted, and what is added later changes nothing about them.  So the names in the data of an object stand for
the same labels when everything else has been compiled. -/
theorem convert_resolves (library : Library) :
    (∀ (scope : ScopeId) (d : Draft), d.scopes.Within d.addresses.table.size → scope < d.scopes.frames.size →
      ∀ lines, ∃ bound ws d', Assembled library scope lines d bound ws d') ∧
    ∀ (config : Config) (tree : ObjectTree) (p : Parts) (last : Draft),
      parts config library tree.nodes (Draft.initial tree.name) = .ok p last →
      ∃ before bound ws after, Assembled library objectScope tree.dataLines before bound ws after ∧
        p.dat = bound.filterMap (asmLine? library after.scopes) ∧
        ∀ i e, bound[i]? = some e →
          Resolved objectScope tree.dataLines bound before.scopes last.scopes i e.2.2 := by
  refine ⟨fun scope d hd hscope => convert_assembled library hd hscope, fun config tree p last h => ?_⟩
  obtain ⟨t⟩ := parts_stages h
  have hlines : tree.dataLines = t.selected.flatMap Node.dataLines := by
    rw [ObjectTree.dataLines, t.selection_eq]
  have hdeclared := t.declared_declarations
  obtain ⟨bound, ws, after, hassembled⟩ := convert_assembled library hdeclared.within
    (hdeclared.lt_scopes (Nat.lt_succ_self _)) tree.dataLines
  have hdata := hassembled.run_eq
  rw [hlines, t.data_eq] at hdata
  injection hdata with hdat hafter
  exact ⟨t.declarations, bound, ws, after, hassembled, hdat, hassembled.resolved last (hafter ▸ t.extends_last)⟩

/-- An object with three sections of data that have labels of the same name, two of them in one section. -/
def sharedLabels : ObjectTree where
  name := "t"
  nodes :=
    let line (label operand : String) : SourceLine :=
      { label := some ⟨⟨label⟩, {}⟩, mnemonic := some ⟨⟨"BYTE"⟩, {}⟩,
        operands := [{ value := .name {} ⟨operand⟩ }] }
    [.data [line ".a" "y", line "x" ".a", line ".a" ".a", line ".a" "x", line "y" ".a", line ".a" "x"],
     .method { isPublic := true, name := ⟨⟨"main"⟩, {}⟩ }]

/-- The six lines are at the bytes 8 to 13 and hold the addresses of the labels that they name.  One warning is
given, about the second label in a section. -/
theorem convert_resolves_sharedLabels :
    (compile {} {} sharedLabels).image.map ObjectImage.bytes =
      some [14, 0, 0, 128, 0, 0, 0, 0, 12, 11, 11, 9, 13, 9, 4] ∧
    (compile {} {} sharedLabels).report.entries.map Diagnostic.message =
      [(ScopeWarning.duplicate ⟨".a"⟩).message] ∧
    (∃ bound ws d', Assembled {} objectScope sharedLabels.dataLines (Draft.initial "t") bound ws d') ∧
    ∃ (p : Parts) (last : Draft),
      parts {} {} sharedLabels.nodes (Draft.initial sharedLabels.name) = .ok p last ∧
      ∃ before bound ws after, Assembled {} objectScope sharedLabels.dataLines before bound ws after ∧
        p.dat = bound.filterMap (asmLine? {} after.scopes) ∧
        ∀ i e, bound[i]? = some e →
          Resolved objectScope sharedLabels.dataLines bound before.scopes last.scopes i e.2.2 := by
  have hinitial := Draft.Declared.initial "t"
  obtain ⟨p, last, hparts, -⟩ := exists_of_ok
    (r := parts {} {} sharedLabels.nodes (Draft.initial sharedLabels.name)) (g := fun _ _ => true)
    (by decide +kernel)
  exact ⟨by decide +kernel, by decide +kernel,
    (convert_resolves {}).1 objectScope _ hinitial.within (hinitial.lt_scopes (Nat.lt_succ_self _)) _,
    p, last, hparts, (convert_resolves {}).2 {} sharedLabels p last hparts⟩

end Compile

end Propeller
