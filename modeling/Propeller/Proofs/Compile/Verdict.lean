import Mathlib.Data.List.TFAE
import Mathlib.Tactic.TFAE
import Propeller.Proofs.Assembly.Assembled
import Propeller.Proofs.Compile.Image
import Propeller.Proofs.Compile.Recovery

/-!
# Compile — there is an image exactly if nothing is wrong

Errors come up while the parts of an object are compiled, when assembly code is placed and encoded, when
methods are laid out and emitted, and when the debug data is stored.  Each of these stages can keep the
image back, and each of them says so in the report.

* `Parts.Clean`: nothing is wrong in any stage, said without the report of the compilation.
* `Problem`, `buildImage_problems`: what can be wrong with the code, if an image cannot be put together.
* `Compile.object_eq`: what compiling an object reports besides warnings is what was wrong with its parts,
  or else with its image.
* `compile_image_tfae`: there is an image, the report holds no error, the compilation succeeded, and every
  stage is clean, all of them or none.
-/

namespace Propeller

variable {env : Environment} {start : Int} {written limit : Nat} {placed : List (AsmLine × Placement)}
  {scopes : Scopes} {lines : List AsmLine} {t : Addresses} {blocks : List InlineBlock} {r : Resolution}
  {library : Library} {tree : ObjectTree}

/-! ### Assembly code -/

/-- Lines are placed, and each of them can be encoded where it is. -/
def Assembles (scopes : Scopes) (start : Start) (lines : List AsmLine) (limit : Nat) (t : Addresses) :
    Prop :=
  ∃ ps, (converge scopes start lines limit t).2 = .ok ps ∧
    ∀ l ∈ lines.zip ps, ∃ code,
      l.1.bytes ⟨scopes, (converge scopes start lines limit t).1⟩ l.2 = .ok code

/-- What can be wrong with the code of an image: a line cannot be placed, or something cannot be encoded. -/
inductive Problem : Diagnostic → Prop
  | placement (location : Option Location) (e : PlacementError) : Problem (.error location e.message)
  | encode (location : Option Location) (e : EncodeError) : Problem (.error location e.message)
  | violations (errors : List (Located EncodeError)) : Problem (violations errors)

theorem Problem.isError {d : Diagnostic} (h : Problem d) : d.isError = true := by
  cases h with
  | placement | encode => rfl
  | violations errors =>
    unfold Propeller.violations
    split
    · rfl
    · rfl

/-- Lines that can all be encoded have no problem, -/
theorem emitFrom_problems (h : ∀ l ∈ placed, ∃ code, l.1.bytes env l.2 = .ok code) :
    (emitFrom env start written placed).2 = [] := by
  induction placed generalizing written with
  | nil => rfl
  | cons l rest ih =>
    obtain ⟨⟨code, hcode⟩, hrest⟩ := List.forall_mem_cons.mp h
    simp only [emitFrom, hcode, List.nil_append]
    exact ih hrest

/-- and something cannot be encoded in the others. -/
theorem emitFrom_problem {d : Diagnostic} (hd : d ∈ (emitFrom env start written placed).2) : Problem d := by
  induction placed generalizing written with
  | nil => cases hd
  | cons l rest ih =>
    simp only [emitFrom, List.mem_append] at hd
    rcases hd with hd | hd
    · cases hb : l.1.bytes env l.2 with
      | ok code =>
        rw [hb] at hd
        cases hd
      | error errors =>
        rw [hb] at hd
        obtain rfl := List.mem_singleton.mp hd
        exact .violations errors
    · exact ih hd

theorem assemble_addresses (scopes : Scopes) (start : Start) (lines : List AsmLine) (limit : Nat)
    (t : Addresses) :
    (assemble scopes start lines limit t).addresses = (converge scopes start lines limit t).1 := by
  unfold assemble
  rcases converge scopes start lines limit t with ⟨t', e | ps⟩
  · rfl
  · rfl

/-- **Assembly code has no problem** exactly if it is placed and all of it can be encoded. -/
theorem assemble_problems_iff {start : Start} :
    (assemble scopes start lines limit t).problems = [] ↔ Assembles scopes start lines limit t := by
  constructor
  · intro h
    obtain ⟨ps, hconverge, hemit⟩ := assemble_eq h
    refine ⟨ps, congrArg Prod.snd hconverge, ?_⟩
    rw [← assemble_addresses]
    exact emitFrom_ok (congrArg Prod.snd hemit)
  · rintro ⟨ps, hps, hbytes⟩
    unfold assemble
    rcases hconverge : converge scopes start lines limit t with ⟨t', outcome⟩
    rw [hconverge] at hps hbytes
    obtain rfl : outcome = .ok ps := hps
    exact emitFrom_problems hbytes

/-- What can be wrong with assembly code. -/
theorem assemble_problem {start : Start} {d : Diagnostic}
    (hd : d ∈ (assemble scopes start lines limit t).problems) : Problem d := by
  unfold assemble at hd
  rcases hconverge : converge scopes start lines limit t with ⟨t', e | ps⟩
  · rw [hconverge] at hd
    obtain rfl := List.mem_singleton.mp hd
    exact .placement _ e.value
  · rw [hconverge] at hd
    exact emitFrom_problem hd

/-- Blocks assemble one after the other, each with the addresses that those before it have left. -/
def BlocksAssemble (scopes : Scopes) (limit : Nat) : List InlineBlock → Addresses → Prop
  | [], _ => True
  | b :: bs, t =>
    Assembles scopes (.cog b.origin) b.lines limit t ∧
      BlocksAssemble scopes limit bs (converge scopes (.cog b.origin) b.lines limit t).1

theorem assembleBlocks_problems_iff :
    (assembleBlocks scopes limit blocks t).2.2 = [] ↔ BlocksAssemble scopes limit blocks t := by
  induction blocks generalizing t with
  | nil => exact ⟨fun _ => trivial, fun _ => rfl⟩
  | cons b bs ih =>
    rw [BlocksAssemble, ← assemble_problems_iff, ← ih, ← assemble_addresses]
    exact List.append_eq_nil_iff

theorem assembleBlocks_problem {d : Diagnostic} (hd : d ∈ (assembleBlocks scopes limit blocks t).2.2) :
    Problem d := by
  induction blocks generalizing t with
  | nil => cases hd
  | cons b bs ih =>
    rcases List.mem_append.mp hd with hd | hd
    · exact assemble_problem hd
    · exact ih hd

/-! ### Methods -/

/-- Methods whose code can all be emitted have no problem, -/
theorem emitMethods_problems {placed : List (MethodDraft × MethodLayout)}
    (h : ∀ m ∈ placed, (m.2.emit r (Command.body m.1.body)).2 = none) :
    (emitMethods r placed).2 = [] := by
  induction placed with
  | nil => rfl
  | cons m rest ih =>
    obtain ⟨hm, hrest⟩ := List.forall_mem_cons.mp h
    simp only [emitMethods, hm, ih hrest, Option.toList_none, List.map_nil, List.append_nil]

/-- and something cannot be encoded in the others. -/
theorem emitMethods_problem {placed : List (MethodDraft × MethodLayout)} {d : Diagnostic}
    (hd : d ∈ (emitMethods r placed).2) : Problem d := by
  induction placed with
  | nil => cases hd
  | cons m rest ih =>
    simp only [emitMethods, List.mem_append, List.mem_map] at hd
    rcases hd with ⟨e, -, rfl⟩ | hd
    · exact .encode _ e
    · exact ih hd

/-! ### The image -/

namespace Parts

variable (config : Config) (d : Draft) (p : Parts)

/-- Nothing is wrong with an object in any stage of its compilation. -/
structure Clean : Prop where
  /-- Only warnings were reported while the parts were compiled. -/
  parts : ∀ e, d.report.Holds e → e.severity = .warning
  data : Assembles d.scopes (.hub (p.datStart config d)) p.dat config.iterationLimit d.addresses
  blocks : BlocksAssemble d.scopes config.iterationLimit d.blocks (p.assembly config d).addresses
  methods : ∃ layouts,
    layoutMethods (p.resolution config d) (p.codeStart config d) config.iterationLimit
      ((p.table config).map fun m => Command.body m.body) = .ok layouts ∧
    ∀ m ∈ (p.table config).zip layouts,
      (m.2.emit (p.resolution config d) (Command.body m.1.body)).2 = none
  debug : config.debug = true → ∃ bytes, d.debug.serialize config.debugLimit = .ok bytes

/-- The image, if the parts have no error and it can be put together. -/
def image? : Option ObjectImage :=
  if d.report.hasErrors then none else (buildImage config d p (p.removed config)).toOption

/-- What is wrong with the image, if the parts have no error. -/
def problems : List Diagnostic :=
  if d.report.hasErrors then []
  else match buildImage config d p (p.removed config) with
    | .ok _           => []
    | .error problems => problems

/-- The debug data, if it is asked for and can be stored. -/
def debugData : Option Bytes :=
  if config.debug then (d.debug.serialize config.debugLimit).toOption else none

/-- What is wrong with the debug data. -/
def debugProblems : List Diagnostic :=
  if !config.debug then []
  else match d.debug.serialize config.debugLimit with
    | .ok _    => []
    | .error e => [.error none e.message]

/-- Nothing is wrong with the parts, the given image is put together, and the debug data can be stored. -/
structure Built (image : ObjectImage) : Prop where
  parts : d.report.hasErrors = false
  image : buildImage config d p (p.removed config) = .ok image
  debug : Diagnostic.anyError (debugProblems config d) = false

end Parts

variable {config : Config} {d : Draft} {p : Parts}

/-- **If an image cannot be put together**, there are reasons. -/
theorem buildImage_problems {problems : List Diagnostic}
    (h : buildImage config d p (p.removed config) = .error problems) :
    problems ≠ [] ∧ ∀ x ∈ problems, Problem x := by
  rw [buildImage_eq] at h
  simp only at h
  split at h
  · next hne =>
    cases h
    refine ⟨by simpa using hne, fun x hx => ?_⟩
    rcases List.mem_append.mp hx with hx | hx
    · exact assemble_problem hx
    · exact assembleBlocks_problem hx
  · rcases bind_eq_error h with h | ⟨layouts, -, h⟩
    · obtain ⟨e, -, rfl⟩ := mapError_eq_error h
      exact ⟨List.cons_ne_nil _ _, List.forall_mem_singleton.mpr (.placement _ e)⟩
    · split at h
      · next hne =>
        cases h
        exact ⟨by simpa using hne, fun _ => emitMethods_problem⟩
      · cases h

theorem buildImage_error {problems : List Diagnostic}
    (h : buildImage config d p (p.removed config) = .error problems) :
    Diagnostic.anyError problems = true := by
  obtain ⟨hne, hall⟩ := buildImage_problems h
  exact Diagnostic.anyError_of_forall (fun x hx => (hall x hx).isError) hne

/-- An image can be put together exactly if all code is placed and encoded. -/
theorem exists_buildImage_iff :
    (∃ image, buildImage config d p (p.removed config) = .ok image) ↔
      Assembles d.scopes (.hub (p.datStart config d)) p.dat config.iterationLimit d.addresses ∧
      BlocksAssemble d.scopes config.iterationLimit d.blocks (p.assembly config d).addresses ∧
      ∃ layouts,
        layoutMethods (p.resolution config d) (p.codeStart config d) config.iterationLimit
          ((p.table config).map fun m => Command.body m.body) = .ok layouts ∧
        ∀ m ∈ (p.table config).zip layouts,
          (m.2.emit (p.resolution config d) (Command.body m.1.body)).2 = none := by
  rw [← assemble_problems_iff, ← assembleBlocks_problems_iff]
  constructor
  · rintro ⟨image, himage⟩
    obtain ⟨layouts, hlaid⟩ := buildImage_eq_ok himage
    refine ⟨(buildImage_clean himage).1, ?_, layouts, hlaid.laidOut,
      fun m hm => congrArg Prod.snd (hlaid.emitted m hm)⟩
    rw [buildImage_eq] at himage
    simp only at himage
    split at himage
    · cases himage
    · next hnil =>
      have happend : (p.assembly config d).problems ++ (p.inlineCode config d).2.2 = [] := by
        simpa using hnil
      exact (List.append_eq_nil_iff.mp happend).2
  · rintro ⟨hdata, hblocks, layouts, hlayouts, hemit⟩
    have hnil : (p.assembly config d).problems ++ (p.inlineCode config d).2.2 = [] :=
      List.append_eq_nil_iff.mpr ⟨hdata, hblocks⟩
    rw [buildImage_eq, hnil, hlayouts]
    simp only [List.isEmpty_nil, Bool.not_true, Bool.false_eq_true, if_false, mapError_ok, ok_bind,
      emitMethods_problems hemit]
    exact ⟨_, rfl⟩

/-- If the parts have no error and no problem of the image is one, the image can be put together. -/
theorem Parts.exists_image (hparts : d.report.hasErrors = false)
    (hproblems : Diagnostic.anyError (p.problems config d) = false) :
    ∃ image, buildImage config d p (p.removed config) = .ok image := by
  rw [problems, hparts, if_neg Bool.false_ne_true] at hproblems
  cases hbuild : buildImage config d p (p.removed config) with
  | ok image => exact ⟨image, rfl⟩
  | error problems =>
    simp only [hbuild, buildImage_error hbuild] at hproblems
    cases hproblems

/-- If no problem of the debug data is an error, the debug data can be stored. -/
theorem Parts.exists_debugData (hon : config.debug = true)
    (hproblems : Diagnostic.anyError (debugProblems config d) = false) :
    ∃ bytes, d.debug.serialize config.debugLimit = .ok bytes := by
  rw [debugProblems, hon, if_neg (by decide)] at hproblems
  cases hstored : d.debug.serialize config.debugLimit with
  | ok bytes => exact ⟨bytes, rfl⟩
  | error e =>
    rw [hstored] at hproblems
    cases hproblems

/-- In a clean object nothing is wrong with the image or with the debug data. -/
theorem Parts.Clean.problems (h : p.Clean config d) :
    (∃ image, p.image? config d = some image) ∧ p.problems config d = [] ∧ debugProblems config d = [] := by
  have hparts := (Report.hasErrors_eq_false_iff _).mpr h.parts
  obtain ⟨image, himage⟩ := exists_buildImage_iff.mpr ⟨h.data, h.blocks, h.methods⟩
  refine ⟨⟨image, ?_⟩, ?_, ?_⟩
  · rw [image?, hparts, himage]
    rfl
  · rw [Parts.problems, hparts, himage]
    rfl
  · rw [debugProblems]
    cases hon : config.debug with
    | false => rfl
    | true =>
      obtain ⟨bytes, hbytes⟩ := h.debug hon
      rw [hbytes]
      rfl

/-! ### The report -/

namespace Compile

/-- **Compiling an object** reports warnings and what is wrong with the image, and has an image unless
something is wrong. -/
theorem object_eq {nodes : List Node} {d₀ : Draft} (h : parts config library nodes d₀ = .ok p d) :
    ∃ warnings, Diagnostic.anyError warnings = false ∧
      object config library nodes d₀ =
        .ok (p.image? config d) ((d.reporting warnings).reporting (p.problems config d)) := by
  obtain ⟨warnings, hwarnings, hwarn⟩ := warnUnused_eq config p (p.removed config) d
  refine ⟨warnings, hwarnings, ?_⟩
  have herrors : (d.reporting warnings).report.hasErrors = d.report.hasErrors := by
    rw [Draft.reporting, Report.hasErrors_extend, hwarnings, Bool.or_false]
  have hbuild : buildImage config (d.reporting warnings) p (p.removed config) =
      buildImage config d p (p.removed config) := buildImage_report ..
  unfold object
  refine (run_bind_ok h).trans ((run_bind_ok hwarn).trans ((get_bind _ _).trans ?_))
  rw [herrors, Parts.image?, Parts.problems]
  split
  · rfl
  · rw [← Parts.removed, hbuild]
    cases buildImage config d p (p.removed config) with
    | ok | error => rfl

theorem debugData_eq (config : Config) (d : Draft) :
    debugData config d =
      .ok (Parts.debugData config d) (d.reporting (Parts.debugProblems config d)) := by
  unfold debugData Parts.debugProblems Parts.debugData
  cases config.debug with
  | false => rfl
  | true =>
    rw [Bool.not_true, if_neg Bool.false_ne_true, if_neg Bool.false_ne_true, if_pos rfl, get_bind]
    cases d.debug.serialize config.debugLimit with
    | ok | error => rfl

end Compile

/-- **A compilation**, in terms of the parts of the object: besides warnings it reports what the parts
reported, what is wrong with the image, and what is wrong with the debug data. -/
theorem compile_parts (h : Compile.parts config library tree.nodes (Draft.initial tree.name) = .ok p d) :
    ∃ warnings report, Diagnostic.anyError warnings = false ∧
      report.entries =
        d.report.entries ++ warnings ++ p.problems config d ++ Parts.debugProblems config d ∧
      compile config library tree =
        { image := if report.hasErrors then none else p.image? config d
          debug := Parts.debugData config d
          report } := by
  obtain ⟨warnings, hwarnings, hobject⟩ := Compile.object_eq h
  let d' := (d.reporting warnings).reporting (p.problems config d)
  have hattempt : Compile.attempt (Compile.object config library tree.nodes)
      (Draft.initial tree.name) = .ok (some (p.image? config d)) d' :=
    Compile.attempt_of_ok hobject
  have hsteps : (do
      let image ← Compile.attempt (Compile.object config library tree.nodes)
      let debug ← Compile.debugData config
      return (image.join, debug) : Compile (Option ObjectImage × Option Bytes))
        (Draft.initial tree.name) =
      .ok (p.image? config d, Parts.debugData config d)
        (d'.reporting (Parts.debugProblems config d)) := by
    rw [run_bind_ok hattempt, run_bind_ok (Compile.debugData_eq config d')]
    rfl
  refine ⟨warnings, (d'.reporting (Parts.debugProblems config d)).report, hwarnings, ?_, ?_⟩
  · simp only [d', Draft.reporting, Report.entries_extend]
  · unfold compile
    simp only [hsteps]

/-- The image that is put together is the image of the compilation. -/
theorem Parts.Built.compile {image : ObjectImage} (hbuilt : p.Built config d image)
    (hparts : Compile.parts config library tree.nodes (Draft.initial tree.name) = .ok p d) :
    (Propeller.compile config library tree).succeeded = true ∧
      (Propeller.compile config library tree).image = some image ∧
      (Propeller.compile config library tree).debug = debugData config d := by
  obtain ⟨warnings, report, hwarnings, hreport, hcompile⟩ := compile_parts hparts
  have himage : p.image? config d = some image := by
    rw [image?, hbuilt.parts, hbuilt.image]
    rfl
  have hproblems : p.problems config d = [] := by
    rw [problems, hbuilt.parts, hbuilt.image]
    rfl
  have herrors : report.hasErrors = false := by
    rw [Report.hasErrors, hreport, hproblems, List.append_nil]
    simp only [Diagnostic.anyError_append, hwarnings, hbuilt.debug, Bool.or_false]
    exact hbuilt.parts
  rw [hcompile, himage, herrors, if_neg Bool.false_ne_true]
  refine ⟨?_, rfl, rfl⟩
  rw [Compilation.succeeded, herrors]
  rfl

/-- A compilation that succeeds has put an image together. -/
theorem compile_succeeded (h : (compile config library tree).succeeded = true) :
    ∃ p d image, Compile.parts config library tree.nodes (Draft.initial tree.name) = .ok p d ∧
      p.Built config d image := by
  obtain ⟨p, d, hparts⟩ :=
    Compile.exists_parts config library tree.nodes (Draft.initial tree.name)
  obtain ⟨warnings, report, hwarnings, hreport, hcompile⟩ := compile_parts hparts
  have herrors : report.hasErrors = false := by
    rw [hcompile, Compilation.succeeded] at h
    simpa using (Bool.and_eq_true_iff.mp h).2
  simp only [Report.hasErrors, hreport, Diagnostic.anyError_append, Bool.or_eq_false_iff] at herrors
  obtain ⟨⟨⟨hclean, -⟩, hproblems⟩, hdebug⟩ := herrors
  obtain ⟨image, himage⟩ := Parts.exists_image hclean hproblems
  exact ⟨p, d, image, hparts, hclean, himage, hdebug⟩

theorem compile_eq (config : Config) (library : Library) (tree : ObjectTree) :
    ∃ p d warnings,
      Compile.parts config library tree.nodes (Draft.initial tree.name) = .ok p d ∧
      Diagnostic.anyError warnings = false ∧
      (compile config library tree).report.entries =
        d.report.entries ++ warnings ++ p.problems config d ++ Parts.debugProblems config d ∧
      (compile config library tree).image =
        if (compile config library tree).report.hasErrors then none else p.image? config d := by
  obtain ⟨p, d, hparts⟩ :=
    Compile.exists_parts config library tree.nodes (Draft.initial tree.name)
  obtain ⟨warnings, report, hwarnings, hreport, hcompile⟩ := compile_parts hparts
  rw [hcompile]
  exact ⟨p, d, warnings, hparts, hwarnings, hreport, rfl⟩

/-- **There is an image exactly if nothing is wrong.**  What the parts of an object report stays in the
report, and these are all the same: there is an image; the report holds nothing but warnings, at any depth;
it counts as having no errors; the compilation has succeeded; no stage has found anything wrong. -/
theorem compile_image_tfae (config : Config) (library : Library) (tree : ObjectTree) :
    ∃ p d, Compile.parts config library tree.nodes (Draft.initial tree.name) = .ok p d ∧
      d.report.entries <+: (compile config library tree).report.entries ∧
      [(compile config library tree).image.isSome = true,
        ∀ e, (compile config library tree).report.Holds e → e.severity = .warning,
        (compile config library tree).report.hasErrors = false,
        (compile config library tree).succeeded = true,
        p.Clean config d].TFAE := by
  obtain ⟨p, d, warnings, hparts, hwarnings, hreport, himage⟩ := compile_eq config library tree
  have herrors : (compile config library tree).report.hasErrors =
      (d.report.hasErrors || Diagnostic.anyError (p.problems config d) ||
        Diagnostic.anyError (Parts.debugProblems config d)) := by
    simp only [Report.hasErrors, hreport, Diagnostic.anyError_append, hwarnings, Bool.or_false]
  refine ⟨p, d, hparts, ?_, ?_⟩
  · rw [hreport, List.append_assoc, List.append_assoc]
    exact List.prefix_append ..
  tfae_have 1 → 3 := by
    intro h
    rw [himage] at h
    split at h
    · cases h
    · next hnone => exact Bool.eq_false_iff.mpr hnone
  tfae_have 3 ↔ 2 := Report.hasErrors_eq_false_iff _
  tfae_have 3 → 5 := by
    intro h
    rw [herrors, Bool.or_eq_false_iff, Bool.or_eq_false_iff] at h
    obtain ⟨⟨hclean, hproblems⟩, hdebug⟩ := h
    obtain ⟨hdata, hblocks, hmethods⟩ :=
      exists_buildImage_iff.mp (Parts.exists_image hclean hproblems)
    exact ⟨(Report.hasErrors_eq_false_iff _).mp hclean, hdata, hblocks, hmethods,
      fun hon => Parts.exists_debugData hon hdebug⟩
  tfae_have 5 → 4 := by
    intro h
    obtain ⟨⟨image, hbuilt⟩, hproblems, hdebug⟩ := h.problems
    have hnone : (compile config library tree).report.hasErrors = false := by
      rw [herrors, (Report.hasErrors_eq_false_iff _).mpr h.parts, hproblems, hdebug]
      rfl
    rw [Compilation.succeeded, himage, hnone, hbuilt]
    rfl
  tfae_have 4 → 1 := fun h => (Bool.and_eq_true_iff.mp h).1
  tfae_finish

end Propeller
