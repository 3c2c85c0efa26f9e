import Propeller.Compile
import Propeller.Proofs.Bytecode.Layout
import Propeller.Proofs.Diagnostic
import Propeller.Proofs.Link
import Propeller.Proofs.Outcome

/-!
# Compile — what an image is made of

The sizes of the parts of an image are computed one after the other, and each is handed on as the
address of the next before the part itself exists.  The parts are named here as functions of what was
compiled (`Parts`) and of the draft that it was compiled with, so that the bytes of an image can be
written down as one row (`Parts.Image.bytes_eq`).

* `compile_eq_built`: a compilation that gives an image has compiled the parts of the object without an
  error and put the image together from them.
* `buildImage_eq_ok`: an image that was put together is the image of its parts (`Parts.Image`).
* `Parts.Image.code_at`: the code of a method begins at the address of its layout, counted from the
  start of the image.
-/

namespace Propeller

variable {image : ObjectImage} {library : Library} {tree : ObjectTree} {i : Nat} {m : MethodDraft}
  {layout : MethodLayout}

/-! ### The parts of an image -/

namespace Parts

variable (config : Config) (d : Draft) (p : Parts)

/-- The private methods that are left out. -/
def removed : List Nat := if config.removeUnusedMethods then unusedMethods p.methods else []

/-- The methods of the method table. -/
def table : List MethodDraft := tableOrder p.methods (p.removed config)

/-- The offsets of the variables that are kept, and how many bytes they take. -/
def varOffsets : List (Nat × Nat) × Nat :=
  variableOffsets 0 ((d.objectVars.map Located.value).filter fun v =>
    !config.removeUnusedVariables || isUsedVar p.methods v)

/-- Where the assembly code begins: behind the link records, the method table and its end. -/
def datStart : Nat := d.links.headerSize + ((p.table config).length + 1) * 4

/-- The assembly code. -/
def assembly : Assembled :=
  assemble d.scopes (.hub (p.datStart config d)) p.dat config.iterationLimit d.addresses

/-- The blocks of assembly code in methods. -/
def inlineCode : Addresses × List Bytes × List Diagnostic :=
  assembleBlocks d.scopes config.iterationLimit d.blocks (p.assembly config d).addresses

/-- Where the code of the methods begins. -/
def codeStart : Nat := p.datStart config d + (p.assembly config d).bytes.length

/-- What the code of the methods refers to. -/
def resolution : Resolution where
  environment := ⟨d.scopes, (p.inlineCode config d).1⟩
  variableOffset := fun id => List.lookup id (p.varOffsets config d).1
  methodIndex := tableIndex (p.table config)
  block := fun n => (p.inlineCode config d).2.1.getD n []

/-- The code of a method with its layout. -/
def code (m : MethodDraft × MethodLayout) : Bytes :=
  (m.2.emit (p.resolution config d) (Command.body m.1.body)).1

/-- The entries of the method table. -/
def entries (layouts : List MethodLayout) : Bytes :=
  ((p.table config).zip layouts).flatMap fun m => methodEntry m.1.method m.2

/-- The code of the methods. -/
def codes (layouts : List MethodLayout) : Bytes :=
  ((p.table config).zip layouts).flatMap (p.code config d)

/-- Where the code of the `i`-th method of the table begins: behind that of the methods before it. -/
def codeOffset (layouts : List MethodLayout) (i : Nat) : Nat :=
  p.codeStart config d +
    ((((p.table config).zip layouts).take i).flatMap (p.code config d)).length

/-- The image without its children, with room for the link records. -/
def own (layouts : List MethodLayout) : Bytes :=
  zeros d.links.headerSize ++ p.entries config layouts ++ zeros 4 ++ (p.assembly config d).bytes ++
    p.codes config d layouts

/-- There is room for the link records. -/
theorem headerSize_le_own (layouts : List MethodLayout) :
    d.links.headerSize ≤ (p.own config d layouts).length := by
  simp only [own, List.length_append, length_zeros]
  omega

/-- An image that is put together from its parts, with the methods laid out as given. -/
structure Image (layouts : List MethodLayout) (image : ObjectImage) : Prop where
  laidOut : layoutMethods (p.resolution config d) (p.codeStart config d) config.iterationLimit
    ((p.table config).map fun m => Command.body m.body) = .ok layouts
  emitted : ∀ m ∈ (p.table config).zip layouts,
    m.2.emit (p.resolution config d) (Command.body m.1.body) = (p.code config d m, none)
  assembled : image.bytes =
    (d.links.assemble (p.own config d layouts) (align4 (p.varOffsets config d).2)).1

end Parts

/-! ### Putting an image together -/

theorem emitMethods_eq {r : Resolution} {placed : List (MethodDraft × MethodLayout)} {code : Bytes}
    (h : emitMethods r placed = (code, [])) :
    code = placed.flatMap (fun m => (m.2.emit r (Command.body m.1.body)).1) ∧
      ∀ m ∈ placed, (m.2.emit r (Command.body m.1.body)).2 = none := by
  induction placed generalizing code with
  | nil =>
    cases h
    exact ⟨rfl, fun m hm => absurd hm List.not_mem_nil⟩
  | cons m rest ih =>
    rcases he : m.2.emit r (Command.body m.1.body) with ⟨bytes, problem⟩
    rcases hl : emitMethods r rest with ⟨later, problems⟩
    simp only [emitMethods, he, hl, Prod.mk.injEq, List.append_eq_nil_iff, List.map_eq_nil_iff,
      Option.toList_eq_nil_iff] at h
    obtain ⟨rfl, rfl, rfl⟩ := h
    obtain ⟨rfl, hrest⟩ := ih hl
    refine ⟨by simp [he], fun n hn => ?_⟩
    rcases List.mem_cons.mp hn with rfl | hn
    · rw [he]
    · exact hrest n hn

/-- Putting an image together, in terms of its parts. -/
theorem buildImage_eq (config : Config) (d : Draft) (p : Parts) :
    buildImage config d p (p.removed config) =
      let problems := (p.assembly config d).problems ++ (p.inlineCode config d).2.2
      if !problems.isEmpty then .error problems
      else (do
        let layouts ← (layoutMethods (p.resolution config d) (p.codeStart config d)
          config.iterationLimit ((p.table config).map fun m => Command.body m.body)).mapError
          fun e =>
            [.error (some (((p.table config).head?.map MethodDraft.location).getD {})) e.message]
        let placed := (p.table config).zip layouts
        let emitted := emitMethods (p.resolution config d) placed
        if !emitted.2.isEmpty then .error emitted.2
        else
          let own := zeros d.links.headerSize ++
            placed.flatMap (fun m => methodEntry m.1.method m.2) ++ zeros 4 ++
            (p.assembly config d).bytes ++ emitted.1
          let whole := d.links.assemble own (align4 (p.varOffsets config d).2)
          .ok { bytes := whole.1, varSize := whole.2, methods := exportedMethods (p.table config),
                constants := exportedConstants (p.resolution config d).environment d.constants,
                clock := p.clock }) := rfl

variable {config : Config} {d : Draft} {p : Parts}

/-- **An image that was put together** is the image of its parts. -/
theorem buildImage_eq_ok (h : buildImage config d p (p.removed config) = .ok image) :
    ∃ layouts, p.Image config d layouts image := by
  rw [buildImage_eq] at h
  simp only at h
  split at h
  · cases h
  obtain ⟨layouts, hlayouts, h⟩ := bind_eq_ok h
  rcases hcode : emitMethods (p.resolution config d) ((p.table config).zip layouts) with
    ⟨code, problems⟩
  rw [hcode] at h
  split at h
  · cases h
  · next hproblems =>
    obtain rfl : problems = [] := by simpa using hproblems
    obtain ⟨rfl, hemit⟩ := emitMethods_eq hcode
    cases h
    exact ⟨layouts, mapError_eq_ok hlayouts, fun m hm => Prod.ext rfl (hemit m hm), rfl⟩

/-- An image is put together only if the assembly code has no problem.  It has its own variables and those
of its children, and it offers the public methods of its table. -/
theorem buildImage_clean (h : buildImage config d p (p.removed config) = .ok image) :
    (p.assembly config d).problems = [] ∧
      image.varSize = align4 (align4 (p.varOffsets config d).2) + d.links.varSize ∧
      image.methods = exportedMethods (p.table config) := by
  rw [buildImage_eq] at h
  simp only at h
  split at h
  · cases h
  · next hproblems =>
    have hnil : (p.assembly config d).problems ++ (p.inlineCode config d).2.2 = [] := by
      simpa using hproblems
    obtain ⟨layouts, -, h⟩ := bind_eq_ok h
    split at h
    · cases h
    · cases h
      exact ⟨(List.append_eq_nil_iff.mp hnil).1, rfl, rfl⟩

/-- Putting an image together does not look at the report. -/
theorem buildImage_report (config : Config) (d : Draft) (p : Parts) (removed : List Nat)
    (report : Report) :
    buildImage config { d with report } p removed = buildImage config d p removed := rfl

/-- A draft with more in its report. -/
def Draft.reporting (d : Draft) (ds : List Diagnostic) : Draft :=
  { d with report := d.report.extend ds }

namespace Compile

/-- Warnings are added to the report, and nothing else. -/
theorem warnUnused_eq (config : Config) (p : Parts) (removed : List Nat) (d : Draft) :
    ∃ warnings, Diagnostic.anyError warnings = false ∧
      warnUnused config p removed d = .ok () (d.reporting warnings) := by
  unfold warnUnused
  split
  · refine ⟨(unusedWarnings p.methods removed d.objectVars).map fun w =>
      .warning (some w.location) w.value, ?_, ?_⟩
    · rw [Diagnostic.anyError_eq_any]
      simp
    · rw [Draft.reporting, Report.extend, List.foldl_map]
      rfl
  · exact ⟨[], rfl, rfl⟩

/-- An object that has an image was compiled without an error, and its image was put together. -/
theorem object_eq_some {nodes : List Node} {d' : Draft}
    (h : object config library nodes d = .ok (some image) d') :
    ∃ p d₁, parts config library nodes d = .ok p d₁ ∧ d₁.report.hasErrors = false ∧
      buildImage config d₁ p (p.removed config) = .ok image := by
  obtain ⟨p, d₁, hparts, h⟩ := bind_eq_ok h
  obtain ⟨_, d₂, hwarn, h⟩ := bind_eq_ok h
  obtain ⟨warnings, hwarnings, hdraft⟩ := warnUnused_eq config p (p.removed config) d₁
  obtain rfl : d₁.reporting warnings = d₂ := by
    rw [← Parts.removed, hdraft] at hwarn
    cases hwarn
    rfl
  obtain ⟨d₃, d₄, hget, h⟩ := bind_eq_ok h
  cases hget
  split at h
  · cases h
  · next herrors =>
    rw [Draft.reporting, Report.hasErrors_extend, hwarnings, Bool.or_false] at herrors
    refine ⟨p, d₁, hparts, Bool.eq_false_iff.mpr herrors, ?_⟩
    -- the image is built from the draft with the warnings
    rw [← buildImage_report config d₁ p _ (d₁.report.extend warnings)]
    cases hbuild : buildImage config (d₁.reporting warnings) p (p.removed config) with
    | ok built =>
      rw [← Parts.removed, hbuild] at h
      cases h
      exact hbuild
    | error problems =>
      rw [← Parts.removed, hbuild] at h
      cases h

end Compile

/-- **A compilation that gives an image** has compiled the parts of the object without an error and put
the image together from them. -/
theorem compile_eq_built (h : (compile config library tree).image = some image) :
    ∃ p d, Compile.parts config library tree.nodes (Draft.initial tree.name) = .ok p d ∧
      d.report.hasErrors = false ∧ buildImage config d p (p.removed config) = .ok image := by
  unfold compile at h
  simp only at h
  split at h
  · next result debug d hsteps =>
    obtain ⟨tried, d₁, htried, hrest⟩ := Compile.bind_eq_ok hsteps
    obtain ⟨_, d₂, -, hpure⟩ := Compile.bind_eq_ok hrest
    cases hpure
    split at h
    · cases h
    · obtain rfl : tried = some (some image) := Option.join_eq_some_iff.mp h
      exact Compile.object_eq_some (Compile.attempt_eq_some htried)
  · cases h

theorem compile_eq_some (h : (compile config library tree).image = some image) :
    ∃ p d, Compile.parts config library tree.nodes (Draft.initial tree.name) = .ok p d ∧
      buildImage config d p (p.removed config) = .ok image := by
  obtain ⟨p, d, hparts, -, hbuild⟩ := compile_eq_built h
  exact ⟨p, d, hparts, hbuild⟩

/-! ### The bytes of an image -/

namespace Parts.Image

variable {layouts : List MethodLayout}

/-- **The bytes of an image** are the link records, the method table, four zeros, the assembly code,
the code of the methods and the images of the children. -/
theorem bytes_eq (h : p.Image config d layouts image) :
    image.bytes =
      Links.recordsAfter (p.own config d layouts).length
          (align4 (align4 (p.varOffsets config d).2)) d.links.children ++
        p.entries config layouts ++ zeros 4 ++ (p.assembly config d).bytes ++
        p.codes config d layouts ++
        Links.imagesAfter (p.own config d layouts).length d.links.children := by
  rw [h.assembled]
  simp only [own, List.append_assoc, Links.assemble_bytes]

/-- The methods follow each other behind the assembly code. -/
theorem consecutive (h : p.Image config d layouts image) :
    layouts.length = (p.table config).length ∧
      Consecutive (p.resolution config d) (p.codeStart config d)
        (((p.table config).zip layouts).map fun m => (Command.body m.1.body, m.2)) := by
  obtain ⟨hlen, hc⟩ := layoutMethods_consecutive h.laidOut
  rw [List.zip_map_left] at hc
  exact ⟨by simpa using hlen, hc⟩

/-- The code of a method has as many bytes as its layout says. -/
theorem length_code (h : p.Image config d layouts image) {m : MethodDraft × MethodLayout}
    (hm : m ∈ (p.table config).zip layouts) : (p.code config d m).length = m.2.size := by
  obtain ⟨i, hi⟩ := List.mem_iff_getElem?.mp hm
  have hi' : (((p.table config).zip layouts).map fun m => (Command.body m.1.body, m.2))[i]? =
      some (Command.body m.1.body, m.2) := by rw [List.getElem?_map, hi]; rfl
  exact ((h.consecutive.2.address_eq hi').2.emit_eq (h.emitted m hm)).1

theorem length_entries (placed : List (MethodDraft × MethodLayout)) :
    (placed.flatMap fun m => methodEntry m.1.method m.2).length = 4 * placed.length :=
  length_flatMap_of_forall fun _ _ => length_littleEndian ..

/-- **The entry of a method** is in the method table at the place of the method. -/
theorem entry_at (h : p.Image config d layouts image) (hm : (p.table config)[i]? = some m)
    (hl : layouts[i]? = some layout) :
    StandsAt (methodEntry m.method layout) image.bytes (d.links.headerSize + 4 * i) := by
  have hi : ((p.table config).zip layouts)[i]? = some (m, layout) :=
    List.getElem?_zip_eq_some.mpr ⟨hm, hl⟩
  have hentry : StandsAt (methodEntry m.method layout) (p.entries config layouts) (4 * i) := by
    have hle : i ≤ ((p.table config).zip layouts).length :=
      Nat.le_of_lt (List.getElem?_eq_some_iff.mp hi).1
    have hat := StandsAt.flatMap (f := fun m => methodEntry m.1.method m.2) hi
    rwa [length_entries, List.length_take, Nat.min_eq_left hle] at hat
  rw [h.bytes_eq, show d.links.headerSize = _ from (Links.length_recordsAfter ..).symm]
  exact ((((hentry.append_left _).append_right _).append_right _).append_right _).append_right _

/-- What stands in front of the assembly code was measured before it was there. -/
theorem length_front (h : p.Image config d layouts image) :
    (Links.recordsAfter (p.own config d layouts).length
      (align4 (align4 (p.varOffsets config d).2)) d.links.children ++
        p.entries config layouts ++ zeros 4).length = p.datStart config d := by
  have hplaced : ((p.table config).zip layouts).length = (p.table config).length := by
    rw [List.length_zip, h.consecutive.1, Nat.min_self]
  simp only [List.length_append, Links.length_recordsAfter, entries, length_entries, length_zeros,
    hplaced, datStart, Links.headerSize, Links.records]
  omega

/-- **The code of a method** is behind that of the methods before it, and that is where its layout
says. -/
theorem code_at (h : p.Image config d layouts image) (hm : (p.table config)[i]? = some m)
    (hl : layouts[i]? = some layout) :
    layout.address = p.codeOffset config d layouts i ∧
      StandsAt (p.code config d (m, layout)) image.bytes (p.codeOffset config d layouts i) := by
  have hi : ((p.table config).zip layouts)[i]? = some (m, layout) :=
    List.getElem?_zip_eq_some.mpr ⟨hm, hl⟩
  obtain ⟨hlen, hc⟩ := h.consecutive
  constructor
  · -- the sizes of the methods before it are the lengths of their code
    have hsizes : ((((p.table config).zip layouts).take i).flatMap (p.code config d)).length =
        ((((p.table config).zip layouts).take i).map (·.2.size)).sum := by
      rw [List.length_flatMap]
      congr 1
      exact List.map_congr_left fun n hn => h.length_code (List.mem_of_mem_take hn)
    have haddr := (hc.address_eq (m := (Command.body m.body, layout))
      (by rw [List.getElem?_map, hi]; rfl)).1
    rw [← List.map_take, List.map_map] at haddr
    rw [codeOffset, hsizes, Int.natCast_add]
    exact haddr
  · -- what stands in front of the code was measured before it was there
    have hstart : p.codeStart config d =
        (Links.recordsAfter (p.own config d layouts).length
          (align4 (align4 (p.varOffsets config d).2)) d.links.children ++
        p.entries config layouts ++ zeros 4 ++ (p.assembly config d).bytes).length := by
      rw [List.length_append, h.length_front]
      rfl
    rw [h.bytes_eq, codeOffset, hstart]
    exact ((StandsAt.flatMap hi).append_left _).append_right _

end Parts.Image

end Propeller
