import Propeller.Proofs.Case.Statement
import Propeller.Proofs.Compile.Verdict

/-!
# Case — images in capitals

An object whose names are written in capitals has the same method table, the same variables and the same
code, and so the same image up to the names that it makes known (`Parts.toOption_buildImage_upper`).  It is
compiled exactly if the object as it was written is compiled (`compile_upper`), and therefore two objects
that differ only in the case of letters in names are compiled to the same bytes (`compile_of_upper_eq`).
-/

namespace Propeller

/-! ### Methods and variables -/

section Methods

variable (methods : List MethodDraft)

theorem isCalled_upper (removed : List Nat) (id : Nat) :
    isCalled (methods.map MethodDraft.upper) removed id = isCalled methods removed id := by
  rw [isCalled, List.any_map]
  rfl

theorem uncalled_upper (removed : List Nat) :
    uncalled (methods.map MethodDraft.upper) removed = uncalled methods removed := by
  simp only [uncalled, List.filter_map, List.map_map, isCalled_upper]
  rfl

theorem removedWithin_upper (rounds : Nat) :
    removedWithin (methods.map MethodDraft.upper) rounds = removedWithin methods rounds := by
  induction rounds with
  | zero => rfl
  | succ rounds ih => rw [removedWithin, removedWithin, ih, uncalled_upper]

theorem unusedMethods_upper :
    unusedMethods (methods.map MethodDraft.upper) = unusedMethods methods := by
  rw [unusedMethods, List.length_map, removedWithin_upper, unusedMethods]

theorem isUsedVar_upper (v : ObjectVar) :
    isUsedVar (methods.map MethodDraft.upper) v.upper = isUsedVar methods v := by
  rw [isUsedVar, List.any_map]
  rfl

theorem tableOrder_upper (removed : List Nat) :
    tableOrder (methods.map MethodDraft.upper) removed =
      (tableOrder methods removed).map MethodDraft.upper := by
  simp only [tableOrder, List.filter_map, List.map_append]
  rfl

theorem tableIndex_upper (m : Method) :
    tableIndex (methods.map MethodDraft.upper) m = tableIndex methods m := by
  unfold tableIndex
  rw [List.findIdx?_map]
  rfl

theorem exportedMethods_upper :
    exportedMethods (methods.map MethodDraft.upper) =
      (exportedMethods methods).map ExportedMethod.upper := by
  have hindex : ∀ m : Method, tableIndex (methods.map MethodDraft.upper) m.upper =
      tableIndex methods m := fun m => tableIndex_upper methods m
  simp only [exportedMethods, List.filter_map, List.map_map]
  refine List.map_congr_left fun m _ => ?_
  exact congrArg (ExportedMethod.mk _ _ _) (hindex m.method)

end Methods

theorem variableOffsets_upper (offset : Nat) (vs : List ObjectVar) :
    variableOffsets offset (vs.map ObjectVar.upper) = variableOffsets offset vs := by
  induction vs generalizing offset with
  | nil => rfl
  | cons v vs ih =>
    have hkind : v.upper.kind = v.kind := rfl
    have hsize : v.upper.size = v.size := rfl
    have hid : v.upper.id = v.id := rfl
    simp only [List.map_cons, variableOffsets, hkind, hsize, hid, ih]

/-- The constants of an object keep their values. -/
theorem exportedConstants_upper (env : Environment) (names : List (Located Identifier)) :
    exportedConstants env.upper (names.map (Located.map .upper)) =
      (exportedConstants env names).map (Prod.map Identifier.upper id) := by
  have hsymbol : ∀ x : Identifier, env.upper.scopes.symbol? objectScope x.upper =
      (env.scopes.symbol? objectScope x).map Expression.upper :=
    fun x => env.scopes.symbol?_upper objectScope x
  rw [exportedConstants, exportedConstants, List.filterMap_map, List.map_filterMap]
  congr
  funext name
  simp only [Function.comp_apply, Located.map, hsymbol]
  cases env.scopes.symbol? objectScope name.value with
  | none => rfl
  | some e =>
    simp only [Option.map_some, Option.bind_eq_bind, Option.bind_some, Expression.toOption_eval_upper]
    cases (e.eval env).toOption with
    | none | some => rfl

/-- The code of methods does not depend on the case of names. -/
theorem emitMethods_upper {r : Resolution} (hm : ∀ m : Method, r.methodIndex m.upper = r.methodIndex m)
    (placed : List (MethodDraft × MethodLayout)) :
    let emitted := emitMethods r placed
    let emitted' := emitMethods r.upper (placed.map (Prod.map MethodDraft.upper id))
    emitted'.1 = emitted.1 ∧ (emitted'.2 = [] ↔ emitted.2 = []) := by
  induction placed with
  | nil => exact ⟨rfl, Iff.rfl⟩
  | cons m rest ih =>
    obtain ⟨m, layout⟩ := m
    obtain ⟨hlater, hproblems⟩ := ih
    have hbody : Command.body m.upper.body = (Command.body m.body).upper := Command.body_upper m.body
    obtain ⟨hbytes, hproblem⟩ :=
      emitListing_upper hm layout.lines (Command.body m.body).listing layout.address
    simp only [List.map_cons, Prod.map_apply, id, emitMethods, MethodLayout.emit, hbody, Body.upper,
      hbytes, hlater, List.append_eq_nil_iff, List.map_eq_nil_iff, Option.toList_eq_nil_iff, hproblem,
      hproblems, and_self]

/-! ### The image -/

namespace Parts

variable (config : Config) {d d' : Draft} (hd : d.Recased d') (p : Parts)

theorem removed_upper : p.upper.removed config = p.removed config := by
  rw [removed, removed, upper, unusedMethods_upper]

theorem table_upper : p.upper.table config = (p.table config).map MethodDraft.upper := by
  rw [table, removed_upper, table, upper, tableOrder_upper]

theorem bodies_upper : (p.upper.table config).map (fun m => Command.body m.body) =
    ((p.table config).map fun m => Command.body m.body).map Body.upper := by
  rw [table_upper, List.map_map, List.map_map]
  exact List.map_congr_left fun m _ => Command.body_upper m.body

/-- The methods of the table with their layouts. -/
theorem placed_upper (layouts : List MethodLayout) : (p.upper.table config).zip layouts =
    ((p.table config).zip layouts).map (Prod.map MethodDraft.upper id) := by
  rw [table_upper, List.zip_map_left]

theorem entries_upper (layouts : List MethodLayout) :
    p.upper.entries config layouts = p.entries config layouts := by
  rw [entries, placed_upper, List.flatMap_map, entries]
  rfl

include hd

theorem varOffsets_upper : p.upper.varOffsets config d' = p.varOffsets config d := by
  have hvars : d'.objectVars.map Located.value =
      (d.objectVars.map Located.value).map ObjectVar.upper := by
    rw [hd.objectVars, List.map_map, List.map_map]
    rfl
  have hkept : (fun v => !config.removeUnusedVariables || isUsedVar p.upper.methods v) ∘
      ObjectVar.upper = fun v => !config.removeUnusedVariables || isUsedVar p.methods v :=
    funext fun v => congrArg (!config.removeUnusedVariables || ·) (isUsedVar_upper p.methods v)
  rw [varOffsets, hvars, List.filter_map, hkept, variableOffsets_upper, varOffsets]

theorem datStart_upper : p.upper.datStart config d' = p.datStart config d := by
  rw [datStart, hd.links, Links.headerSize_upper, table_upper, List.length_map, datStart]

theorem assembly_upper : (p.assembly config d).Alike (p.upper.assembly config d') := by
  unfold assembly
  rw [datStart_upper config hd, hd.scopes, hd.addresses]
  exact assemble_upper d.scopes _ p.dat config.iterationLimit d.addresses

theorem inlineCode_upper :
    (p.upper.inlineCode config d').1 = (p.inlineCode config d).1 ∧
      (p.upper.inlineCode config d').2.1 = (p.inlineCode config d).2.1 ∧
      ((p.upper.inlineCode config d').2.2 = [] ↔ (p.inlineCode config d).2.2 = []) := by
  unfold inlineCode
  rw [hd.scopes, hd.blocks, (p.assembly_upper config hd).addresses_eq]
  exact assembleBlocks_upper d.scopes config.iterationLimit d.blocks _

theorem codeStart_upper : p.upper.codeStart config d' = p.codeStart config d := by
  rw [codeStart, datStart_upper config hd, (p.assembly_upper config hd).bytes_eq, codeStart]

theorem resolution_upper : p.upper.resolution config d' = (p.resolution config d).upper := by
  obtain ⟨haddresses, hblocks, -⟩ := p.inlineCode_upper config hd
  have hindex : tableIndex (p.upper.table config) = tableIndex (p.table config) := by
    rw [table_upper]
    exact funext fun m => tableIndex_upper (p.table config) m
  simp only [resolution, haddresses, hblocks, hindex, varOffsets_upper config hd, hd.scopes]
  rfl

/-- All assembly code is placed and encoded, or not. -/
theorem isEmpty_problems_upper :
    ((p.upper.assembly config d').problems ++ (p.upper.inlineCode config d').2.2).isEmpty =
      ((p.assembly config d).problems ++ (p.inlineCode config d).2.2).isEmpty := by
  obtain ⟨-, -, hinline⟩ := p.inlineCode_upper config hd
  rw [Bool.eq_iff_iff]
  simp only [List.isEmpty_iff, List.append_eq_nil_iff, (p.assembly_upper config hd).problems_iff, hinline]

theorem toOption_layouts_upper :
    (layoutMethods (p.upper.resolution config d') (p.upper.codeStart config d') config.iterationLimit
        ((p.upper.table config).map fun m => Command.body m.body)).toOption =
      (layoutMethods (p.resolution config d) (p.codeStart config d) config.iterationLimit
        ((p.table config).map fun m => Command.body m.body)).toOption := by
  rw [resolution_upper config hd, codeStart_upper config hd, bodies_upper]
  exact layoutMethods_upper (fun _ => rfl) _ _ _

theorem emitted_upper (layouts : List MethodLayout) :
    let emitted := emitMethods (p.resolution config d) ((p.table config).zip layouts)
    let emitted' := emitMethods (p.upper.resolution config d') ((p.upper.table config).zip layouts)
    emitted'.1 = emitted.1 ∧ emitted'.2.isEmpty = emitted.2.isEmpty := by
  rw [resolution_upper config hd, placed_upper]
  obtain ⟨hcode, hproblems⟩ := emitMethods_upper (r := p.resolution config d) (fun _ => rfl)
    ((p.table config).zip layouts)
  exact ⟨hcode, by rw [Bool.eq_iff_iff, List.isEmpty_iff, List.isEmpty_iff, hproblems]⟩

/-- **The image of an object in capitals** is its image, with the names that it makes known in capitals. -/
theorem toOption_buildImage_upper :
    (buildImage config d' p.upper (p.upper.removed config)).toOption =
      (buildImage config d p (p.removed config)).toOption.map ObjectImage.upper := by
  rw [buildImage_eq, buildImage_eq]
  simp only [p.isEmpty_problems_upper config hd, (p.assembly_upper config hd).bytes_eq, hd.links,
    Links.headerSize_upper, Links.assemble_upper, varOffsets_upper config hd]
  -- first the assembly code, then the layout, then the code of the methods: each stage stops both
  cases ((p.assembly config d).problems ++ (p.inlineCode config d).2.2).isEmpty with
  | false => rfl
  | true =>
    simp only [Bool.not_true, Bool.false_eq_true, if_false, toOption_bind, toOption_mapError,
      p.toOption_layouts_upper config hd]
    cases (layoutMethods (p.resolution config d) (p.codeStart config d) config.iterationLimit
        ((p.table config).map fun m => Command.body m.body)).toOption with
    | none => rfl
    | some layouts =>
      obtain ⟨hcode, hproblems⟩ := p.emitted_upper config hd layouts
      have hentries : ((p.upper.table config).zip layouts).flatMap
          (fun m => methodEntry m.1.method m.2) =
          ((p.table config).zip layouts).flatMap fun m => methodEntry m.1.method m.2 :=
        p.entries_upper config layouts
      have hconstants := exportedConstants_upper (p.resolution config d).environment d.constants
      rw [← hd.constants] at hconstants
      simp only [Option.bind_some, hproblems, hcode, hentries]
      cases (emitMethods (p.resolution config d) ((p.table config).zip layouts)).2.isEmpty with
      | false => rfl
      | true =>
        simp only [Bool.not_true, Bool.false_eq_true, if_false, toOption_ok, Option.map_some,
          ObjectImage.upper, table_upper, exportedMethods_upper, resolution_upper config hd]
        exact congrArg (fun constants => some (ObjectImage.mk _ _ _ constants _)) hconstants

theorem anyError_debugProblems_upper :
    Diagnostic.anyError (debugProblems config d') = Diagnostic.anyError (debugProblems config d) := by
  have hsize : d'.debug.headerSize + d'.debug.records.flatten.length =
      d.debug.headerSize + d.debug.records.flatten.length := by
    rw [DebugTable.headerSize, DebugTable.headerSize, hd.recordCount, List.length_flatten,
      List.length_flatten, hd.records]
  unfold debugProblems DebugTable.serialize
  simp only [hsize]
  by_cases hlimit : config.debugLimit < d.debug.headerSize + d.debug.records.flatten.length
  · simp only [if_pos hlimit]
  · simp only [if_neg hlimit]

theorem image?_upper : p.upper.image? config d' = (p.image? config d).map ObjectImage.upper := by
  rw [image?, image?, hd.errors, toOption_buildImage_upper config hd]
  cases d.report.hasErrors with
  | false | true => rfl

theorem anyError_problems_upper :
    Diagnostic.anyError (p.upper.problems config d') = Diagnostic.anyError (p.problems config d) := by
  have himage := p.toOption_buildImage_upper config hd
  rw [problems, problems, hd.errors]
  cases d.report.hasErrors with
  | true => rw [if_pos rfl, if_pos rfl]
  | false =>
    rw [if_neg Bool.false_ne_true, if_neg Bool.false_ne_true]
    cases hbuild : buildImage config d p (p.removed config) with
    | ok image =>
      cases hbuild' : buildImage config d' p.upper (p.upper.removed config) with
      | ok image' => rfl
      | error reasons' =>
        rw [hbuild, hbuild'] at himage
        cases himage
    | error reasons =>
      cases hbuild' : buildImage config d' p.upper (p.upper.removed config) with
      | ok image' =>
        rw [hbuild, hbuild'] at himage
        cases himage
      | error reasons' => exact (buildImage_error hbuild').trans (buildImage_error hbuild).symm

end Parts

/-! ### The compilation -/

/-- **An object in capitals** is compiled exactly if the object is, and its image is the same up to the
names that it makes known. -/
theorem compile_upper (config : Config) (library : Library) (tree : ObjectTree) :
    (compile config library.upper tree.upper).report.hasErrors =
        (compile config library tree).report.hasErrors ∧
      (compile config library.upper tree.upper).image =
        (compile config library tree).image.map ObjectImage.upper := by
  obtain ⟨p, d, hparts⟩ := Compile.exists_parts config library tree.nodes (Draft.initial tree.name)
  obtain ⟨d', hd, hparts'⟩ : ∃ d', d.Recased d' ∧
      Compile.parts config library.upper tree.upper.nodes (Draft.initial tree.upper.name) =
        .ok p.upper d' := by
    have hrun := Compile.recases_parts config library tree.nodes _ _ (Draft.recased_initial tree.name)
    rw [hparts] at hrun
    generalize hresult : Compile.parts config library.upper (tree.nodes.map Node.upper)
      (Draft.initial tree.name) = result at hrun
    cases hrun with
    | ok hd => exact ⟨_, hd, hresult⟩
  obtain ⟨warnings, report, hwarnings, hreport, hcompile⟩ := compile_parts hparts
  obtain ⟨warnings', report', hwarnings', hreport', hcompile'⟩ := compile_parts hparts'
  have herrors : report'.hasErrors = report.hasErrors := by
    have hparts : Diagnostic.anyError d'.report.entries = Diagnostic.anyError d.report.entries := hd.errors
    simp only [Report.hasErrors, hreport, hreport', Diagnostic.anyError_append, hwarnings, hwarnings',
      p.anyError_problems_upper config hd, Parts.anyError_debugProblems_upper config hd, hparts]
  rw [hcompile, hcompile']
  refine ⟨herrors, ?_⟩
  simp only [herrors, p.image?_upper config hd]
  cases report.hasErrors with
  | false | true => rfl

/-- **The case of letters in names does not matter.**  Two objects that are the same with all names in
capitals are compiled both or not at all, and to images with the same bytes, variables and clock, which
make known methods at the same places of the method table and constants with the same values, under
names that differ at most in case. -/
theorem compile_of_upper_eq {config : Config} {library : Library} {tree tree' : ObjectTree}
    (h : tree.upper = tree'.upper) :
    (compile config library tree').succeeded = (compile config library tree).succeeded ∧
      ∀ image, (compile config library tree).image = some image →
        ∃ image', (compile config library tree').image = some image' ∧
          image'.bytes = image.bytes ∧ image'.varSize = image.varSize ∧ image'.clock = image.clock ∧
          image'.methods.map ExportedMethod.upper = image.methods.map ExportedMethod.upper ∧
          image'.constants.map (Prod.map Identifier.upper id) =
            image.constants.map (Prod.map Identifier.upper id) := by
  obtain ⟨herrors, himage⟩ := compile_upper config library tree
  obtain ⟨herrors', himage'⟩ := compile_upper config library tree'
  have hsame : (compile config library tree').image.map ObjectImage.upper =
      (compile config library tree).image.map ObjectImage.upper := by
    rw [← himage, ← himage', h]
  refine ⟨?_, fun image himage => ?_⟩
  · rw [Compilation.succeeded, Compilation.succeeded, ← herrors, ← herrors', h,
      ← Option.isSome_map (f := ObjectImage.upper), hsame, Option.isSome_map]
  · rw [himage, Option.map_some, Option.map_eq_some_iff] at hsame
    obtain ⟨image', himage', hupper⟩ := hsame
    simp only [ObjectImage.upper, ObjectImage.mk.injEq] at hupper
    obtain ⟨hbytes, hvarSize, hmethods, hconstants, hclock⟩ := hupper
    exact ⟨image', himage', hbytes, hvarSize, hclock, hmethods, hconstants⟩

/-- Every path leads to an object with one method and one constant. -/
def oneMethod : Library where
  object _ := .ok
    { bytes := [1, 2, 3, 4], methods := [⟨⟨"Go"⟩, 1, 0, 0⟩], constants := [(⟨"Baud"⟩, .int 5)] }

/-- An object whose names are written in a given way, and hardly ever in the same way twice: a definition
that stands for a constant, the source of the clock, a child, a variable, labels, mnemonics, a condition,
an effect, and a method with a parameter, a result and a local variable. -/
def mixedCase (write : String → String) : ObjectTree where
  name := "t"
  nodes :=
    let name (text : String) : Located Identifier := ⟨⟨write text⟩, {}⟩
    let read (text : String) : Expr := .name {} ⟨write text⟩
    let number (v : Int64) : Expr := .literal {} (Literal.ofInt v)
    [.define (name "Fancy") [write "turbo"],
     .ifDefined ⟨write "FANCY"⟩ false
       [.constants [.assign (name "_RcSlow") (number 1), .assign (name "Turbo") (number 3)]] [],
     .objects [{ name := name "Child", path := ⟨"c", {}⟩ }],
     .objectVars [{ kind := .long, name := name "Total" }],
     .data [{ label := some (name "Entry"), condition := some (name "if_Z"),
              mnemonic := some (name "Mov"), effect := some (name "Wc"),
              operands := [{ value := read "pA" }, { kind := .immediate, value := read "fancY" }] },
            { label := some (name ".Again"), mnemonic := some (name "jmp"),
              operands := [{ kind := .immediate, value := read ".aGAIN" }] },
            { mnemonic := some (name "Byte"),
              operands := [{ value := .member {} (name "CHILD") none (name "BAUD") }] }],
     .method
       { isPublic := true, name := name "Main", parameters := [name "Step"],
         results := [name "Sum"], locals := [{ kind := .long, name := name "Twice" }],
         body :=
           [.assign (read "tWICE") none (.binary {} (.integer .add) (read "STEP") (read "fANCY")),
            .assign (read "TOTAL") none (.call {} none none (name "mAIN") [read "Twice"]),
            .expression {} (.call {} (some (name "cHILD")) none (name "gO") [read "twice"]),
            .assembly {}
              [{ mnemonic := some (name "aDD"),
                 operands := [{ value := read "sUM" }, { kind := .immediate, value := read "tURBO" }] }],
            .ret (some (read "SUM"))] }]

theorem upper_mixedCase (write : String → String) :
    (mixedCase write).upper = mixedCase fun text => upperText (write text) := rfl

/-- The image of this object, as it is written here and all in capitals. -/
theorem compile_of_upper_eq_mixedCase :
    (mixedCase id).upper = (mixedCase upperText).upper ∧
      (compile {} oneMethod (mixedCase id)).succeeded = true ∧
      (compile {} oneMethod (mixedCase upperText)).succeeded = true ∧
      ∃ image image', (compile {} oneMethod (mixedCase id)).image = some image ∧
        (compile {} oneMethod (mixedCase upperText)).image = some image' ∧
        image.bytes = [56, 0, 0, 0, 4, 0, 0, 0, 25, 0, 16, 129, 0, 0, 0, 0, 3, 236, 23, 166, 252, 255, 159,
          253, 5, 209, 164, 113, 226, 1, 210, 10, 0, 176, 129, 0, 210, 8, 0, 0, 40, 0, 1, 3, 192, 7, 241, 45,
          0, 100, 253, 208, 5, 0, 0, 0, 1, 2, 3, 4] ∧
        image'.bytes = image.bytes ∧ image'.varSize = image.varSize ∧ image'.clock = image.clock ∧
        image'.methods.map ExportedMethod.upper = image.methods.map ExportedMethod.upper ∧
        image'.constants.map (Prod.map Identifier.upper id) =
          image.constants.map (Prod.map Identifier.upper id) := by
  have hupper : (mixedCase id).upper = (mixedCase upperText).upper := by
    rw [upper_mixedCase, upper_mixedCase]
    exact congrArg mixedCase (funext fun text => (upperText_upperText text).symm)
  obtain ⟨hsucceeded, hbytes⟩ : (compile {} oneMethod (mixedCase id)).succeeded = true ∧
      (compile {} oneMethod (mixedCase id)).image.map ObjectImage.bytes =
        some [56, 0, 0, 0, 4, 0, 0, 0, 25, 0, 16, 129, 0, 0, 0, 0, 3, 236, 23, 166, 252, 255, 159,
          253, 5, 209, 164, 113, 226, 1, 210, 10, 0, 176, 129, 0, 210, 8, 0, 0, 40, 0, 1, 3, 192, 7, 241, 45,
          0, 100, 253, 208, 5, 0, 0, 0, 1, 2, 3, 4] := by decide +kernel
  obtain ⟨image, himage, hb⟩ := Option.map_eq_some_iff.mp hbytes
  obtain ⟨hboth, himages⟩ := @compile_of_upper_eq {} oneMethod _ _ hupper
  obtain ⟨image', himage', hsame⟩ := himages image himage
  exact ⟨hupper, hsucceeded, hboth.trans hsucceeded, image, image', himage, himage', hb, hsame⟩

end Propeller
