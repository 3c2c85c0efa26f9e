import Propeller.Proofs.Compile.Declared
import Propeller.Proofs.Compile.Image

/-!
# Compile — the method table

Every method of the table comes from a declaration (`Declares`), and its entry packs the number of
its parameters, the number of its results and the address of its code into one long.  The entry has
four bits for each of the numbers and twenty for the address.  It is made from any method, with what
does not fit left out.

* `parts_declare`: what is compiled of an object has one method for each declaration, in their order.
* `methodEntry_fields`: what the fields of an entry hold.
* `compile_methodEntry`: for each method of an image, where its entry and its code are, what of the
  declaration the entry holds, and when that is all of it.
-/

namespace Propeller

variable {d d' : Draft} {m : MethodDraft} {nodes : List Node} {methods : List MethodDraft}
  {config : Config} {library : Library} {decls : List MethodDecl} {p : Parts}

/-! ### Methods and their declarations -/

/-- The declarations of methods in what is selected of an object. -/
def ObjectTree.methodDecls (tree : ObjectTree) : List MethodDecl :=
  match Node.selectAll tree.nodes (Draft.initial tree.name) with
  | .ok nodes _ => nodes.flatMap Node.methodDecls
  | .error _ _  => []

/-- A method is the one of a declaration. -/
structure Declares (m : MethodDraft) (decl : MethodDecl) : Prop where
  name_eq : m.method.name = decl.name.value
  isPublic_eq : m.method.isPublic = decl.isPublic
  parameters_eq : m.method.parameters = decl.parameters.length
  returns_eq : m.method.returns = decl.results.length
  location_eq : m.location = decl.location

namespace Compile

theorem addMethod_declares {id : Nat} {decl : MethodDecl} (h : addMethod id decl d = .ok m d') :
    Declares m decl := by
  obtain ⟨_, _, -, h⟩ := bind_eq_ok h
  obtain ⟨scope, _, -, h⟩ := bind_eq_ok h
  obtain ⟨longs, _, -, h⟩ := bind_eq_ok h
  obtain ⟨locals, _, -, h⟩ := bind_eq_ok h
  cases h
  exact ⟨rfl, rfl, rfl, rfl, rfl⟩

/-- There is one method for each declaration, in their order. -/
theorem addDeclarations_declare {first : Nat} (h : addDeclarations first nodes d = .ok methods d') :
    List.Forall₂ Declares methods (nodes.flatMap Node.methodDecls) := by
  induction nodes generalizing first d methods with
  | nil =>
    cases h
    exact .nil
  | cons node rest ih =>
    cases node with
    | method decl =>
      obtain ⟨m, d₁, hm, h⟩ := bind_eq_ok h
      obtain ⟨ms, d₂, hms, h⟩ := bind_eq_ok h
      cases h
      exact .cons (addMethod_declares hm) (ih hms)
    | objectVars decls =>
      obtain ⟨_, d₁, -, h⟩ := bind_eq_ok h
      exact ih h
    | _ => exact ih h

/-- Compiling the bodies of methods keeps what was declared. -/
theorem methodBodies_declare (hd : List.Forall₂ Declares methods decls) {compiled : List MethodDraft}
    (h : methodBodies config library (methods.zip decls) d = .ok compiled d') :
    List.Forall₂ Declares compiled decls := by
  induction hd generalizing d compiled with
  | nil =>
    cases h
    exact .nil
  | cons hm _ ih =>
    obtain ⟨m, d₁, hbody, h⟩ := bind_eq_ok h
    obtain ⟨ms, d₂, hms, h⟩ := bind_eq_ok h
    cases h
    refine .cons ?_ (ih hms)
    obtain ⟨_, _, -, hbody⟩ := bind_eq_ok hbody
    obtain ⟨body, _, -, hbody⟩ := bind_eq_ok hbody
    obtain ⟨_, _, -, hbody⟩ := bind_eq_ok hbody
    cases hbody
    exact ⟨hm.name_eq, hm.isPublic_eq, hm.parameters_eq, hm.returns_eq, hm.location_eq⟩

theorem Stages.methodDecls_eq {tree : ObjectTree} (t : Stages config library tree.nodes tree.name p d) :
    tree.methodDecls = t.selected.flatMap Node.methodDecls := by
  rw [ObjectTree.methodDecls, t.selection_eq]

/-- **What is compiled of an object** has one method for each declaration, in their order. -/
theorem parts_declare {tree : ObjectTree}
    (h : parts config library tree.nodes (Draft.initial tree.name) = .ok p d) :
    List.Forall₂ Declares p.methods tree.methodDecls := by
  obtain ⟨t⟩ := parts_stages h
  rw [t.methodDecls_eq]
  exact methodBodies_declare (addDeclarations_declare t.declarations_eq) t.bodies_eq

end Compile

/-- A method of the table has a declaration. -/
theorem Parts.declared (h : List.Forall₂ Declares p.methods decls) (hm : m ∈ p.table config) :
    ∃ decl ∈ decls, Declares m decl := by
  have hkept : m ∈ p.methods := by
    simp only [table, tableOrder, List.mem_append, List.mem_filter] at hm
    rcases hm with ⟨⟨hm, -⟩, -⟩ | ⟨⟨hm, -⟩, -⟩
    · exact hm
    · exact hm
  obtain ⟨i, hi, rfl⟩ := List.mem_iff_getElem.mp hkept
  have hi' : i < decls.length := h.length_eq ▸ hi
  exact ⟨decls[i], List.getElem_mem hi', h.get hi hi'⟩

/-! ### The entries -/

/-- **The fields of an entry** hold the low bits of what they are for. -/
theorem methodEntry_fields {m : Method} {layout : MethodLayout} {offset : Nat}
    (h : layout.address = offset) :
    ofLittleEndian (methodEntry m layout) / 2 ^ 31 = 1 ∧
      ofLittleEndian (methodEntry m layout) / 2 ^ 24 % 2 ^ 4 = m.parameters % 2 ^ 4 ∧
      ofLittleEndian (methodEntry m layout) / 2 ^ 20 % 2 ^ 4 = m.returns % 2 ^ 4 ∧
      ofLittleEndian (methodEntry m layout) % 2 ^ 20 = offset % 2 ^ 20 := by
  have hentry : ofLittleEndian (methodEntry m layout) =
      2 ^ 31 + m.parameters % 16 * 2 ^ 24 + m.returns % 16 * 2 ^ 20 + offset % 2 ^ 20 := by
    have haddress : (layout.address % 2 ^ 20).toNat = offset % 2 ^ 20 := by omega
    rw [methodEntry, ofLittleEndian_littleEndian, haddress]
    omega
  omega

/-- **The method table of an image.**  Every method of the table has a declaration.  Its code begins
in the image behind that of the methods before it, and its entry, which begins with bit 31, holds the
low four bits of the number of parameters and of the number of results, and the low twenty bits of
where its code begins.  A field holds the whole number exactly when the number is that small. -/
theorem compile_methodEntry {config : Config} {library : Library} {tree : ObjectTree}
    {image : ObjectImage} (h : (compile config library tree).image = some image) :
    ∃ (p : Parts) (d : Draft) (layouts : List MethodLayout),
      Compile.parts config library tree.nodes (Draft.initial tree.name) = .ok p d ∧
      List.Forall₂ Declares p.methods tree.methodDecls ∧
      p.Image config d layouts image ∧
      ∀ (i : Nat) (m : MethodDraft), (p.table config)[i]? = some m →
        ∃ decl ∈ tree.methodDecls, Declares m decl ∧
        ∃ (layout : MethodLayout) (offset entry : Nat), layouts[i]? = some layout ∧
          offset = p.codeOffset config d layouts i ∧
          StandsAt (p.code config d (m, layout)) image.bytes offset ∧
          entry = ofLittleEndian ((image.bytes.drop (d.links.headerSize + 4 * i)).take 4) ∧
          entry / 2 ^ 31 = 1 ∧
          entry / 2 ^ 24 % 2 ^ 4 = decl.parameters.length % 2 ^ 4 ∧
          entry / 2 ^ 20 % 2 ^ 4 = decl.results.length % 2 ^ 4 ∧
          entry % 2 ^ 20 = offset % 2 ^ 20 ∧
          (entry / 2 ^ 24 % 2 ^ 4 = decl.parameters.length ↔ decl.parameters.length < 2 ^ 4) ∧
          (entry / 2 ^ 20 % 2 ^ 4 = decl.results.length ↔ decl.results.length < 2 ^ 4) ∧
          (entry % 2 ^ 20 = offset ↔ offset < 2 ^ 20) := by
  obtain ⟨p, d, hparts, hbuild⟩ := compile_eq_some h
  obtain ⟨layouts, himage⟩ := buildImage_eq_ok hbuild
  have hdeclare := Compile.parts_declare hparts
  refine ⟨p, d, layouts, hparts, hdeclare, himage, ?_⟩
  intro i m hm
  obtain ⟨decl, hdecl, hmd⟩ := Parts.declared hdeclare (List.mem_of_getElem? hm)
  obtain ⟨layout, hl⟩ : ∃ layout, layouts[i]? = some layout := by
    have hi : i < layouts.length := by
      rw [himage.consecutive.1]
      exact (List.getElem?_eq_some_iff.mp hm).1
    exact ⟨layouts[i], List.getElem?_eq_getElem hi⟩
  obtain ⟨haddress, hcode⟩ := himage.code_at hm hl
  have hread : (image.bytes.drop (d.links.headerSize + 4 * i)).take 4 =
      methodEntry m.method layout := by
    have hat := (himage.entry_at hm hl).take_drop
    rwa [methodEntry, length_littleEndian] at hat
  obtain ⟨hflag, hparameters, hreturns, hoffset⟩ := methodEntry_fields (m := m.method) haddress
  rw [hmd.parameters_eq] at hparameters
  rw [hmd.returns_eq] at hreturns
  refine ⟨decl, hdecl, hmd, layout, _, _, hl, rfl, hcode, rfl, ?_⟩
  rw [hread]
  exact ⟨hflag, hparameters, hreturns, hoffset, by omega, by omega, by omega⟩

/-- An object with one public method, which has sixteen parameters and does nothing. -/
def sixteenParameters : ObjectTree where
  name := "t"
  nodes := [.method
    { isPublic := true, name := ⟨⟨"m"⟩, {}⟩, parameters := List.replicate 16 ⟨⟨"p"⟩, {}⟩ }]

/-- The object has an image, and the entry of its method says that there are no parameters. -/
theorem compile_methodEntry_sixteenParameters :
    ∃ image, (compile {} {} sixteenParameters).image = some image ∧
      ofLittleEndian (image.bytes.take 4) / 2 ^ 31 = 1 ∧
      ofLittleEndian (image.bytes.take 4) / 2 ^ 24 % 2 ^ 4 = 0 := by
  have hsome : (compile {} {} sixteenParameters).image.isSome := by decide +kernel
  obtain ⟨image, himage⟩ := Option.isSome_iff_exists.mp hsome
  obtain ⟨p, d, layouts, hparts, hdeclare, -, hentry⟩ := compile_methodEntry himage
  -- there are no link records in front of the table
  let headerSize : EStateM.Result (Located CompileError) Draft Parts → Nat
    | .ok _ d => d.links.headerSize
    | .error _ d => d.links.headerSize
  have hzero : headerSize (Compile.parts {} {} sixteenParameters.nodes
      (Draft.initial sixteenParameters.name)) = 0 := by decide +kernel
  have hlinks : d.links.headerSize = 0 := (congrArg headerSize hparts).symm.trans hzero
  -- there is one method, and it is in the table
  obtain ⟨decl, hdecls, hpublic, hcount⟩ : ∃ decl, sixteenParameters.methodDecls = [decl] ∧
      decl.isPublic = true ∧ decl.parameters.length = 16 := ⟨_, rfl, rfl, rfl⟩
  rw [hdecls] at hdeclare hentry
  obtain ⟨m, rest, hm, hrest, hmethods⟩ := List.forall₂_cons_right_iff.mp hdeclare
  rw [List.forall₂_nil_right_iff] at hrest
  subst hrest
  have htable : p.table {} = [m] := by
    simp [Parts.table, Parts.removed, tableOrder, hmethods, hm.isPublic_eq, hpublic]
  obtain ⟨decl', hdecl', -, layout, offset, entry, -, -, -, rfl, hflag, hparameters, -⟩ :=
    hentry 0 m (by rw [htable]; rfl)
  obtain rfl : decl' = decl := List.mem_singleton.mp hdecl'
  rw [hlinks] at hflag hparameters
  rw [hcount] at hparameters
  exact ⟨image, himage, hflag, hparameters⟩

end Propeller
