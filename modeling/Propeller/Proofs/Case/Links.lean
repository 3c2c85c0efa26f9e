import Propeller.Proofs.Case.Expression

/-!
# Case — children in capitals

With all names in capitals, children are found under the names that they had, make known what they made
known (`Links.exports_upper`), and take the same place in the image (`Links.assemble_upper`).
-/

namespace Propeller

/-- A method with its name in capitals. -/
def ExportedMethod.upper (m : ExportedMethod) : ExportedMethod := { m with name := m.name.upper }

/-- An image with all names in capitals. -/
def ObjectImage.upper (i : ObjectImage) : ObjectImage :=
  { i with
    methods := i.methods.map ExportedMethod.upper
    constants := i.constants.map (Prod.map Identifier.upper id) }

/-- A library whose objects have all names in capitals. -/
def Library.upper (l : Library) : Library :=
  { l with object := fun path => (l.object path).map ObjectImage.upper }

/-- A child with all names in capitals. -/
def ChildLink.upper (c : ChildLink) : ChildLink :=
  { c with name := c.name.upper, image := c.image.upper }

namespace Links

/-- Children with all names in capitals. -/
def upper (l : Links) : Links := ⟨l.children.map ChildLink.upper⟩

variable (l : Links)

@[simp]
theorem records_upper : l.upper.records = l.records := by
  simp [records, upper, Function.comp_def, ChildLink.upper]

@[simp]
theorem headerSize_upper : l.upper.headerSize = l.headerSize := by
  rw [headerSize, records_upper, headerSize]

@[simp]
theorem varSize_upper : l.upper.varSize = l.varSize := by
  simp [varSize, upper, Function.comp_def, ChildLink.upper, ObjectImage.upper]

@[simp]
theorem methodCount_upper : l.upper.methodCount = l.methodCount := by
  simp [methodCount, upper, Function.comp_def, ChildLink.upper, ObjectImage.upper]

@[simp]
theorem get?_upper (x : Identifier) : l.upper.get? x.upper = (l.get? x).map ChildLink.upper := by
  simp [get?, upper, List.find?_map, Function.comp_def, ChildLink.upper]

theorem toOption_add_upper (x : Identifier) (image : ObjectImage) (count : Nat) :
    (l.upper.add x.upper image.upper count).toOption = (l.add x image count).toOption.map upper := by
  simp only [add, records_upper]
  split
  · rfl
  · simp [upper, ChildLink.upper]

/-! ### Names of children -/

theorem exportsOf_upper (first : Nat) (c : ChildLink) :
    exportsOf first c.upper =
      (exportsOf first c).map (Prod.map Identifier.upper Expression.upper) := by
  simp only [exportsOf, ChildLink.upper, ObjectImage.upper, List.zipIdx_map, List.map_map,
    List.map_append]
  congr 1
  · refine List.map_congr_left fun m _ => ?_
    simp [Function.comp_apply, Prod.map, ExportedMethod.upper, Expression.upper, Method.upper]
  · refine List.map_congr_left fun c _ => ?_
    simp [Function.comp_apply, Prod.map, Expression.upper]

theorem exportsFrom_upper (first : Nat) (cs : List ChildLink) :
    exportsFrom first (cs.map ChildLink.upper) =
      (exportsFrom first cs).map (Prod.map Identifier.upper Expression.upper) := by
  induction cs generalizing first with
  | nil => rfl
  | cons c cs ih =>
    have hlength : c.upper.image.methods.length = c.image.methods.length := List.length_map _
    simp only [List.map_cons, exportsFrom, exportsOf_upper, hlength, ih, List.map_append]

@[simp]
theorem exports_upper (first : Nat) :
    l.upper.exports first = (l.exports first).map (Prod.map Identifier.upper Expression.upper) :=
  exportsFrom_upper first l.children

/-! ### The image with its children -/

theorem imagesAfter_upper (length : Nat) (cs : List ChildLink) :
    imagesAfter length (cs.map ChildLink.upper) = imagesAfter length cs := by
  induction cs generalizing length with
  | nil => rfl
  | cons c cs ih =>
    have hbytes : c.upper.image.bytes = c.image.bytes := rfl
    simp only [List.map_cons, imagesAfter, hbytes, ih]

theorem recordsAfter_upper (length offset : Nat) (cs : List ChildLink) :
    recordsAfter length offset (cs.map ChildLink.upper) = recordsAfter length offset cs := by
  induction cs generalizing length offset with
  | nil => rfl
  | cons c cs ih =>
    have hbytes : c.upper.image.bytes = c.image.bytes := rfl
    have hsize : c.upper.image.varSize = c.image.varSize := rfl
    have hcount : c.upper.count = c.count := rfl
    simp only [List.map_cons, recordsAfter, hbytes, hsize, hcount, ih]

@[simp]
theorem assemble_upper (bytes : Bytes) (ownVarSize : Nat) :
    l.upper.assemble bytes ownVarSize = l.assemble bytes ownVarSize := by
  rw [assemble, assemble, headerSize_upper, varSize_upper, upper, imagesAfter_upper,
    recordsAfter_upper]

end Links

end Propeller
