import Propeller.Proofs.Compile.CallSites
import Propeller.Proofs.Compile.ImageLayout
import Propeller.Proofs.Compile.Stages

/-!
# Compile — which methods are called

From the call sites of an object to the bytes of its image: what the name of a site stands for is the
method that is called (`CallSite.Becomes.symbol_eq`), every method of an object that is compiled without
errors has become what its declaration says (`Compile.Stages.finished`), and a call of a method that is
in the table stands in the image, with its arguments in front of it (`Parts.Image.call_at`).
-/

namespace Propeller

variable {m : MethodDraft} {d : Draft} {r : Resolution} {lines : Array Int} {here : Int} {c : Call}

/-! ### The methods of an object -/

namespace Compile.Stages

variable {config : Config} {library : Library} {nodes : List Node} {unitName : String} {p : Parts}
  {last : Draft} (t : Stages config library nodes unitName p last)

theorem scope_lt_data (hm : m ∈ t.methods) : m.scope < t.data.scopes.frames.size :=
  Nat.lt_of_lt_of_le (t.scope_lt_declarations hm)
    (t.grows_data (fun _ => True) fun _ _ => trivial).scopes_le

/-- Names mean in the end what they meant in front of the bodies of methods. -/
theorem alike_last (hm : m ∈ t.methods) : (t.data.names m.scope).Alike (last.names m.scope) :=
  t.extends_last.alike t.declared_data (t.scope_lt_data hm)

/-- What is so of each body that is compiled without errors, with the method that was declared for it, is so
of all methods of an object, unless an error is reported. -/
theorem bodies {R : MethodDraft → MethodDecl → MethodDraft → Prop}
    (hclean : last.report.hasErrors = false)
    (hR : ∀ m₀ ∈ t.methods, ∀ decl d m d', t.data.Extends d →
      methodBody config library m₀ decl d = .ok m d' → d'.Extends last →
      d'.report.errors = d.report.errors → R m₀ decl m) :
    List.Forall₂ (fun decl m => ∃ m₀ ∈ t.methods, Declares m₀ decl ∧ R m₀ decl m)
      (t.selected.flatMap Node.methodDecls) p.methods := by
  have hmem : ∀ m ∈ t.methods.zip (t.selected.flatMap Node.methodDecls), m.1 ∈ t.methods :=
    fun m hm => (List.of_mem_zip hm).1
  have hdeclare := addDeclarations_declare t.declarations_eq
  have hdecl : ∀ m ∈ t.methods.zip (t.selected.flatMap Node.methodDecls), Declares m.1 m.2 :=
    fun m hm => List.forall₂_zip hdeclare hm
  have hall := methodBodies_forall₂ (R := fun m m' => R m.1 m.2 m')
    (fun m hm => hR m.1 (hmem m hm) m.2) (.refl _) t.bodies_eq
    (by rw [Report.errors_eq_nil hclean, Report.errors_eq_nil (t.extends_last.hasErrors_of hclean)])
  rw [← List.map_snd_zip (Nat.le_of_eq hdeclare.length_eq.symm), List.forall₂_map_left_iff]
  have hboth := (List.forall₂_and_left _ _).mpr ⟨fun m hm => And.intro (hmem m hm) (hdecl m hm), hall⟩
  refine hboth.imp fun m m' h => ?_
  exact ⟨m.1, h.1.1, h.1.2, h.2⟩

/-- Names mean the same while bodies are compiled. -/
theorem alike_of_extends (hm : m ∈ t.methods) (hd : t.data.Extends d) :
    (last.names m.scope).Alike (d.names m.scope) :=
  (t.alike_last hm).symm.trans (hd.alike t.declared_data (t.scope_lt_data hm))

/-- **The methods of an object** are those that are declared, and unless an error is reported, each of
them has become what its declaration says. -/
theorem finished (hclean : last.report.hasErrors = false) :
    List.Forall₂ (fun decl m =>
      (∃ m₀ ∈ t.methods, Declares m₀ decl ∧ m.method = m₀.method ∧ m.scope = m₀.scope) ∧
        Finished config last decl m) (t.selected.flatMap Node.methodDecls) p.methods := by
  have hall := t.bodies hclean fun m₀ hm₀ decl d m d' hd hbody _ he =>
    methodBody_finished (fun _ => t.alike_of_extends hm₀) hd hbody he
  refine hall.imp ?_
  rintro decl m ⟨m₀, hm₀, hdeclares, hmethod, hscope, hfinished⟩
  exact ⟨⟨m₀, hm₀, hdeclares, hmethod, hscope⟩, hfinished⟩

/-- The body of every method is what its statements become, and a return if the last one is none; unless
an error is reported. -/
theorem bodies_become (hclean : last.report.hasErrors = false) :
    List.Forall₂ (fun decl m => ∃ own, Statement.BecomesAll (last.names m.scope).Alike config.debug
      (Text.RunBy library last (last.names m.scope).Alike fun _ _ => True) decl.body own ∧
        m.body = own ++ if (decl.body.getLast?.map Statement.isReturn).getD false then []
          else [.ret none]) (t.selected.flatMap Node.methodDecls) p.methods := by
  have hall := t.bodies hclean fun m₀ hm₀ decl d m d' hd hbody hlast he =>
    And.intro (methodBody_same hbody).2
      (methodBody_becomes_in (k := ⟨library, t.data, last, (last.names m₀.scope).Alike, fun _ _ => True⟩)
        (fun _ => t.alike_of_extends hm₀) hd hbody hlast he ⟨fun _ _ => trivial, fun _ _ => trivial⟩).1
  refine hall.imp ?_
  rintro decl m ⟨m₀, -, -, hscope, hbody⟩
  rwa [hscope]

end Compile.Stages

/-! ### Calls in an image -/

/-- What stands in a listing stands in its bytes. -/
theorem emitListing_infix {part listing : Listing} {bytes : Bytes} (hpart : part <:+: listing)
    (h : emitListing r lines listing here = (bytes, none)) :
    ∃ (start : Int) (own : Bytes) (offset : Nat),
      emitListing r lines part start = (own, none) ∧ StandsAt own bytes offset := by
  obtain ⟨before, after, rfl⟩ := hpart
  obtain ⟨x, y, hx, -, rfl⟩ := emitListing_append h
  obtain ⟨x', own, -, hown, rfl⟩ := emitListing_append hx
  exact ⟨_, own, _, hown, x', y, rfl, rfl⟩

namespace Call

/-- The instruction of a call, given the places of methods in their tables. -/
def bytes (place : Method → Nat) (c : Call) : Bytes :=
  match c.method.link with
  | none      => Op.call.byte :: Varint.unsigned (place c.method)
  | some link =>
    (if c.index.isSome then Op.callObjectIndexed else Op.callObject).byte ::
      Varint.unsigned link.object ++ Varint.unsigned (place c.method)

/-- A call stands in a row of bytes: an anchor, the arguments and the index, and the instruction. -/
def EmittedIn (c : Call) (r : Resolution) (lines : Array Int) (row : Bytes) : Prop :=
  ∃ (start : Op) (base : LineId) (here : Int) (front : Bytes) (offset : Nat),
    (start = .anchorPush ∨ start = .anchor) ∧
      emitListing r lines (c.setup start base) here = (front, none) ∧
      StandsAt (front ++ c.bytes r.methodIndex) row offset

theorem Stands.emittedIn {l : Listing} (h : c.Stands l) {row : Bytes}
    (hrow : emitListing r lines l here = (row, none)) : c.EmittedIn r lines row := by
  obtain ⟨start, base, hstart, hin⟩ := h
  obtain ⟨here', own, offset, hown, hat⟩ := emitListing_infix hin hrow
  obtain ⟨front, instruction, hfront, hinstruction, rfl⟩ := emitListing_append hown
  refine ⟨start, base, here', front, offset, hstart, hfront, ?_⟩
  have hbytes : instruction = c.bytes r.methodIndex := by
    simp only [emitListing, Code.encode] at hinstruction
    unfold bytes
    cases hlink : c.method.link with
    | none | some => simpa [hlink] using hinstruction.symm
  rwa [hbytes] at hat

end Call

/-- **A call in a method of the table** stands in the image. -/
theorem Parts.Image.call_at {config : Config} {p : Parts} {layouts : List MethodLayout}
    {image : ObjectImage} (h : p.Image config d layouts image) {i : Nat} {layout : MethodLayout}
    (hm : (p.table config)[i]? = some m) (hl : layouts[i]? = some layout)
    (hc : c ∈ Command.callsAll m.body) :
    c.EmittedIn (p.resolution config d) layout.lines image.bytes := by
  have hmem : (m, layout) ∈ (p.table config).zip layouts :=
    List.mem_of_getElem? (List.getElem?_zip_eq_some.mpr ⟨hm, hl⟩)
  obtain ⟨start, base, here, front, offset, hstart, hfront, hat⟩ :=
    (Command.stands_body hc).emittedIn (h.emitted _ hmem)
  exact ⟨start, base, here, front, _, hstart, hfront, hat.trans (h.code_at hm hl).2⟩

end Propeller
