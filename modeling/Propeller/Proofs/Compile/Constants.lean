import Propeller.Proofs.Compile.CalledMethods

/-!
# Compile — the constants of an image

A constant is bound to an expression, which is evaluated when the image is put together.  A constant that
has no value then is left out of the image, and nothing is said about it.

* `Draft.Lists`: the constants of a draft are some names, and all of them are bound in the object.
* `Compile.lists_constants`: declarations that are compiled without an error list the names they declare,
  in order, and nothing that comes later changes them (`Compile.Stages.lists_last`).
* `compile_constants`: the constants of an image are those that have a value in the final environment.
* `constants_left_out`: an undefined symbol, a division by zero, numbers of two types and a definition that
  leads back to itself.
-/

namespace Propeller

/-- The names of the constants that an object declares in the parts that are selected, in order. -/
def ObjectTree.constantNames (tree : ObjectTree) : List Identifier :=
  match Node.selectAll tree.nodes (Draft.initial tree.name) with
  | .ok nodes _ => (nodes.flatMap Node.constantDecls).flatMap ConstantDecl.names
  | .error _ _  => []

/-- The constants of a draft have some names, and each of these is bound in the frame of the object. -/
structure Draft.Lists (names : List Identifier) (d : Draft) : Prop where
  names_eq : d.constants.map Located.value = names
  bound : ∃ f, d.scopes.frames[objectScope]? = some f ∧ ∀ x ∈ names, (f.symbols.lookup x).isSome = true

namespace Draft.Lists

variable {names : List Identifier} {d d' : Draft}

theorem initial (unitName : String) : (Draft.initial unitName).Lists [] :=
  ⟨rfl, _, rfl, by simp⟩

/-- More bindings do no harm. -/
theorem of_grows {allowed : ScopeId → Identifier → Option Expression → Prop} (h : d.Lists names)
    (hgrows : d.Grows allowed d') (hconstants : d'.constants = d.constants) : d'.Lists names := by
  obtain ⟨f, hf, hbound⟩ := h.bound
  obtain ⟨f', hf', hframe⟩ := hgrows.kept _ f hf
  obtain ⟨new, hsymbols, -⟩ := hframe.symbols
  refine ⟨by rw [hconstants, h.names_eq], f', hf', fun x hx => ?_⟩
  rw [hsymbols, List.lookup_append, Option.isSome_or, hbound x hx, Bool.or_true]

theorem of_extends (h : d.Lists names) (hextends : d.Extends d') : d'.Lists names := by
  obtain ⟨f, hf, hbound⟩ := h.bound
  have hlt := (Array.getElem?_eq_some_iff.mp hf).1
  exact ⟨by rw [hextends.constants_eq, h.names_eq], f, (hextends.frame_eq _ hlt).trans hf, hbound⟩

/-- What is listed stands for something. -/
theorem symbol? (h : d.Lists names) {x : Identifier} (hx : x ∈ names) :
    ∃ e, d.scopes.symbol? objectScope x = some e := by
  obtain ⟨f, hf, hbound⟩ := h.bound
  have hsome : (f.symbol? x).isSome = true := by
    rw [Frame.symbol?_or]
    simp [hbound x hx]
  obtain ⟨e, he⟩ := Option.isSome_iff_exists.mp hsome
  refine ⟨e, ?_⟩
  simp only [Scopes.symbol?, Scopes.chain, Scopes.outward, hf, List.findSome?_cons, he]

end Draft.Lists

namespace Compile

variable {α : Type} {names : List Identifier} {d d' : Draft}

/-! ### Declarations of constants -/

/-- One more constant. -/
theorem lists_addConstant (h : d.Lists names) {name : Located Identifier} {value : Expression}
    (hrun : addConstant name value d = .ok () d') : d'.Lists (names ++ [name.value]) := by
  obtain ⟨f, hf, hbound⟩ := h.bound
  obtain ⟨_, d₁, hdefine, hrun⟩ := bind_eq_ok hrun
  rw [define_eq_ok] at hdefine
  cases hdefine
  cases hrun
  refine ⟨by simp [h.names_eq], { f with symbols := (name.value, value) :: f.symbols }, ?_, ?_⟩
  · simp [Scopes.addSymbol, Scopes.modifyFrame, Array.getElem?_modify, hf]
  · intro x hx
    rw [List.lookup_cons]
    split
    · rfl
    · next hne =>
      rcases List.mem_append.mp hx with hx | hx
      · exact hbound x hx
      · rw [List.mem_singleton.mp hx] at hne
        simp at hne

theorem keeps_lower {P : Draft → Prop} (e : Expr) : Keeps P (lower e) :=
  keeps_bind keeps_get fun _ => keeps_liftExcept _

theorem keeps_lowerOr {P : Draft → Prop} (default : Int64) (e : Option Expr) :
    Keeps P (lowerOr default e) := by
  cases e with
  | none => exact keeps_pure _
  | some e => exact keeps_lower e

theorem lists_enumerate {step : Expression} {items : List EnumItem} {current : Expression}
    (h : d.Lists names) (hrun : enumerate step current items d = .ok () d') :
    d'.Lists (names ++ items.map (·.name.value)) := by
  induction items generalizing names current d with
  | nil =>
    cases hrun
    rwa [List.map_nil, List.append_nil]
  | cons item items ih =>
    obtain ⟨_, d₁, hfirst, hrun⟩ := bind_eq_ok hrun
    have hlists := lists_addConstant h hfirst
    rw [List.map_cons, List.append_cons]
    cases hstep : item.step with
    | none =>
      rw [hstep] at hrun
      exact ih hlists hrun
    | some e =>
      rw [hstep] at hrun
      obtain ⟨increment, d₂, hlower, hrun⟩ := bind_eq_ok hrun
      exact ih ((keeps_lower e).of_ok hlists hlower) hrun

/-- A declaration lists the names that it declares. -/
theorem lists_addConstants {decl : ConstantDecl} (h : d.Lists names)
    (hrun : addConstants decl d = .ok () d') : d'.Lists (names ++ decl.names) := by
  cases decl with
  | assign name value =>
    obtain ⟨v, d₁, hlower, hrun⟩ := bind_eq_ok hrun
    exact lists_addConstant ((keeps_lower value).of_ok h hlower) hrun
  | enumeration start step items =>
    obtain ⟨first, d₁, hfirst, hrun⟩ := bind_eq_ok hrun
    obtain ⟨increment, d₂, hincrement, hrun⟩ := bind_eq_ok hrun
    have h₁ := (keeps_lowerOr 0 start).of_ok h hfirst
    exact lists_enumerate ((keeps_lowerOr 1 step).of_ok h₁ hincrement) hrun

/-- **Declarations list the names that they declare**, unless an error is reported. -/
theorem lists_constants {decls : List ConstantDecl} (h : d.Lists names)
    (hrun : attemptAll addConstants decls d = .ok () d') (hclean : d'.report.hasErrors = false) :
    d'.Lists (names ++ decls.flatMap ConstantDecl.names) := by
  induction decls generalizing names d with
  | nil =>
    cases hrun
    rwa [List.flatMap_nil, List.append_nil]
  | cons decl decls ih =>
    obtain ⟨tried, d₁, htried, hrun⟩ := bind_eq_ok hrun
    cases tried with
    | none =>
      -- the error that was reported is still there at the end
      have hgrows : d₁.Grows (fun _ _ _ => True) d' :=
        (keeps_attemptAll fun decl _ => grows_addConstants fun _ _ _ _ => trivial).of_ok (.refl _) hrun
      have herrors := attempt_eq_none htried
      rw [Report.hasErrors_of_prefix hgrows.report_prefix hclean] at herrors
      cases herrors
    | some u =>
      rw [List.flatMap_cons, ← List.append_assoc]
      exact ih (lists_addConstants h (attempt_eq_some htried)) hrun

/-! ### Later declarations -/

instance (cs : List (Located Identifier)) : Untouched fun d => d.constants = cs where
  declares h hd := h.constants_eq.trans hd
  fatal _ _ _ h := h

/-- Most steps add no constants. -/
theorem constants_eq_of {x : Compile α} {d d' : Draft} {a : α}
    (hx : Steady (fun d' => d'.constants = d.constants) Other x) (h : x d = .ok a d') :
    d'.constants = d.constants :=
  hx.of_ok rfl h

end Compile

namespace Compile.Stages

variable {config : Config} {library : Library} {nodes : List Node} {unitName : String} {p : Parts}
  {last : Draft} (t : Stages config library nodes unitName p last)

theorem grows_constants : t.constants.Grows (fun _ _ _ => True) t.clock :=
  (keeps_attempt (Compile.grows_clock (fun _ _ _ _ => trivial) config)).of_ok (.refl _) t.clock_eq

/-- What is reported about constants stays reported. -/
theorem constants_prefix : t.constants.report.entries <+: last.report.entries := by
  have hchildren : t.clock.report.entries <+: t.children.report.entries :=
    (keeps_addChildren (P := fun d => t.clock.report.entries <+: d.report.entries) (fun _ _ h => h)
      (fun _ _ h => h.trans (List.prefix_append ..)) library _).of_ok (List.prefix_refl _) t.children_eq
  exact t.grows_constants.report_prefix.trans (hchildren.trans t.report_prefix)

/-- **The constants of an object** are those that it declares, in order, and each of them is bound. -/
theorem lists_last (hclean : last.report.hasErrors = false) :
    last.Lists ((t.selected.flatMap Node.constantDecls).flatMap ConstantDecl.names) := by
  have hgrows : (Draft.initial unitName).Grows (fun _ _ _ => True) t.selection :=
    (Node.grows_selectAll fun _ _ _ _ => trivial).of_ok (.refl _) t.selection_eq
  have hselection := (Draft.Lists.initial unitName).of_grows hgrows
    (constants_eq_of (Node.steady_selectAll nodes) t.selection_eq)
  have hconstants := lists_constants hselection t.constants_eq
    (Report.hasErrors_of_prefix t.constants_prefix hclean)
  have hclock := hconstants.of_grows t.grows_constants
    (constants_eq_of (steady_attempt (steady_clock config) Untouched.fatal) t.clock_eq)
  have hchildren := (keeps_addChildren (fun _ _ h => ⟨h.names_eq, h.bound⟩)
    (fun _ _ h => ⟨h.names_eq, h.bound⟩) library _).of_ok hclock t.children_eq
  have hexports := hchildren.of_grows t.grows_exports (constants_eq_of steady_addExports t.exports_eq)
  have hdeclarations := hexports.of_grows (t.grows_declarations (fun _ => True) fun _ _ => trivial)
    (constants_eq_of (steady_addDeclarations _ _) t.declarations_eq)
  have hdata := hdeclarations.of_grows (t.grows_data (fun _ => True) fun _ _ => trivial)
    (constants_eq_of (steady_convert library _ _) t.data_eq)
  exact hdata.of_extends t.extends_last

end Compile.Stages

/-! ### The constants of an image -/

/-- Constants for some names, in order: those whose binding has a value, with that value. -/
inductive ListsValues (env : Environment) : List Identifier → List (Identifier × Number) → Prop
  | nil : ListsValues env [] []
  | value {x : Identifier} {e : Expression} {n : Number} {xs : List Identifier}
      {cs : List (Identifier × Number)} :
      env.scopes.symbol? objectScope x = some e → e.eval env = .ok n → ListsValues env xs cs →
      ListsValues env (x :: xs) ((x, n) :: cs)
  | leftOut {x : Identifier} {e : Expression} {error : EvalError} {xs : List Identifier}
      {cs : List (Identifier × Number)} :
      env.scopes.symbol? objectScope x = some e → e.eval env = .error error → ListsValues env xs cs →
      ListsValues env (x :: xs) cs

namespace ListsValues

variable {env : Environment} {xs : List Identifier} {cs : List (Identifier × Number)}

theorem length_le (h : ListsValues env xs cs) : cs.length ≤ xs.length := by
  induction h with
  | nil => exact Nat.le_refl _
  | value _ _ _ ih => exact Nat.succ_le_succ ih
  | leftOut _ _ _ ih => exact Nat.le_succ_of_le ih

/-- No name is missing exactly if each has a value. -/
theorem names_eq_iff (h : ListsValues env xs cs) :
    cs.map Prod.fst = xs ↔
      ∀ x ∈ xs, ∃ e n, env.scopes.symbol? objectScope x = some e ∧ e.eval env = .ok n := by
  induction h with
  | nil => simp
  | value hx hn _ ih =>
    rw [List.map_cons, List.cons.injEq, ih, List.forall_mem_cons]
    exact ⟨fun h => ⟨⟨_, _, hx, hn⟩, h.2⟩, fun h => ⟨rfl, h.2⟩⟩
  | leftOut hx herror hrest _ =>
    constructor
    · intro heq
      have hlength := congrArg List.length heq
      rw [List.length_map, List.length_cons] at hlength
      have := hrest.length_le
      omega
    · intro hall
      obtain ⟨e, n, he, hn⟩ := hall _ (.head _)
      cases hx.symm.trans he
      cases herror.symm.trans hn

end ListsValues

theorem listsValues_exportedConstants {env : Environment} {names : List (Located Identifier)}
    (h : ∀ x ∈ names.map Located.value, ∃ e, env.scopes.symbol? objectScope x = some e) :
    ListsValues env (names.map Located.value) (exportedConstants env names) := by
  induction names with
  | nil => exact .nil
  | cons name names ih =>
    rw [List.map_cons, List.forall_mem_cons] at h
    obtain ⟨⟨e, he⟩, hrest⟩ := h
    rw [List.map_cons]
    cases hn : e.eval env with
    | ok n =>
      have hstep : exportedConstants env (name :: names) =
          (name.value, n) :: exportedConstants env names :=
        List.filterMap_cons_some (by simp [he, hn])
      rw [hstep]
      exact .value he hn (ih hrest)
    | error error =>
      have hstep : exportedConstants env (name :: names) = exportedConstants env names :=
        List.filterMap_cons_none (by simp [he, hn])
      rw [hstep]
      exact .leftOut he hn (ih hrest)

theorem buildImage_constants {config : Config} {d : Draft} {p : Parts} {image : ObjectImage}
    (h : buildImage config d p (p.removed config) = .ok image) :
    image.constants = exportedConstants (p.resolution config d).environment d.constants := by
  rw [buildImage_eq] at h
  simp only at h
  split at h
  · cases h
  · obtain ⟨layouts, -, h⟩ := bind_eq_ok h
    split at h
    · cases h
    · cases h
      rfl

/-- **The constants of an image** are those that the object declares and that have a value in the final
environment, in the order of their declarations and with that value.  So they are all there exactly if each
of them has a value. -/
theorem compile_constants {config : Config} {library : Library} {tree : ObjectTree}
    {image : ObjectImage} (h : (compile config library tree).image = some image) :
    ∃ p d, Compile.parts config library tree.nodes (Draft.initial tree.name) = .ok p d ∧
      ListsValues (p.resolution config d).environment tree.constantNames image.constants ∧
      (image.constants.map Prod.fst = tree.constantNames ↔
        ∀ x ∈ tree.constantNames, ∃ e n, d.scopes.symbol? objectScope x = some e ∧
          e.eval (p.resolution config d).environment = .ok n) := by
  obtain ⟨p, d, hparts, hclean, hbuild⟩ := compile_eq_built h
  obtain ⟨t⟩ := Compile.parts_stages hparts
  have hlists : d.Lists tree.constantNames := by
    rw [ObjectTree.constantNames, t.selection_eq]
    exact t.lists_last hclean
  have hvalues : ListsValues (p.resolution config d).environment tree.constantNames image.constants := by
    rw [buildImage_constants hbuild, ← hlists.names_eq]
    refine listsValues_exportedConstants fun x hx => hlists.symbol? ?_
    rwa [hlists.names_eq] at hx
  exact ⟨p, d, hparts, hvalues, hvalues.names_eq_iff⟩

/-- Constants that are defined by an undefined symbol, by a division by zero, by a sum of integers as if
they were floats and by themselves, and between them an enumeration. -/
def valuelessConstants : ObjectTree where
  name := "t"
  nodes :=
    let name (text : String) : Located Identifier := ⟨⟨text⟩, {}⟩
    let number (v : Int64) : Expr := .literal {} (Literal.ofInt v)
    [.constants [.assign (name "lost") (.name {} ⟨"nowhere"⟩),
                 .assign (name "split") (.binary {} (.integer .div) (number 1) (number 0)),
                 .enumeration (some (number 5)) none [{ name := name "five" }, { name := name "six" }],
                 .assign (name "mixed") (.binary {} (.float .add) (number 1) (number 1)),
                 .assign (name "round") (.name {} ⟨"ROUND"⟩)]]

/-- The image of this object has the items of the enumeration. -/
theorem compile_constants_valueless :
    ∃ image, (compile {} {} valuelessConstants).image = some image ∧
      image.constants.map (Prod.map Identifier.spelling id) = [("five", .int 5), ("six", .int 6)] ∧
      ∃ p d, Compile.parts {} {} valuelessConstants.nodes (Draft.initial valuelessConstants.name) =
          .ok p d ∧
        ListsValues (p.resolution {} d).environment valuelessConstants.constantNames image.constants := by
  have hconstants : (compile {} {} valuelessConstants).image.map
      (·.constants.map (Prod.map Identifier.spelling id)) = some [("five", .int 5), ("six", .int 6)] := by
    decide +kernel
  obtain ⟨image, himage, hlisted⟩ := Option.map_eq_some_iff.mp hconstants
  obtain ⟨p, d, hparts, hvalues, -⟩ := compile_constants himage
  exact ⟨image, himage, hlisted, p, d, hparts, hvalues⟩

/-- **Constants are left out without a word**: the object declares six of them, its image has two, and
nothing is reported. -/
theorem constants_left_out :
    (compile {} {} valuelessConstants).succeeded = true ∧
      (compile {} {} valuelessConstants).report.entries.isEmpty = true ∧
      valuelessConstants.constantNames.map Identifier.spelling =
        ["lost", "split", "five", "six", "mixed", "round"] ∧
      (compile {} {} valuelessConstants).image.map (·.constants.map fun c => c.1.spelling) =
        some ["five", "six"] := by
  decide +kernel

end Propeller
