import Propeller.Proofs.Compile.Bindings
import Propeller.Proofs.Compile.Extends
import Propeller.Proofs.Link

/-!
# Compile — the stages of a compilation

The parts of an object are compiled in stages: selection, constants, the clock, children, what they make
known, variables and methods, assembly code, and the bodies of methods.  `Compile.Stages` holds the draft
behind each of them, so that what a later stage relies on can be traced to the stage that made it.

* `Compile.Stages.included`: the children are those that are declared, and their records are numbered
  through.
* `Compile.Stages.symbol?_eq`: a name that the object does not declare stands for what its children make
  known.
* `Compile.Stages.symbolsAre`: every method that a name stands for is one of the object or one of a child,
  and every variable is one of the object.
-/

namespace Propeller

variable {library : Library} {d d' : Draft} {m : MethodDraft} {x : Identifier}

namespace Compile

/-! ### Children -/

/-- A child is the one of a declaration. -/
structure Includes (library : Library) (decl : ObjectDecl) (c : ChildLink) : Prop where
  name_eq : c.name = decl.name.value
  image_eq : library.object decl.path.value = .ok c.image

/-- A child that is included changes nothing but the links. -/
theorem addChild_eq_ok {decl : ObjectDecl} (h : addChild library decl d = .ok () d') :
    ∃ count image, library.object decl.path.value = .ok image ∧
      d.links.add decl.name.value image count = .ok d'.links ∧
      d' = { d with links := d'.links } := by
  obtain ⟨count, d₁, hcount, h⟩ := bind_eq_ok h
  obtain rfl : d = d₁ := by
    cases hdecl : decl.count with
    | none =>
      rw [hdecl] at hcount
      cases hcount
      rfl
    | some e =>
      rw [hdecl] at hcount
      have hk : Keeps (fun x => d = x) (elementCount (some e)) :=
        keeps_bind keeps_get fun _ => keeps_liftExcept _
      exact hk.of_ok rfl hcount
  obtain ⟨image, d₂, himage, h⟩ := bind_eq_ok h
  have hlinkAt : ∀ {α : Type} {location : Location} {x : Except LinkError α} {a : α} {d d' : Draft},
      linkAt location x d = .ok a d' → x = .ok a ∧ d = d' := by
    intro α location x a d d' hx
    cases x with
    | error e => cases hx
    | ok b =>
      cases hx
      exact ⟨rfl, rfl⟩
  obtain ⟨hobject, rfl⟩ := hlinkAt himage
  obtain ⟨_, _, hget, h⟩ := bind_eq_ok h
  cases hget
  obtain ⟨links, d₃, hlinks, h⟩ := bind_eq_ok h
  obtain ⟨hadd, rfl⟩ := hlinkAt hlinks
  cases h
  exact ⟨count, image, hobject, hadd, rfl⟩

/-- Including children changes links and reports errors, and nothing else. -/
theorem keeps_addChildren {P : Draft → Prop} (hlinks : ∀ d links, P d → P { d with links })
    (hfatal : ∀ d e, P d → P { d with report := d.report.fatal e }) (library : Library)
    (decls : List ObjectDecl) : Keeps P (attemptAll (addChild library) decls) := by
  exact (steady_attemptAll (steady_addChild hlinks library) (fun d e _ => hfatal d _) decls).keeps

/-- An error that was reported stays reported while children are included. -/
theorem errors_addChildren (library : Library) (decls : List ObjectDecl) :
    Keeps (fun d => d.report.hasErrors = true) (attemptAll (addChild library) decls) := by
  refine keeps_addChildren (fun _ _ h => h) (fun d e h => ?_) library decls
  rw [Report.fatal, Report.hasErrors_push, h, Bool.true_or]

/-- **Children are included** one after the other, unless an error is reported. -/
theorem addChildren_eq_ok {decls : List ObjectDecl}
    (h : attemptAll (addChild library) decls d = .ok () d') (hclean : d'.report.hasErrors = false)
    (hbuilt : d.links.Built) :
    d'.links.Built ∧ ∃ new, d'.links.children = d.links.children ++ new ∧
      List.Forall₂ (Includes library) decls new := by
  induction decls generalizing d with
  | nil =>
    cases h
    exact ⟨hbuilt, [], (List.append_nil _).symm, .nil⟩
  | cons decl decls ih =>
    obtain ⟨tried, d₁, htried, h⟩ := bind_eq_ok h
    cases tried with
    | none =>
      have herrors := (errors_addChildren library decls).of_ok (attempt_eq_none htried) h
      rw [hclean] at herrors
      cases herrors
    | some u =>
      obtain ⟨count, image, himage, hlinks, -⟩ := addChild_eq_ok (attempt_eq_some htried)
      obtain ⟨hbuilt', new, hnew, hall⟩ := ih h (hbuilt.add hlinks)
      have hchildren : d₁.links.children = d.links.children ++
          [{ name := decl.name.value, image, count, index := d.links.records }] := by
        unfold Links.add at hlinks
        split at hlinks
        · cases hlinks
        · exact congrArg Links.children (Except.ok.inj hlinks).symm
      rw [hnew, hchildren, List.append_assoc, List.singleton_append]
      exact ⟨hbuilt', _, rfl, .cons ⟨rfl, himage⟩ hall⟩

end Compile

/-! ### Exports -/

/-- Symbols that are bound one after the other stand in the frame with the last one in front. -/
theorem Scopes.addSymbols_frame {scope : ScopeId} (bs : List (Identifier × Expression)) {s : Scopes}
    {f : Frame} (hf : s.frames[scope]? = some f) :
    (addSymbols scope bs s).1.frames[scope]? = some { f with symbols := bs.reverse ++ f.symbols } := by
  induction bs generalizing s f with
  | nil => exact hf
  | cons b rest ih =>
    obtain ⟨name, value⟩ := b
    have hadded : (s.addSymbol scope name value).frames[scope]? =
        some { f with symbols := (name, value) :: f.symbols } := by
      simp [addSymbol, modifyFrame, Array.getElem?_modify, hf]
    have hrest := ih hadded
    rw [List.reverse_cons, List.append_assoc, List.singleton_append]
    exact hrest

namespace Compile

/-- What children make known is a number or a method of a child, and the methods are numbered. -/
theorem mem_exportsFrom {first : Nat} {children : List ChildLink} {b : Identifier × Expression}
    (hb : b ∈ Links.exportsFrom first children) :
    (∀ c, b.2 = .method c → c.link.isSome = true ∧
      c.id < first + (children.map fun c => c.image.methods.length).sum) ∧
      ∀ w, b.2 ≠ .objectVar w := by
  induction children generalizing first with
  | nil => cases hb
  | cons child cs ih =>
    simp only [Links.exportsFrom, Links.exportsOf, List.mem_append, List.mem_map] at hb
    rw [List.map_cons, List.sum_cons, ← Nat.add_assoc]
    rcases hb with (⟨method, hmethod, rfl⟩ | ⟨constant, -, rfl⟩) | hb
    · refine ⟨?_, by simp⟩
      rintro c ⟨⟩
      have hlt := (List.mem_zipIdx hmethod).2.1
      exact ⟨rfl, Nat.lt_of_lt_of_le hlt (Nat.le_add_right ..)⟩
    · exact ⟨by simp, by simp⟩
    · exact ih hb

variable {allowed : ScopeId → Identifier → Option Expression → Prop}

theorem addSymbols_grows {base : Draft} {bs : List (Identifier × Expression)}
    (hbs : ∀ b ∈ bs, allowed objectScope b.1 (some b.2)) (h : base.Grows allowed d) :
    base.Grows allowed { d with scopes := (Scopes.addSymbols objectScope bs d.scopes).1 } := by
  induction bs generalizing d with
  | nil => exact h
  | cons b rest ih =>
    obtain ⟨hb, hrest⟩ := List.forall_mem_cons.mp hbs
    exact ih hrest (h.modifyFrame objectScope fun f => .withSymbol hb)

theorem addExports_eq_ok (h : addExports d = .ok () d') :
    d'.scopes = (Scopes.addSymbols objectScope (d.links.exports 0) d.scopes).1 ∧
      d'.objectVars = d.objectVars ∧ d'.links = d.links ∧ d.report.entries <+: d'.report.entries := by
  obtain ⟨_, _, hget, h⟩ := bind_eq_ok h
  cases hget
  obtain ⟨_, d₁, hset, h⟩ := bind_eq_ok h
  have hwarn : ∀ ws, Keeps (fun x : Draft =>
      x.scopes = (Scopes.addSymbols objectScope (d.links.exports 0) d.scopes).1 ∧
        x.objectVars = d.objectVars ∧ x.links = d.links ∧
        d.report.entries <+: x.report.entries) (warnAll ws) := by
    intro ws
    induction ws with
    | nil => exact keeps_pure ()
    | cons w ws ih =>
      refine keeps_bind (leads_modify fun x hx => ⟨hx.1, hx.2.1, hx.2.2.1, ?_⟩) fun _ => ih
      exact hx.2.2.2.trans (List.prefix_append ..)
  cases hset
  refine (hwarn _).of_ok ?_ h
  exact ⟨rfl, rfl, rfl, List.prefix_refl _⟩

/-! ### What holds behind the stages -/

/-- A name that an object does not declare, and that is not predefined. -/
structure Undeclared (nodes : List Node) (x : Identifier) : Prop where
  names : ∀ y ∈ Node.namesAll nodes, (x == y) = false
  clock : ∀ y ∈ clockNames, (x == y) = false
  root : Scopes.rootFrame.symbol? x = none

namespace Stages

variable {config : Config} {library : Library} {nodes : List Node} {unitName : String} {p : Parts}
  {last : Draft} (t : Stages config library nodes unitName p last)

/-- A name that is declared in what was selected is declared in the object. -/
theorem mem_names (hx : x ∈ Node.namesAll t.selected) : x ∈ Node.namesAll nodes :=
  Node.names_selectAll nodes _ _ _ t.selection_eq x hx

/-- The first stages bind definitions, constants and the clock. -/
theorem grows_clock (hnames : ∀ x ∈ Node.namesAll nodes, Allows allowed objectScope x)
    (hclock : ∀ x ∈ clockNames, Allows allowed objectScope x) :
    (Draft.initial unitName).Grows allowed t.clock := by
  have h₁ := (Node.grows_selectAll hnames).of_ok (.refl _) t.selection_eq
  have h₂ := (keeps_attemptAll fun decl hdecl => grows_addConstants fun x hx =>
    hnames x (t.mem_names ?_)).of_ok h₁ t.constants_eq
  · exact (keeps_attempt (Compile.grows_clock hclock config)).of_ok h₂ t.clock_eq
  · obtain ⟨node, hnode, hdecl⟩ := List.mem_flatMap.mp hdecl
    exact Node.mem_namesAll.mpr ⟨node, hnode, Node.mem_names_constants hdecl hx⟩

theorem scopes_children : t.children.scopes = t.clock.scopes :=
  (keeps_addChildren (P := fun d => d.scopes = t.clock.scopes) (fun _ _ h => h) (fun _ _ h => h)
    library _).of_ok rfl t.children_eq

theorem vars_children : t.children.objectVars = t.clock.objectVars :=
  (keeps_addChildren (P := fun d => d.objectVars = t.clock.objectVars) (fun _ _ h => h)
    (fun _ _ h => h) library _).of_ok rfl t.children_eq

/-- A binding in the frame of the object which, if it is a method, is one of a child with a number below
some, and which is no variable. -/
structure BindsExport (count : Nat) (i : ScopeId) (x : Identifier) (v : Option Expression) : Prop where
  scope_eq : i = objectScope
  method : ∀ c, v = some (.method c) → c.link.isSome = true ∧ c.id < count
  var : ∀ w, v ≠ some (.objectVar w)

/-- The children make methods and numbers known in the frame of the object. -/
theorem grows_exports : t.children.Grows (BindsExport t.children.links.methodCount) t.exports := by
  obtain ⟨hscopes, hvars, hlinks, hreport⟩ := addExports_eq_ok t.exports_eq
  have hbs : ∀ b ∈ t.children.links.exports 0,
      BindsExport t.children.links.methodCount objectScope b.1 (some b.2) := by
    intro b hb
    obtain ⟨hmethod, hvar⟩ := mem_exportsFrom hb
    rw [Nat.zero_add] at hmethod
    exact ⟨rfl, fun c hc => hmethod c (Option.some.inj hc), fun w hw => hvar w (Option.some.inj hw)⟩
  have hgrows := addSymbols_grows hbs (.refl t.children)
  refine ⟨?_, ?_, ⟨[], by simp [hvars]⟩, hlinks, hreport⟩
  · rw [hscopes]
    exact hgrows.kept
  · rw [hscopes]
    exact hgrows.fresh

/-- A variable that is there behind the declarations. -/
def Variable (v : ObjectVar) : Prop := v ∈ t.declarations.objectVars.map Located.value

/-- Variables and methods are declared under names of the object. -/
theorem grows_declarations (named : Identifier → Prop) (hnames : ∀ x ∈ Node.namesAll nodes, named x) :
    t.exports.Grows (BindsAmong named t.methods t.Variable) t.declarations :=
  (addDeclarations_grows (fun x hx => hnames x (t.mem_names hx)) t.declarations_eq
    fun _ hv => List.mem_map_of_mem hv).1

theorem le_scope (hm : m ∈ t.methods) : t.exports.scopes.frames.size ≤ m.scope :=
  (addDeclarations_grows (V := fun _ => True) (fun _ hx => hx) t.declarations_eq
    fun _ _ => trivial).2 m hm

/-- A binding that is no method and no variable, and that has one of some names unless it is in a new
frame. -/
def BindsLabel (named : Identifier → Prop) (base : Draft) (i : ScopeId) (x : Identifier)
    (v : Option Expression) : Prop :=
  (i < base.scopes.frames.size → named x) ∧ Plain v

/-- Labels are bound under names of the object, or in new frames. -/
theorem grows_data (named : Identifier → Prop) (hnames : ∀ x ∈ Node.namesAll nodes, named x) :
    t.declarations.Grows (BindsLabel named t.declarations) t.data := by
  have hlabels : ∀ line ∈ t.selected.flatMap Node.dataLines,
      AllowsLabel (BindsLabel named t.declarations) t.declarations line := by
    intro line hline
    obtain ⟨node, hnode, hline⟩ := List.mem_flatMap.mp hline
    constructor
    · refine fun x hx v hv => ⟨fun _ => hnames x (t.mem_names ?_), hv⟩
      exact Node.mem_namesAll.mpr ⟨node, hnode, Node.mem_names_data hline hx⟩
    · exact fun name _ i hi v hv => ⟨fun hlt => absurd hi (Nat.not_le_of_lt hlt), hv⟩
  exact (grows_convert library hlabels).of_ok (.refl _) t.data_eq

/-- From the children on, the links stay as they are. -/
theorem links_data : t.data.links = t.children.links :=
  (t.grows_data (fun _ => True) fun _ _ => trivial).links_eq.trans
    ((t.grows_declarations (fun _ => True) fun _ _ => trivial).links_eq.trans t.grows_exports.links_eq)

/-- What is reported stays reported. -/
theorem report_prefix : t.children.report.entries <+: last.report.entries := by
  have hdeclarations := t.grows_declarations (fun _ => True) fun _ _ => trivial
  have hdata := t.grows_data (fun _ => True) fun _ _ => trivial
  have hbodies : t.data.Extends last :=
    (keeps_methodBodies config library _).of_ok (.refl _) t.bodies_eq
  exact t.grows_exports.report_prefix.trans (hdeclarations.report_prefix.trans
    (hdata.report_prefix.trans hbodies.report_prefix))

/-- **The children of an object** are those that are declared, and their records are numbered through. -/
theorem included (hclean : last.report.hasErrors = false) :
    t.data.links.Built ∧
      List.Forall₂ (Includes library) (t.selected.flatMap Node.objectDecls) t.data.links.children := by
  have hclock : (Draft.initial unitName).Grows (fun _ _ _ => True) t.clock :=
    t.grows_clock (fun _ _ _ _ => trivial) fun _ _ _ _ => trivial
  have hlinks : t.clock.links = {} := hclock.links_eq
  have hchildren := Report.hasErrors_of_prefix t.report_prefix hclean
  obtain ⟨hbuilt, new, hnew, hall⟩ :=
    addChildren_eq_ok t.children_eq hchildren (hlinks ▸ Links.Built.empty)
  rw [hlinks] at hnew
  rw [t.links_data, hnew]
  exact ⟨hbuilt, hall⟩

/-- The exports stand in the frame of the object, which binds no other undeclared name. -/
theorem symbol?_exports (hx : Undeclared nodes x) :
    t.exports.scopes.symbol? objectScope x = (t.children.links.exports 0).reverse.lookup x := by
  have hclock : (Draft.initial unitName).Grows (fun _ y _ => (x == y) = false) t.clock :=
    t.grows_clock (fun y hy _ _ => hx.names y hy) fun y hy _ _ => hx.clock y hy
  obtain ⟨object, hobject, hgrows⟩ := hclock.kept objectScope { parent := some Scopes.root } rfl
  obtain ⟨root, hroot, hgrowsRoot⟩ := hclock.kept Scopes.root Scopes.rootFrame rfl
  rw [← t.scopes_children] at hobject hroot
  have hnothing : t.exports.scopes.symbol? Scopes.root x = none := by
    obtain ⟨root', hroot', hgrowsRoot'⟩ := t.grows_exports.kept _ _ hroot
    rw [t.declared_exports.within.symbol?_eq hroot', hgrowsRoot'.parent_eq, hgrowsRoot.parent_eq,
      hgrowsRoot'.symbol?_eq (fun y v hv => by cases hv.scope_eq), hgrowsRoot.symbol?_eq fun y v hv => hv,
      hx.root]
    rfl
  have hframe := Scopes.addSymbols_frame (t.children.links.exports 0) hobject
  rw [← (addExports_eq_ok t.exports_eq).1] at hframe
  obtain ⟨hbuiltins, hsymbols, hdefinitions⟩ := hgrows.lookup_eq_none fun y v hv => hv
  rw [t.declared_exports.within.symbol?_eq hframe, Frame.symbol?_or, hbuiltins, hdefinitions,
    List.lookup_append, hsymbols, hgrows.parent_eq]
  simp [hnothing]

/-- **A name that an object does not declare** stands in its methods for what the children make known. -/
theorem symbol?_eq (hx : Undeclared nodes x) (hm : m ∈ t.methods) :
    t.data.scopes.symbol? m.scope x = (t.data.links.exports 0).reverse.lookup x := by
  have hdeclarations := t.grows_declarations (fun y => (x == y) = false) hx.names
  have hdata := t.grows_data (fun y => (x == y) = false) hx.names
  have hm' := t.scope_lt_declarations hm
  calc t.data.scopes.symbol? m.scope x
      = t.declarations.scopes.symbol? m.scope x :=
        hdata.symbol?_eq t.declared_declarations.within (fun i hi y v hv => hv.1 hi) hm'
    _ = t.declarations.scopes.symbol? objectScope x :=
        hdeclarations.symbol?_fresh t.declared_declarations.within (t.le_scope hm) hm'
          fun y v hv => hv.named
    _ = t.exports.scopes.symbol? objectScope x :=
        hdeclarations.symbol?_eq t.declared_exports.within (fun i _ y v hv => hv.named)
          (t.declared_exports.lt_scopes (Nat.lt_succ_self _))
    _ = (t.data.links.exports 0).reverse.lookup x := by rw [t.symbol?_exports hx, t.links_data]

/-- Before the declarations, methods have a link and a number below those of the object, and there is no
variable. -/
theorem symbolsAre_exports : t.exports.scopes.SymbolsAre fun e =>
    (∀ c, e = .method c → c.link.isSome = true ∧ c.id < t.exports.links.methodCount) ∧
      ∀ w, e ≠ .objectVar w := by
  have hinitial : (Draft.initial unitName).scopes.SymbolsAre fun e => Plain (some e) := by
    intro i f hf x e hx
    match i with
    | 0 =>
      obtain rfl : Scopes.rootFrame = f := Option.some.inj hf
      simp only [Frame.symbol?_or, Scopes.rootFrame, List.lookup_nil, Option.bind_none,
        Option.or_none] at hx
      obtain ⟨b, hb, -, rfl⟩ := mem_of_lookup hx
      simp only [List.mem_append, List.mem_map] at hb
      rcases hb with ⟨_, -, rfl⟩ | ⟨_, -, rfl⟩
      · exact plain_some (by simp) (by simp)
      · exact plain_int _
    | 1 =>
      obtain rfl : { parent := some Scopes.root } = f := Option.some.inj hf
      cases hx
    | i + 2 => cases hf
  have hclock : (Draft.initial unitName).Grows (fun _ _ v => Plain v) t.clock :=
    t.grows_clock (fun _ _ _ hv => hv) fun _ _ _ hv => hv
  have hchildren : t.children.scopes.SymbolsAre fun e => Plain (some e) :=
    t.scopes_children ▸ hinitial.grows hclock fun i x e he => he
  rw [t.grows_exports.links_eq]
  refine (hchildren.mono fun e he => ?_).grows t.grows_exports fun i x e he => ?_
  · obtain ⟨hmethod, hvar⟩ := he e rfl
    exact ⟨fun c hc => absurd hc (hmethod c), hvar⟩
  · exact ⟨fun c hc => he.method c (congrArg some hc), fun w hw => he.var w (congrArg some hw)⟩

/-- **What a name stands for**: a method is one of the object or one of a child, and a variable is one of
the object. -/
theorem symbolsAre : t.data.scopes.SymbolsAre fun e =>
    (∀ c, e = .method c → (c.link.isSome = true ∧ c.id < t.exports.links.methodCount) ∨
      ∃ m ∈ t.methods, m.method = c) ∧ ∀ w, e = .objectVar w → t.Variable w := by
  have hdeclarations := t.grows_declarations (fun _ => True) fun _ _ => trivial
  have hdata := t.grows_data (fun _ => True) fun _ _ => trivial
  refine Scopes.SymbolsAre.grows (Scopes.SymbolsAre.grows (t.symbolsAre_exports.mono fun e he => ?_)
    hdeclarations fun i x e he => ?_) hdata fun i x e he => ?_
  · exact ⟨fun c hc => .inl (he.1 c hc), fun w hw => absurd hw (he.2 w)⟩
  · exact ⟨fun c hc => .inr (he.method c (congrArg some hc)), fun w hw => he.var w (congrArg some hw)⟩
  · obtain ⟨hmethod, hvar⟩ := he.2 e rfl
    exact ⟨fun c hc => absurd hc (hmethod c), fun w hw => absurd hw (hvar w)⟩

/-- From the declarations on, the variables of the object stay as they are. -/
theorem vars_last : last.objectVars = t.declarations.objectVars := by
  have hbodies : t.data.Extends last :=
    (keeps_methodBodies config library _).of_ok (.refl _) t.bodies_eq
  obtain ⟨new, hnew, -, hallowed⟩ := (t.grows_data (fun _ => True) fun _ _ => trivial).vars
  have hnil : new = [] := by
    refine List.eq_nil_iff_forall_not_mem.mpr fun v hv => ?_
    exact absurd rfl (((hallowed v hv).2 _ rfl).2 v.value)
  rw [hbodies.vars_eq, hnew, hnil, List.append_nil]

/-- Before the declarations there are no variables. -/
theorem vars_exports : t.exports.objectVars = [] := by
  have hclock : (Draft.initial unitName).Grows (fun _ _ v => Plain v) t.clock :=
    t.grows_clock (fun _ _ _ hv => hv) fun _ _ _ hv => hv
  obtain ⟨new, hnew, -, hallowed⟩ := hclock.vars
  have hnil : new = [] := by
    refine List.eq_nil_iff_forall_not_mem.mpr fun v hv => ?_
    exact absurd rfl ((hallowed v hv _ rfl).2 v.value)
  obtain ⟨-, hexports, -⟩ := addExports_eq_ok t.exports_eq
  rw [hexports, t.vars_children, hnew, hnil]
  rfl

/-- **The variables of the object** are numbered in the order of their declarations. -/
theorem vars_ids (t : Stages config library nodes unitName p last) :
    last.objectVars.map (·.value.id) = List.range last.objectVars.length := by
  obtain ⟨new, hnew, hids, -⟩ := (t.grows_declarations (fun _ => True) fun _ _ => trivial).vars
  rw [t.vars_exports, List.nil_append] at hnew
  rw [t.vars_last, hnew, hids, t.vars_exports, List.range_eq_range']
  rfl

end Stages

end Compile

end Propeller
