import Propeller.Proofs.Compile.CalledMethods

/-!
# Compile — calls of methods of children

A child makes its methods and constants known under its own name and a dot in front of theirs.  If there
is no dot in the names that an object declares, then a name with a dot means a member of a child
(`Compile.Stages.member_eq`), and if the children have different names, it means the constant of that
name, or else the last method (`Links.lookup_constant`, `Links.lookup_method`).

So a call of a method of a child becomes an instruction that names the first record of the child and the
place of the method in its table, behind as many arguments as the method takes, and all records of the
child lead to its bytes (`compile_childCalls`).
-/

namespace Propeller

variable {x : Identifier} {first : Nat} {c : ChildLink} {v : Expression}

/-! ### Names with and without a dot -/

namespace Identifier

/-- There is no dot in a name. -/
def DotFree (n : Identifier) : Prop := '.' ∉ n.key

instance decidableDotFree (n : Identifier) : Decidable n.DotFree :=
  inferInstanceAs (Decidable ('.' ∉ n.key))

theorem key_qualified (object member : Identifier) :
    (object.qualified member).key = object.key ++ '.' :: member.key := by
  simp only [qualified, key, foldCase, String.toList_append, List.map_append, List.append_assoc]
  rfl

/-- A name with a dot is another one than a name without. -/
theorem DotFree.qualified_beq {n : Identifier} (h : n.DotFree) (object member : Identifier) :
    (object.qualified member == n) = false := by
  refine Bool.eq_false_iff.mpr fun heq => h ?_
  rw [← beq_iff.mp heq, key_qualified]
  simp

theorem append_dot_inj {as bs xs ys : List Char} (ha : '.' ∉ as) (hb : '.' ∉ bs)
    (h : as ++ '.' :: xs = bs ++ '.' :: ys) : as = bs ∧ xs = ys := by
  induction as generalizing bs with
  | nil =>
    cases bs with
    | nil => exact ⟨rfl, (List.cons.inj h).2⟩
    | cons b bs => exact absurd (List.cons.inj h).1 (List.ne_of_not_mem_cons hb)
  | cons a as ih =>
    cases bs with
    | nil => exact absurd (List.cons.inj h).1.symm (List.ne_of_not_mem_cons ha)
    | cons b bs =>
      obtain ⟨rfl, hrest⟩ := List.cons.inj h
      obtain ⟨rfl, rfl⟩ := ih (List.not_mem_of_not_mem_cons ha) (List.not_mem_of_not_mem_cons hb)
        hrest
      exact ⟨rfl, rfl⟩

/-- Members of children have the same name if the children and the members have. -/
theorem qualified_beq_iff {a b y : Identifier} (ha : a.DotFree) (hb : b.DotFree) :
    (a.qualified x == b.qualified y) = true ↔ (a == b) = true ∧ (x == y) = true := by
  rw [beq_iff, beq_iff, beq_iff, key_qualified, key_qualified]
  constructor
  · exact append_dot_inj ha hb
  · rintro ⟨ha, hx⟩
    rw [ha, hx]

end Identifier

/-! ### What the members of children stand for -/

theorem lookup_map {α β : Type} (f : α → Identifier × β) (l : List α) (x : Identifier) :
    (l.map f).lookup x = (l.find? fun a => x == (f a).1).map fun a => (f a).2 := by
  induction l with
  | nil => rfl
  | cons a l ih =>
    rw [List.map_cons, List.lookup_cons, List.find?_cons]
    cases x == (f a).1 with
    | true => rfl
    | false => exact ih

namespace Links

/-- A name is that of a constant of a child. -/
def isConstant (l : Links) (x : Identifier) : Bool :=
  l.children.any fun c => c.image.constants.any fun e => x == c.name.qualified e.1

/-- What a child makes known under a name: a constant, or else the last method of the name. -/
theorem lookup_exportsOf (h : (exportsOf first c).reverse.lookup x = some v) :
    (∃ e ∈ c.image.constants, (x == c.name.qualified e.1) = true ∧ ∃ n, v = .number n) ∨
      ∃ e, c.image.methods.reverse.find? (fun e => x == c.name.qualified e.name) = some e ∧
        ∃ m, v = .method m ∧ m.parameters = e.parameters ∧
          m.link = some { object := c.index, index := e.index } := by
  rw [exportsOf, List.reverse_append, List.lookup_append, Option.or_eq_some_iff] at h
  rcases h with h | ⟨-, h⟩
  · obtain ⟨b, hb, hname, rfl⟩ := mem_of_lookup h
    obtain ⟨e, he, rfl⟩ := List.mem_map.mp (List.mem_reverse.mp hb)
    exact .inl ⟨e, he, hname, _, rfl⟩
  · rw [← List.map_reverse, lookup_map] at h
    obtain ⟨⟨e, id⟩, hfind, rfl⟩ := Option.map_eq_some_iff.mp h
    refine .inr ⟨e, ?_, _, rfl, rfl, rfl⟩
    rw [← List.zipIdx_map_fst first c.image.methods, ← List.map_reverse, List.find?_map]
    exact Option.map_eq_some_iff.mpr ⟨(e, id), hfind, rfl⟩

/-- What children make known under a name one of them makes known. -/
theorem lookup_exportsFrom {children : List ChildLink}
    (h : (exportsFrom first children).reverse.lookup x = some v) :
    ∃ c ∈ children, ∃ first, (exportsOf first c).reverse.lookup x = some v := by
  induction children generalizing first with
  | nil => cases h
  | cons c cs ih =>
    rw [exportsFrom, List.reverse_append, List.lookup_append, Option.or_eq_some_iff] at h
    rcases h with h | ⟨-, h⟩
    · obtain ⟨other, hother, hfound⟩ := ih h
      exact ⟨other, List.mem_cons_of_mem _ hother, hfound⟩
    · exact ⟨c, List.mem_cons_self .., first, h⟩

/-- Whatever a child makes known has its name in front. -/
theorem lookup_exportsOf_name (h : (exportsOf first c).reverse.lookup x = some v) :
    ∃ member, (x == c.name.qualified member) = true := by
  rcases lookup_exportsOf h with ⟨e, -, hname, -⟩ | ⟨e, hfind, -⟩
  · exact ⟨e.1, hname⟩
  · have hname := List.find?_some hfind
    exact ⟨e.name, hname⟩

section Distinct

variable {children : List ChildLink} (hdot : ∀ c ∈ children, c.name.DotFree)
  (hdistinct : children.Pairwise fun c c' => (c.name == c'.name) = false)

include hdot hdistinct

/-- **A constant of a child** is not hidden by a method of the same name, nor by another child. -/
theorem lookup_constant (hc : c ∈ children) {e : Identifier × Number} (he : e ∈ c.image.constants)
    (hx : (x == c.name.qualified e.1) = true) :
    ∃ n, (exportsFrom first children).reverse.lookup x = some (.number n) := by
  induction children generalizing first with
  | nil => cases hc
  | cons child cs ih =>
    obtain ⟨hchild, hcs⟩ := List.pairwise_cons.mp hdistinct
    rw [exportsFrom, List.reverse_append, List.lookup_append]
    rcases List.mem_cons.mp hc with rfl | hc
    · have hlater : (exportsFrom (first + c.image.methods.length) cs).reverse.lookup x = none := by
        refine Option.eq_none_iff_forall_ne_some.mpr fun v hv => ?_
        -- a later child that makes the name known would have the name of this one
        obtain ⟨other, hother, _, hfound⟩ := lookup_exportsFrom hv
        obtain ⟨member, hmember⟩ := lookup_exportsOf_name hfound
        have hsame : (c.name.qualified e.1 == other.name.qualified member) = true :=
          Identifier.beq_iff.mpr ((Identifier.beq_iff.mp hx).symm.trans (Identifier.beq_iff.mp hmember))
        have hnames := (Identifier.qualified_beq_iff (hdot c hc)
          (hdot other (.tail _ hother))).mp hsame
        rw [hchild other hother] at hnames
        cases hnames.1
      rw [hlater, Option.none_or, exportsOf, List.reverse_append, List.lookup_append]
      cases hown : (c.image.constants.map fun e =>
          (c.name.qualified e.1, Expression.number (Literal.ofNumber e.2))).reverse.lookup x with
      | some v =>
        obtain ⟨b, hb, -, rfl⟩ := mem_of_lookup hown
        obtain ⟨other, -, rfl⟩ := List.mem_map.mp (List.mem_reverse.mp hb)
        exact ⟨_, rfl⟩
      | none =>
        have hne := List.lookup_eq_none_iff.mp hown _
          (List.mem_reverse.mpr (List.mem_map_of_mem he))
        rw [bne, hx] at hne
        cases hne
    · obtain ⟨n, hn⟩ := ih (fun d hd => hdot d (.tail _ hd)) hcs hc
      exact ⟨n, by rw [hn, Option.some_or]⟩

end Distinct

/-- What a member of a child stands for, if it is no constant: the last method of the name that a child of
the name exports. -/
theorem lookup_method {children : List ChildLink} (hdot : ∀ c ∈ children, c.name.DotFree)
    {o : Identifier} (ho : o.DotFree) {m : Method}
    (h : (exportsFrom first children).reverse.lookup (o.qualified x) = some (.method m)) :
    ∃ c ∈ children, (c.name == o) = true ∧ ∃ e,
      c.image.methods.reverse.find? (·.name == x) = some e ∧ m.parameters = e.parameters ∧
        m.link = some { object := c.index, index := e.index } := by
  obtain ⟨c, hc, _, hfound⟩ := lookup_exportsFrom h
  rcases lookup_exportsOf hfound with ⟨_, -, -, n, hn⟩ | ⟨e, hfind, m', hm, hparameters, hlink⟩
  · cases hn
  · cases hm
    have hiff := fun y => Identifier.qualified_beq_iff (x := x) (y := y) ho (hdot c hc)
    have hname : (o == c.name) = true := by
      have hfound := List.find?_some hfind
      exact ((hiff e.name).mp hfound).1
    refine ⟨c, hc, (Identifier.beq_comm ..).trans hname, e, ?_, hparameters, hlink⟩
    -- under the name of the child the names of its members are compared
    rw [← hfind]
    congr 1
    funext other
    rw [Bool.eq_iff_iff, hiff, Identifier.beq_comm]
    exact ⟨fun h => ⟨hname, h⟩, And.right⟩

/-- The number of the first record of a child is that of the records of the children before it. -/
theorem Numbered.index_eq {children : List ChildLink} (h : Numbered first children) (hc : c ∈ children) :
    ∃ before after, children = before ++ c :: after ∧
      c.index = first + (before.map ChildLink.count).sum := by
  induction children generalizing first with
  | nil => cases hc
  | cons child cs ih =>
    rcases List.mem_cons.mp hc with rfl | hc
    · exact ⟨[], cs, rfl, h.1⟩
    · obtain ⟨before, after, rfl, hindex⟩ := ih h.2 hc
      refine ⟨child :: before, after, rfl, ?_⟩
      rw [hindex, List.map_cons, List.sum_cons, Nat.add_assoc]

end Links

/-! ### Members of children in methods -/

namespace Compile

/-- Without dots in the names that an object declares, no member of a child is declared there. -/
theorem undeclared_qualified {nodes : List Node} (hdot : ∀ x ∈ Node.namesAll nodes, x.DotFree)
    (object member : Identifier) : Undeclared nodes (object.qualified member) where
  names y hy := (hdot y hy).qualified_beq object member
  clock y hy := by
    have hclock : ∀ x ∈ clockNames, x.DotFree := by decide
    exact (hclock y hy).qualified_beq object member
  root := by
    have hroot : ∀ b ∈ Scopes.rootFrame.builtins, b.1.DotFree := by decide
    refine Option.eq_none_iff_forall_ne_some.mpr fun v hv => ?_
    simp only [Frame.symbol?_or, Scopes.rootFrame, List.lookup_nil, Option.bind_none,
      Option.or_none] at hv
    obtain ⟨b, hb, hname, -⟩ := mem_of_lookup hv
    rw [(hroot b hb).qualified_beq object member] at hname
    cases hname

namespace Stages

variable {config : Config} {library : Library} {nodes : List Node} {unitName : String} {p : Parts}
  {last : Draft} (t : Stages config library nodes unitName p last)

/-- The children have the names of their declarations. -/
theorem names_eq (hclean : last.report.hasErrors = false) :
    t.data.links.children.map ChildLink.name =
      (t.selected.flatMap Node.objectDecls).map (·.name.value) := by
  have hall := (t.included hclean).2
  generalize t.selected.flatMap Node.objectDecls = decls at hall ⊢
  generalize t.data.links.children = children at hall ⊢
  induction hall with
  | nil => rfl
  | cons h _ ih => rw [List.map_cons, List.map_cons, h.name_eq, ih]

theorem name_mem (hclean : last.report.hasErrors = false) (hc : c ∈ t.data.links.children) :
    c.name ∈ Node.namesAll nodes := by
  have hname := List.mem_map_of_mem (f := ChildLink.name) hc
  rw [t.names_eq hclean] at hname
  obtain ⟨decl, hdecl, hdeclName⟩ := List.mem_map.mp hname
  obtain ⟨node, hnode, hmem⟩ := List.mem_flatMap.mp hdecl
  refine t.mem_names (Node.mem_namesAll.mpr ⟨node, hnode, ?_⟩)
  cases node with
  | objects decls => exact hdeclName ▸ List.mem_map_of_mem hmem
  | _ => cases hmem

section Names

variable (hdot : ∀ x ∈ Node.namesAll nodes, x.DotFree) {m : MethodDraft} (hm : m ∈ t.methods)

include hdot hm

/-- A member of a child stands in methods for what the children make known. -/
theorem member_eq (object member : Identifier) :
    (last.names m.scope).symbol? (object.qualified member) =
      (Links.exportsFrom 0 t.data.links.children).reverse.lookup (object.qualified member) := by
  have hbound := t.symbol?_eq (undeclared_qualified hdot object member) hm
  rw [(t.alike_last hm).symbol_eq, Names.symbol?, Draft.names, Scopes.resolve, hbound]
  -- neither a number nor a method stands for something else
  cases hfound : (t.data.links.exports 0).reverse.lookup (object.qualified member) with
  | none => exact hfound.symm
  | some v =>
    rw [← Links.exports, hfound]
    obtain ⟨c, -, _, hown⟩ := Links.lookup_exportsFrom hfound
    rcases Links.lookup_exportsOf hown with ⟨_, -, -, n, rfl⟩ | ⟨_, -, m, rfl, -⟩
    · rfl
    · rfl

/-- Constants of children are told from their methods. -/
theorem tells (hclean : last.report.hasErrors = false)
    (hdistinct : t.data.links.children.Pairwise fun c c' => (c.name == c'.name) = false) :
    Expr.Tells (last.names m.scope) t.data.links.isConstant := by
  intro l object i x
  rw [Expr.isStatic, t.member_eq hdot hm]
  cases hconstant : t.data.links.isConstant (object.value.qualified x.value) with
  | true =>
    obtain ⟨c, hc, hany⟩ := List.any_eq_true.mp hconstant
    obtain ⟨e, he, hname⟩ := List.any_eq_true.mp hany
    have hnames : ∀ c ∈ t.data.links.children, c.name.DotFree := fun c hc =>
      hdot _ (t.name_mem hclean hc)
    obtain ⟨n, hn⟩ := Links.lookup_constant hnames hdistinct hc he hname
    rw [hn]
  | false =>
    cases hfound : (Links.exportsFrom 0 t.data.links.children).reverse.lookup
        (object.value.qualified x.value) with
    | none => rfl
    | some v =>
      obtain ⟨c, hc, _, hown⟩ := Links.lookup_exportsFrom hfound
      rcases Links.lookup_exportsOf hown with ⟨e, he, hname, -⟩ | ⟨_, -, m, rfl, -⟩
      · have hany := List.any_eq_false.mp hconstant c hc
        exact absurd (List.any_eq_true.mpr ⟨e, he, hname⟩) hany
      · rfl

end Names

end Stages

end Compile

/-! ### Calls of methods of children -/

/-- The declarations of children in what is selected of an object. -/
def ObjectTree.objectDecls (tree : ObjectTree) : List ObjectDecl :=
  match Node.selectAll tree.nodes (Draft.initial tree.name) with
  | .ok nodes _ => nodes.flatMap Node.objectDecls
  | .error _ _  => []

/-- **A call of a method of a child**, as it stands in a method of an object. -/
structure ChildCall (d : Draft) (m : MethodDraft) (k : CallSite) (child : ChildLink)
    (e : ExportedMethod) (c : Call) : Prop where
  /-- The child has the name that is written, and its first record comes behind those of the children
  before it. -/
  name_eq : ∀ o, k.object = some o → (child.name == o.value) = true
  position : ∃ before after, d.links.children = before ++ child :: after ∧
    child.index = (before.map ChildLink.count).sum
  /-- The method is the last one of its name that the child exports. -/
  exported : child.image.methods.reverse.find? (·.name == k.method.value) = some e
  /-- It takes the arguments that are given. -/
  length_arguments : k.arguments.length = e.parameters
  /-- This is the method that is called, with the arguments and the index that are written. -/
  link_eq : c.method.link = some { object := child.index, index := e.index }
  arguments_eq : c.arguments = k.arguments.map (·.termIn (d.names m.scope))
  index_eq : c.index = k.index.map (·.termIn (d.names m.scope))
  stands : c.Stands (Command.body m.body).listing

/-- **A call that reaches the child** in an image with the methods laid out as given. -/
structure ChildCall.Reaches (config : Config) (p : Parts) (d : Draft) (layouts : List MethodLayout)
    (image : Bytes) (m : MethodDraft) (k : CallSite) (child : ChildLink) (e : ExportedMethod)
    (c : Call) : Prop extends ChildCall d m k child e c where
  /-- The instruction names the first record of the child and the method. -/
  instruction_eq : c.bytes (p.resolution config d).methodIndex =
    (if k.index.isSome then Op.callObjectIndexed else Op.callObject).byte ::
      Varint.unsigned child.index ++ Varint.unsigned e.index
  /-- It stands in the image behind its arguments, if the method is in the table. -/
  emitted : ∀ (i : Nat) (layout : MethodLayout), (p.table config)[i]? = some m →
    layouts[i]? = some layout → c.EmittedIn (p.resolution config d) layout.lines image
  /-- All records of the child lead to its bytes. -/
  child_at : ∃ object, object % 4 = 0 ∧ StandsAt child.image.bytes image object ∧
    ∀ i < child.count, (LinkRecord.read image (child.index + i)).object = object % 2 ^ 32

theorem Compile.Stages.childCall {config : Config} {library : Library} {nodes : List Node}
    {unitName : String} {p : Parts} {last : Draft}
    (t : Stages config library nodes unitName p last) (hclean : last.report.hasErrors = false)
    (hdot : ∀ x ∈ Node.namesAll nodes, x.DotFree) {m m₀ : MethodDraft}
    (hm₀ : m₀ ∈ t.methods) (hscope : m.scope = m₀.scope) {k : CallSite} {o : Located Identifier}
    (ho : k.object = some o) {c : Call} (hc : c ∈ Command.callsAll m.body)
    (hk : k.Becomes (last.names m.scope).Alike c) :
    ∃ child ∈ last.links.children, ∃ e, ChildCall last m k child e c := by
  have hlinks : last.links = t.data.links := t.extends_last.links_eq
  have hnames : ∀ c ∈ t.data.links.children, c.name.DotFree := fun c hc =>
    hdot _ (t.name_mem hclean hc)
  -- there is a child of the name, so that there is no dot in it
  have hdotObject : o.value.DotFree := by
    obtain ⟨known, hknown⟩ := hk.object_known ho
    have hget : t.data.links.children.find? (·.name == o.value) = some known := hlinks ▸ hknown
    have hname := List.find?_some hget
    have hkey := Identifier.beq_iff.mp hname
    rw [Identifier.DotFree, ← hkey]
    exact hnames known (List.mem_of_find?_eq_some hget)
  have hsymbol := hk.symbol_eq
  rw [CallSite.name, ho, hscope, t.member_eq hdot hm₀] at hsymbol
  obtain ⟨child, hchild, hname, e, hfind, hparameters, hlink⟩ :=
    Links.lookup_method hnames hdotObject hsymbol
  rw [hlinks]
  refine ⟨child, hchild, e, ?_, ?_, hfind, ?_, hlink, hk.arguments_eq, hk.index_eq,
    Command.stands_body hc⟩
  · rintro o' ho'
    cases ho.symm.trans ho'
    exact hname
  · obtain ⟨before, after, hall, hindex⟩ := (t.included hclean).1.numbered.index_eq hchild
    exact ⟨before, after, hlinks ▸ hall, by rw [hindex, Nat.zero_add]⟩
  · rw [hk.length_arguments, hparameters]

/-- **All records of a child lead to it.** -/
theorem Parts.Image.child_at {config : Config} {d : Draft} {p : Parts} {layouts : List MethodLayout}
    {image : ObjectImage} (h : p.Image config d layouts image) (hbuilt : d.links.Built)
    {child : ChildLink} (hchild : child ∈ d.links.children) :
    ∃ object, object % 4 = 0 ∧ StandsAt child.image.bytes image.bytes object ∧
      ∀ i < child.count, (LinkRecord.read image.bytes (child.index + i)).object = object % 2 ^ 32 := by
  have hroom := headerSize_le_own config d p layouts
  rw [h.assembled]
  exact hbuilt.numbered.image_at (d.links.assemble_records_at hroom _)
    (d.links.assemble_follow hroom _) hchild

/-- **Calls of methods of children.**  If the children of an object have different names and there is no
dot in a name that the object declares, then every call site in a method that is for a child reaches that
child. -/
theorem compile_childCalls {config : Config} {library : Library} {tree : ObjectTree}
    {image : ObjectImage} (h : (compile config library tree).image = some image)
    (hdistinct : (tree.objectDecls.map (·.name.value)).Pairwise fun a b => (a == b) = false)
    (hdot : ∀ x ∈ Node.namesAll tree.nodes, x.DotFree) :
    ∃ (p : Parts) (d : Draft) (layouts : List MethodLayout),
      Compile.parts config library tree.nodes (Draft.initial tree.name) = .ok p d ∧
      p.Image config d layouts image ∧
      List.Forall₂ (Compile.Includes library) tree.objectDecls d.links.children ∧
      List.Forall₂ (fun decl m =>
        ∀ k ∈ Statement.callSitesAll d.links.isConstant config.debug decl.body,
          k.object.isSome = true → ∃ child ∈ d.links.children, ∃ e c,
            ChildCall.Reaches config p d layouts image.bytes m k child e c)
        tree.methodDecls p.methods := by
  obtain ⟨p, d, hparts, hclean, hbuild⟩ := compile_eq_built h
  obtain ⟨layouts, himage⟩ := buildImage_eq_ok hbuild
  obtain ⟨t⟩ := Compile.parts_stages hparts
  obtain ⟨hbuilt, hincluded⟩ := t.included hclean
  have hlinks : d.links = t.data.links := t.extends_last.links_eq
  have hobjects : tree.objectDecls = t.selected.flatMap Node.objectDecls := by
    rw [ObjectTree.objectDecls, t.selection_eq]
  have hchildren : t.data.links.children.Pairwise fun c c' => (c.name == c'.name) = false := by
    rwa [hobjects, ← t.names_eq hclean, List.pairwise_map] at hdistinct
  refine ⟨p, d, layouts, hparts, himage, hlinks ▸ hobjects ▸ hincluded, t.methodDecls_eq ▸ ?_⟩
  refine (t.finished hclean).imp fun decl m hfinished k hk hobject => ?_
  obtain ⟨⟨m₀, hm₀, -, -, hscope⟩, hfinished⟩ := hfinished
  have htells : Expr.Tells (d.names m.scope) d.links.isConstant :=
    hscope ▸ hlinks ▸ t.tells hdot hm₀ hclean hchildren
  obtain ⟨o, ho⟩ := Option.isSome_iff_exists.mp hobject
  obtain ⟨c, hc, hbecomes⟩ := (hfinished.correspond _ htells).becomes k hk fun hnone => by
    rw [ho] at hnone
    cases hnone
  obtain ⟨child, hchild, e, hcall⟩ :=
    t.childCall hclean hdot hm₀ hscope ho hc hbecomes
  have hindex : c.index.isSome = k.index.isSome := by rw [hcall.index_eq, Option.isSome_map]
  refine ⟨child, hchild, e, c, hcall, ?_, fun i layout hm hl => himage.call_at hm hl hc,
    himage.child_at (hlinks ▸ hbuilt) hchild⟩
  rw [Call.bytes, hcall.link_eq, hindex, Parts.resolution]
  simp only [tableIndex, hcall.link_eq]

/-- Every path leads to an object of five bytes that exports two methods and a constant. -/
def twoMethods : Library where
  object _ := .ok {
    bytes := [1, 2, 3, 4, 5]
    methods := [⟨⟨"go"⟩, 1, 0, 0⟩, ⟨⟨"get"⟩, 0, 1, 1⟩]
    constants := [(⟨"BAUD"⟩, .int 5)] }

/-- An object with a child, an array of two, and a method that calls one of the array with what the child
gives. -/
def arrayOfChildren : ObjectTree where
  name := "t"
  nodes :=
    let name (text : String) : Located Identifier := ⟨⟨text⟩, {}⟩
    let number (v : Int64) : Expr := .literal {} (Literal.ofInt v)
    [.objects [{ name := name "solo", path := ⟨"c", {}⟩ },
               { name := name "pair", path := ⟨"c", {}⟩, count := some (number 2) }],
     .method { isPublic := true, name := name "main", body :=
       [.expression {} (.call {} (some (name "PAIR")) (some (number 1)) (name "go")
         [.call {} (some (name "solo")) none (name "get") []])] }]

/-- The image of this object: the record of the child and two of the array, an entry, four zeros, the code
of the method, the child, and the child of the array. -/
theorem compile_childCalls_arrayOfChildren :
    ∃ image, (compile {} twoMethods arrayOfChildren).image = some image ∧
      image.bytes = [44, 0, 0, 0, 0, 0, 0, 0, 52, 0, 0, 0, 0, 0, 0, 0, 52, 0, 0, 0, 0, 0, 0, 0, 32, 0, 0, 128,
        0, 0, 0, 0, 0, 1, 8, 0, 1, 162, 9, 1, 0, 4, 0, 0, 1, 2, 3, 4, 5, 0, 0, 0, 1, 2, 3, 4, 5] ∧
      ∃ (p : Parts) (d : Draft) (layouts : List MethodLayout),
        Compile.parts {} twoMethods arrayOfChildren.nodes (Draft.initial arrayOfChildren.name) =
          .ok p d ∧
        p.Image {} d layouts image ∧
        List.Forall₂ (Compile.Includes twoMethods) arrayOfChildren.objectDecls d.links.children ∧
        List.Forall₂ (fun decl m =>
          ∀ k ∈ Statement.callSitesAll d.links.isConstant false decl.body,
            k.object.isSome = true → ∃ child ∈ d.links.children, ∃ e c,
              ChildCall.Reaches {} p d layouts image.bytes m k child e c)
          arrayOfChildren.methodDecls p.methods := by
  have hbytes : (compile {} twoMethods arrayOfChildren).image.map ObjectImage.bytes =
      some [44, 0, 0, 0, 0, 0, 0, 0, 52, 0, 0, 0, 0, 0, 0, 0, 52, 0, 0, 0, 0, 0, 0, 0, 32, 0, 0, 128,
        0, 0, 0, 0, 0, 1, 8, 0, 1, 162, 9, 1, 0, 4, 0, 0, 1, 2, 3, 4, 5, 0, 0, 0, 1, 2, 3, 4, 5] := by
    decide +kernel
  obtain ⟨image, himage, hb⟩ := Option.map_eq_some_iff.mp hbytes
  exact ⟨image, himage, hb, compile_childCalls himage (by decide +kernel) (by decide)⟩

/-- An object that reads a constant of a child, with a call of a method of the child in its brackets. -/
def callInBrackets : ObjectTree where
  name := "t"
  nodes :=
    let name (text : String) : Located Identifier := ⟨⟨text⟩, {}⟩
    [.objects [{ name := name "kid", path := ⟨"kid", {}⟩ }],
     .objectVars [{ kind := .long, name := name "x" }],
     .method { isPublic := true, name := name "main", body :=
       [.assign (.name {} ⟨"x"⟩) none (.member {} (name "kid")
         (some (.call {} (some (name "kid")) none (name "get") [])) (name "BAUD"))] }]

/-- **Not every call that is written is compiled:** what stands in the brackets of a constant is passed
over.  Here the method `get` of a child is called in the source, which is accepted, and nothing is called
in the code. -/
theorem callInBrackets_passed_over :
    (compile {} twoMethods callInBrackets).image.isSome = true ∧
      (∃ decl ∈ callInBrackets.methodDecls,
        ∃ k ∈ Statement.callSitesAll (fun _ => false) false decl.body,
          k.object.isSome = true ∧ (k.method.value == ⟨"get"⟩) = true) ∧
      ∀ p d, Compile.parts {} twoMethods callInBrackets.nodes (Draft.initial callInBrackets.name) =
        .ok p d → ∀ m ∈ p.methods, Command.callsAll m.body = [] := by
  refine ⟨by decide +kernel, ?_, fun p d hparts => ?_⟩
  · have hany : (callInBrackets.methodDecls.any fun decl =>
        (Statement.callSitesAll (fun _ => false) false decl.body).any fun k =>
          k.object.isSome && k.method.value == ⟨"get"⟩) = true := by decide +kernel
    obtain ⟨decl, hdecl, hsites⟩ := List.any_eq_true.mp hany
    obtain ⟨k, hk, hget⟩ := List.any_eq_true.mp hsites
    exact ⟨decl, hdecl, k, hk, Bool.and_eq_true_iff.mp hget⟩
  · have hall : (match Compile.parts {} twoMethods callInBrackets.nodes
        (Draft.initial callInBrackets.name) with
        | .ok p _    => p.methods.all fun m => (Command.callsAll m.body).isEmpty
        | .error _ _ => false) = true := by decide +kernel
    rw [hparts] at hall
    exact fun m hm => List.isEmpty_iff.mp (List.all_eq_true.mp hall m hm)

end Propeller
