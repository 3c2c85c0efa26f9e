import Mathlib.Algebra.BigOperators.Ring.List
import Propeller.Proofs.Compile.ChildCalls
import Propeller.Proofs.Compile.Instructions
import Propeller.Proofs.Compile.UnusedMethods

/-!
# Compile — where variables are

The variables of an object and those of a method are placed one after the other, each at the next offset
that its width allows.  Gaps may be left between them, and nothing overlaps.

* `Packed`: blocks of memory in a row, each at a multiple of its width.
* `variableOffsets_packed`, `Compile.addMethod_frame`: variables of an object and of a method are packed.
* `Compile.Stages.accessed`: code accesses variables of the object only, and the method it belongs to
  refers to them.  So no access is left without an offset when unused variables are removed.
* `compile_variables`: all of this for the image of an object, with the variables of its children.
-/

namespace Propeller

variable {offset id : Nat} {decl : MethodDecl} {m : MethodDraft} {setup : Setup} {o : Op} {v : ObjectVar}

/-! ### Blocks of memory -/

theorem le_alignTo {size : Nat} (h : 0 < size) (n : Nat) : n ≤ alignTo size n := by
  have hlt := Nat.lt_div_mul_add (a := n + size - 1) h
  unfold alignTo
  omega

theorem dvd_alignTo (size n : Nat) : size ∣ alignTo size n := Dvd.intro_left _ rfl

theorem le_align4 (n : Nat) : n ≤ align4 n := by
  unfold align4
  omega

theorem dvd_align4 (n : Nat) : 4 ∣ align4 n := Dvd.intro_left _ rfl

theorem align4_align4 (n : Nat) : align4 (align4 n) = align4 n := by
  unfold align4
  omega

theorem DataType.size_pos (kind : DataType) : 0 < kind.size := by
  cases kind <;> decide

/-- A piece of memory for elements of one width. -/
structure Block where
  width : Nat
  start : Nat
  size : Nat

/-- Where a piece of memory ends. -/
def Block.stop (b : Block) : Nat := b.start + b.size

/-- Blocks in a row, from `start` to `stop`, each at a multiple of its width. -/
inductive Packed : (start : Nat) → List Block → (stop : Nat) → Prop where
  | nil (start : Nat) : Packed start [] start
  | cons {start stop : Nat} {b : Block} {bs : List Block} (le : start ≤ b.start)
      (aligned : b.width ∣ b.start) (rest : Packed b.stop bs stop) : Packed start (b :: bs) stop

namespace Packed

variable {start stop : Nat} {bs : List Block}

theorem append {middle : Nat} {more : List Block} (h : Packed start bs middle)
    (h' : Packed middle more stop) : Packed start (bs ++ more) stop := by
  induction h with
  | nil => exact h'
  | cons le aligned _ ih => exact .cons le aligned (ih h')

theorem le (h : Packed start bs stop) : start ≤ stop := by
  induction h with
  | nil => exact Nat.le_refl _
  | cons le _ _ ih => exact Nat.le_trans le (Nat.le_trans (Nat.le_add_right ..) ih)

theorem aligned (h : Packed start bs stop) : ∀ b ∈ bs, b.width ∣ b.start := by
  induction h with
  | nil => exact fun b hb => by cases hb
  | cons _ aligned _ ih => exact List.forall_mem_cons.mpr ⟨aligned, ih⟩

theorem start_le (h : Packed start bs stop) : ∀ b ∈ bs, start ≤ b.start := by
  induction h with
  | nil => exact fun b hb => by cases hb
  | @cons _ _ b _ le _ _ ih =>
    have hle : _ ≤ b.stop := Nat.le_trans le (Nat.le_add_right ..)
    exact List.forall_mem_cons.mpr ⟨le, fun c hc => Nat.le_trans hle (ih c hc)⟩

theorem stop_le (h : Packed start bs stop) : ∀ b ∈ bs, b.stop ≤ stop := by
  induction h with
  | nil => exact fun b hb => by cases hb
  | cons _ _ rest ih => exact List.forall_mem_cons.mpr ⟨rest.le, ih⟩

/-- Blocks in a row do not overlap. -/
theorem apart (h : Packed start bs stop) : bs.Pairwise fun b c => b.stop ≤ c.start := by
  induction h with
  | nil => exact .nil
  | cons _ _ rest ih => exact .cons rest.start_le ih

end Packed

/-! ### Variables of an object -/

/-- The memory of a variable that has an offset. -/
def ObjectVar.block (offsets : List (Nat × Nat)) (v : ObjectVar) : Block where
  width := v.kind.size
  start := (offsets.lookup v.id).getD 0
  size := v.size

/-- **Variables are placed one after the other.** -/
theorem variableOffsets_packed {vs : List ObjectVar} (hids : (vs.map ObjectVar.id).Nodup)
    (offset : Nat) :
    (∀ v ∈ vs, ∃ a, (variableOffsets offset vs).1.lookup v.id = some a) ∧
      Packed offset (vs.map (ObjectVar.block (variableOffsets offset vs).1))
        (variableOffsets offset vs).2 := by
  induction vs generalizing offset with
  | nil => exact ⟨by simp, .nil _⟩
  | cons v vs ih =>
    obtain ⟨hv, hrest⟩ := List.nodup_cons.mp hids
    obtain ⟨hfound, hpacked⟩ := ih hrest (alignTo v.kind.size offset + v.size)
    rw [variableOffsets]
    simp only
    have hself : ∀ start (bs : List (Nat × Nat)), ((v.id, start) :: bs).lookup v.id = some start :=
      fun start bs => by simp
    -- the numbers differ, so that the first offset is not taken for a later variable
    have hother : ∀ start (bs : List (Nat × Nat)), ∀ w ∈ vs,
        ((v.id, start) :: bs).lookup w.id = bs.lookup w.id := by
      intro start bs w hw
      have hne : (w.id == v.id) = false := by
        refine beq_false_of_ne fun heq => hv ?_
        exact heq ▸ List.mem_map_of_mem hw
      rw [List.lookup_cons, hne]
    constructor
    · refine List.forall_mem_cons.mpr ⟨⟨_, hself _ _⟩, fun w hw => ?_⟩
      obtain ⟨a, ha⟩ := hfound w hw
      exact ⟨a, (hother _ _ w hw).trans ha⟩
    · rw [List.map_cons]
      refine .cons ?_ ?_ ?_
      · simp only [ObjectVar.block, hself, Option.getD_some]
        exact le_alignTo v.kind.size_pos offset
      · simp only [ObjectVar.block, hself, Option.getD_some]
        exact dvd_alignTo _ _
      · simp only [ObjectVar.block, Block.stop, hself, Option.getD_some]
        rwa [List.map_congr_left fun w hw => by rw [ObjectVar.block, hother _ _ w hw]]

namespace Parts

variable (config : Config) (d : Draft) (p : Parts)

/-- The variables that are kept: all of them, or those that some method refers to. -/
def keptVars : List ObjectVar :=
  (d.objectVars.map Located.value).filter fun v =>
    !config.removeUnusedVariables || isUsedVar p.methods v

/-- How many bytes the variables of the object itself take. -/
def ownVarSize : Nat := (p.varOffsets config d).2

variable {d}

/-- The variables that are kept are placed one after the other. -/
theorem keptVars_packed (hids : (d.objectVars.map (·.value.id)).Nodup) :
    (∀ v ∈ p.keptVars config d, ∃ a, (p.resolution config d).variableOffset v.id = some a) ∧
      Packed 0 ((p.keptVars config d).map (ObjectVar.block (p.varOffsets config d).1))
        (p.ownVarSize config d) := by
  refine variableOffsets_packed ?_ 0
  have hsub := (List.filter_sublist (p := fun v =>
    !config.removeUnusedVariables || isUsedVar p.methods v)
    (l := d.objectVars.map Located.value)).map ObjectVar.id
  rw [List.map_map] at hsub
  exact hids.sublist hsub

end Parts

/-! ### Declarations -/

/-- A variable is as its declaration says: it has the name and the width, and as many elements as are asked
for. -/
structure AsDeclared (name : Identifier) (kind : DataType) (count : Option Expr)
    (v : Identifier × DataType × Nat) : Prop where
  name_eq : v.1 = name
  kind_eq : v.2.1 = kind
  counted : ∃ d, Compile.elementCount count d = .ok v.2.2 d

/-- A variable of an object is as it is declared. -/
def VariableDecl.Declares (decl : VariableDecl) (v : ObjectVar) : Prop :=
  AsDeclared decl.name.value decl.kind decl.count (v.name, v.kind, v.count)

/-- A variable of a method is as it is declared. -/
def LocalDecl.Declares (decl : LocalDecl) (v : LocalVar) : Prop :=
  AsDeclared decl.name.value decl.kind decl.count (v.name, v.kind, v.count)

/-- All that a method has in its frame: results and parameters are longs. -/
def MethodDecl.frameDecls (decl : MethodDecl) : List LocalDecl :=
  (decl.results ++ decl.parameters).map (fun name => { kind := .long, name }) ++ decl.locals

/-- The memory of a variable in its frame. -/
def LocalVar.block (v : LocalVar) : Block where
  width := v.kind.size
  start := v.offset
  size := v.kind.size * v.count

/-- **The frame of a method.** -/
structure FrameOf (decl : MethodDecl) (frame : List LocalVar) : Prop where
  /-- Results, parameters and local variables are there as they are declared. -/
  declared : List.Forall₂ LocalDecl.Declares decl.frameDecls frame
  aligned : ∀ v ∈ frame, v.kind.size ∣ v.offset
  apart : frame.Pairwise fun v w => v.offset + v.kind.size * v.count ≤ w.offset

namespace Compile

variable {d d' : Draft} {scope : ScopeId}

theorem addLongs_packed {names : List (Located Identifier)} (hoffset : 4 ∣ offset)
    {longs : List LocalVar} (h : addLongs scope offset names d = .ok longs d') :
    List.Forall₂ LocalDecl.Declares (names.map fun name => { kind := .long, name }) longs ∧
      Packed offset (longs.map LocalVar.block) (offset + 4 * longs.length) := by
  induction names generalizing offset d longs with
  | nil =>
    cases h
    exact ⟨.nil, .nil _⟩
  | cons name names ih =>
    obtain ⟨id, d₁, hnew, h⟩ := bind_eq_ok h
    obtain ⟨_, d₂, hdefine, h⟩ := bind_eq_ok h
    obtain ⟨rest, d₃, hrest, h⟩ := bind_eq_ok h
    cases h
    obtain ⟨hdeclared, hpacked⟩ := ih (Nat.dvd_add hoffset (Nat.dvd_refl 4)) hrest
    refine ⟨.cons ⟨rfl, rfl, d, rfl⟩ hdeclared, .cons (Nat.le_refl _) hoffset ?_⟩
    rwa [List.length_cons, Nat.mul_succ, Nat.add_comm (4 * _), ← Nat.add_assoc]

/-- Local variables are packed, and unless an error is reported they are as declared. -/
theorem addLocals_packed {decls : List LocalDecl} {locals : List (Located LocalVar)}
    (h : addLocals scope offset decls d = .ok locals d') (hclean : d'.report.hasErrors = false) :
    List.Forall₂ LocalDecl.Declares decls (locals.map Located.value) ∧
      ∃ stop, Packed offset ((locals.map Located.value).map LocalVar.block) stop := by
  induction decls generalizing offset d locals with
  | nil =>
    cases h
    exact ⟨.nil, _, .nil _⟩
  | cons decl decls ih =>
    obtain ⟨tried, d₁, htried, h⟩ := bind_eq_ok h
    obtain ⟨id, d₂, hnew, h⟩ := bind_eq_ok h
    cases hnew
    obtain ⟨_, d₃, hdefine, h⟩ := bind_eq_ok h
    obtain ⟨rest, d₄, hrest, h⟩ := bind_eq_ok h
    cases h
    obtain ⟨hdeclared, stop, hpacked⟩ := ih hrest
    have hcount : ∃ count, tried = some count ∧ elementCount decl.count d = .ok count d := by
      rcases elementCount_cases decl.count d with ⟨count, hcount⟩ | ⟨e, he⟩
      · rw [attempt_of_ok hcount] at htried
        cases htried
        exact ⟨count, rfl, hcount⟩
      · -- the error would still be in the report
        rw [attempt_of_error he] at htried
        cases htried
        rw [define_eq_ok] at hdefine
        cases hdefine
        have hgrows : Draft.Grows (fun _ _ _ => True) _ d' :=
          (grows_addLocals (fun _ _ _ _ => trivial) _).of_ok (.refl _) hrest
        have herrors := Report.hasErrors_of_prefix ((prefix_noting ..).trans hgrows.report_prefix) hclean
        rw [Report.fatal, Report.hasErrors_push] at herrors
        simp at herrors
    obtain ⟨count, rfl, hcount⟩ := hcount
    refine ⟨.cons ⟨rfl, rfl, d, hcount⟩ hdeclared, stop, .cons ?_ (dvd_alignTo _ _) hpacked⟩
    exact le_alignTo decl.kind.size_pos offset

/-- **The frame of a method** has its results first, then its parameters and its local variables. -/
theorem addMethod_frame (h : addMethod id decl d = .ok m d') (hclean : d'.report.hasErrors = false) :
    FrameOf decl m.frame := by
  obtain ⟨_, d₁, -, h⟩ := bind_eq_ok h
  obtain ⟨scope, d₂, -, h⟩ := bind_eq_ok h
  obtain ⟨longs, d₃, hlongs, h⟩ := bind_eq_ok h
  obtain ⟨locals, d₄, hlocals, h⟩ := bind_eq_ok h
  cases h
  obtain ⟨hdeclared, hpacked⟩ := addLongs_packed (Nat.dvd_zero 4) hlongs
  obtain ⟨hlocal, stop, hmore⟩ := addLocals_packed hlocals hclean
  rw [Nat.zero_add] at hpacked
  have hall : Packed 0 ((longs ++ locals.map Located.value).map LocalVar.block) stop := by
    rw [List.map_append]
    exact hpacked.append hmore
  refine ⟨List.rel_append hdeclared hlocal, fun v hv => ?_, List.pairwise_map.mp hall.apart⟩
  exact hall.aligned _ (List.mem_map_of_mem hv)

/-- Variables are declared one after the other, unless an error is reported. -/
theorem addVariables_declare {decls : List VariableDecl}
    (h : attemptAll addVariable decls d = .ok () d') (hclean : d'.report.hasErrors = false) :
    ∃ new, d'.objectVars = d.objectVars ++ new ∧
      List.Forall₂ VariableDecl.Declares decls (new.map Located.value) := by
  induction decls generalizing d with
  | nil =>
    cases h
    exact ⟨[], (List.append_nil _).symm, .nil⟩
  | cons decl decls ih =>
    obtain ⟨tried, d₁, htried, h⟩ := bind_eq_ok h
    obtain ⟨new, hnew, hdeclared⟩ := ih h
    rcases elementCount_cases decl.count d with ⟨count, hcount⟩ | ⟨e, he⟩
    · obtain ⟨report, -, hrun⟩ := addVariable_eq hcount
      rw [attempt_of_ok hrun] at htried
      cases htried
      refine ⟨⟨{ id := d.objectVars.length, name := decl.name.value, kind := decl.kind, count },
        decl.location⟩ :: new, ?_, .cons ⟨rfl, rfl, d, hcount⟩ hdeclared⟩
      rw [hnew, List.append_assoc, List.singleton_append]
    · have hgrows : d₁.Grows (BindsAmong (fun _ => True) [] fun _ => True) d' :=
        addVariables_grows (fun _ _ => trivial) h fun _ _ => trivial
      rw [attempt_of_error (addVariable_eq_error he)] at htried
      cases htried
      have herrors := Report.hasErrors_of_prefix hgrows.report_prefix hclean
      rw [Report.fatal, Report.hasErrors_push] at herrors
      simp at herrors

theorem addMethod_vars (h : addMethod id decl d = .ok m d') : d'.objectVars = d.objectVars := by
  have hgrows : d.Grows (BindsAmong (fun _ => True) [m] fun _ => False) d' :=
    (addMethod_grows (fun _ _ => trivial) h).1
  obtain ⟨new, hnew, -, hallowed⟩ := hgrows.vars
  have hnil : new = [] := List.eq_nil_iff_forall_not_mem.mpr fun v hv => (hallowed v hv).var v.value rfl
  rw [hnew, hnil, List.append_nil]

/-- **The variables and the frames of an object** are as they are declared. -/
theorem addDeclarations_variables {first : Nat} {nodes : List Node} {methods : List MethodDraft}
    (h : addDeclarations first nodes d = .ok methods d') (hclean : d'.report.hasErrors = false) :
    (∃ new, d'.objectVars = d.objectVars ++ new ∧
      List.Forall₂ VariableDecl.Declares (nodes.flatMap Node.variableDecls) (new.map Located.value)) ∧
      List.Forall₂ FrameOf (nodes.flatMap Node.methodDecls) (methods.map MethodDraft.frame) := by
  have hreport : ∀ {first nodes methods} {d d' : Draft},
      addDeclarations first nodes d = .ok methods d' → d.report.entries <+: d'.report.entries := by
    intro first nodes methods d d' h
    have hgrows : d.Grows (BindsAmong (fun _ => True) methods fun _ => True) d' :=
      (addDeclarations_grows (fun _ _ => trivial) h fun _ _ => trivial).1
    exact hgrows.report_prefix
  induction nodes generalizing first d methods with
  | nil =>
    cases h
    exact ⟨⟨[], (List.append_nil _).symm, .nil⟩, .nil⟩
  | cons node rest ih =>
    cases node with
    | method decl =>
      obtain ⟨m, d₁, hm, h⟩ := bind_eq_ok h
      obtain ⟨ms, d₂, hms, h⟩ := bind_eq_ok h
      cases h
      obtain ⟨hvars, hframes⟩ := ih hms
      rw [addMethod_vars hm] at hvars
      have hframe := addMethod_frame hm (Report.hasErrors_of_prefix (hreport hms) hclean)
      exact ⟨hvars, .cons hframe hframes⟩
    | objectVars decls =>
      obtain ⟨_, d₁, hdecls, h⟩ := bind_eq_ok h
      obtain ⟨⟨more, hmore, hdeclared⟩, hframes⟩ := ih h
      obtain ⟨new, hnew, hfirst⟩ :=
        addVariables_declare hdecls (Report.hasErrors_of_prefix (hreport h) hclean)
      refine ⟨⟨new ++ more, by rw [hmore, hnew, List.append_assoc], ?_⟩, hframes⟩
      rw [List.map_append]
      exact List.rel_append hfirst hdeclared
    | _ => exact ih h

/-! ### Accesses to variables -/

namespace Stages

variable {config : Config} {library : Library} {nodes : List Node} {unitName : String} {p : Parts}
  {last : Draft} (t : Stages config library nodes unitName p last)

/-- An instruction that accesses a variable of the object: the variable is declared, and the reference to
it is noted. -/
def Noted (uses : Uses) (c : Code) : Prop :=
  ∀ setup o v, c = .access setup o → setup.slot = .objectVar v →
    t.Variable v ∧ Use.objectVar v.id ∈ uses

theorem common_noted (uses : Uses) : Code.Common (t.Noted uses) where
  op _ _ := by rintro _ _ _ ⟨⟩
  constant _ := by rintro _ _ _ ⟨⟩
  branch _ _ := by rintro _ _ _ ⟨⟩
  pop _ := by rintro _ _ _ ⟨⟩
  call _ _ := by rintro _ _ _ ⟨⟩
  inline _ _ := by rintro _ _ _ ⟨⟩
  debug _ _ := by rintro _ _ _ ⟨⟩

/-- The names of a method stand for declared variables. -/
theorem accesses_noted (hm : m ∈ t.methods) {d : Draft} (hd : t.data.Extends d) :
    (d.names m.scope).Accesses t.Noted := by
  intro x indexed l
  refine ((d.names m.scope).notes_variableOf x indexed l).weaken fun uses v ids hv => ⟨hv.1, fun o => ?_⟩
  rintro _ _ w ⟨⟩ hw
  obtain ⟨hsymbol, hnoted⟩ := hv.2.2 w hw
  rw [(hd.alike t.declared_data (t.scope_lt_data hm)).symbol_eq] at hsymbol
  exact ⟨(t.symbolsAre.resolve hsymbol).2 w rfl, hnoted⟩

include t in
/-- **Accesses in the code of a method** are to variables of the object that the method refers to. -/
theorem accessed (hm : m ∈ p.methods) (hc : Entry.code (.access setup o) ∈ (Command.body m.body).listing)
    (hv : setup.slot = .objectVar v) :
    v ∈ last.objectVars.map Located.value ∧ Use.objectVar v.id ∈ m.uses := by
  have hall := methodBodies_every t.common_noted
    (fun pair hp d hd => t.accesses_noted (List.of_mem_zip hp).1 hd) (.refl t.data) t.bodies_eq m hm
  rw [t.vars_last]
  exact hall _ hc setup o v rfl hv

/-- So a variable that is accessed in code that is kept is kept as well. -/
theorem mem_keptVars (t : Stages config library nodes unitName p last) (hm : m ∈ p.table config)
    (hc : Entry.code (.access setup o) ∈ (Command.body m.body).listing) (hv : setup.slot = .objectVar v) :
    v ∈ p.keptVars config last := by
  obtain ⟨hm, -⟩ := Parts.mem_table.mp hm
  obtain ⟨hvar, huse⟩ := t.accessed hm hc hv
  refine List.mem_filter.mpr ⟨hvar, ?_⟩
  have hused : isUsedVar p.methods v = true :=
    List.any_eq_true.mpr ⟨m, hm, List.contains_iff_mem.mpr huse⟩
  rw [hused, Bool.or_true]

/-- The variables and the frames of an object that is compiled without errors. -/
theorem variables_declared (hclean : last.report.hasErrors = false) :
    List.Forall₂ VariableDecl.Declares (t.selected.flatMap Node.variableDecls)
        (last.objectVars.map Located.value) ∧
      List.Forall₂ FrameOf (t.selected.flatMap Node.methodDecls) (p.methods.map MethodDraft.frame) := by
  have hdata := t.grows_data (fun _ => True) fun _ _ => trivial
  have hdeclarations := Report.hasErrors_of_prefix
    (hdata.report_prefix.trans t.extends_last.report_prefix) hclean
  obtain ⟨⟨new, hnew, hdeclared⟩, hframes⟩ := addDeclarations_variables t.declarations_eq hdeclarations
  rw [t.vars_exports, List.nil_append] at hnew
  rw [t.vars_last, hnew, t.methods_map fun _ _ _ => rfl]
  exact ⟨hdeclared, hframes⟩

end Stages

end Compile

/-! ### The whole object -/

/-- **Where the variables of an object are.** -/
structure VariableMemory (config : Config) (library : Library) (tree : ObjectTree) (p : Parts)
    (d : Draft) (image : ObjectImage) : Prop where
  /-- The variables of the object are those that it declares. -/
  declared : List.Forall₂ VariableDecl.Declares tree.variableDecls (d.objectVars.map Located.value)
  /-- Each one that is kept has an offset, which its elements divide, and ends below the size of all, -/
  placed : ∀ v ∈ p.keptVars config d, ∃ a, (p.resolution config d).variableOffset v.id = some a ∧
    v.kind.size ∣ a ∧ a + v.size ≤ p.ownVarSize config d
  /-- and no two of them share a byte. -/
  apart : (p.keptVars config d).Pairwise fun v w =>
    ∀ a b, (p.resolution config d).variableOffset v.id = some a →
      (p.resolution config d).variableOffset w.id = some b → a + v.size ≤ b
  /-- What the code of a method in the table accesses is kept. -/
  accessed : ∀ m ∈ p.table config, ∀ setup o v,
    Entry.code (.access setup o) ∈ (Command.body m.body).listing → setup.slot = .objectVar v →
      v ∈ p.keptVars config d
  /-- The children are those that the object declares. -/
  included : List.Forall₂ (Compile.Includes library) tree.objectDecls d.links.children
  /-- The variables of their instances follow those of the object, without gaps and up to the end, -/
  tiles : Tiles (align4 (p.ownVarSize config d))
    ((Links.instances d.links.children).map (Links.varBlock image.bytes)) image.varSize
  /-- so that they are above them, -/
  above : ∀ i ∈ Links.instances d.links.children,
    p.ownVarSize config d ≤ (Links.varBlock image.bytes i).1
  /-- and no two of them share a byte. -/
  childrenApart : ((Links.instances d.links.children).map (Links.varBlock image.bytes)).Pairwise
    fun b b' => b.1 + b.2 ≤ b'.1
  total : image.varSize = align4 (p.ownVarSize config d) +
    (d.links.children.map fun c => c.count * c.image.varSize).sum
  /-- If the children take whole longs, so does the object. -/
  wholeLongs : (∀ c ∈ d.links.children, 4 ∣ c.image.varSize) → 4 ∣ image.varSize
  /-- In the frame of a method nothing overlaps either. -/
  frames : List.Forall₂ FrameOf tree.methodDecls (p.methods.map MethodDraft.frame)

/-- The variables of the children in an image that is put together. -/
theorem Parts.Image.tiles {config : Config} {d : Draft} {p : Parts} {layouts : List MethodLayout}
    {image : ObjectImage} (h : p.Image config d layouts image) (hbuilt : d.links.Built)
    (htotal : image.varSize = align4 (p.ownVarSize config d) + d.links.varSize)
    (hsize : image.varSize < 2 ^ 32) :
    Tiles (align4 (p.ownVarSize config d))
      ((Links.instances d.links.children).map (Links.varBlock image.bytes)) image.varSize := by
  have hrecords := d.links.assemble_records_at (headerSize_le_own config d p layouts)
    (align4 (p.ownVarSize config d))
  rw [align4_align4] at hrecords
  rw [htotal] at hsize ⊢
  rw [h.assembled]
  exact hbuilt.numbered.tiles hrecords hsize

/-- **No two variables overlap.** -/
theorem compile_variables {config : Config} {library : Library} {tree : ObjectTree}
    {image : ObjectImage} (h : (compile config library tree).image = some image)
    (hsize : image.varSize < 2 ^ 32) :
    ∃ (p : Parts) (d : Draft) (layouts : List MethodLayout),
      Compile.parts config library tree.nodes (Draft.initial tree.name) = .ok p d ∧
      p.Image config d layouts image ∧ VariableMemory config library tree p d image := by
  obtain ⟨p, d, hparts, hclean, hbuild⟩ := compile_eq_built h
  obtain ⟨layouts, himage⟩ := buildImage_eq_ok hbuild
  obtain ⟨-, hvarSize, -⟩ := buildImage_clean hbuild
  obtain ⟨t⟩ := Compile.parts_stages hparts
  obtain ⟨hbuilt, hincluded⟩ := t.included hclean
  rw [← t.extends_last.links_eq] at hbuilt hincluded
  obtain ⟨hdeclared, hframes⟩ := t.variables_declared hclean
  obtain ⟨hfound, hpacked⟩ := Parts.keptVars_packed config p (t.vars_ids ▸ List.nodup_range)
  have hstart : ∀ (v : ObjectVar) a, (p.resolution config d).variableOffset v.id = some a →
      (v.block (p.varOffsets config d).1).start = a := fun v a ha => congrArg (Option.getD · 0) ha
  rw [align4_align4] at hvarSize
  have htiles := himage.tiles hbuilt hvarSize hsize
  refine ⟨p, d, layouts, hparts, himage, ?_⟩
  refine
    { declared := by rwa [ObjectTree.variableDecls, t.selection_eq]
      placed := fun v hv => ?_
      apart := ?_
      accessed := fun m hm setup o v hc hv => t.mem_keptVars hm hc hv
      included := by rwa [ObjectTree.objectDecls, t.selection_eq]
      tiles := htiles
      above := fun i hi => ?_
      childrenApart := htiles.apart
      total := ?_
      wholeLongs := fun hchildren => ?_
      frames := t.methodDecls_eq ▸ hframes }
  · obtain ⟨a, ha⟩ := hfound v hv
    have haligned := hpacked.aligned _ (List.mem_map_of_mem hv)
    have hstop := hpacked.stop_le _ (List.mem_map_of_mem hv)
    rw [Block.stop, hstart v a ha] at hstop
    rw [hstart v a ha] at haligned
    exact ⟨a, ha, haligned, hstop⟩
  · refine (List.pairwise_map.mp hpacked.apart).imp fun {v w} hvw a b ha hb => ?_
    rwa [Block.stop, hstart v a ha, hstart w b hb] at hvw
  · exact Nat.le_trans (le_align4 _) (htiles.start_le (List.mem_map_of_mem hi))
  · rw [hvarSize, Links.varSize]
    simp only [Nat.mul_comm]
    rfl
  · rw [hvarSize]
    refine Nat.dvd_add (dvd_align4 _) (List.dvd_sum fun n hn => ?_)
    obtain ⟨c, hc, rfl⟩ := List.mem_map.mp hn
    exact Nat.dvd_mul_right_of_dvd (hchildren c hc) _

/-- Every path leads to an object with six bytes of variables. -/
def sixBytes : Library where
  object _ := .ok { bytes := [1, 2, 3, 4], varSize := 6 }

/-- An object with variables of all widths, one of which is never used, with an array of two children, and
with a method that has a result and three local variables. -/
def mixedWidths : ObjectTree where
  name := "t"
  nodes :=
    let name (text : String) : Located Identifier := ⟨⟨text⟩, {}⟩
    let number (v : Int64) : Expr := .literal {} (Literal.ofInt v)
    let read (text : String) : Statement := .expression {} (.name {} ⟨text⟩)
    [.objectVars [{ kind := .byte, name := name "flag" },
                  { kind := .long, name := name "table", count := some (number 3) }],
     .objects [{ name := name "pair", path := ⟨"c", {}⟩, count := some (number 2) }],
     .objectVars [{ kind := .word, name := name "stale" }, { kind := .byte, name := name "mode" }],
     .method {
       isPublic := true, name := name "main", results := [name "r"]
       locals := [{ kind := .byte, name := name "x" },
                  { kind := .word, name := name "y", count := some (number 2) },
                  { kind := .long, name := name "z" }]
       body := [read "flag", .assign (.index {} (name "TABLE") (number 1)) none (number 5), read "mode"] }]

/-- The variables of this object: the unused one has no offset, the others take 17 bytes, and two times six
bytes follow at 20.  In the frame, the words begin at the next even offset. -/
theorem compile_variables_mixedWidths :
    ∃ image, (compile { removeUnusedVariables := true } sixBytes mixedWidths).image = some image ∧
      image.varSize = 32 ∧
      ∃ (p : Parts) (d : Draft) (layouts : List MethodLayout),
        Compile.parts { removeUnusedVariables := true } sixBytes mixedWidths.nodes
          (Draft.initial mixedWidths.name) = .ok p d ∧
        p.Image { removeUnusedVariables := true } d layouts image ∧
        VariableMemory { removeUnusedVariables := true } sixBytes mixedWidths p d image ∧
        p.varOffsets { removeUnusedVariables := true } d = ([(0, 0), (1, 4), (3, 16)], 17) ∧
        p.methods.map (fun m => m.frame.map (·.offset)) = [[0, 4, 6, 12]] := by
  obtain ⟨p, d, hparts, hplaced⟩ := exists_of_ok
    (r := Compile.parts { removeUnusedVariables := true } sixBytes mixedWidths.nodes
      (Draft.initial mixedWidths.name))
    (g := fun p d => p.varOffsets { removeUnusedVariables := true } d == ([(0, 0), (1, 4), (3, 16)], 17) &&
      p.methods.map (fun m => m.frame.map (·.offset)) == [[0, 4, 6, 12]]) (by decide +kernel)
  obtain ⟨hoffsets, hframes⟩ := (Bool.and_eq_true_iff.mp hplaced).imp beq_iff_eq.mp beq_iff_eq.mp
  have hsize : (compile { removeUnusedVariables := true } sixBytes mixedWidths).image.map
      (·.varSize) = some 32 := by decide +kernel
  obtain ⟨image, himage, hvars⟩ := Option.map_eq_some_iff.mp hsize
  have hlt : image.varSize < 2 ^ 32 := by
    rw [hvars]
    decide
  obtain ⟨p', d', layouts, hparts', hbuilt, hmemory⟩ := compile_variables himage hlt
  obtain ⟨rfl, rfl⟩ := EStateM.Result.ok.inj (hparts.symm.trans hparts')
  exact ⟨image, himage, hvars, p, d, layouts, hparts, hbuilt, hmemory, hoffsets, hframes⟩

end Propeller
