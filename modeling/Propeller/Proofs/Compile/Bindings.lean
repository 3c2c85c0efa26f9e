import Propeller.Proofs.Compile.Declared
import Propeller.Proofs.Expression.Frames

/-!
# Compile — what declarations bind

Declarations add bindings to frames and never take one away.  So what a name stands for after some
declarations is what it stood for before, or what one of the new bindings says.

* `Scopes.Within.symbol?_eq`: a name is looked up in a frame, and then from its parent.
* `Draft.Grows`: a draft has everything that another one binds, and more bindings of an allowed kind.
* `Draft.Grows.symbol?_eq`, `Scopes.SymbolsAre.grows`: what this says about looking up a name.
* `Compile.grows_addConstants`, `Compile.addDeclarations_grows`, `Compile.grows_convert`: what the
  declarations of an object bind.
-/

namespace Propeller

variable {scope current : ScopeId} {e value : Expression} {labels : Nat} {x : Identifier} {s : Scopes}
  {d d' : Draft} {nodes : List Node} {node : Node} {line : SourceLine} {name : Located Identifier}
  {decl : VariableDecl} {methods : List MethodDraft} {lines : List SourceLine}

/-! ### Lookup from frame to frame -/

namespace Scopes

variable {s : Scopes} {labels : Nat}

theorem Within.parentsFirst (h : s.Within labels) : s.ParentsFirst :=
  fun i f hf => (h i f hf).parent_lt

/-- **A name is looked up** in a frame, and then from its parent. -/
theorem Within.symbol?_eq (h : s.Within labels) {f : Frame} (hf : s.frames[scope]? = some f)
    (x : Identifier) : s.symbol? scope x = (f.symbol? x).or (f.parent.bind fun p => s.symbol? p x) :=
  h.parentsFirst.nearest?_eq (·.symbol? x) hf

end Scopes

/-! ### Frames that grow -/

/-- A frame has the bindings of another one behind new ones, each of which is of an allowed kind. -/
structure Frame.Grows (allowed : Identifier → Option Expression → Prop) (f f' : Frame) : Prop where
  parent_eq : f'.parent = f.parent
  builtins : ∃ new, f'.builtins = new ++ f.builtins ∧ ∀ b ∈ new, allowed b.1 (some b.2)
  symbols : ∃ new, f'.symbols = new ++ f.symbols ∧ ∀ b ∈ new, allowed b.1 (some b.2)
  definitions : ∃ new, f'.definitions = new ++ f.definitions ∧
    ∀ b ∈ new, allowed b.1 b.2.expression

namespace Frame.Grows

variable {allowed : Identifier → Option Expression → Prop} {f f' f'' : Frame} {x : Identifier}

theorem refl (f : Frame) : f.Grows allowed f :=
  ⟨rfl, ⟨[], by simp⟩, ⟨[], by simp⟩, ⟨[], by simp⟩⟩

/-- What is new in two steps is allowed if it is in both. -/
theorem new_trans {α : Type} {allowed : α → Prop} {l l' l'' : List α}
    (h : ∃ new, l' = new ++ l ∧ ∀ b ∈ new, allowed b)
    (h' : ∃ new, l'' = new ++ l' ∧ ∀ b ∈ new, allowed b) :
    ∃ new, l'' = new ++ l ∧ ∀ b ∈ new, allowed b := by
  obtain ⟨new, rfl, hnew⟩ := h
  obtain ⟨more, rfl, hmore⟩ := h'
  refine ⟨more ++ new, (List.append_assoc ..).symm, fun b hb => ?_⟩
  rcases List.mem_append.mp hb with hb | hb
  · exact hmore b hb
  · exact hnew b hb

theorem trans (h : f.Grows allowed f') (h' : f'.Grows allowed f'') : f.Grows allowed f'' where
  parent_eq := h'.parent_eq.trans h.parent_eq
  builtins := new_trans h.builtins h'.builtins
  symbols := new_trans h.symbols h'.symbols
  definitions := new_trans h.definitions h'.definitions

theorem mono {more : Identifier → Option Expression → Prop} (h : f.Grows allowed f')
    (hmore : ∀ x v, allowed x v → more x v) : f.Grows more f' where
  parent_eq := h.parent_eq
  builtins := h.builtins.imp fun _ hn => ⟨hn.1, fun b hb => hmore _ _ (hn.2 b hb)⟩
  symbols := h.symbols.imp fun _ hn => ⟨hn.1, fun b hb => hmore _ _ (hn.2 b hb)⟩
  definitions := h.definitions.imp fun _ hn => ⟨hn.1, fun b hb => hmore _ _ (hn.2 b hb)⟩

theorem lookup_append_of_new {α : Type} {new old : Bindings α}
    (h : ∀ b ∈ new, (x == b.1) = false) : (new ++ old).lookup x = old.lookup x := by
  have hnone : new.lookup x = none :=
    List.lookup_eq_none_iff.mpr fun b hb => by rw [bne, h b hb, Bool.not_false]
  rw [List.lookup_append, hnone, Option.none_or]

theorem lookup_eq (h : f.Grows allowed f') (hx : ∀ y v, allowed y v → (x == y) = false) :
    f'.builtins.lookup x = f.builtins.lookup x ∧ f'.symbols.lookup x = f.symbols.lookup x ∧
      f'.definitions.lookup x = f.definitions.lookup x := by
  obtain ⟨builtins, hb, hbuiltins⟩ := h.builtins
  obtain ⟨symbols, hs, hsymbols⟩ := h.symbols
  obtain ⟨definitions, hd, hdefinitions⟩ := h.definitions
  rw [hb, hs, hd]
  exact ⟨lookup_append_of_new fun b hm => hx _ _ (hbuiltins b hm),
    lookup_append_of_new fun b hm => hx _ _ (hsymbols b hm),
    lookup_append_of_new fun b hm => hx _ _ (hdefinitions b hm)⟩

/-- A name that is not bound anew stands for the same. -/
theorem symbol?_eq (h : f.Grows allowed f') (hx : ∀ y v, allowed y v → (x == y) = false) :
    f'.symbol? x = f.symbol? x := by
  obtain ⟨hb, hs, hd⟩ := h.lookup_eq hx
  rw [f'.symbol?_or, f.symbol?_or, hb, hs, hd]

/-- A frame that began empty binds no other names than those that were allowed. -/
theorem lookup_eq_none {parent : Option ScopeId} (h : Frame.Grows allowed { parent } f)
    (hx : ∀ y v, allowed y v → (x == y) = false) :
    f.builtins.lookup x = none ∧ f.symbols.lookup x = none ∧ f.definitions.lookup x = none :=
  h.lookup_eq hx

theorem lookup_append_eq_some {α : Type} {new old : Bindings α} {a : α}
    (h : (new ++ old).lookup x = some a) :
    (∃ b ∈ new, (x == b.1) = true ∧ b.2 = a) ∨ old.lookup x = some a := by
  rw [List.lookup_append, Option.or_eq_some_iff] at h
  exact h.imp mem_of_lookup And.right

theorem lookup_append_eq_none {α : Type} {new old : Bindings α}
    (h : (new ++ old).lookup x = none) : old.lookup x = none := by
  rw [List.lookup_append, Option.or_eq_none_iff] at h
  exact h.2

/-- What a name stands for it stood for before, or it is bound to it anew. -/
theorem symbol?_cases (h : f.Grows allowed f') (he : f'.symbol? x = some e) :
    f.symbol? x = some e ∨ ∃ y, (x == y) = true ∧ allowed y (some e) := by
  obtain ⟨builtins, hb, hbuiltins⟩ := h.builtins
  obtain ⟨symbols, hs, hsymbols⟩ := h.symbols
  obtain ⟨definitions, hd, hdefinitions⟩ := h.definitions
  rw [f'.symbol?_or, hb, hs, hd, Option.or_eq_some_iff, Option.or_eq_some_iff] at he
  rw [f.symbol?_or, Option.or_eq_some_iff, Option.or_eq_some_iff]
  rcases he with he | ⟨hnob, he | ⟨hnos, he⟩⟩
  · rcases lookup_append_eq_some he with ⟨b, hm, hname, rfl⟩ | he
    · exact .inr ⟨b.1, hname, hbuiltins b hm⟩
    · exact .inl (.inl he)
  · rcases lookup_append_eq_some he with ⟨b, hm, hname, rfl⟩ | he
    · exact .inr ⟨b.1, hname, hsymbols b hm⟩
    · exact .inl (.inr ⟨lookup_append_eq_none hnob, .inl he⟩)
  · obtain ⟨definition, hdefinition, he⟩ := Option.bind_eq_some_iff.mp he
    rcases lookup_append_eq_some hdefinition with ⟨b, hm, hname, rfl⟩ | hdefinition
    · exact .inr ⟨b.1, hname, he ▸ hdefinitions b hm⟩
    · refine .inl (.inr ⟨lookup_append_eq_none hnob, .inr ⟨lookup_append_eq_none hnos, ?_⟩⟩)
      exact Option.bind_eq_some_iff.mpr ⟨definition, hdefinition, he⟩

theorem withSymbol {name : Identifier} (h : allowed name (some value)) :
    f.Grows allowed { f with symbols := (name, value) :: f.symbols } :=
  { refl f with symbols := ⟨[(name, value)], rfl, by simpa using h⟩ }

theorem withBuiltin {name : Identifier} (h : allowed name (some value)) :
    f.Grows allowed { f with builtins := (name, value) :: f.builtins } :=
  { refl f with builtins := ⟨[(name, value)], rfl, by simpa using h⟩ }

theorem withDefinition {name : Identifier} {definition : Definition}
    (h : allowed name definition.expression) :
    f.Grows allowed { f with definitions := (name, definition) :: f.definitions } :=
  { refl f with definitions := ⟨[(name, definition)], rfl, by simpa using h⟩ }

end Frame.Grows

/-! ### Drafts that grow -/

/-- A draft has all bindings of another one, and besides these only allowed ones, also in new frames,
which are opened in that of the object.  Its variables are those of the other one and allowed ones, which
are numbered on.  The children are the same ones, and no diagnostic is lost. -/
structure Draft.Grows (allowed : ScopeId → Identifier → Option Expression → Prop) (d d' : Draft) :
    Prop where
  kept : ∀ (i : ScopeId) (f : Frame), d.scopes.frames[i]? = some f →
    ∃ f', d'.scopes.frames[i]? = some f' ∧ f.Grows (allowed i) f'
  fresh : ∀ (i : ScopeId) (f' : Frame), d.scopes.frames.size ≤ i → d'.scopes.frames[i]? = some f' →
    Frame.Grows (allowed i) { parent := some objectScope } f'
  vars : ∃ new, d'.objectVars = d.objectVars ++ new ∧
    new.map (·.value.id) = List.range' d.objectVars.length new.length ∧
    ∀ v ∈ new, allowed objectScope v.value.name (some (.objectVar v.value))
  links_eq : d'.links = d.links
  report_prefix : d.report.entries <+: d'.report.entries

namespace Draft.Grows

variable {allowed : ScopeId → Identifier → Option Expression → Prop} {d₀ d d' : Draft}

theorem refl (d : Draft) : d.Grows allowed d where
  kept _ f hf := ⟨f, hf, .refl f⟩
  fresh i f' hi hf := by
    rw [Array.getElem?_eq_none hi] at hf
    cases hf
  vars := ⟨[], by simp⟩
  links_eq := rfl
  report_prefix := List.prefix_refl _

/-- The frames that were there are still there. -/
theorem scopes_le (h : d.Grows allowed d') : d.scopes.frames.size ≤ d'.scopes.frames.size := by
  refine Nat.le_of_not_lt fun hlt => ?_
  obtain ⟨f', hf', -⟩ := h.kept d'.scopes.frames.size _ (Array.getElem?_eq_getElem hlt)
  rw [Array.getElem?_eq_none (Nat.le_refl _)] at hf'
  cases hf'

theorem trans (h : d₀.Grows allowed d) (h' : d.Grows allowed d') : d₀.Grows allowed d' where
  kept i f hf := by
    obtain ⟨f', hf', hgrows⟩ := h.kept i f hf
    obtain ⟨f'', hf'', hgrows'⟩ := h'.kept i f' hf'
    exact ⟨f'', hf'', hgrows.trans hgrows'⟩
  fresh i f'' hi hf'' := by
    by_cases hlt : i < d.scopes.frames.size
    · obtain ⟨f₁, hf₁, hgrows⟩ := h'.kept i _ (Array.getElem?_eq_getElem hlt)
      obtain rfl := Option.some.inj (hf''.symm.trans hf₁)
      exact (h.fresh i _ hi (Array.getElem?_eq_getElem hlt)).trans hgrows
    · exact h'.fresh i f'' (Nat.le_of_not_lt hlt) hf''
  vars := by
    obtain ⟨new, hnew, hids, hallowed⟩ := h.vars
    obtain ⟨more, hmore, hids', hallowed'⟩ := h'.vars
    refine ⟨new ++ more, by rw [hmore, hnew, List.append_assoc], ?_, fun v hv => ?_⟩
    · rw [List.map_append, hids, hids', hnew, List.length_append, List.length_append,
        List.range'_append_1]
    · rcases List.mem_append.mp hv with hv | hv
      · exact hallowed v hv
      · exact hallowed' v hv
  links_eq := h'.links_eq.trans h.links_eq
  report_prefix := h.report_prefix.trans h'.report_prefix

theorem mono {more : ScopeId → Identifier → Option Expression → Prop} (h : d.Grows allowed d')
    (hmore : ∀ i x v, allowed i x v → more i x v) : d.Grows more d' where
  kept i f hf := by
    obtain ⟨f', hf', hgrows⟩ := h.kept i f hf
    exact ⟨f', hf', hgrows.mono (hmore i)⟩
  fresh i f' hi hf' := (h.fresh i f' hi hf').mono (hmore i)
  vars := h.vars.imp fun _ hn => ⟨hn.1, hn.2.1, fun v hv => hmore _ _ _ (hn.2.2 v hv)⟩
  links_eq := h.links_eq
  report_prefix := h.report_prefix

/-- The variables that were there are still there. -/
theorem mem_vars (h : d.Grows allowed d') {v : Located ObjectVar} (hv : v ∈ d.objectVars) :
    v ∈ d'.objectVars := by
  obtain ⟨new, hnew, -⟩ := h.vars
  rw [hnew]
  exact List.mem_append_left _ hv

/-- A frame grows. -/
theorem modifyFrame (h : d₀.Grows allowed d) (scope : ScopeId) {g : Frame → Frame}
    (hg : ∀ f : Frame, f.Grows (allowed scope) (g f)) :
    d₀.Grows allowed { d with scopes := d.scopes.modifyFrame scope g } := by
  have hstep : ∀ (i : ScopeId) (f : Frame), d.scopes.frames[i]? = some f →
      ∃ f', (d.scopes.modifyFrame scope g).frames[i]? = some f' ∧ f.Grows (allowed i) f' := by
    intro i f hf
    simp only [Scopes.modifyFrame, Array.getElem?_modify, hf, Option.map_some]
    split
    · next he => exact ⟨g f, rfl, he ▸ hg f⟩
    · exact ⟨f, rfl, .refl f⟩
  have hsize : (d.scopes.modifyFrame scope g).frames.size = d.scopes.frames.size :=
    Array.size_modify ..
  refine h.trans ⟨hstep, fun i f' hi hf' => ?_, ⟨[], by simp⟩, rfl, List.prefix_refl _⟩
  rw [Array.getElem?_eq_none (hsize ▸ hi)] at hf'
  cases hf'

/-- A frame is opened in that of the object. -/
theorem push (h : d₀.Grows allowed d) :
    d₀.Grows allowed { d with scopes := d.scopes.push objectScope } := by
  refine h.trans ⟨fun i f hf => ⟨f, ?_, .refl f⟩, fun i f' hi hf' => ?_, ⟨[], by simp⟩, rfl,
    List.prefix_refl _⟩
  · have hlt : i < d.scopes.frames.size := (Array.getElem?_eq_some_iff.mp hf).1
    rw [← hf, Scopes.push, Array.getElem?_push, if_neg (Nat.ne_of_lt hlt)]
  · simp only [Scopes.push, Array.getElem?_push] at hf'
    split at hf'
    · cases hf'
      exact .refl _
    · rw [Array.getElem?_eq_none hi] at hf'
      cases hf'

theorem withReport (h : d₀.Grows allowed d) {report : Report}
    (hr : d.report.entries <+: report.entries) : d₀.Grows allowed { d with report } :=
  { h with report_prefix := h.report_prefix.trans hr }

/-- **What a name stands for** stays the same if it is not bound anew. -/
theorem symbol?_eq (h : d.Grows allowed d') (hw : d.scopes.Within labels)
    (hx : ∀ i < d.scopes.frames.size, ∀ y v, allowed i y v → (x == y) = false)
    (hs : scope < d.scopes.frames.size) : d'.scopes.symbol? scope x = d.scopes.symbol? scope x := by
  refine hw.parentsFirst.nearest?_congr hs fun i f hf => ?_
  obtain ⟨f', hf', hgrows⟩ := h.kept i f hf
  refine ⟨f', hf', hgrows.parent_eq, fun _ => ?_⟩
  exact hgrows.symbol?_eq (hx i (Array.getElem?_eq_some_iff.mp hf).1)

/-- In a frame that is new, a name that is not bound there stands for what it does in the object. -/
theorem symbol?_fresh (h : d.Grows allowed d') (hw : d'.scopes.Within labels)
    (hnew : d.scopes.frames.size ≤ scope) (hs : scope < d'.scopes.frames.size)
    (hx : ∀ y v, allowed scope y v → (x == y) = false) :
    d'.scopes.symbol? scope x = d'.scopes.symbol? objectScope x := by
  have hgrows := h.fresh scope _ hnew (Array.getElem?_eq_getElem hs)
  rw [hw.symbol?_eq (Array.getElem?_eq_getElem hs), hgrows.symbol?_eq hx, hgrows.parent_eq]
  rfl

end Draft.Grows

/-- Everything that is bound in some scopes has a property. -/
def Scopes.SymbolsAre (S : Expression → Prop) (s : Scopes) : Prop :=
  ∀ (i : ScopeId) (f : Frame), s.frames[i]? = some f → ∀ x e, f.symbol? x = some e → S e

namespace Scopes.SymbolsAre

variable {S : Expression → Prop}

theorem mono {S' : Expression → Prop} (h : s.SymbolsAre S) (hS : ∀ e, S e → S' e) : s.SymbolsAre S' :=
  fun i f hf x e hx => hS e (h i f hf x e hx)

/-- Bindings that are added have the property if they are allowed. -/
theorem grows {allowed : ScopeId → Identifier → Option Expression → Prop} (h : d.scopes.SymbolsAre S)
    (hd : d.Grows allowed d') (hS : ∀ i x e, allowed i x (some e) → S e) : d'.scopes.SymbolsAre S := by
  intro i f' hf' x e hx
  by_cases hlt : i < d.scopes.frames.size
  · obtain ⟨f₁, hf₁, hgrows⟩ := hd.kept i _ (Array.getElem?_eq_getElem hlt)
    obtain rfl := Option.some.inj (hf'.symm.trans hf₁)
    rcases hgrows.symbol?_cases hx with hold | ⟨y, -, hnew⟩
    · exact h i _ (Array.getElem?_eq_getElem hlt) x e hold
    · exact hS i y e hnew
  · rcases (hd.fresh i f' (Nat.le_of_not_lt hlt) hf').symbol?_cases hx with hold | ⟨y, -, hnew⟩
    · cases hold
    · exact hS i y e hnew

/-- What a name stands for is bound somewhere. -/
theorem resolve (h : s.SymbolsAre S) (hx : s.resolve scope x = some e) : S e := by
  have hsymbol : ∀ {scope x e}, s.symbol? scope x = some e → S e := by
    intro scope x e he
    obtain ⟨f, hf, he⟩ := List.exists_of_findSome?_eq_some he
    obtain ⟨i, hi⟩ := Scopes.mem_outward hf
    exact h i f hi x e he
  have hfollow : ∀ (steps : Nat) (found : Expression), S found → s.follow steps found = some e →
      S e := by
    intro steps
    induction steps with
    | zero =>
      intro found hfound he
      cases he
      exact hfound
    | succ steps ih =>
      intro found hfound he
      cases found with
      | symbol scope name =>
        obtain ⟨next, hnext, he⟩ := Option.bind_eq_some_iff.mp he
        exact ih next (hsymbol hnext) he
      | _ =>
        cases he
        exact hfound
  obtain ⟨found, hfound, he⟩ := Option.bind_eq_some_iff.mp hx
  exact hfollow _ found (hsymbol hfound) he

end Scopes.SymbolsAre

/-! ### The names of declarations -/

namespace Node

theorem namesAll_append (nodes more : List Node) :
    namesAll (nodes ++ more) = namesAll nodes ++ namesAll more := by
  induction nodes with
  | nil => rfl
  | cons node nodes ih => simp [namesAll, ih]

theorem mem_namesAll : x ∈ namesAll nodes ↔ ∃ node ∈ nodes, x ∈ node.names := by
  induction nodes with
  | nil => simp [namesAll]
  | cons node nodes ih => simp [namesAll, ih]

theorem mem_names_constants {decl : ConstantDecl} (hdecl : decl ∈ node.constantDecls)
    (hx : x ∈ decl.names) : x ∈ node.names := by
  cases node with
  | constants decls => exact List.mem_flatMap.mpr ⟨decl, hdecl, hx⟩
  | _ => cases hdecl

theorem mem_names_data (hline : line ∈ node.dataLines) (hx : line.globalLabel? = some x) :
    x ∈ node.names := by
  cases node with
  | data lines => exact List.mem_filterMap.mpr ⟨line, hline, hx⟩
  | _ => cases hline

mutual

/-- What is selected of a part declares no more than the part. -/
theorem names_select : (node : Node) → Yields node.select fun selected =>
    ∀ x ∈ namesAll selected, x ∈ node.names
  | .define name tokens => by
    rw [select]
    refine yields_bind (yields_any _) fun seen _ => ?_
    split
    · refine yields_bind (yields_any _) fun _ _ => yields_bind (yields_any _) fun _ _ => ?_
      exact yields_pure (by simp [namesAll])
    · exact yields_bind (yields_any _) fun _ _ => yields_pure (by simp [namesAll])
  | .ifDefined name negate yes no => by
    rw [select]
    refine yields_bind (yields_any _) fun seen _ => ?_
    split
    · exact (names_selectAll yes).weaken fun _ h x hx => List.mem_append_left _ (h x hx)
    · exact (names_selectAll no).weaken fun _ h x hx => List.mem_append_right _ (h x hx)
  | .constants _ | .objectVars _ | .objects _ | .data _ | .method _ => yields_pure (by simp [namesAll])

theorem names_selectAll : (nodes : List Node) → Yields (selectAll nodes) fun selected =>
    ∀ x ∈ namesAll selected, x ∈ namesAll nodes
  | [] => yields_pure (by simp [namesAll])
  | node :: nodes => by
    refine yields_bind (names_select node) fun first hfirst => ?_
    refine yields_bind (names_selectAll nodes) fun rest hrest => yields_pure fun x hx => ?_
    rw [namesAll_append, List.mem_append] at hx
    exact List.mem_append.mpr (hx.imp (hfirst x) (hrest x))

end

end Node

/-! ### Steps -/

/-- Neither a method nor a variable of the object is meant. -/
def Plain (v : Option Expression) : Prop :=
  ∀ e, v = some e → (∀ m, e ≠ .method m) ∧ ∀ w, e ≠ .objectVar w

theorem plain_some (hm : ∀ m, e ≠ .method m) (hv : ∀ w, e ≠ .objectVar w) : Plain (some e) := by
  rintro _ ⟨⟩
  exact ⟨hm, hv⟩

theorem plain_int (n : Int64) : Plain (some (.int n)) :=
  plain_some (by simp [Expression.int]) (by simp [Expression.int])

/-- A constant expression is plain. -/
theorem Expr.lower_plain {e : Expr} {v : Expression} (h : e.lower s scope = .ok v) : Plain (some v) := by
  refine plain_some ?_ ?_
  all_goals
  rintro m rfl
  cases e with
  | literal | text | name | member => cases h
  | unary l op operand =>
    obtain ⟨_, -, h⟩ := bind_eq_ok h
    cases h
  | binary l op left right =>
    obtain ⟨_, -, h⟩ := bind_eq_ok h
    obtain ⟨_, -, h⟩ := bind_eq_ok h
    cases h
  | ternary l c yes no =>
    obtain ⟨_, -, h⟩ := bind_eq_ok h
    obtain ⟨_, -, h⟩ := bind_eq_ok h
    obtain ⟨_, -, h⟩ := bind_eq_ok h
    cases h
  | addressOf l operand =>
    cases operand with
    | name inner x =>
      simp only [lower] at h
      split at h
      · cases h
      · cases h
      · cases h
    | _ => cases h
  | index | call => cases h

namespace Compile

variable {α β : Type} {base : Draft} {allowed : ScopeId → Identifier → Option Expression → Prop}

/-- A name may be bound to everything but a method or a variable of the object. -/
def Allows (allowed : ScopeId → Identifier → Option Expression → Prop) (scope : ScopeId)
    (x : Identifier) : Prop :=
  ∀ v, Plain v → allowed scope x v

instance : Enduring (base.Grows allowed) := ⟨fun _ _ hr h => h.withReport hr⟩

/-- The frame that is opened is new. -/
theorem grows_pushScope :
    Leads (base.Grows allowed) (pushScope objectScope)
      (fun scope d => base.Grows allowed d ∧ base.scopes.frames.size ≤ scope)
      (base.Grows allowed) :=
  leads_modifyGet fun _ h => ⟨h.push, h.scopes_le⟩

theorem grows_define (h : allowed scope name.value (some value)) :
    Keeps (base.Grows allowed) (define scope name value) :=
  keeps_define fun _ hd => hd.modifyFrame scope fun _ => .withSymbol h

theorem grows_lower {f : Expression → Compile β} (e : Expr)
    (hf : ∀ v, Plain (some v) → Keeps (base.Grows allowed) (f v)) :
    Keeps (base.Grows allowed) (lower e >>= f) := by
  rw [lower, bind_assoc]
  refine keeps_bind keeps_get fun seen => ?_
  refine leads_bind (leads_liftExcept (Q := fun v d => base.Grows allowed d ∧ Plain (some v))
    (fun v _ hv h => ⟨h, Expr.lower_plain hv⟩) fun _ h => h) fun v => ?_
  exact leads_of_and fun hv => hf v hv

theorem grows_lowerOr {f : Expression → Compile β} (default : Int64) (e : Option Expr)
    (hf : ∀ v, Plain (some v) → Keeps (base.Grows allowed) (f v)) :
    Keeps (base.Grows allowed) (lowerOr default e >>= f) := by
  cases e with
  | none => exact hf _ (plain_int default)
  | some e => exact grows_lower e hf

end Compile

/-! ### Selection, constants and the clock -/

namespace Node

open Compile

variable {base : Draft} {allowed : ScopeId → Identifier → Option Expression → Prop}

theorem definitionOf_plain (scope : ScopeId) (tokens : List String) :
    Plain (Scopes.definitionOf scope tokens).expression := by
  intro e h
  unfold Scopes.definitionOf at h
  split at h
  · split at h
    · cases h
      exact ⟨by simp, by simp⟩
    · cases h
      exact ⟨by simp, by simp⟩
  · cases h

theorem grows_selectAll (h : ∀ x ∈ namesAll nodes, Allows allowed objectScope x) :
    Keeps (base.Grows allowed) (selectAll nodes) :=
  keeps_selectAll nodes fun x hx tokens _ hd => hd.modifyFrame objectScope fun _ =>
    .withDefinition (h x hx _ (definitionOf_plain objectScope tokens))

end Node

namespace Compile

variable {base : Draft} {allowed : ScopeId → Identifier → Option Expression → Prop}

theorem grows_addConstant (h : allowed objectScope name.value (some value)) :
    Keeps (base.Grows allowed) (addConstant name value) :=
  keeps_bind (grows_define h) fun _ => leads_modify fun _ h => { h with }

theorem grows_enumerate {items : List EnumItem}
    (h : ∀ item ∈ items, Allows allowed objectScope item.name.value) (step : Expression)
    {current : Expression} (hc : Plain (some current)) :
    Keeps (base.Grows allowed) (enumerate step current items) := by
  induction items generalizing current with
  | nil => exact keeps_pure ()
  | cons item items ih =>
    rw [enumerate]
    have hname := h item (.head _)
    have hrest : ∀ current, Plain (some current) →
        Keeps (base.Grows allowed) (enumerate step current items) :=
      fun current => ih fun other ho => h other (.tail _ ho)
    refine keeps_bind (grows_addConstant (hname _ hc)) fun _ => ?_
    cases item.step with
    | none => exact hrest _ (plain_some (by simp) (by simp))
    | some e => exact grows_lower e fun v _ => hrest _ (plain_some (by simp) (by simp))

theorem grows_addConstants {decl : ConstantDecl}
    (h : ∀ x ∈ decl.names, Allows allowed objectScope x) :
    Keeps (base.Grows allowed) (addConstants decl) := by
  cases decl with
  | assign name value =>
    have hname := h name.value (List.mem_singleton_self _)
    exact grows_lower value fun v hv => grows_addConstant (hname _ hv)
  | enumeration start step items =>
    refine grows_lowerOr 0 start fun first hfirst => grows_lowerOr 1 step fun increment _ => ?_
    exact grows_enumerate (fun item hi => h _ (List.mem_map_of_mem hi)) increment hfirst

/-- The names under which the clock is known. -/
def clockNames : List Identifier := [⟨"CLKMODE_"⟩, ⟨"CLKFREQ_"⟩]

theorem grows_publishClock (h : ∀ x ∈ clockNames, Allows allowed objectScope x)
    (setting : ClockSetting) : Keeps (base.Grows allowed) (publishClock setting) := by
  have hmode := h ⟨"CLKMODE_"⟩ (.head _)
  have hfrequency := h ⟨"CLKFREQ_"⟩ (.tail _ (.head _))
  refine leads_modify fun d hd => ?_
  refine Draft.Grows.modifyFrame (hd.modifyFrame objectScope fun f => .withBuiltin ?_) objectScope
    fun f => .withBuiltin ?_
  · exact hmode _ (plain_int _)
  · exact hfrequency _ (plain_int _)

theorem grows_clock (h : ∀ x ∈ clockNames, Allows allowed objectScope x) (config : Config) :
    Keeps (base.Grows allowed) (clock config) :=
  keeps_clock (grows_publishClock h) config

/-! ### Variables and methods -/

/-- How many elements there are is found, or not, without changing anything. -/
theorem elementCount_cases (count : Option Expr) (d : Draft) :
    (∃ n, elementCount count d = .ok n d) ∨ ∃ e, elementCount count d = .error e d := by
  cases count with
  | none => exact .inl ⟨1, rfl⟩
  | some e =>
    have hrun : elementCount (some e) d =
        (liftExcept (e.countValue d.scopes objectScope) : Compile Nat) d := rfl
    rw [hrun]
    cases e.countValue d.scopes objectScope with
    | ok n => exact .inl ⟨n, rfl⟩
    | error e => exact .inr ⟨e, rfl⟩

/-- A variable is declared with the next number, if it is known how many elements it has. -/
theorem addVariable_eq {count : Nat} (hcount : elementCount decl.count d = .ok count d) :
    ∃ report : Report, d.report.entries <+: report.entries ∧
      let v : ObjectVar :=
        { id := d.objectVars.length, name := decl.name.value, kind := decl.kind, count }
      addVariable decl d = .ok ()
        { d with scopes := d.scopes.addSymbol objectScope decl.name.value (.objectVar v), report,
                 objectVars := d.objectVars ++ [⟨v, decl.location⟩] } := by
  refine ⟨_, prefix_noting decl.name d.report (d.scopes.warningFor objectScope decl.name.value), ?_⟩
  unfold addVariable
  rw [run_bind_ok hcount, get_bind, run_bind_ok (define_eq_ok ..)]
  rfl

theorem addVariable_eq_error {e : Located CompileError} (h : elementCount decl.count d = .error e d) :
    addVariable decl d = .error e d :=
  run_bind_error h

theorem grows_addVariable {tried : Option Unit} (h : attempt (addVariable decl) d = .ok tried d')
    (hallowed : ∀ v ∈ d'.objectVars, v.value.name = decl.name.value →
      allowed objectScope v.value.name (some (.objectVar v.value))) : d.Grows allowed d' := by
  rcases elementCount_cases decl.count d with ⟨count, hcount⟩ | ⟨e, he⟩
  · obtain ⟨report, hreport, hrun⟩ := addVariable_eq hcount
    rw [attempt_of_ok hrun] at h
    cases h
    have hv := hallowed _ (List.mem_append_right _ (List.mem_singleton_self _)) rfl
    refine { (Draft.Grows.refl d).modifyFrame objectScope fun f => .withSymbol hv with
      report_prefix := hreport, vars := ⟨[_], rfl, rfl, ?_⟩ }
    simpa using hv
  · rw [attempt_of_error (addVariable_eq_error he)] at h
    cases h
    exact (Draft.Grows.refl d).withReport (List.prefix_append ..)

theorem grows_localVar (h : Allows allowed scope name.value) (v : LocalVar) :
    Keeps (base.Grows allowed) (define scope name (.localVar v)) :=
  grows_define (h _ (plain_some (by simp) (by simp)))

theorem grows_addLongs {longs : List (Located Identifier)}
    (h : ∀ x ∈ longs.map Located.value, Allows allowed scope x) (offset : Nat) :
    Keeps (base.Grows allowed) (addLongs scope offset longs) :=
  keeps_addLongs (fun _ hd => { hd with })
    (fun _ hname => grows_localVar (h _ (List.mem_map_of_mem hname))) offset

theorem grows_addLocals {decls : List LocalDecl}
    (h : ∀ x ∈ decls.map (·.name.value), Allows allowed scope x) (offset : Nat) :
    Keeps (base.Grows allowed) (addLocals scope offset decls) :=
  keeps_addLocals (fun _ hd => { hd with })
    (fun _ hdecl => grows_localVar (h _ (List.mem_map_of_mem hdecl))) offset

/-- What is bound has one of some names; if it is a method, it is one of some methods, and if it is a
variable, it is one of some variables. -/
structure BindsAmong (named : Identifier → Prop) (methods : List MethodDraft) (V : ObjectVar → Prop)
    (i : ScopeId) (x : Identifier) (v : Option Expression) : Prop where
  named : named x
  method : ∀ c, v = some (.method c) → ∃ m ∈ methods, m.method = c
  var : ∀ w, v = some (.objectVar w) → V w

variable {named : Identifier → Prop} {V : ObjectVar → Prop}

theorem BindsAmong.mono {more : List MethodDraft} (h : methods ⊆ more) (i : ScopeId) (x : Identifier)
    (v : Option Expression) (hv : BindsAmong named methods V i x v) : BindsAmong named more V i x v :=
  { hv with method := fun c hc => (hv.method c hc).imp fun _ hm => ⟨h hm.1, hm.2⟩ }

theorem allows_bindsAmong {i : ScopeId} (h : named x) : Allows (BindsAmong named methods V) i x :=
  fun _ hv => ⟨h, fun c hc => absurd rfl ((hv _ hc).1 c), fun w hw => absurd rfl ((hv _ hw).2 w)⟩

/-- A method is bound in the object, and its local variables in a new frame. -/
theorem addMethod_grows {id : Nat} {decl : MethodDecl} {m : MethodDraft}
    (hnames : ∀ x ∈ decl.names, named x) (h : addMethod id decl d = .ok m d') :
    d.Grows (BindsAmong named [m] V) d' ∧ d.scopes.frames.size ≤ m.scope := by
  obtain ⟨_, d₁, hdefine, h⟩ := bind_eq_ok h
  obtain ⟨scope, d₂, hpush, h⟩ := bind_eq_ok h
  obtain ⟨longs, d₃, hlongs, h⟩ := bind_eq_ok h
  obtain ⟨locals, d₄, hlocals, h⟩ := bind_eq_ok h
  have hscope : m.scope = scope := by
    cases h
    rfl
  obtain rfl : d₄ = d' := by
    cases h
    rfl
  obtain ⟨hname, hinner⟩ := List.forall_mem_cons.mp hnames
  obtain ⟨hlong, hlocal⟩ := List.forall_mem_append.mp hinner
  have hmethod : BindsAmong named [m] V objectScope decl.name.value (some (.method
      { id, name := decl.name.value, parameters := decl.parameters.length,
        returns := decl.results.length, isPublic := decl.isPublic })) := by
    refine ⟨hname, ?_, by simp⟩
    rintro c ⟨⟩
    cases h
    exact ⟨_, List.mem_singleton_self _, rfl⟩
  have h₁ := (grows_define hmethod).of_ok (.refl d) hdefine
  obtain ⟨h₂, hnew⟩ := grows_pushScope.of_ok h₁ hpush
  have h₃ := (grows_addLongs (fun x hx => allows_bindsAmong (hlong x hx)) 0).of_ok h₂ hlongs
  have h₄ := (grows_addLocals (fun x hx => allows_bindsAmong (hlocal x hx)) _).of_ok h₃ hlocals
  exact ⟨h₄, hscope ▸ hnew⟩

/-- Declarations of variables bind their names to the variables that are there afterwards. -/
theorem addVariables_grows {decls : List VariableDecl}
    (hnames : ∀ decl ∈ decls, named decl.name.value) (h : attemptAll addVariable decls d = .ok () d')
    (hV : ∀ v ∈ d'.objectVars, V v.value) : d.Grows (BindsAmong named methods V) d' := by
  induction decls generalizing d with
  | nil =>
    cases h
    exact .refl _
  | cons decl decls ih =>
    obtain ⟨hname, hrest⟩ := List.forall_mem_cons.mp hnames
    obtain ⟨tried, d₁, htried, h⟩ := bind_eq_ok h
    have hgrows := ih hrest h
    refine (grows_addVariable htried fun v hv hnamed => ?_).trans hgrows
    refine ⟨hnamed ▸ hname, by simp, ?_⟩
    rintro _ ⟨⟩
    exact hV v (hgrows.mem_vars hv)

/-- **Declarations of variables and methods** bind their names, and no methods but those that are
declared, whose frames are new, and no variables but those that are there afterwards. -/
theorem addDeclarations_grows {first : Nat} (hnames : ∀ x ∈ Node.namesAll nodes, named x)
    (h : addDeclarations first nodes d = .ok methods d') (hV : ∀ v ∈ d'.objectVars, V v.value) :
    d.Grows (BindsAmong named methods V) d' ∧ ∀ m ∈ methods, d.scopes.frames.size ≤ m.scope := by
  induction nodes generalizing first d methods with
  | nil =>
    cases h
    exact ⟨.refl _, by simp⟩
  | cons node rest ih =>
    obtain ⟨hnode, hrest⟩ := List.forall_mem_append.mp hnames
    cases node with
    | method decl =>
      obtain ⟨m, d₁, hm, h⟩ := bind_eq_ok h
      obtain ⟨ms, d₂, hms, h⟩ := bind_eq_ok h
      cases h
      obtain ⟨hgrows, hscope⟩ := addMethod_grows hnode hm
      obtain ⟨hgrows', hscopes⟩ := ih hrest hms
      refine ⟨(hgrows.mono (BindsAmong.mono (by simp))).trans
        (hgrows'.mono (BindsAmong.mono (by simp))), ?_⟩
      intro other hother
      rcases List.mem_cons.mp hother with rfl | hother
      · exact hscope
      · exact Nat.le_trans hgrows.scopes_le (hscopes other hother)
    | objectVars decls =>
      obtain ⟨_, d₁, hvars, h⟩ := bind_eq_ok h
      obtain ⟨hgrows', hscopes⟩ := ih hrest h
      have hgrows : d.Grows (BindsAmong named methods V) d₁ :=
        addVariables_grows (fun decl hdecl => hnode _ (List.mem_map_of_mem hdecl)) hvars
          fun v hv => hV v (hgrows'.mem_vars hv)
      refine ⟨hgrows.trans hgrows', fun m hm => ?_⟩
      exact Nat.le_trans hgrows.scopes_le (hscopes m hm)
    | _ => exact ih hrest h

/-! ### Labels -/

/-- A label is bound in the object, or in the frame of a section, which is new. -/
def AllowsLabel (allowed : ScopeId → Identifier → Option Expression → Prop) (base : Draft)
    (line : SourceLine) : Prop :=
  (∀ x ∈ line.globalLabel?, Allows allowed objectScope x) ∧
    ∀ name, line.label = some name → ∀ i ≥ base.scopes.frames.size, Allows allowed i name.value

theorem grows_labelled (h : AllowsLabel allowed base line) (hname : line.label = some name)
    (hc : base.scopes.frames.size ≤ current) (hd : base.Grows allowed d) :
    base.Grows allowed (labelled objectScope current line name d) ∧
      base.scopes.frames.size ≤ sectionFrame current line d.scopes := by
  have hsection : base.Grows allowed { d with scopes := openSection objectScope line d.scopes } := by
    unfold openSection
    split
    · exact hd.push
    · exact hd
  -- where a label is bound decides whether its name has to be allowed in the object
  have hhome : Allows allowed (homeOf objectScope current name.value) name.value := by
    unfold homeOf
    split
    · exact h.2 name hname current hc
    · next hglobal => exact h.1 name.value (by simp [SourceLine.globalLabel?, hname, hglobal])
  have hbound := hsection.modifyFrame _ fun f => .withSymbol (f := f)
    (hhome _ (plain_some (e := .label d.addresses.nextLabel) (by simp) (by simp)))
  refine ⟨{ hbound.withReport (prefix_noting name d.report _) with }, ?_⟩
  unfold sectionFrame
  split
  · exact hd.scopes_le
  · exact hc

theorem grows_bindLabels (h : ∀ line ∈ lines, AllowsLabel allowed base line)
    (hc : base.scopes.frames.size ≤ current) :
    Keeps (base.Grows allowed) (bindLabels objectScope current lines) := by
  intro d hd
  obtain ⟨bound, _, d', hrun, hd', -⟩ := bindLabels_eq_ok
    (I := fun current d => base.Grows allowed d ∧ base.scopes.frames.size ≤ current)
    (fun line hline name hname _ _ hd => grows_labelled (h line hline) hname hd.2 hd.1) ⟨hd, hc⟩
  rw [hrun]
  exact hd'.1

/-- **Assembly code** binds its labels. -/
theorem grows_convert (library : Library) (h : ∀ line ∈ lines, AllowsLabel allowed base line) :
    Keeps (base.Grows allowed) (convert library objectScope lines) := by
  refine leads_bind grows_pushScope fun first => leads_of_and fun hfirst => ?_
  exact keeps_bind (grows_bindLabels h hfirst) fun bound => keeps_convertLines library bound

end Compile

end Propeller
