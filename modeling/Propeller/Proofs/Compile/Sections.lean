import Propeller.Proofs.Case.Names
import Propeller.Proofs.Compile.Bindings

/-!
# Compile — sections of assembly code

A label that does not begin with a point opens a section, and one that does belongs to the section that it
stands in.  Before any operand is looked at, `bindLabels` goes over the lines once and gives every section a
frame of its own.  What it leaves is said here for all lines at once.

* `sectionOf`: the section of a line, told by counting.
* `Compile.bindLabels_labels`: each label is bound once, in the frame of its section or in the enclosing one,
  behind the labels of the lines before it.
* `Compile.bindLabels_notes`: what is said about a label depends on the labels of the lines before it.
-/

namespace Propeller

variable {i : Nat} {x : Identifier} {line : SourceLine} {lines : List SourceLine} {e : Compile.BoundLine}
  {bound : List Compile.BoundLine} {scope current j frame : ScopeId} {found : Option LabelId × ScopeId}
  {name : Located Identifier} {d d' : Draft}

/-- Names that are compared alike both begin with a point or both do not. -/
theorem Identifier.isLocalLabel_of_beq {x y : Identifier} (h : (x == y) = true) :
    x.isLocalLabel = y.isLocalLabel := by
  rw [← isLocalLabel_upper x, ← isLocalLabel_upper y, upper_eq_iff.mpr (beq_iff.mp h)]

/-! ### Sections -/

/-- The section of a line: how many sections have been opened up to and with it. -/
def sectionOf (lines : List SourceLine) (i : Nat) : Nat := (lines.take (i + 1)).countP SourceLine.opens

@[simp]
theorem sectionOf_zero (line : SourceLine) (lines : List SourceLine) :
    sectionOf (line :: lines) 0 = if line.opens then 1 else 0 := by
  simp [sectionOf, List.countP_cons]

@[simp]
theorem sectionOf_succ (line : SourceLine) (lines : List SourceLine) (i : Nat) :
    sectionOf (line :: lines) (i + 1) = sectionOf lines i + if line.opens then 1 else 0 := by
  simp [sectionOf, List.countP_cons]

/-- A line that opens no section is in that of the lines before it. -/
theorem sectionOf_of_not_opens (hi : lines[i]? = some line)
    (hopens : line.opens = false) : sectionOf lines i = (lines.take i).countP SourceLine.opens := by
  rw [sectionOf, List.take_add_one, hi, List.countP_append]
  simp [hopens]

/-- A frame in which symbols have been bound, the last one in front. -/
def Frame.bind (f : Frame) (bs : Bindings Expression) : Frame :=
  { f with symbols := bs.reverse ++ f.symbols }

namespace Frame

@[simp]
theorem bind_nil (f : Frame) : f.bind [] = f := rfl

theorem bind_append (f : Frame) (bs more : Bindings Expression) :
    f.bind (bs ++ more) = (f.bind bs).bind more := by
  simp [bind]

@[simp]
theorem parent_bind (f : Frame) (bs : Bindings Expression) : (f.bind bs).parent = f.parent := rfl

theorem symbol?_bind (f : Frame) (bs : Bindings Expression) (x : Identifier) :
    (f.bind bs).symbol? x = (f.builtins.lookup x).or ((bs.reverse.lookup x).or
      ((f.symbols.lookup x).or ((f.definitions.lookup x).bind Definition.expression))) := by
  rw [symbol?_or, bind, List.lookup_append, Option.or_assoc]

end Frame

/-- A name with a point is not bound where names without one are. -/
theorem lookup_reverse_of_local {bs : Bindings Expression} (hx : x.isLocalLabel = true)
    (hbs : ∀ b ∈ bs, b.1.isLocalLabel = false) : bs.reverse.lookup x = none := by
  refine List.lookup_eq_none_iff.mpr fun b hb => ?_
  have hne : (x == b.1) = false := Bool.eq_false_iff.mpr fun hname => by
    have hlocal := Identifier.isLocalLabel_of_beq hname
    rw [hx, hbs b (List.mem_reverse.mp hb)] at hlocal
    cases hlocal
  rw [bne, hne, Bool.not_false]

namespace Scopes.ParentsFirst

variable {s : Scopes}

theorem hasSymbol_iff (h : s.ParentsFirst) {i : ScopeId} :
    s.HasSymbol i x ↔ (s.nearest? (·.symbols.lookup x) i).isSome = true :=
  h.nearest?_isSome_iff.symm

theorem duplicate_iff (h : s.ParentsFirst) {i : ScopeId} :
    s.warningFor i x = some (.duplicate x) ↔ s.HasSymbol i x := by
  rcases h.warningFor_cases i x with ⟨hs, hw⟩ | ⟨hs, hd, hw⟩ | ⟨hs, hd, hw⟩ <;> simp [hw, hs]

end Scopes.ParentsFirst

/-- A frame of some scopes, or a new one inside a frame. -/
def Scopes.frameOr (s : Scopes) (scope j : ScopeId) : Frame :=
  s.frames[j]?.getD { parent := some scope }

theorem Scopes.getElem?_frames {s : Scopes} (hj : j < s.frames.size) (scope : ScopeId) :
    s.frames[j]? = some (s.frameOr scope j) := by
  rw [frameOr, Array.getElem?_eq_getElem hj, Option.getD_some]

theorem Scopes.frameOr_push (s : Scopes) (scope j : ScopeId) :
    (s.push scope).frameOr scope j = s.frameOr scope j := by
  rw [frameOr, push, Array.getElem?_push]
  split
  · next heq => rw [heq, frameOr, Array.getElem?_eq_none (Nat.le_refl _), Option.getD_some, Option.getD_none]
  · rfl

namespace Compile

/-- What a line binds in a frame. -/
def BoundLine.bindingIn? (scope frame : ScopeId) (e : BoundLine) : Option (Identifier × Expression) :=
  e.1.label.bind fun name => e.2.1.bind fun label =>
    if homeOf scope e.2.2 name.value = frame then some (name.value, .label label) else none

theorem BoundLine.bindingIn?_eq_some {b : Identifier × Expression} :
    e.bindingIn? scope frame = some b ↔ ∃ name label, e.1.label = some name ∧ e.2.1 = some label ∧
      homeOf scope e.2.2 name.value = frame ∧ b = (name.value, .label label) := by
  simp only [bindingIn?, Option.bind_eq_some_iff, Option.ite_none_right_eq_some, Option.some.injEq]
  constructor
  · rintro ⟨name, hname, label, hlabel, hhome, rfl⟩
    exact ⟨name, label, hname, hlabel, hhome, rfl⟩
  · rintro ⟨name, label, hname, hlabel, hhome, rfl⟩
    exact ⟨name, hname, label, hlabel, hhome, rfl⟩

/-- What lines bind in a frame, in order. -/
def bindingsIn (scope frame : ScopeId) (bound : List BoundLine) : Bindings Expression :=
  bound.filterMap (BoundLine.bindingIn? scope frame)

/-! ### All lines -/

/-- The frames behind lines whose labels have been bound, when `current`, the frame of the section in front
of them, was the last one. -/
structure Framed (scope current : ScopeId) (lines : List SourceLine) (bound : List BoundLine)
    (d d' : Draft) : Prop where
  scope_lt : scope < current
  current_eq : current + 1 = d.scopes.frames.size
  /-- There is one frame for each section, in order. -/
  frame_eq : ∀ i e, bound[i]? = some e → e.2.2 = current + sectionOf lines i
  size_eq : d'.scopes.frames.size = d.scopes.frames.size + lines.countP SourceLine.opens
  frames_eq : ∀ j < d'.scopes.frames.size,
    d'.scopes.frames[j]? = some ((d.scopes.frameOr scope j).bind (bindingsIn scope j bound))

namespace Framed

theorem nil (hscope : scope < current) (hcurrent : current + 1 = d.scopes.frames.size) :
    Framed scope current [] [] d d where
  scope_lt := hscope
  current_eq := hcurrent
  frame_eq := by simp
  size_eq := rfl
  frames_eq j hj := Scopes.getElem?_frames hj scope

/-- The frames of the sections are there. -/
theorem frame_lt (h : Framed scope current lines bound d d') (he : e ∈ bound) :
    e.2.2 < d'.scopes.frames.size := by
  obtain ⟨i, hi⟩ := List.mem_iff_getElem?.mp he
  have hsection : sectionOf lines i ≤ lines.countP SourceLine.opens :=
    (List.take_sublist _ _).countP_le
  have hcurrent := h.current_eq
  rw [h.size_eq, h.frame_eq i e hi]
  grind

theorem scopes_le (h : Framed scope current lines bound d d') :
    d.scopes.frames.size ≤ d'.scopes.frames.size :=
  h.size_eq ▸ Nat.le_add_right ..

/-- The enclosing frame was there before. -/
theorem scope_lt_size (h : Framed scope current lines bound d d') : scope < d.scopes.frames.size :=
  Nat.lt_of_lt_of_le h.scope_lt (h.current_eq ▸ Nat.le_succ _)

theorem bindingsIn_of_le (h : Framed scope current lines bound d d') (hj : d'.scopes.frames.size ≤ j) :
    bindingsIn scope j bound = [] := by
  refine List.filterMap_eq_nil_iff.mpr fun e he => Option.eq_none_iff_forall_ne_some.mpr fun b hb => ?_
  obtain ⟨name, _, -, -, hhome, -⟩ := BoundLine.bindingIn?_eq_some.mp hb
  refine Nat.not_le_of_lt ?_ hj
  rw [← hhome, homeOf]
  split
  · exact h.frame_lt he
  · exact Nat.lt_of_lt_of_le h.scope_lt_size h.scopes_le

/-- A single line. -/
theorem single (hscope : scope < current) (hcurrent : current + 1 = d.scopes.frames.size)
    (hframe : found.2 = current + if line.opens then 1 else 0)
    (hsize : d'.scopes.frames.size = d.scopes.frames.size + if line.opens then 1 else 0)
    (hframes : ∀ j < d'.scopes.frames.size, d'.scopes.frames[j]? =
      some ((d.scopes.frameOr scope j).bind (bindingsIn scope j [(line, found)]))) :
    Framed scope current [line] [(line, found)] d d' where
  scope_lt := hscope
  current_eq := hcurrent
  frame_eq := by
    intro i e he
    cases i with
    | zero =>
      obtain rfl : (line, found) = e := Option.some.inj he
      rw [sectionOf_zero]
      exact hframe
    | succ i => cases he
  size_eq := by rw [hsize, List.countP_cons, List.countP_nil, Nat.zero_add]
  frames_eq := hframes

/-- Lines behind a line. -/
theorem cons {d₁ : Draft} (h : Framed scope current [line] [(line, found)] d d₁)
    (hrest : Framed scope found.2 lines bound d₁ d') :
    Framed scope current (line :: lines) ((line, found) :: bound) d d' where
  scope_lt := h.scope_lt
  current_eq := h.current_eq
  frame_eq := by
    have hfound : found.2 = current + sectionOf [line] 0 := h.frame_eq 0 _ rfl
    rw [sectionOf_zero] at hfound
    intro i e he
    cases i with
    | zero =>
      obtain rfl : (line, found) = e := Option.some.inj he
      rw [sectionOf_zero]
      exact hfound
    | succ i =>
      rw [hrest.frame_eq i e he, sectionOf_succ, hfound]
      grind
  size_eq := by
    rw [hrest.size_eq, h.size_eq, List.countP_cons, List.countP_cons, List.countP_nil]
    omega
  frames_eq j hj := by
    have hsplit : bindingsIn scope j ((line, found) :: bound) =
        bindingsIn scope j [(line, found)] ++ bindingsIn scope j bound := by
      rw [bindingsIn, ← List.singleton_append, List.filterMap_append, bindingsIn, bindingsIn]
    rw [hrest.frames_eq j hj, hsplit, Frame.bind_append]
    by_cases hlt : j < d₁.scopes.frames.size
    · rw [Scopes.frameOr, h.frames_eq j hlt, Option.getD_some]
    · -- a frame that comes later is a new one in both drafts
      have hle := Nat.le_of_not_lt hlt
      have hle' : d.scopes.frames.size ≤ j := by
        have := h.size_eq
        omega
      rw [h.bindingsIn_of_le hle, Frame.bind_nil, Scopes.frameOr, Scopes.frameOr,
        Array.getElem?_eq_none hle, Array.getElem?_eq_none hle']

end Framed

/-- A section has a frame when a line has opened it. -/
theorem openSection_frames (scope : ScopeId) (line : SourceLine) (s : Scopes) :
    (openSection scope line s).frames.size = s.frames.size + (if line.opens then 1 else 0) ∧
      ∀ j < (openSection scope line s).frames.size,
        (openSection scope line s).frames[j]? = some (s.frameOr scope j) := by
  constructor
  · unfold openSection
    split
    · exact Array.size_push ..
    · rfl
  · intro j hj
    rw [Scopes.getElem?_frames hj scope, openSection]
    split
    · rw [Scopes.frameOr_push]
    · rfl

/-- **The label of a line.** -/
theorem bindLabel_framed (hscope : scope < current)
    (hcurrent : current + 1 = d.scopes.frames.size) (line : SourceLine) :
    ∃ found d', bindLabel scope current line d = .ok found d' ∧
      Framed scope current [line] [(line, found)] d d' := by
  cases hlabel : line.label with
  | none =>
    refine ⟨_, _, bindLabel_none hlabel scope current d, ?_⟩
    have hopens := SourceLine.opens_of_none hlabel
    refine .single hscope hcurrent ?_ ?_ fun j hj => ?_
    · rw [hopens]
      rfl
    · rw [hopens]
      rfl
    · have hnone : bindingsIn scope j [(line, none, current)] = [] := by
        simp [bindingsIn, BoundLine.bindingIn?, hlabel]
      rw [hnone, Frame.bind_nil, Scopes.getElem?_frames hj scope]
  | some name =>
    refine ⟨_, _, bindLabel_some hlabel scope current d, ?_⟩
    obtain ⟨hsize, hframes⟩ := openSection_frames scope line d.scopes
    have hsame : (labelled scope current line name d).scopes.frames.size =
        (openSection scope line d.scopes).frames.size := Array.size_modify ..
    -- the label is bound in the frame in front of the line if it belongs to a section
    have hhome : homeOf scope current name.value =
        homeOf scope (sectionFrame current line d.scopes) name.value := by
      unfold homeOf sectionFrame
      rw [SourceLine.opens_of_some hlabel]
      cases name.value.isLocalLabel <;> rfl
    refine .single hscope hcurrent ?_ (hsame.trans hsize) fun j hj => ?_
    · rw [sectionFrame, Scopes.nextScope, ← hcurrent]
      split <;> rfl
    · have hbindings : bindingsIn scope j
          [(line, some d.addresses.nextLabel, sectionFrame current line d.scopes)] =
            if homeOf scope current name.value = j then
              [(name.value, Expression.label d.addresses.nextLabel)] else [] := by
        by_cases hj : homeOf scope current name.value = j <;>
          simp [bindingsIn, BoundLine.bindingIn?, hlabel, ← hhome, hj]
      rw [hbindings]
      simp only [labelled, Scopes.addSymbol, Scopes.modifyFrame, Array.getElem?_modify,
        hframes j (hsame ▸ hj)]
      split <;> rfl

/-- The frame of the section that lines end in is the last one. -/
theorem Framed.last_eq
    (h : Framed scope current [line] [(line, found)] d d') : found.2 + 1 = d'.scopes.frames.size := by
  have hframe : found.2 = current + sectionOf [line] 0 := h.frame_eq 0 _ rfl
  have hcurrent := h.current_eq
  rw [h.size_eq, hframe]
  simp only [sectionOf, List.take_succ_cons, List.take_zero]
  grind

theorem bindLabels_framed (hscope : scope < current)
    (hcurrent : current + 1 = d.scopes.frames.size) (lines : List SourceLine) :
    ∃ bound d', bindLabels scope current lines d = .ok bound d' ∧ Framed scope current lines bound d d' := by
  induction lines generalizing current d with
  | nil => exact ⟨[], d, rfl, .nil hscope hcurrent⟩
  | cons line lines ih =>
    obtain ⟨found, d₁, hfirst, hframed⟩ := bindLabel_framed hscope hcurrent line
    have hscope' : scope < found.2 :=
      hframed.frame_eq 0 _ rfl ▸ Nat.lt_of_lt_of_le hscope (Nat.le_add_right ..)
    obtain ⟨bound, d', hrest, hframed'⟩ := ih hscope' hframed.last_eq
    refine ⟨(line, found) :: bound, d', ?_, hframed.cons hframed'⟩
    rw [bindLabels_cons, run_bind_ok hfirst, run_bind_ok hrest]
    rfl

/-- What is left behind lines whose labels have been bound in sections of their own: the frames, and a new
label for each line that has one. -/
structure Labels (scope : ScopeId) (lines : List SourceLine) (bound : List BoundLine) (d d' : Draft) :
    Prop where
  framed : Framed scope d.scopes.nextScope lines bound { d with scopes := d.scopes.push scope } d'
  binds : List.Forall₂ (Binds d.addresses.nextLabel d'.addresses.nextLabel) lines bound
  distinct : Distinct bound

/-- **Labels of lines.** -/
theorem bindLabels_labels (hscope : scope < d.scopes.frames.size) (lines : List SourceLine) :
    ∃ bound d',
      bindLabels scope d.scopes.nextScope lines { d with scopes := d.scopes.push scope } = .ok bound d' ∧
      Labels scope lines bound d d' := by
  have hcurrent : d.scopes.nextScope + 1 = (d.scopes.push scope).frames.size := (Array.size_push ..).symm
  have hinside : scope < d.scopes.nextScope := hscope
  obtain ⟨bound, d', hrun, hframed⟩ :=
    bindLabels_framed (d := { d with scopes := d.scopes.push scope }) hinside hcurrent lines
  obtain ⟨hbinds, hdistinct⟩ := bindLabels_binds hrun
  exact ⟨bound, d', hrun, hframed, hbinds, hdistinct⟩

/-- **Lines are converted** when all of their labels are bound. -/
theorem convert_eq_ok (library : Library) (hscope : scope < d.scopes.frames.size) (lines : List SourceLine) :
    ∃ bound d₁ errors,
      bindLabels scope d.scopes.nextScope lines { d with scopes := d.scopes.push scope } = .ok bound d₁ ∧
      Labels scope lines bound d d₁ ∧
      convert library scope lines d = .ok (bound.filterMap (asmLine? library d₁.scopes))
        { d₁ with report := d₁.report.extend errors } ∧
      (∀ x ∈ errors, x.isError = true) ∧
      (errors = [] → ∀ e ∈ bound, (asmLine? library d₁.scopes e).isSome = true) := by
  obtain ⟨bound, d₁, hbound, hlabels⟩ := bindLabels_labels hscope lines
  obtain ⟨errors, hconvert, herrors, hall⟩ := convertLines_eq library bound d₁
  refine ⟨bound, d₁, errors, hbound, hlabels, ?_, herrors, hall⟩
  have hpush : pushScope scope d = .ok d.scopes.nextScope { d with scopes := d.scopes.push scope } := rfl
  rw [convert, run_bind_ok hpush, run_bind_ok hbound]
  exact hconvert

namespace Labels

variable (h : Labels scope lines bound d d')

include h

theorem lines_eq : bound.map Prod.fst = lines := Binds.lines_eq h.binds

theorem isSome_eq : ∀ e ∈ bound, e.2.1.isSome = e.1.label.isSome := by
  intro e he
  obtain ⟨line, -, hb⟩ := exists_of_forall₂ h.binds he
  rw [hb.label_isSome, hb.line_eq]

theorem scope_lt : scope < d.scopes.frames.size := h.framed.scope_lt

theorem scopes_le : d.scopes.frames.size ≤ d'.scopes.frames.size :=
  Nat.le_of_succ_le (h.framed.current_eq.le.trans h.framed.scopes_le)

theorem frame_lt (he : e ∈ bound) : e.2.2 < d'.scopes.frames.size := h.framed.frame_lt he

/-- The frames of sections are new. -/
theorem frame_ge (he : e ∈ bound) : d.scopes.frames.size ≤ e.2.2 := by
  obtain ⟨i, hi⟩ := List.mem_iff_getElem?.mp he
  exact h.framed.frame_eq i e hi ▸ Nat.le_add_right ..

/-- The frames that were there get the labels of all sections, and the others are new. -/
theorem frames_eq (hj : j < d'.scopes.frames.size) : d'.scopes.frames[j]? =
    some ((d.scopes.frameOr scope j).bind (bindingsIn scope j bound)) :=
  Scopes.frameOr_push d.scopes scope j ▸ h.framed.frames_eq j hj

end Labels

/-! ### Looking up -/

section Lookup

variable {α β : Type}

/-- Nothing is found if nothing is bound to the name. -/
theorem lookup_reverse_filterMap_eq_none {g : α → Option (Identifier × β)} {xs : List α} :
    (xs.filterMap g).reverse.lookup x = none ↔ ∀ a ∈ xs, ∀ b, g a = some b → (x == b.1) = false := by
  rw [List.lookup_eq_none_iff]
  simp only [List.mem_reverse, List.mem_filterMap, bne, Bool.not_eq_true']
  constructor
  · exact fun h a ha b hb => h b ⟨a, ha, hb⟩
  · rintro h b ⟨a, ha, hb⟩
    exact h a ha b hb

/-- **Of what is bound to a name** the last is found. -/
theorem of_lookup_reverse_filterMap {g : α → Option (Identifier × β)} {xs : List α} {v : β}
    (h : (xs.filterMap g).reverse.lookup x = some v) :
    ∃ (j : Nat) (a : α), xs[j]? = some a ∧ (∃ b, g a = some b ∧ (x == b.1) = true ∧ b.2 = v) ∧
      ∀ k > j, ∀ a', xs[k]? = some a' → ∀ b, g a' = some b → (x == b.1) = false := by
  induction xs with
  | nil => cases h
  | cons a xs ih =>
    have hsplit : ((a :: xs).filterMap g).reverse.lookup x =
        ((xs.filterMap g).reverse.lookup x).or ((g a).toList.lookup x) := by
      cases hg : g a with
      | none => simp [hg]
      | some b => simp [hg, List.lookup_append]
    rw [hsplit, Option.or_eq_some_iff] at h
    rcases h with hrest | ⟨hnone, hfound⟩
    · obtain ⟨j, a', ha', hb, hlast⟩ := ih hrest
      refine ⟨j + 1, a', ha', hb, fun k hk c hc => ?_⟩
      obtain ⟨k, rfl⟩ := Nat.exists_eq_succ_of_ne_zero (Nat.ne_zero_of_lt hk)
      exact hlast k (Nat.lt_of_succ_lt_succ hk) c hc
    · obtain ⟨b, hb, hname, hv⟩ := mem_of_lookup hfound
      refine ⟨0, a, rfl, ⟨b, Option.mem_toList.mp hb, hname, hv⟩, fun k hk c hc => ?_⟩
      obtain ⟨k, rfl⟩ := Nat.exists_eq_succ_of_ne_zero (Nat.ne_zero_of_lt hk)
      exact lookup_reverse_filterMap_eq_none.mp hnone c (List.mem_of_getElem? hc)

end Lookup

end Compile

/-- A line has a label of some name. -/
def SourceLine.HasLabel (line : SourceLine) (x : Identifier) : Prop :=
  ∃ name, line.label = some name ∧ (x == name.value) = true

namespace Compile

/-- The last label of a name in some of the lines. -/
def LastLabel (bound : List BoundLine) (among : Nat → Prop) (x : Identifier) (l : LabelId) : Prop :=
  ∃ (j : Nat) (e : BoundLine), bound[j]? = some e ∧ among j ∧ e.1.HasLabel x ∧ e.2.1 = some l ∧
    ∀ k > j, ∀ e' : BoundLine, bound[k]? = some e' → among k → ¬ e'.1.HasLabel x

/-- **What is found among the labels** that are bound in a frame is the last one of the name, unless there is
none. -/
theorem lookup_bindingsIn {among : Nat → Prop} (hsome : ∀ e ∈ bound, e.2.1.isSome = e.1.label.isSome)
    (hamong : ∀ j e name, bound[j]? = some e → e.1.label = some name → (x == name.value) = true →
      (homeOf scope e.2.2 name.value = frame ↔ among j)) :
    (∃ l, (bindingsIn scope frame bound).reverse.lookup x = some (.label l) ∧ LastLabel bound among x l) ∨
      ((bindingsIn scope frame bound).reverse.lookup x = none ∧
        ∀ j e, bound[j]? = some e → among j → ¬ e.1.HasLabel x) := by
  -- a line with the label binds the name
  have hbinds : ∀ j e, bound[j]? = some e → among j → e.1.HasLabel x →
      ∃ b, e.bindingIn? scope frame = some b ∧ (x == b.1) = true := by
    rintro j e he hin ⟨name, hlabel, hname⟩
    have hl := hsome e (List.mem_of_getElem? he)
    rw [hlabel, Option.isSome_some] at hl
    obtain ⟨l, hl⟩ := Option.isSome_iff_exists.mp hl
    have hhome := (hamong j e name he hlabel hname).mpr hin
    exact ⟨_, BoundLine.bindingIn?_eq_some.mpr ⟨name, l, hlabel, hl, hhome, rfl⟩, hname⟩
  cases hlookup : (bindingsIn scope frame bound).reverse.lookup x with
  | some v =>
    obtain ⟨j, e, he, ⟨b, hb, hname, rfl⟩, hlast⟩ := of_lookup_reverse_filterMap hlookup
    obtain ⟨name, l, hlabel, hl, hhome, rfl⟩ := BoundLine.bindingIn?_eq_some.mp hb
    refine .inl ⟨l, rfl, j, e, he, (hamong j e name he hlabel hname).mp hhome, ⟨name, hlabel, hname⟩, hl, ?_⟩
    intro k hk e' he' hin hhas
    obtain ⟨b', hb', hname'⟩ := hbinds k e' he' hin hhas
    exact Bool.false_ne_true ((hlast k hk e' he' b' hb').symm.trans hname')
  | none =>
    refine .inr ⟨rfl, fun j e he hin hhas => ?_⟩
    obtain ⟨b, hb, hname⟩ := hbinds j e he hin hhas
    have hne := lookup_reverse_filterMap_eq_none.mp hlookup e (List.mem_of_getElem? he) b hb
    exact Bool.false_ne_true (hne.symm.trans hname)

namespace Labels

variable (h : Labels scope lines bound d d')

include h

/-- The lines are in order. -/
theorem line_eq (hi : bound[i]? = some e) : lines[i]? = some e.1 := by
  rw [← h.lines_eq, List.getElem?_map, hi, Option.map_some]

/-- Every line is there. -/
theorem exists_bound (hi : lines[i]? = some line) : ∃ e, bound[i]? = some e ∧ e.1 = line := by
  rw [← h.lines_eq, List.getElem?_map] at hi
  exact Option.map_eq_some_iff.mp hi

/-- Two lines have the same frame if they are in the same section. -/
theorem frame_eq_iff {j : Nat} {e e' : BoundLine} (hi : bound[i]? = some e) (hj : bound[j]? = some e') :
    e'.2.2 = e.2.2 ↔ sectionOf lines j = sectionOf lines i := by
  rw [h.framed.frame_eq i e hi, h.framed.frame_eq j e' hj]
  exact Nat.add_left_cancel_iff

/-- A name with a point is bound in the frame of a line by the lines of its section. -/
theorem home_eq_iff (hx : x.isLocalLabel = true) {j : Nat} {e e' : BoundLine}
    (hi : bound[i]? = some e) (hj : bound[j]? = some e') (hname : (x == name.value) = true) :
    homeOf scope e'.2.2 name.value = e.2.2 ↔ sectionOf lines j = sectionOf lines i := by
  rw [homeOf, if_pos ((Identifier.isLocalLabel_of_beq hname).symm.trans hx)]
  exact h.frame_eq_iff hi hj

/-- A label that belongs to a section is bound behind the frames that were there. -/
theorem isLocalLabel_of_lt (hj : j < d.scopes.frames.size) :
    ∀ b ∈ bindingsIn scope j bound, b.1.isLocalLabel = false := by
  intro b hb
  obtain ⟨e, he, hb⟩ := List.mem_filterMap.mp hb
  obtain ⟨name, l, -, -, hhome, rfl⟩ := BoundLine.bindingIn?_eq_some.mp hb
  refine Bool.eq_false_iff.mpr fun hlocal => ?_
  rw [homeOf, if_pos hlocal] at hhome
  exact Nat.not_le_of_lt hj (hhome ▸ h.frame_ge he)

/-- The frame of a section binds the labels of the section and nothing else. -/
theorem frame_section (hle : d.scopes.frames.size ≤ j) (hj : j < d'.scopes.frames.size) :
    d'.scopes.frames[j]? = some (({ parent := some scope } : Frame).bind (bindingsIn scope j bound)) := by
  rw [h.frames_eq hj, Scopes.frameOr, Array.getElem?_eq_none hle, Option.getD_none]

variable (hd : d.scopes.ParentsFirst)

include hd

/-- Frames are opened in the enclosing one, which is there before them. -/
theorem parentsFirst : d'.scopes.ParentsFirst := by
  intro i f hf p hp
  have hi : i < d'.scopes.frames.size := (Array.getElem?_eq_some_iff.mp hf).1
  rw [h.frames_eq hi] at hf
  cases hf
  rw [Frame.parent_bind, Scopes.frameOr] at hp
  cases hold : d.scopes.frames[i]? with
  | some f =>
    rw [hold, Option.getD_some] at hp
    exact hd i f hold p hp
  | none =>
    rw [hold, Option.getD_none] at hp
    cases hp
    exact Nat.lt_of_lt_of_le h.scope_lt (Array.getElem?_eq_none_iff.mp hold)

/-- From the enclosing frame outwards, only names without a point are bound anew. -/
theorem nearest?_scope {β : Type} {has : Frame → Option β}
    (hhas : ∀ (f : Frame) bs, (∀ b ∈ bs, b.1.isLocalLabel = false) → has (f.bind bs) = has f) :
    d'.scopes.nearest? has scope = d.scopes.nearest? has scope := by
  refine hd.nearest?_congr h.scope_lt fun j f hf => ?_
  have hj : j < d.scopes.frames.size := (Array.getElem?_eq_some_iff.mp hf).1
  have hframe := h.frames_eq (Nat.lt_of_lt_of_le hj h.scopes_le)
  rw [Scopes.frameOr, hf, Option.getD_some] at hframe
  exact ⟨_, hframe, rfl, fun _ => hhas _ _ (h.isLocalLabel_of_lt hj)⟩

/-- A name is looked up in the section of a line, and then from the enclosing frame. -/
theorem symbol?_eq (he : e ∈ bound) (x : Identifier) : d'.scopes.symbol? e.2.2 x =
    ((bindingsIn scope e.2.2 bound).reverse.lookup x).or (d'.scopes.symbol? scope x) := by
  have hlookup : d'.scopes.symbol? e.2.2 x =
      (Frame.symbol? (Frame.bind { parent := some scope } (bindingsIn scope e.2.2 bound)) x).or
        (d'.scopes.symbol? scope x) :=
    (h.parentsFirst hd).nearest?_eq (·.symbol? x) (h.frame_section (h.frame_ge he) (h.frame_lt he))
  rw [hlookup, Frame.symbol?_bind]
  simp

/-- **A name with a point** stands for the last label of that name in the section of the line.  If there is
none, it stands for what it stood for before. -/
theorem symbol?_local (hx : x.isLocalLabel = true) (hi : bound[i]? = some e) :
    (∃ l, LastLabel bound (fun j => sectionOf lines j = sectionOf lines i) x l ∧
        d'.scopes.symbol? e.2.2 x = some (.label l)) ∨
      (∀ j line, lines[j]? = some line → sectionOf lines j = sectionOf lines i → ¬ line.HasLabel x) ∧
        d'.scopes.symbol? e.2.2 x = d.scopes.symbol? scope x := by
  have houtside : d'.scopes.symbol? scope x = d.scopes.symbol? scope x := by
    refine h.nearest?_scope hd fun f bs hbs => ?_
    rw [Frame.symbol?_bind, lookup_reverse_of_local hx hbs, Option.none_or, Frame.symbol?_or]
  rw [h.symbol?_eq hd (List.mem_of_getElem? hi), houtside]
  rcases lookup_bindingsIn h.isSome_eq fun j e' name hj _ hname => h.home_eq_iff hx hi hj hname with
    ⟨l, hfound, hlast⟩ | ⟨hnone, hmissing⟩
  · exact .inl ⟨l, hlast, by rw [hfound, Option.some_or]⟩
  · refine .inr ⟨fun j line hj hsame => ?_, by rw [hnone, Option.none_or]⟩
    obtain ⟨e', he', rfl⟩ := h.exists_bound hj
    exact hmissing j e' he' hsame

/-- **A name without a point** stands for the last label of that name, in whatever section a line is. -/
theorem symbol?_global (hx : x.isLocalLabel = false)
    (hbuiltin : ∀ f, d.scopes.frames[scope]? = some f → f.builtins.lookup x = none)
    (hline : line ∈ lines) (hhas : line.HasLabel x) (he : e ∈ bound) :
    ∃ l, LastLabel bound (fun _ => True) x l ∧ d'.scopes.symbol? e.2.2 x = some (.label l) := by
  have hhome : ∀ (frame : ScopeId) (name : Identifier), (x == name) = true →
      homeOf scope frame name = scope := by
    intro frame name hname
    rw [homeOf, if_neg (by simp [← Identifier.isLocalLabel_of_beq hname, hx])]
  -- the sections bind names with a point only
  have hsection : (bindingsIn scope e.2.2 bound).reverse.lookup x = none := by
    refine lookup_reverse_filterMap_eq_none.mpr fun e' _ b hb => Bool.eq_false_iff.mpr fun hname => ?_
    obtain ⟨name, _, -, -, hframe, rfl⟩ := BoundLine.bindingIn?_eq_some.mp hb
    rw [hhome _ _ hname] at hframe
    exact absurd hframe (Nat.ne_of_lt (Nat.lt_of_lt_of_le h.scope_lt (h.frame_ge he)))
  rcases @lookup_bindingsIn x bound scope scope (fun _ => True) h.isSome_eq
    fun j e' name _ _ hname => iff_true_intro (hhome e'.2.2 name.value hname) with
    ⟨l, hfound, hlast⟩ | ⟨-, hmissing⟩
  · refine ⟨l, hlast, ?_⟩
    have hframe := h.frames_eq (Nat.lt_of_lt_of_le h.scope_lt h.scopes_le)
    have hlookup : d'.scopes.symbol? scope x = _ :=
      (h.parentsFirst hd).nearest?_eq (·.symbol? x) hframe
    rw [h.symbol?_eq hd he, hsection, Option.none_or, hlookup, Frame.symbol?_bind,
      hbuiltin _ (Scopes.getElem?_frames h.scope_lt scope), Option.none_or, hfound, Option.some_or,
      Option.some_or]
  · obtain ⟨j, hj⟩ := List.mem_iff_getElem?.mp hline
    obtain ⟨e', he', rfl⟩ := h.exists_bound hj
    exact absurd hhas (hmissing j e' he' trivial)

/-- The symbols of the user are looked for in the section of a line, and then from the enclosing frame. -/
theorem nearest?_symbols (hx : x.isLocalLabel = true) (hle : d.scopes.frames.size ≤ j)
    (hj : j < d'.scopes.frames.size) :
    d'.scopes.nearest? (·.symbols.lookup x) j = ((bindingsIn scope j bound).reverse.lookup x).or
      (d.scopes.nearest? (·.symbols.lookup x) scope) := by
  rw [(h.parentsFirst hd).nearest?_eq _ (h.frame_section hle hj), ← h.nearest?_scope hd fun f bs hbs => ?_]
  · simp [Frame.bind]
  · rw [Frame.bind, List.lookup_append, lookup_reverse_of_local hx hbs, Option.none_or]

/-- **A label of a section is a duplicate** if the section had one of that name before, or if the enclosing
frame sees a symbol of that name. -/
theorem warning_local {before : Draft}
    (hbefore : Labels scope (lines.take i) (bound.take i) d before) (hi : bound[i]? = some e)
    (hname : e.1.label = some name) (hlocal : name.value.isLocalLabel = true) :
    before.scopes.warningFor e.2.2 name.value = some (.duplicate name.value) ↔
      (∃ k < i, ∃ line, lines[k]? = some line ∧ sectionOf lines k = sectionOf lines i ∧
        line.HasLabel name.value) ∨ d.scopes.HasSymbol scope name.value := by
  have hlt : e.2.2 < before.scopes.frames.size := by
    have hopens : e.1.opens = false := by rw [SourceLine.opens_of_some hname, hlocal, Bool.not_true]
    rw [hbefore.framed.size_eq, ← h.framed.current_eq, h.framed.frame_eq i e hi,
      sectionOf_of_not_opens (h.line_eq hi) hopens]
    grind
  have hearlier : ∀ {k : Nat} {e' : BoundLine}, (bound.take i)[k]? = some e' ↔ k < i ∧ bound[k]? = some e' := by
    intro k e'
    rw [List.getElem?_take]
    split <;> simp [*]
  rw [(hbefore.parentsFirst hd).duplicate_iff, hd.hasSymbol_iff, (hbefore.parentsFirst hd).hasSymbol_iff,
    hbefore.nearest?_symbols hd hlocal (h.frame_ge (List.mem_of_getElem? hi)) hlt, Option.isSome_or,
    Bool.or_eq_true]
  refine or_congr ?_ Iff.rfl
  rcases lookup_bindingsIn hbefore.isSome_eq fun j e' other hj _ hsame =>
    h.home_eq_iff hlocal hi (hearlier.mp hj).2 hsame with ⟨l, hfound, k, e', he', hsame, hhas, -⟩ | ⟨hnone, hmissing⟩
  · obtain ⟨hk, he'⟩ := hearlier.mp he'
    exact iff_of_true (by rw [hfound]; rfl) ⟨k, hk, e'.1, h.line_eq he', hsame, hhas⟩
  · refine iff_of_false (by simp [hnone]) ?_
    rintro ⟨k, hk, line, hline, hsame, hhas⟩
    obtain ⟨e', he', rfl⟩ := h.exists_bound hline
    exact hmissing k e' (hearlier.mpr ⟨hk, he'⟩) hsame hhas

end Labels

/-! ### What is said about labels -/

/-- What is reported about the label of a line. -/
def noteFor (line : SourceLine) (w : Option ScopeWarning) : List Diagnostic :=
  (line.label.bind fun name => w.map fun w => .warning (some name.location) w.message).toList

theorem entries_noting (h : line.label = some name) (r : Report) (w : Option ScopeWarning) :
    (noting name r w).entries = r.entries ++ noteFor line w := by
  cases w <;> simp [noting, noteFor, h, Report.warn, Report.push]

/-- What is said about the label of a line. -/
theorem bindLabel_note (h : bindLabel scope current line d = .ok found d') :
    ∃ w, d'.report.entries = d.report.entries ++ noteFor line w ∧
      ∀ name, line.label = some name → name.value.isLocalLabel = true →
        found.2 = current ∧ w = d.scopes.warningFor current name.value := by
  cases hlabel : line.label with
  | none =>
    rw [bindLabel_none hlabel] at h
    cases h
    exact ⟨none, by simp [noteFor], by simp⟩
  | some name =>
    rw [bindLabel_some hlabel] at h
    cases h
    refine ⟨_, entries_noting hlabel _ _, ?_⟩
    rintro _ ⟨⟩ hlocal
    have hopens : line.opens = false := by rw [SourceLine.opens_of_some hlabel, hlocal, Bool.not_true]
    simp [sectionFrame, openSection, homeOf, hopens, hlocal]

/-- **What is said about labels** is said line by line, and depends on the labels of the lines before. -/
theorem bindLabels_notes (h : bindLabels scope current lines d = .ok bound d') :
    ∃ ws : List (Option ScopeWarning), ws.length = lines.length ∧
      d'.report.entries = d.report.entries ++ (List.zipWith noteFor lines ws).flatten ∧
      ∀ (i : Nat) (e : BoundLine) name, bound[i]? = some e → e.1.label = some name →
        name.value.isLocalLabel = true →
        ∃ before, bindLabels scope current (lines.take i) d = .ok (bound.take i) before ∧
          ws[i]? = some (before.scopes.warningFor e.2.2 name.value) := by
  induction lines generalizing current bound d with
  | nil =>
    cases h
    exact ⟨[], rfl, by simp, by simp⟩
  | cons line rest ih =>
    rw [bindLabels_cons] at h
    obtain ⟨found, d₁, hfirst, h⟩ := bind_eq_ok h
    obtain ⟨others, d₂, hothers, h⟩ := bind_eq_ok h
    cases h
    obtain ⟨w, hw, hlocal⟩ := bindLabel_note hfirst
    obtain ⟨ws, hlength, hreport, hws⟩ := ih hothers
    refine ⟨w :: ws, congrArg (· + 1) hlength, by simp [hreport, hw], fun i e name he hname hl => ?_⟩
    cases i with
    | zero =>
      obtain rfl : (line, found) = e := Option.some.inj he
      obtain ⟨hframe, rfl⟩ := hlocal name hname hl
      exact ⟨d, rfl, by simp [hframe]⟩
    | succ i =>
      obtain ⟨before, hbefore, hwarning⟩ := hws i e name he hname hl
      refine ⟨before, ?_, hwarning⟩
      rw [List.take_succ_cons, List.take_succ_cons, bindLabels_cons, run_bind_ok hfirst,
        run_bind_ok hbefore]
      rfl

end Compile

end Propeller
