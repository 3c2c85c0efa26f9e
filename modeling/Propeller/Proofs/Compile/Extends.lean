import Propeller.Proofs.Compile.Steady

/-!
# Compile — what the bodies of methods add to a draft

When the bodies of methods are compiled, everything that is declared in the object is known already.
A body adds frames of symbols for its assembly code, labels in these frames, blocks, descriptors and
diagnostics, and it touches nothing that was there before (`Draft.Extends`).  In particular the labels
of its assembly code are new ones.

* `Draft.Extends`: a draft has everything of another one, and more of the things a body adds.
* `Statement.assembliesAll`: the blocks of assembly code that are written in statements.
* `Statement.keeps_commands_of`, `Compile.keeps_methodBodies_of`: of a property that does not depend on what
  is referred to, on errors and on descriptors, only these blocks have to be looked at.
* `Statement.keeps_commands`, `Compile.keeps_methodBodies`: compiling statements and the bodies of all
  methods extends the draft, whether they are right or wrong.
-/

namespace Propeller

variable {scope current : ScopeId} {ss : List Statement} {lines : List SourceLine}
  {branches : List Guarded} {d₀ : Draft}

/-- A draft has everything that another one has, and besides that only frames, labels, blocks,
descriptors and diagnostics that are new. -/
structure Draft.Extends (d d' : Draft) : Prop where
  frame_eq : ∀ i < d.scopes.frames.size, d'.scopes.frames[i]? = d.scopes.frames[i]?
  scopes_le : d.scopes.frames.size ≤ d'.scopes.frames.size
  labels_le : d.addresses.table.size ≤ d'.addresses.table.size
  links_eq : d'.links = d.links
  vars_eq : d'.objectVars = d.objectVars
  constants_eq : d'.constants = d.constants
  kind_eq : ∀ l < d.addresses.table.size, d'.labelKinds.lookup l = d.labelKinds.lookup l
  /-- The blocks that are added have labels of their own. -/
  blocks_eq : ∃ new, d'.blocks = d.blocks ++ new ∧ ∀ b ∈ new, ∀ line ∈ b.lines, ∀ l,
    line.label = some l → d.addresses.table.size ≤ l
  records_prefix : d.debug.records <+: d'.debug.records
  report_prefix : d.report.entries <+: d'.report.entries

namespace Draft.Extends

variable {d₀ d d' : Draft}

theorem refl (d : Draft) : d.Extends d where
  frame_eq _ _ := rfl
  scopes_le := Nat.le_refl _
  labels_le := Nat.le_refl _
  links_eq := rfl
  vars_eq := rfl
  constants_eq := rfl
  kind_eq _ _ := rfl
  blocks_eq := ⟨[], by simp⟩
  records_prefix := List.prefix_refl _
  report_prefix := List.prefix_refl _

theorem trans (h : d₀.Extends d) (h' : d.Extends d') : d₀.Extends d' where
  frame_eq i hi := (h'.frame_eq i (Nat.lt_of_lt_of_le hi h.scopes_le)).trans (h.frame_eq i hi)
  scopes_le := Nat.le_trans h.scopes_le h'.scopes_le
  labels_le := Nat.le_trans h.labels_le h'.labels_le
  links_eq := h'.links_eq.trans h.links_eq
  vars_eq := h'.vars_eq.trans h.vars_eq
  constants_eq := h'.constants_eq.trans h.constants_eq
  kind_eq l hl := (h'.kind_eq l (Nat.lt_of_lt_of_le hl h.labels_le)).trans (h.kind_eq l hl)
  blocks_eq := by
    obtain ⟨new, hnew, hl⟩ := h.blocks_eq
    obtain ⟨more, hmore, hl'⟩ := h'.blocks_eq
    refine ⟨new ++ more, by rw [hmore, hnew, List.append_assoc], ?_⟩
    intro b hb line hline l hlabel
    rcases List.mem_append.mp hb with hb | hb
    · exact hl b hb line hline l hlabel
    · exact Nat.le_trans h.labels_le (hl' b hb line hline l hlabel)
  records_prefix := h.records_prefix.trans h'.records_prefix
  report_prefix := h.report_prefix.trans h'.report_prefix

/-- What is referred to does not matter. -/
theorem withUses (h : d₀.Extends d) (u : Uses) : d₀.Extends { d with uses := u } :=
  h.trans { refl d with }

theorem withReport (h : d₀.Extends d) {report : Report} (hr : d.report.entries <+: report.entries) :
    d₀.Extends { d with report } :=
  h.trans { refl d with report_prefix := hr }

/-- A frame is opened. -/
theorem withFrame (h : d₀.Extends d) (parent : ScopeId) :
    d₀.Extends { d with scopes := d.scopes.push parent } := by
  refine h.trans { refl d with frame_eq := ?_, scopes_le := ?_ }
  · intro i hi
    simp [Scopes.push, Array.getElem?_push, Nat.ne_of_lt hi]
  · simp [Scopes.push]

/-- A new frame is changed. -/
theorem modifyFrame (h : d₀.Extends d) (hs : d₀.scopes.frames.size ≤ scope) (f : Frame → Frame) :
    d₀.Extends { d with scopes := d.scopes.modifyFrame scope f } := by
  refine { h with frame_eq := fun i hi => ?_, scopes_le := ?_ }
  · have hne : scope ≠ i := fun he => Nat.not_lt_of_le hs (he ▸ hi)
    rw [← h.frame_eq i hi]
    simp [Scopes.modifyFrame, Array.getElem?_modify, hne]
  · simpa [Scopes.modifyFrame] using h.scopes_le

/-- A label is added. -/
theorem withLabel (h : d₀.Extends d) : d₀.Extends { d with addresses := d.addresses.alloc } :=
  h.trans { refl d with labels_le := by simp [Addresses.alloc] }

/-- The width of what stands at a new label is noted. -/
theorem withKind (h : d₀.Extends d) {label : LabelId} (hl : d₀.addresses.table.size ≤ label)
    (kind : DataType) : d₀.Extends { d with labelKinds := (label, kind) :: d.labelKinds } := by
  refine { h with kind_eq := fun l hlt => ?_ }
  have hne : (l == label) = false := by simp; omega
  rw [← h.kind_eq l hlt, List.lookup_cons, hne]

/-- A block with new labels is added. -/
theorem withBlock (h : d₀.Extends d) {b : InlineBlock}
    (hb : ∀ line ∈ b.lines, ∀ l, line.label = some l → d₀.addresses.table.size ≤ l) :
    d₀.Extends { d with blocks := d.blocks ++ [b] } := by
  obtain ⟨new, hnew, hl⟩ := h.blocks_eq
  refine { h with blocks_eq := ⟨new ++ [b], by simp [hnew], fun c hc => ?_⟩ }
  rcases List.mem_append.mp hc with hc | hc
  · exact hl c hc
  · obtain rfl := List.mem_singleton.mp hc
    exact hb

/-- Descriptors are added. -/
theorem withRecords (h : d₀.Extends d) {table : DebugTable}
    (ht : d.debug.records <+: table.records) : d₀.Extends { d with debug := table } :=
  h.trans { refl d with records_prefix := ht }

/-- What is an error stays one. -/
theorem hasErrors_of (h : d.Extends d') (he : d'.report.hasErrors = false) :
    d.report.hasErrors = false :=
  Report.hasErrors_of_prefix h.report_prefix he

end Draft.Extends

/-! ### Steps -/

namespace Compile

instance (d₀ : Draft) : Enduring d₀.Extends := ⟨fun _ _ hr h => h.withReport hr⟩

instance (d₀ : Draft) : Indifferent d₀.Extends where
  uses _ u h := h.withUses u
  records _ _ ht h := h.withRecords ht

variable {d₀ : Draft}

/-- A frame that is opened is a new one. -/
theorem leads_pushScope (parent : ScopeId) :
    Leads d₀.Extends (pushScope parent)
      (fun scope d => d₀.Extends d ∧ d₀.scopes.frames.size ≤ scope) d₀.Extends :=
  leads_modifyGet fun _ h => ⟨h.withFrame parent, h.scopes_le⟩

/-! ### Assembly code -/

theorem keeps_bindRegisters (hs : d₀.scopes.frames.size ≤ scope) (registers : List (LocalVar × Nat)) :
    Keeps d₀.Extends (bindRegisters scope registers) := by
  induction registers with
  | nil => exact keeps_pure ()
  | cons r rest ih =>
    exact leads_bind (leads_modify (Q := fun _ => d₀.Extends) fun _ h => h.modifyFrame hs _)
      fun _ => ih

/-- The label of a line is a new one, and so is the frame of its section. -/
theorem extends_labelled (hs : d₀.scopes.frames.size ≤ scope) (hc : d₀.scopes.frames.size ≤ current)
    (line : SourceLine) (name : Located Identifier) {d : Draft} (h : d₀.Extends d) :
    d₀.Extends (labelled scope current line name d) ∧
      d₀.scopes.frames.size ≤ sectionFrame current line d.scopes := by
  have hsection : d₀.Extends { d with scopes := openSection scope line d.scopes } := by
    unfold openSection
    split
    · exact h.withFrame scope
    · exact h
  have hhome : d₀.scopes.frames.size ≤ homeOf scope current name.value := by
    unfold homeOf
    split
    · exact hc
    · exact hs
  refine ⟨((hsection.withLabel.modifyFrame hhome _).withKind h.labels_le _).withReport
    (prefix_noting name d.report _), ?_⟩
  unfold sectionFrame
  split
  · exact h.scopes_le
  · exact hc

/-- The labels that lines are bound with are new ones. -/
def NewLabels (d₀ : Draft) (bound : List BoundLine) : Prop :=
  ∀ line ∈ bound, ∀ l, line.2.1 = some l → d₀.addresses.table.size ≤ l

theorem leads_bindLabels (hs : d₀.scopes.frames.size ≤ scope) (lines : List SourceLine)
    (hc : d₀.scopes.frames.size ≤ current) :
    Leads d₀.Extends (bindLabels scope current lines)
      (fun bound d => d₀.Extends d ∧ NewLabels d₀ bound) d₀.Extends := by
  intro d hd
  obtain ⟨bound, _, d', hrun, hd', -, hbound, -⟩ := bindLabels_eq_ok
    (I := fun current d => d₀.Extends d ∧ d₀.scopes.frames.size ≤ current)
    (fun line _ name _ _ _ h => extends_labelled hs h.2 line name h.1) ⟨hd, hc⟩
  rw [hrun]
  refine ⟨hd'.1, fun entry hentry l hl => ?_⟩
  obtain ⟨line, -, hline⟩ := exists_of_forall₂ hbound hentry
  exact Nat.le_trans hd.labels_le (hline.label_new l hl).1

/-- Lines keep the labels that they were bound with. -/
theorem leads_convertLines (library : Library)
    {bound : List BoundLine} (hb : NewLabels d₀ bound) :
    Leads d₀.Extends (convertLines library bound)
      (fun lines d => d₀.Extends d ∧ ∀ line ∈ lines, ∀ l, line.label = some l →
        d₀.addresses.table.size ≤ l) d₀.Extends := by
  intro d hd
  have hkeeps := keeps_convertLines library bound d hd
  obtain ⟨errors, hrun, -⟩ := convertLines_eq library bound d
  rw [hrun] at hkeeps ⊢
  refine ⟨hkeeps, fun line hline l hl => ?_⟩
  obtain ⟨entry, hentry, hline⟩ := List.mem_filterMap.mp hline
  obtain ⟨content, -, rfl⟩ := asmLine?_eq_some hline
  exact hb entry hentry l hl

theorem leads_convert (library : Library) (hs : d₀.scopes.frames.size ≤ scope) (lines : List SourceLine) :
    Leads d₀.Extends (convert library scope lines)
      (fun lines d => d₀.Extends d ∧ ∀ line ∈ lines, ∀ l, line.label = some l →
        d₀.addresses.table.size ≤ l) d₀.Extends := by
  refine leads_bind (leads_pushScope scope) fun first => leads_of_and fun hfirst => ?_
  refine leads_bind (leads_bindLabels hs lines hfirst) fun bound => leads_of_and fun hb => ?_
  exact leads_convertLines library hb

theorem label_returnLine {location : Location} {line : AsmLine}
    (h : returnLine location = .ok line) : line.label = none := by
  obtain ⟨m, -, h⟩ := Propeller.bind_eq_ok h
  obtain ⟨i, -, h⟩ := Propeller.bind_eq_ok h
  cases h
  rfl

/-- A block of assembly code is added with its frames and labels. -/
theorem keeps_inlineAssembly (library : Library) (m : MethodDraft) (location : Location)
    (lines : List SourceLine) : Keeps d₀.Extends (inlineAssembly library m location lines) := by
  refine leads_bind (leads_pushScope m.scope) fun scope => leads_of_and fun hscope => ?_
  refine leads_bind (leads_modify (Q := fun _ => d₀.Extends) fun _ h => h.withUses _) fun _ => ?_
  refine leads_bind (keeps_bindRegisters hscope _) fun _ => ?_
  refine leads_bind (steady_splitOrigin scope lines).keeps fun (origin, lines) => ?_
  refine leads_bind (leads_convert library hscope lines) fun converted =>
    leads_of_and fun hconverted => ?_
  refine leads_bind (Q := fun (last : AsmLine) d => d₀.Extends d ∧ last.label = none) ?_
    fun last => leads_of_and fun hlast => ?_
  · exact leads_liftExcept (fun last d hlast h => ⟨h, label_returnLine hlast⟩) fun d h => h
  · refine leads_modifyGet fun d h => h.withBlock ?_
    intro line hline l hl
    rcases List.mem_append.mp hline with hline | hline
    · exact hconverted line hline l hl
    · rw [List.mem_singleton.mp hline, hlast] at hl
      cases hl

end Compile

/-! ### Blocks that are written -/

namespace Statement

mutual

/-- The blocks of assembly code that are written in a statement, in the order of its code. -/
def assemblies : Statement → List (List SourceLine)
  | conditional branches otherwise => assembliesGuarded branches ++ assembliesOpt otherwise
  | whileLoop _ _ _ body           => assembliesAll body
  | repeatLoop _ body              => assembliesAll body
  | rangeLoop _ _ _ _ body         => assembliesAll body
  | forLoop init _ step body       => assembliesAll init ++ assembliesAll body ++ assembliesAll step
  | switch _ choices otherwise _   => assembliesOpt otherwise ++ assembliesChoices choices
  | assembly _ lines               => [lines]
  | _                              => []

/-- The blocks that are written in several statements. -/
def assembliesAll : List Statement → List (List SourceLine)
  | []      => []
  | s :: ss => s.assemblies ++ assembliesAll ss

/-- The blocks that are written in statements that may be missing. -/
def assembliesOpt : Option (List Statement) → List (List SourceLine)
  | none    => []
  | some ss => assembliesAll ss

/-- The blocks that are written in a chain of conditions. -/
def assembliesGuarded : List Guarded → List (List SourceLine)
  | []                   => []
  | .mk _ _ body :: rest => assembliesAll body ++ assembliesGuarded rest

/-- The blocks that are written in the statements of choices. -/
def assembliesChoices : List Choice → List (List SourceLine)
  | []              => []
  | .mk _ b :: rest => assembliesAll b ++ assembliesChoices rest

end

theorem mem_assembliesAll {s : Statement} (hs : s ∈ ss) (h : lines ∈ s.assemblies) :
    lines ∈ assembliesAll ss := by
  induction ss with
  | nil => cases hs
  | cons first rest ih => grind [assembliesAll]

theorem mem_assembliesGuarded {c : Expr} {negate : Bool} {body : List Statement}
    (hbody : .mk c negate body ∈ branches) (h : lines ∈ assembliesAll body) :
    lines ∈ assembliesGuarded branches := by
  induction branches with
  | nil => cases hbody
  | cons first rest ih =>
    cases first
    grind [assembliesGuarded]

theorem mem_assembliesChoices {choices : List Choice} {labels : List CaseLabel} {body : List Statement}
    (hbody : .mk labels body ∈ choices) (h : lines ∈ assembliesAll body) :
    lines ∈ assembliesChoices choices := by
  induction choices with
  | nil => cases hbody
  | cons first rest ih =>
    cases first
    grind [assembliesChoices]

end Statement

/-! ### Statements -/

namespace MethodContext

open Compile

variable {P : Draft → Prop} [Indifferent P] (m : MethodContext)

theorem keeps_term (e : Expr) : Keeps P (m.term e) := (m.steady_term e).keeps

theorem keeps_termOpt (e : Option Expr) : Keeps P (m.termOpt e) := (m.steady_termOpt e).keeps

theorem keeps_target (e : Expr) : Keeps P (m.target e) := (m.steady_target e).keeps

theorem keeps_labels (cs : List Choice) : Keeps P (m.labels cs) := (m.steady_labels cs).keeps

end MethodContext

namespace Statement

open Compile

variable {P : Draft → Prop} {m : MethodContext}

theorem keeps_block [Enduring P] (h : ∀ s ∈ ss, ∀ exits, Keeps P (s.commands m exits)) (exits : Exits) :
    Keeps P (block m exits ss) := by
  induction ss with
  | nil => exact keeps_pure _
  | cons s ss ih =>
    rw [block]
    refine keeps_bind (keeps_attempt (h s (.head _) exits)) fun _ => ?_
    exact keeps_bind (ih fun s hs => h s (.tail _ hs)) fun _ => keeps_pure _

theorem keeps_blocks {cs : List Choice}
    (h : ∀ labels body, Choice.mk labels body ∈ cs → ∀ exits, Keeps P (block m exits body))
    (exits : Exits) : Keeps P (blocks m exits cs) := by
  induction cs with
  | nil => exact keeps_pure _
  | cons c cs ih =>
    obtain ⟨labels, body⟩ := c
    rw [blocks]
    refine keeps_bind (h labels body (.head _) exits) fun _ => ?_
    exact keeps_bind (ih fun l b hb => h l b (.tail _ hb)) fun _ => keeps_pure _

variable [Indifferent P]

theorem keeps_guarded {hasElse : Bool} {otherwise : Compile (List Command)} (ho : Keeps P otherwise)
    (h : ∀ c negate body, Guarded.mk c negate body ∈ branches → ∀ exits, Keeps P (block m exits body))
    (exits : Exits) :
    Keeps P (guarded m exits hasElse otherwise branches) := by
  induction branches with
  | nil => exact ho
  | cons g rest ih =>
    obtain ⟨c, negate, body⟩ := g
    rw [guarded]
    refine keeps_bind (m.keeps_term c) fun _ => ?_
    refine keeps_bind (h c negate body (.head _) exits) fun _ => ?_
    split
    · exact keeps_pure _
    · exact keeps_bind (ih fun c n b hb => h c n b (.tail _ hb)) fun _ => keeps_pure _

/-- Blocks of assembly code that leave a property of the draft as it is. -/
def KeepsBlocks (P : Draft → Prop) (m : MethodContext) (written : List (List SourceLine)) : Prop :=
  ∀ lines ∈ written, ∀ location, Keeps P (inlineAssembly m.library m.method location lines)

/-- **A statement keeps a property** that the assembly code in it keeps, also when it is wrong. -/
theorem keeps_commands_of [Enduring P] (s : Statement) (h : KeepsBlocks P m s.assemblies) (exits : Exits) :
    Keeps P (s.commands m exits) := by
  -- what is known of the statements of a body, once the blocks in the body keep the property
  have inner : ∀ {body : List Statement},
      (∀ s ∈ body, KeepsBlocks P m s.assemblies → ∀ exits, Keeps P (s.commands m exits)) →
      KeepsBlocks P m (assembliesAll body) → ∀ exits, Keeps P (block m exits body) :=
    fun ih hbody => keeps_block fun s hs => ih s hs fun lines hl => hbody lines (mem_assembliesAll hs hl)
  induction s using Statement.induct generalizing exits with
  | conditional branches otherwise hb ho =>
    obtain ⟨hbranches, hotherwise⟩ := List.forall_mem_append.mp h
    refine keeps_guarded ?_ (fun c negate body hbody => inner (hb c negate body hbody) ?_) exits
    · cases otherwise <;> exact inner ho hotherwise exits
    · exact fun lines hl => hbranches lines (mem_assembliesGuarded hbody hl)
  | preLoop c isUntil body hb =>
    exact keeps_bind (m.keeps_term c) fun _ => keeps_bind (inner hb h _) fun _ => keeps_pure _
  | postLoop c isUntil body hb =>
    exact keeps_bind (inner hb h _) fun _ => keeps_bind (m.keeps_term c) fun _ => keeps_pure _
  | forever body hb => exact keeps_bind (inner hb h _) fun _ => keeps_pure _
  | countLoop n body hb =>
    exact keeps_bind (m.keeps_term n) fun _ => keeps_bind (inner hb h _) fun _ => keeps_pure _
  | rangeLoop target first last step body hb =>
    refine keeps_bind (m.keeps_term first) fun _ => keeps_bind (m.keeps_term last) fun _ => ?_
    refine keeps_bind (m.keeps_termOpt step) fun _ => keeps_bind (m.keeps_target target) fun (v, index) => ?_
    exact keeps_bind (m.keeps_termOpt index) fun _ => keeps_bind (inner hb h _) fun _ => keeps_pure _
  | forLoop init c step body hi hs hb =>
    obtain ⟨h, hstep⟩ := List.forall_mem_append.mp h
    obtain ⟨hinit, hbody⟩ := List.forall_mem_append.mp h
    refine keeps_bind (inner hi hinit _) fun _ => keeps_bind (m.keeps_termOpt c) fun _ => ?_
    exact keeps_bind (inner hb hbody _) fun _ => keeps_bind (inner hs hstep _) fun _ => keeps_pure _
  | switch value choices otherwise breakable hc ho =>
    obtain ⟨hotherwise, hchoices⟩ := List.forall_mem_append.mp h
    refine keeps_bind (m.keeps_term value) fun _ => keeps_bind (m.keeps_labels choices) fun _ => ?_
    refine keeps_bind ?_ fun _ => keeps_bind
      (keeps_blocks (fun labels body hbody => inner (hc labels body hbody) ?_) _) fun _ => keeps_pure _
    · cases otherwise <;> exact inner ho hotherwise (Command.switchExits exits breakable)
    · exact fun lines hl => hchoices lines (mem_assembliesChoices hbody hl)
  | leave l | next l =>
    rw [commands]
    split
    · exact keeps_pure _
    · exact leads_throw fun _ h => h
  | ret value | abort value => exact keeps_bind (m.keeps_termOpt value) fun _ => keeps_pure _
  | assign target op value => exact keeps_bind (m.steady_assign target op value).keeps fun _ => keeps_pure _
  | expression l value => exact keeps_bind (m.steady_expression l value).keeps fun _ => keeps_pure _
  | assembly l lines =>
    exact keeps_bind (h lines (List.mem_singleton_self _) l) fun _ => keeps_pure _
  | debug l arguments => exact (m.steady_debug l arguments).keeps

theorem keeps_body_of [Enduring P] (h : KeepsBlocks P m (assembliesAll ss)) : Keeps P (body m ss) := by
  refine keeps_bind (keeps_block (fun s hs => s.keeps_commands_of fun lines hl =>
    h lines (mem_assembliesAll hs hl)) _) fun _ => ?_
  split
  · exact keeps_pure _
  · exact keeps_pure _

/-- **A statement extends the draft,** also when it is wrong. -/
theorem keeps_commands (s : Statement) (exits : Exits) : Keeps d₀.Extends (s.commands m exits) :=
  s.keeps_commands_of (fun lines _ location => keeps_inlineAssembly _ _ location lines) exits

end Statement

namespace Compile

variable (config : Config) (library : Library) {P : Draft → Prop} [Enduring P] [Indifferent P]

theorem keeps_methodBody_of {m : MethodDraft} {decl : MethodDecl}
    (h : Statement.KeepsBlocks P ⟨config, library, m⟩ (Statement.assembliesAll decl.body)) :
    Keeps P (methodBody config library m decl) := by
  refine leads_bind (leads_modify (Q := fun _ => P) fun d hd => Indifferent.uses d _ hd) fun _ => ?_
  refine keeps_bind (Statement.keeps_body_of h) fun _ => ?_
  exact keeps_bind keeps_get fun _ => keeps_pure _

/-- **The bodies of methods keep a property** that the assembly code in them keeps. -/
theorem keeps_methodBodies_of {methods : List (MethodDraft × MethodDecl)}
    (h : ∀ m ∈ methods, Statement.KeepsBlocks P ⟨config, library, m.1⟩
      (Statement.assembliesAll m.2.body)) :
    Keeps P (methodBodies config library methods) := by
  induction methods with
  | nil => exact keeps_pure _
  | cons m rest ih =>
    exact keeps_bind (keeps_methodBody_of config library (h m (.head _))) fun _ =>
      keeps_bind (ih fun x hx => h x (.tail _ hx)) fun _ => keeps_pure _

variable {d₀ : Draft}

theorem keeps_methodBody (m : MethodDraft) (decl : MethodDecl) :
    Keeps d₀.Extends (methodBody config library m decl) :=
  keeps_methodBody_of config library fun _ _ _ => keeps_inlineAssembly _ _ _ _

/-- **The bodies of methods extend the draft.** -/
theorem keeps_methodBodies (methods : List (MethodDraft × MethodDecl)) :
    Keeps d₀.Extends (methodBodies config library methods) :=
  keeps_methodBodies_of config library fun _ _ _ _ _ => keeps_inlineAssembly _ _ _ _

end Compile

end Propeller
