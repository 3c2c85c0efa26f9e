import Propeller.Proofs.Compile.Extends
import Propeller.Proofs.Compile.Texts

/-!
# Compile — numbers of blocks and descriptors

A block of assembly code is numbered by how many blocks there were before it, and a descriptor by how many
descriptors there were.  Converting lines of assembly code binds names and makes labels, and adds nothing
of the kind (`Compile.steady_convert`), so a block gets the next number (`Compile.inlineAssembly_eq_ok`).
It refers to the local variables that it finds in registers, and to nothing else.
-/

namespace Propeller

variable {library : Library} {m : MethodDraft} {location : Location} {lines : List SourceLine}
  {d d' : Draft} {c : Command} {scope : ScopeId}

/-- A draft has the blocks, the descriptors and the references of another one, and what that one reports. -/
structure Draft.Matches (d d' : Draft) : Prop where
  blocks_eq : d'.blocks = d.blocks
  debug_eq : d'.debug = d.debug
  uses_eq : d'.uses = d.uses
  report_prefix : d.report.entries <+: d'.report.entries

theorem Draft.Matches.refl (d : Draft) : d.Matches d := ⟨rfl, rfl, rfl, List.prefix_refl _⟩

instance Draft.untouchedMatches (d : Draft) : Compile.Untouched d.Matches where
  declares h hd := ⟨h.blocks_eq.trans hd.blocks_eq, h.debug_eq.trans hd.debug_eq, h.uses_eq.trans hd.uses_eq,
    hd.report_prefix.trans (by
      rcases h.report_eq with heq | ⟨_, _, heq⟩
      · exact heq ▸ List.prefix_refl _
      · exact heq ▸ List.prefix_append ..)⟩
  fatal _ _ _ hd := { hd with report_prefix := hd.report_prefix.trans (List.prefix_append ..) }

/-! ### What a block is made of -/

/-- The lines behind the origin that lines of assembly code begin with. -/
def behindOrigin : List SourceLine → List SourceLine
  | [] => []
  | line :: rest =>
    if line.directive? = some .org ∧ line.label.isNone then rest else line :: rest

/-- Lines of assembly code begin with an origin, or they have none and begin at 0. -/
def BeginsAt (s : Scopes) (scope : ScopeId) (origin : Int) : List SourceLine → Prop
  | [] => origin = 0
  | line :: _ =>
    if line.directive? = some .org ∧ line.label.isNone then
      match line.operands with
      | []     => origin = 0
      | o :: _ => ∃ n, o.value.constantValue s scope = .ok n ∧ origin = n.toInt
    else origin = 0

/-- A line of assembly code holds what a written line says. -/
structure HoldsContent (library : Library) (source : SourceLine) (line : AsmLine) : Prop where
  location_eq : line.location = source.location
  content_eq : ∃ s scope, source.content library s scope = .ok line.content

/-- The instruction that ends a block of assembly code. -/
def AsmLine.IsReturn (line : AsmLine) : Prop := ∃ location, Compile.returnLine location = .ok line

/-- A block is made of lines that are written. -/
structure InlineBlock.MadeOf (library : Library) (lines : List SourceLine) (b : InlineBlock) :
    Prop where
  begins : ∃ s scope, BeginsAt s scope b.origin lines
  lines_eq : ∃ converted last, List.Forall₂ (HoldsContent library) (behindOrigin lines) converted ∧
    last.IsReturn ∧ b.lines = converted ++ [last]

namespace Compile

variable {α : Type}

theorem liftExcept_eq_ok {x : Except (Located CompileError) α} {a : α}
    (h : (liftExcept x : Compile α) d = .ok a d') : x = .ok a ∧ d' = d := by
  cases x with
  | error e => cases h
  | ok b =>
    cases h
    exact ⟨rfl, rfl⟩

theorem modifyGet_eq_ok {f : Draft → α × Draft} {a : α} (h : (modifyGet f : Compile α) d = .ok a d') :
    a = (f d).1 ∧ d' = (f d).2 := by
  cases h
  exact ⟨rfl, rfl⟩

theorem splitOrigin_eq_ok {rest : List SourceLine} {origin : Int}
    (h : splitOrigin scope lines d = .ok (origin, rest) d') :
    rest = behindOrigin lines ∧ BeginsAt d.scopes scope origin lines := by
  cases lines with
  | nil =>
    cases h
    exact ⟨rfl, rfl⟩
  | cons line more =>
    rw [splitOrigin] at h
    rw [behindOrigin, BeginsAt]
    split at h
    · next horg =>
      rw [if_pos horg, if_pos horg]
      cases hoperands : line.operands with
      | nil =>
        rw [hoperands] at h
        cases h
        exact ⟨rfl, rfl⟩
      | cons o os =>
        rw [hoperands] at h
        obtain ⟨_, _, hget, h⟩ := bind_eq_ok h
        cases hget
        obtain ⟨n, _, hn, h⟩ := bind_eq_ok h
        cases h
        exact ⟨rfl, _, (liftExcept_eq_ok hn).1, rfl⟩
    · next horg =>
      rw [if_neg horg, if_neg horg]
      cases h
      exact ⟨rfl, rfl⟩

theorem convert_holdsContent {converted : List AsmLine}
    (h : convert library scope lines d = .ok converted d') (he : d'.report.errors = d.report.errors) :
    List.Forall₂ (HoldsContent library) lines converted := by
  obtain ⟨first, d₁, hfirst, h⟩ := bind_eq_ok h
  obtain ⟨bound, d₂, hbound, h⟩ := bind_eq_ok h
  have h₁ := (steady_pushScope scope).of_ok (Draft.Matches.refl d) hfirst
  have h₂ := (steady_bindLabels _ _ _).of_ok h₁ hbound
  have h₃ := (steady_convertLines _ _).of_ok (Draft.Matches.refl d₂) h
  rw [← Binds.lines_eq (bindLabels_binds hbound).1, List.forall₂_map_left_iff]
  refine (convertLines_forall₂ h (Report.errors_eq_of_prefix h₂.report_prefix h₃.report_prefix he).2).imp fun entry line hline => ?_
  obtain ⟨content, hcontent, rfl⟩ := asmLine?_eq_some hline
  exact ⟨rfl, _, _, hcontent⟩

/-- **A block of assembly code** gets the next number, and the command says its origin and its number. -/
theorem inlineAssembly_eq_ok (h : inlineAssembly library m location lines d = .ok c d') :
    ∃ b : InlineBlock, c = .assembly (b.origin % 2 ^ 32).toNat d.blocks.length ∧
      d'.blocks = d.blocks ++ [b] ∧ d'.debug = d.debug ∧
      d'.uses = m.registers.foldl (fun u r => u.mark (.localVar r.1.id)) d.uses ∧
      (d'.report.errors = d.report.errors → b.MadeOf library lines) := by
  obtain ⟨scope, d₁, hscope, h⟩ := bind_eq_ok h
  have h₁ := (steady_pushScope m.scope).of_ok (Draft.Matches.refl d) hscope
  obtain ⟨_, d₂, huses, h⟩ := bind_eq_ok h
  cases huses
  obtain ⟨_, d₃, hregisters, h⟩ := bind_eq_ok h
  have h₃ := (steady_bindRegisters _ _).of_ok (Draft.Matches.refl _) hregisters
  obtain ⟨⟨origin, rest⟩, d₄, horigin, h⟩ := bind_eq_ok h
  have h₄ := (steady_splitOrigin _ _).of_ok h₃ horigin
  obtain ⟨rfl, hbegins⟩ := splitOrigin_eq_ok horigin
  obtain ⟨converted, d₅, hconverted, h⟩ := bind_eq_ok h
  have h₅ := (steady_convert _ _ _).of_ok (Draft.Matches.refl d₄) hconverted
  obtain ⟨last, _, hlast, hadd⟩ := bind_eq_ok h
  obtain ⟨hreturn, rfl⟩ := liftExcept_eq_ok hlast
  obtain ⟨rfl, rfl⟩ := modifyGet_eq_ok hadd
  have hblocks := h₅.blocks_eq.trans (h₄.blocks_eq.trans h₁.blocks_eq)
  refine ⟨⟨origin, converted ++ [last]⟩, by rw [← hblocks], by rw [← hblocks],
    h₅.debug_eq.trans (h₄.debug_eq.trans h₁.debug_eq), ?_, fun he => ?_⟩
  · rw [← h₁.uses_eq]
    exact h₅.uses_eq.trans h₄.uses_eq
  · have hbefore := h₁.report_prefix.trans h₄.report_prefix
    refine ⟨⟨_, scope, hbegins⟩, converted, last, ?_, ⟨location, hreturn⟩, rfl⟩
    exact convert_holdsContent hconverted (Report.errors_eq_of_prefix hbefore h₅.report_prefix he).2

end Compile

/-- An instruction runs a block that is made of lines that are written, and says its origin in 32 bits. -/
def RunsBlock (library : Library) (blocks : List InlineBlock) (lines : List SourceLine)
    (inline : Nat × Nat) : Prop :=
  ∃ b, blocks[inline.2]? = some b ∧ b.MadeOf library lines ∧ inline.1 = (b.origin % 2 ^ 32).toNat

/-! ### Texts of a draft -/

/-- A block is made of lines as they are written. -/
def InlineBlock.ComesFrom (library : Library) (b : InlineBlock) (lines : List SourceLine) : Prop :=
  ∃ m location c d d', Compile.inlineAssembly library m location lines d = .ok c d' ∧
    d'.blocks = d.blocks ++ [b]

/-- The blocks and descriptors of texts are added to a draft. -/
structure Draft.Adds (library : Library) (d d' : Draft) (texts : List Text) : Prop where
  blocks : ∃ new, d'.blocks = d.blocks ++ new ∧
    List.Forall₂ (InlineBlock.ComesFrom library) new (texts.filterMap Text.assembly?)
  records : d'.debug.records = d.debug.records ++
    (texts.filterMap Text.debug?).map fun arguments =>
      DebugTable.descriptor (arguments.map DebugArgument.item)

/-- Texts may have the numbers that they get behind those of a draft. -/
structure Draft.Numbers (Num : Text → Nat → Prop) (d : Draft) (texts : List Text) : Prop where
  blocks : ∀ p ∈ (texts.filterMap Text.assembly?).zipIdx d.blocks.length, Num (.assembly p.1) p.2
  records : ∀ p ∈ (texts.filterMap Text.debug?).zipIdx d.debug.records.length, Num (.debug p.1) p.2

namespace Draft

variable {Num : Text → Nat → Prop} {d₁ d₂ : Draft} {texts more : List Text}

theorem Adds.nil (hblocks : d₁.blocks = d.blocks) (hdebug : d₁.debug = d.debug) : d.Adds library d₁ [] where
  blocks := ⟨[], by simp [hblocks], .nil⟩
  records := by simp [hdebug]

theorem Adds.append (h : d.Adds library d₁ texts) (h' : d₁.Adds library d₂ more) :
    d.Adds library d₂ (texts ++ more) where
  blocks := by
    obtain ⟨new, hnew, hall⟩ := h.blocks
    obtain ⟨new', hnew', hall'⟩ := h'.blocks
    refine ⟨new ++ new', by rw [hnew', hnew, List.append_assoc], ?_⟩
    rw [List.filterMap_append]
    exact List.rel_append hall hall'
  records := by
    rw [h'.records, h.records, List.filterMap_append, List.map_append, List.append_assoc]

theorem Numbers.left (h : d.Numbers Num (texts ++ more)) : d.Numbers Num texts where
  blocks p hp := h.blocks p (by simp [List.zipIdx_append, hp])
  records p hp := h.records p (by simp [List.zipIdx_append, hp])

theorem Numbers.right (h : d.Numbers Num (texts ++ more)) (hd : d.Adds library d₁ texts) :
    d₁.Numbers Num more where
  blocks p hp := by
    obtain ⟨new, hnew, hall⟩ := hd.blocks
    refine h.blocks p ?_
    rw [hnew, List.length_append, hall.length_eq] at hp
    simp [List.zipIdx_append, hp]
  records p hp := by
    refine h.records p ?_
    rw [hd.records, List.length_append, List.length_map] at hp
    simp [List.zipIdx_append, hp]

end Draft

end Propeller
