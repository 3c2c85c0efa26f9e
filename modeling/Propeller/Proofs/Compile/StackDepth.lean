import Mathlib.Tactic.Simps.Basic
import Propeller.Proofs.Compile.Instructions
import Propeller.Proofs.Compile.TermDepth

/-!
# Compile — the depth of the stack

Each line of a compiled method is given the shape that the stack has where it begins: between commands
this is what the constructs around hold, and in the code of terms also what has been computed for them
(`Command.entries`).  The code of the method is consistent with these shapes, and so no instruction ever
takes more from the stack than is there.

* `Command.flow_code`: a command leaves the stack as it found it, or never gets to its end.
* `parts_consistent`: this holds for every method of an object and everywhere in it.
-/

namespace Propeller

variable {breakable : Bool} {stop ends line : LineId} {cs : List Command} {bs : List (List Command)}
  {c d : Command} {exits : Exits} {s : Option Shape} {q : Setting}

/-! ### Where commands stand -/

namespace Command

/-- What a switch offers its commands. -/
def selection (breakable : Bool) (stop : LineId) : Enclosure :=
  { targets := if breakable then [(.leave, stop)] else [], held := 2 }

variable {next stop : LineId} {held : Nat} {outer : List Enclosure}

theorem findExit_loop_leave : findExit .leave (loop next stop held :: outer) = some (stop, held) := rfl

theorem findExit_loop_next : findExit .next (loop next stop held :: outer) = some (next, 0) := rfl

theorem findExit_selection_leave : findExit .leave (selection true stop :: outer) = some (stop, 2) := rfl

/-- A switch that cannot be left is passed, and its next round always. -/
theorem findExit_selection {e : Exit} (h : e = .leave → breakable = false) :
    findExit e (selection breakable stop :: outer) =
      (findExit e outer).map fun (line, n) => (line, 2 + n) := by
  cases e with
  | leave => rw [h rfl]; rfl
  | next => cases breakable <;> rfl

end Command

/-- Where a command stands in a method: the constructs around it, what these hold on the stack, and the
number of its first line. -/
structure Setting where
  outer : List Enclosure := []
  cells : List Cell := []
  base : LineId := 0

namespace Setting

variable {E : LineId → Option Shape} {p : Setting}

/-- The shape between commands. -/
def level (p : Setting) : Shape := { cells := p.cells }

/-- The same setting, with lines from another number on. -/
@[simps outer base]
def on (p : Setting) (base : LineId) : Setting := { p with base }

/-- Inside of a loop, which holds longs. -/
@[simps outer base]
def inLoop (p : Setting) (next stop : LineId) (held : Nat) (base : LineId) : Setting where
  outer := Command.loop next stop held :: p.outer
  cells := List.replicate held .long ++ p.cells
  base := base

/-- Inside of a switch, which holds its value and the address of its end. -/
@[simps outer base]
def inSwitch (p : Setting) (breakable : Bool) (stop base : LineId) : Setting where
  outer := Command.selection breakable stop :: p.outer
  cells := .long :: .exit stop :: p.cells
  base := base

/-- Control never gets here, or it finds what the constructs around hold. -/
def Reached (p : Setting) (s : Option Shape) : Prop := s = none ∨ s = some p.level

/-- What is on the stack is what the constructs around hold, and each of their lines that can be jumped
to begins with what is left when the longs in between are dropped. -/
structure Supported (E : LineId → Option Shape) (p : Setting) : Prop where
  depth_eq : p.cells.length = (p.outer.map Enclosure.held).sum
  exits : ∀ e line n, findExit e p.outer = some (line, n) →
    n ≤ p.cells.length ∧ E line = some { cells := p.cells.drop n }

theorem supported_outermost : Supported E {} where
  depth_eq := rfl
  exits := by simp [findExit]

theorem Supported.on (h : p.Supported E) (base : LineId) : (p.on base).Supported E := ⟨h.1, h.2⟩

theorem Supported.inLoop (h : p.Supported E) {next : LineId} {held : Nat}
    (hnext : E next = some (p.level.push held)) (hstop : E stop = some p.level) (base : LineId) :
    (p.inLoop next stop held base).Supported E where
  depth_eq := by simp [Setting.inLoop, Command.loop, h.depth_eq]
  exits := by
    intro e line n hf
    cases e with
    | leave =>
      cases Option.some.inj (Command.findExit_loop_leave.symm.trans hf)
      refine ⟨by simp [Setting.inLoop], hstop.trans ?_⟩
      simp [Setting.inLoop, level]
    | next =>
      cases Option.some.inj (Command.findExit_loop_next.symm.trans hf)
      exact ⟨Nat.zero_le _, hnext⟩

theorem Supported.inSwitch (h : p.Supported E) (hstop : E stop = some p.level) (base : LineId) :
    (p.inSwitch breakable stop base).Supported E where
  depth_eq := by
    simp only [Setting.inSwitch, Command.selection, List.length_cons, List.map_cons, List.sum_cons,
      h.depth_eq]
    exact Nat.add_comm _ 2
  exits := by
    intro e line n hf
    by_cases hleave : e = .leave ∧ breakable = true
    · obtain ⟨rfl, rfl⟩ := hleave
      cases Option.some.inj (Command.findExit_selection_leave.symm.trans hf)
      exact ⟨by simp [Setting.inSwitch], hstop⟩
    · -- what is dropped further out lies below the two longs of the switch
      have hpass : e = .leave → breakable = false := fun he => by simpa [he] using hleave
      rw [Setting.inSwitch, Command.findExit_selection hpass] at hf
      obtain ⟨⟨line', n'⟩, hout, ⟨⟩⟩ := Option.map_eq_some_iff.mp hf
      obtain ⟨hle, hE⟩ := h.exits e line n' hout
      rw [Nat.add_comm]
      exact ⟨Nat.succ_le_succ (Nat.succ_le_succ hle), hE⟩

/-- Code that begins with a line between commands, and then leaves the stack as it is there. -/
theorem Reached.enter {s : Option Shape} (hs : p.Reached s) {line : LineId} (hl : E line = some p.level)
    {rest : Listing} (h : Listing.flow E (some p.level) rest = some (some p.level)) :
    ∃ t, Listing.flow E s (.mark line :: rest) = some t ∧ p.Reached t :=
  ⟨_, (Listing.flow_mark hs hl rest).trans h, .inr rfl⟩

end Setting

attribute [local simp] Entry.op Entry.branch Variable.access

namespace Command

open Listing (flow_mark flow_trans flow_jmp flow_plain flow_append_eq_some)

mutual

/-- The shapes that the lines in the code of a command begin with. -/
def entries (p : Setting) : Command → List (LineId × Shape)
  | ifThen _ c yes =>
    [(p.base, p.level)] ++ c.entries (p.base + 2) p.level ++
      entriesAll (p.on (p.base + 2 + c.lines)) yes ++ [(p.base + 1, p.level)]
  | ifElse _ c yes no =>
    [(p.base, p.level)] ++ c.entries (p.base + 4) p.level ++
      entriesAll (p.on (p.base + 4 + c.lines)) yes ++
      [(p.base + 2, p.level), (p.base + 1, p.level)] ++
      entriesAll (p.on (p.base + 4 + c.lines + linesAll yes)) no ++ [(p.base + 3, p.level)]
  | preLoop _ c body =>
    [(p.base, p.level)] ++ c.entries (p.base + 3) p.level ++
      entriesAll (p.inLoop p.base (p.base + 2) 0 (p.base + 3 + c.lines)) body ++
      [(p.base + 1, p.level), (p.base + 2, p.level)]
  | postLoop _ c body =>
    [(p.base, p.level)] ++
      entriesAll (p.inLoop (p.base + 1) (p.base + 2) 0 (p.base + 3 + c.lines)) body ++
      [(p.base + 1, p.level)] ++ c.entries (p.base + 3) p.level ++ [(p.base + 2, p.level)]
  | forever body =>
    [(p.base, p.level)] ++ entriesAll (p.inLoop (p.base + 1) (p.base + 2) 0 (p.base + 3)) body ++
      [(p.base + 1, p.level), (p.base + 2, p.level)]
  | countLoop n body =>
    [(p.base, p.level)] ++ n.entries (p.base + 4) p.level ++ [(p.base + 1, p.level.push 1)] ++
      entriesAll (p.inLoop (p.base + 2) (p.base + 3) 1 (p.base + 4 + n.lines)) body ++
      [(p.base + 2, p.level.push 1), (p.base + 3, p.level)]
  | rangeLoop _ index first last step body =>
    let second := p.base + 4 + first.lines
    let third := second + last.lines
    let fourth := third + step.lines
    [(p.base, p.level)] ++ first.entries (p.base + 4) p.level ++
      last.entries second (p.level.push 1) ++ step.entries third (p.level.push 2) ++
      Term.entriesOpt fourth (p.level.push 3) index ++ [(p.base + 1, p.level.push 4)] ++
      entriesAll (p.inLoop (p.base + 2) (p.base + 3) 4 (fourth + Term.linesOpt index)) body ++
      [(p.base + 2, p.level.push 4), (p.base + 3, p.level)]
  | forLoop init c step body =>
    let second := p.base + 4 + linesAll init
    let third := second + Term.linesOpt c
    entriesAll (p.on (p.base + 4)) init ++ [(p.base, p.level)] ++
      Term.entriesOpt second p.level c ++
      entriesAll (p.inLoop (p.base + 1) (p.base + 3) 0 third) body ++ [(p.base + 1, p.level)] ++
      entriesAll (p.inLoop (p.base + 1) (p.base + 3) 0 (third + linesAll body)) step ++
      [(p.base + 2, p.level), (p.base + 3, p.level)]
  | switch breakable value labels bodies otherwise =>
    let ends := p.base + 3 + labels.length
    let first := ends + bodies.length
    let second := first + value.lines
    let third := second + Label.linesChoices labels
    let inner := p.inSwitch breakable (p.base + 2)
    [(p.base, p.level)] ++ value.entries first { cells := .exit (p.base + 2) :: p.cells } ++
      Label.entriesChoices second (inner third).level labels ++ entriesAll (inner third) otherwise ++
      [(p.base + 1, (inner third).level)] ++
      entriesBodies (inner (third + linesAll otherwise)) (p.base + 3) ends bodies ++
      [(p.base + 2, p.level)]
  | exit _ => [(p.base, p.level)]
  | ret value => [(p.base, p.level)] ++ Term.entriesOpt (p.base + 1) p.level value
  | abort value => [(p.base, p.level)] ++ Term.entriesOpt (p.base + 1) p.level value
  | assign _ index none value =>
    [(p.base, p.level)] ++ value.entries (p.base + 1) p.level ++
      Term.entriesOpt (p.base + 1 + value.lines) (p.level.push 1) index
  | assign _ index (some _) value =>
    let second := p.base + 1 + Term.linesOpt index
    [(p.base, p.level)] ++ Term.entriesOpt (p.base + 1) p.level index ++
      value.entries second (p.level.push 1) ++
      Term.entriesOpt (second + value.lines) (p.level.push 1) index
  | invoke _ arguments index =>
    let first := p.level.anchor false
    [(p.base, p.level)] ++ Term.entriesAll (p.base + 1) first arguments ++
      Term.entriesOpt (p.base + 1 + Term.linesAll arguments) (first.push arguments.length) index
  | discard t => [(p.base, p.level)] ++ t.entries (p.base + 1) p.level
  | assembly _ _ => [(p.base, p.level)]
  | debug values _ => [(p.base, p.level)] ++ Term.entriesAll (p.base + 1) p.level values

/-- The shapes that the lines in the code of several commands begin with. -/
def entriesAll (p : Setting) : List Command → List (LineId × Shape)
  | []      => []
  | c :: cs => c.entries p ++ entriesAll (p.on (p.base + c.lines)) cs

/-- The shapes that the lines in the code of the commands of several choices begin with. -/
def entriesBodies (p : Setting) (choices ends : LineId) :
    List (List Command) → List (LineId × Shape)
  | []      => []
  | b :: bs =>
    [(choices, p.level)] ++ entriesAll p b ++ [(ends, p.level)] ++
      entriesBodies (p.on (p.base + linesAll b)) (choices + 1) (ends + 1) bs

end

theorem fst_entriesAll
    (h : ∀ c ∈ cs, ∀ p, (c.entries p).map Prod.fst = Listing.marks (c.code p.outer p.base)) (p : Setting) :
    (entriesAll p cs).map Prod.fst = Listing.marks (codeAll p.outer p.base cs) := by
  induction cs generalizing p with
  | nil => rfl
  | cons c cs ih =>
    simp [entriesAll, codeAll, h c (.head _),
      ih fun x hx => h x (.tail _ hx)]

theorem fst_entriesBodies
    (h : ∀ b ∈ bs, ∀ c ∈ b, ∀ p, (c.entries p).map Prod.fst = Listing.marks (c.code p.outer p.base))
    (p : Setting) (choices ends : LineId) :
    (entriesBodies p choices ends bs).map Prod.fst =
      Listing.marks (codeBodies p.outer p.base choices ends bs) := by
  induction bs generalizing p choices ends with
  | nil => rfl
  | cons b bs ih =>
    simp [entriesBodies, codeBodies, fst_entriesAll (h b (.head _)),
      ih fun x hx => h x (.tail _ hx)]

/-- The lines that are given shapes are those of the code, in the same order. -/
theorem fst_entries (c : Command) (p : Setting) :
    (c.entries p).map Prod.fst = Listing.marks (c.code p.outer p.base) := by
  induction c using Command.induct generalizing p with
  | ifThen negate c yes hy => simp [entries, code, c.fst_entries, fst_entriesAll hy]
  | ifElse negate c yes no hy hn =>
    simp [entries, code, c.fst_entries, fst_entriesAll hy, fst_entriesAll hn]
  | preLoop _ c body hb | postLoop _ c body hb => simp [entries, code, c.fst_entries, fst_entriesAll hb]
  | forever body hb => simp [entries, code, fst_entriesAll hb]
  | countLoop count body hb => simp [entries, code, count.fst_entries, fst_entriesAll hb]
  | rangeLoop v index first last step body hb =>
    simp [entries, code, first.fst_entries, last.fst_entries, step.fst_entries, Term.fst_opt,
      fst_entriesAll hb]
  | forLoop init c step body hi hs hb =>
    cases c <;> simp [entries, code, Term.fst_opt, fst_entriesAll hi, fst_entriesAll hs, fst_entriesAll hb]
  | switch breakable value labels bodies otherwise hb ho =>
    simp [entries, code, value.fst_entries, Label.fst_entriesChoices labels _ (p.base + 3),
      fst_entriesAll ho, fst_entriesBodies hb, selection]
  | exit e => simp [entries, code, marks_exitCode]
  | _ => simp [entries, code, Term.entriesOpt, Term.fst_entries, Term.fst_all, Term.fst_opt]

/-- The commands of several choices, one after the other. -/
def choiceBlocks (p : Setting) : List (List Command) → List (Setting × List Command)
  | []      => []
  | b :: bs => (p, b) :: choiceBlocks (p.on (p.base + linesAll b)) bs

/-- The lists of commands in a command, and where they stand. -/
def blocks (p : Setting) : Command → List (Setting × List Command)
  | ifThen _ c yes    => [(p.on (p.base + 2 + c.lines), yes)]
  | ifElse _ c yes no =>
    [(p.on (p.base + 4 + c.lines), yes), (p.on (p.base + 4 + c.lines + linesAll yes), no)]
  | preLoop _ c body  => [(p.inLoop p.base (p.base + 2) 0 (p.base + 3 + c.lines), body)]
  | postLoop _ c body => [(p.inLoop (p.base + 1) (p.base + 2) 0 (p.base + 3 + c.lines), body)]
  | forever body      => [(p.inLoop (p.base + 1) (p.base + 2) 0 (p.base + 3), body)]
  | countLoop n body  => [(p.inLoop (p.base + 2) (p.base + 3) 1 (p.base + 4 + n.lines), body)]
  | rangeLoop _ index first last step body =>
    let fourth := p.base + 4 + first.lines + last.lines + step.lines
    [(p.inLoop (p.base + 2) (p.base + 3) 4 (fourth + Term.linesOpt index), body)]
  | forLoop init c step body =>
    let third := p.base + 4 + linesAll init + Term.linesOpt c
    [(p.on (p.base + 4), init), (p.inLoop (p.base + 1) (p.base + 3) 0 third, body),
      (p.inLoop (p.base + 1) (p.base + 3) 0 (third + linesAll body), step)]
  | switch breakable value labels bodies otherwise =>
    let third := p.base + 3 + labels.length + bodies.length + value.lines + Label.linesChoices labels
    let inner := p.inSwitch breakable (p.base + 2)
    (inner third, otherwise) :: choiceBlocks (inner (third + linesAll otherwise)) bodies
  | _ => []

variable {E : LineId → Option Shape} {p : Setting}

/-- What is needed for the code of a command to be consistent. -/
structure Typed (E : LineId → Option Shape) (p : Setting) (c : Command) : Prop where
  supported : p.Supported E
  fits : Fits E (c.entries p)
  wellFormed : ∃ exits, c.WellFormed exits

/-- What is needed for the code of several commands to be consistent. -/
structure TypedAll (E : LineId → Option Shape) (p : Setting) (cs : List Command) : Prop where
  supported : p.Supported E
  fits : Fits E (entriesAll p cs)
  wellFormed : ∃ exits, WellFormedAll exits cs

theorem TypedAll.head (h : TypedAll E p (c :: cs)) :
    c.Typed E p where
  supported := h.supported
  fits := (fits_append.mp h.fits).1
  wellFormed := h.wellFormed.imp fun _ hw => hw.1

theorem TypedAll.tail (h : TypedAll E p (c :: cs)) :
    TypedAll E (p.on (p.base + c.lines)) cs where
  supported := h.supported.on _
  fits := (fits_append.mp h.fits).2
  wellFormed := h.wellFormed.imp fun _ hw => hw.2

theorem typedAll_choices (hp : p.Supported E) {choices : LineId}
    (hf : Fits E (entriesBodies p choices ends bs)) (hw : WellFormedBodies exits bs) :
    ∀ q ∈ choiceBlocks p bs, TypedAll E q.1 q.2 := by
  induction bs generalizing p choices ends with
  | nil => intro q hq; cases hq
  | cons b bs ih =>
    simp only [entriesBodies, fits_append] at hf
    intro q hq
    rcases List.mem_cons.mp hq with rfl | hq
    · exact ⟨hp, hf.1.1.2, exits, hw.1⟩
    · exact ih (hp.on _) hf.2 hw.2 q hq

/-- In a command that has what it needs, so has everything inside. -/
theorem Typed.blocks (h : c.Typed E p) : ∀ q ∈ c.blocks p, TypedAll E q.1 q.2 := by
  obtain ⟨hp, hf, exits, hw⟩ := h
  induction c using Command.induct with
    (simp only [entries, fits_append, fits_cons] at hf
     simp only [Command.blocks, List.forall_mem_cons, List.not_mem_nil, false_imp_iff, implies_true,
       and_true])
  | ifThen negate c yes =>
    exact ⟨hp.on _, hf.1.2, exits, hw.2⟩
  | ifElse negate c yes no =>
    obtain ⟨⟨⟨⟨-, hyes⟩, -⟩, hno⟩, -⟩ := hf
    exact ⟨⟨hp.on _, hyes, exits, hw.2.1⟩, ⟨hp.on _, hno, exits, hw.2.2⟩⟩
  | preLoop isUntil c body =>
    obtain ⟨⟨⟨⟨htop, -⟩, -⟩, hbody⟩, -, hstop, -⟩ := hf
    exact ⟨hp.inLoop htop hstop _, hbody, .inLoop, hw.2⟩
  | postLoop isUntil c body =>
    obtain ⟨⟨⟨⟨-, hbody⟩, hnext, -⟩, -⟩, hstop, -⟩ := hf
    exact ⟨hp.inLoop hnext hstop _, hbody, .inLoop, hw.2⟩
  | forever body =>
    obtain ⟨⟨-, hbody⟩, hnext, hstop, -⟩ := hf
    exact ⟨hp.inLoop hnext hstop _, hbody, .inLoop, hw⟩
  | countLoop count body =>
    obtain ⟨⟨-, hbody⟩, hnext, hstop, -⟩ := hf
    exact ⟨hp.inLoop hnext hstop _, hbody, .inLoop, hw.2⟩
  | rangeLoop v index first last step body =>
    obtain ⟨⟨-, hbody⟩, hnext, hstop, -⟩ := hf
    exact ⟨hp.inLoop hnext hstop _, hbody, .inLoop, hw.2.2.2.2⟩
  | forLoop init c step body =>
    obtain ⟨⟨⟨⟨⟨⟨hinit, -⟩, -⟩, hbody⟩, hnext, -⟩, hstep⟩, -, hstop, -⟩ := hf
    have hinner : ∀ base, (p.inLoop (p.base + 1) (p.base + 3) 0 base).Supported E :=
      hp.inLoop hnext hstop
    exact ⟨⟨hp.on _, hinit, exits, hw.1⟩, ⟨hinner _, hbody, .inLoop, hw.2.2.1⟩,
      ⟨hinner _, hstep, .inLoop, hw.2.2.2⟩⟩
  | switch breakable value labels bodies otherwise =>
    obtain ⟨⟨⟨⟨-, hotherwise⟩, -⟩, hbodies⟩, hstop, -⟩ := hf
    exact ⟨⟨hp.inSwitch hstop _, hotherwise, _, hw.2.2.2.1⟩,
      typedAll_choices (hp.inSwitch hstop _) hbodies hw.2.2.2.2⟩

/-- The code of a command that can be reached leaves the stack as it found it, or never gets to its
end. -/
def Balanced (E : LineId → Option Shape) (c : Command) : Prop :=
  ∀ p s, c.Typed E p → p.Reached s →
    ∃ t, Listing.flow E s (c.code p.outer p.base) = some t ∧ p.Reached t

theorem Balanced.all (h : ∀ c ∈ cs, c.Balanced E) (ht : TypedAll E p cs) (hs : p.Reached s) :
    ∃ t, Listing.flow E s (codeAll p.outer p.base cs) = some t ∧ p.Reached t := by
  induction cs generalizing p s with
  | nil => exact ⟨s, rfl, hs⟩
  | cons c cs ih =>
    obtain ⟨t, hc, hreach⟩ := h c (.head _) p s ht.head hs
    rw [codeAll, flow_trans hc]
    exact ih (fun x hx => h x (.tail _ hx)) ht.tail hreach

/-- Commands in a construct lead to the line that follows them. -/
theorem Balanced.through (h : ∀ c ∈ cs, c.Balanced E) (ht : TypedAll E p cs) (hl : E line = some p.level)
    (rest : Listing) :
    Listing.flow E (some p.level) (codeAll p.outer p.base cs ++ .mark line :: rest) =
      Listing.flow E (some p.level) rest := by
  obtain ⟨t, hcs, hreach⟩ := Balanced.all h ht (.inr rfl)
  rw [flow_trans hcs, flow_mark hreach hl]

/-- Each choice is reached from a comparison only, and goes to the end of the switch. -/
theorem Balanced.choices (h : ∀ b ∈ bs, ∀ c ∈ b, c.Balanced E) {cells : List Cell} {choices : LineId}
    (hcells : p.cells = .long :: .exit stop :: cells) (ht : ∀ q ∈ choiceBlocks p bs, TypedAll E q.1 q.2)
    (hf : Fits E (entriesBodies p choices ends bs)) (hstop : E stop = some { cells }) :
    Listing.flow E none (codeBodies p.outer p.base choices ends bs) = some none := by
  induction bs generalizing p choices ends with
  | nil => rfl
  | cons b bs ih =>
    simp only [entriesBodies, fits_append, fits_cons] at hf
    obtain ⟨⟨⟨⟨hchoice, -⟩, -⟩, hend, -⟩, hrest⟩ := hf
    obtain ⟨hb, hbs⟩ := List.forall_mem_cons.mp ht
    have hlevel : p.level = { cells := .long :: .exit stop :: cells } := by
      rw [Setting.level, hcells]
    simp only [codeBodies, Entry.op, List.append_assoc, List.cons_append, List.nil_append]
    rw [flow_mark (.inl rfl) hchoice,
      Balanced.through (h b (.head _)) hb hend, hlevel, Listing.flow_caseDone hstop]
    have hcells' : (p.on (p.base + linesAll b)).cells = .long :: .exit stop :: cells := hcells
    exact ih (fun x hx => h x (.tail _ hx)) hcells' hbs hrest

theorem flow_skipUnless {negate : Bool} {r : Shape} (h : E line = some r) (rest : Listing) :
    Listing.flow E (some (r.push 1)) (.branch (skipUnless negate) line :: rest) =
      Listing.flow E (some r) rest := by
  cases negate with
  | true => exact Listing.flow_jnz h rest
  | false => exact Listing.flow_jz h rest

/-- A jump out of constructs drops what they hold. -/
theorem flow_exitCode (h : p.Supported E) (e : Exit) :
    ∃ t, Listing.flow E (some p.level) (exitCode p.outer e) = some t ∧ p.Reached t := by
  unfold exitCode
  split
  · exact ⟨_, rfl, .inr rfl⟩
  · next line hexit =>
      obtain ⟨-, hline⟩ := h.exits e line 0 hexit
      exact ⟨none, flow_jmp hline [], .inl rfl⟩
  · next line n _ hexit =>
      obtain ⟨hle, hline⟩ := h.exits e line n hexit
      refine ⟨none, ?_, .inl rfl⟩
      rw [Listing.flow_pop hle]
      exact flow_jmp hline []

/-- The lines of the choices of a switch are given the shape inside of it. -/
theorem fits_choices {choices : LineId} (hf : Fits E (entriesBodies p choices ends bs)) (i : Nat)
    (hi : i < bs.length) : E (choices + i) = some p.level := by
  induction bs generalizing p choices ends i with
  | nil => nomatch hi
  | cons b bs ih =>
    simp only [entriesBodies, fits_append, fits_cons] at hf
    obtain ⟨⟨⟨⟨hchoice, -⟩, -⟩, -⟩, hrest⟩ := hf
    cases i with
    | zero => exact hchoice
    | succ i =>
      rw [Nat.add_comm i 1, ← Nat.add_assoc]
      exact ih hrest i (Nat.lt_of_succ_lt_succ hi)

/-- **A command leaves the stack as it found it**, or never gets to its end. -/
theorem flow_code (c : Command) : c.Balanced E := by
  induction c using Command.induct with
    (intro p s ht hs
     have hblocks := ht.blocks
     simp only [Command.blocks, List.forall_mem_cons] at hblocks
     obtain ⟨hp, hf, _, hw⟩ := ht
     simp only [entries, fits_append, fits_cons] at hf
     simp only [code, List.append_assoc, List.cons_append, List.nil_append])
  | ifThen negate c yes hy =>
    obtain ⟨⟨⟨⟨hstart, -⟩, hc⟩, -⟩, hstop, -⟩ := hf
    refine hs.enter hstart ?_
    refine (flow_trans (c.flow_code _ _ hw.1 hc)).trans ?_
    refine (flow_skipUnless hstop _).trans ?_
    exact Balanced.through hy hblocks.1 hstop []
  | ifElse negate c yes no hy hn =>
    obtain ⟨⟨⟨⟨⟨⟨hstart, -⟩, hc⟩, -⟩, hskip, halt, -⟩, -⟩, hstop, -⟩ := hf
    refine hs.enter hstart ?_
    refine (flow_trans (c.flow_code _ _ hw.1 hc)).trans ?_
    refine (flow_skipUnless halt _).trans ?_
    refine (Balanced.through hy hblocks.1 hskip _).trans ?_
    refine (flow_jmp hstop _).trans ?_
    refine (flow_mark (.inl rfl) halt _).trans ?_
    exact Balanced.through hn hblocks.2.1 hstop []
  | preLoop isUntil c body hb =>
    obtain ⟨⟨⟨⟨htop, -⟩, hc⟩, -⟩, hagain, hstop, -⟩ := hf
    refine hs.enter htop ?_
    refine (flow_trans (c.flow_code _ _ hw.1 hc)).trans ?_
    refine (flow_skipUnless hstop _).trans ?_
    refine (Balanced.through hb hblocks.1 hagain _).trans ?_
    refine (flow_jmp htop _).trans ?_
    exact flow_mark (.inl rfl) hstop []
  | postLoop isUntil c body hb =>
    obtain ⟨⟨⟨⟨⟨htop, -⟩, -⟩, hnext, -⟩, hc⟩, hstop, -⟩ := hf
    refine hs.enter htop ?_
    refine (Balanced.through hb hblocks.1 hnext _).trans ?_
    refine (flow_trans (c.flow_code _ _ hw.1 hc)).trans ?_
    refine (flow_skipUnless htop _).trans ?_
    exact flow_mark (.inr rfl) hstop []
  | forever body hb =>
    obtain ⟨⟨⟨htop, -⟩, -⟩, hnext, hstop, -⟩ := hf
    refine hs.enter htop ?_
    refine (Balanced.through hb hblocks.1 hnext _).trans ?_
    refine (flow_jmp htop _).trans ?_
    exact flow_mark (.inl rfl) hstop []
  | countLoop count body hb =>
    obtain ⟨⟨⟨⟨⟨hstart, -⟩, hc⟩, htop, -⟩, -⟩, hnext, hstop, -⟩ := hf
    refine hs.enter hstart ?_
    refine (flow_trans (count.flow_code _ _ hw.1 hc)).trans ?_
    refine (Listing.flow_tjz hstop _).trans ?_
    refine (flow_mark (.inr rfl) htop _).trans ?_
    refine (Balanced.through hb hblocks.1 hnext _).trans ?_
    refine (Listing.flow_djnz htop _).trans ?_
    exact flow_mark (.inr rfl) hstop []
  | rangeLoop v index first last step body hb =>
    obtain ⟨hfirst, hlast, hstep, hindex, -⟩ := hw
    obtain ⟨⟨⟨⟨⟨⟨⟨⟨hstart, -⟩, hf₁⟩, hf₂⟩, hf₃⟩, hf₄⟩, htop, -⟩, -⟩, hnext, hstop, -⟩ := hf
    refine hs.enter hstart ?_
    refine (flow_trans (first.flow_code _ _ hfirst hf₁)).trans ?_
    refine (flow_trans (last.flow_code _ _ hlast hf₂)).trans ?_
    refine (flow_trans (step.flow_code _ _ hstep hf₃)).trans ?_
    refine (flow_trans (Term.flow_codeOpt hindex hf₄)).trans ?_
    rw [Shape.push_push, Variable.access, flow_plain rfl]
    refine (flow_mark (.inr rfl) htop _).trans ?_
    refine (Balanced.through hb hblocks.1 hnext _).trans ?_
    refine (Listing.flow_repeatLoop htop _).trans ?_
    exact flow_mark (.inr rfl) hstop []
  | forLoop init c step body hi hst hb =>
    obtain ⟨hinit, hbody, hstep, -⟩ := hblocks
    obtain ⟨-, hc, -⟩ := hw
    obtain ⟨⟨⟨⟨⟨⟨-, htop, -⟩, hfc⟩, -⟩, hnext, -⟩, -⟩, hagain, hstop, -⟩ := hf
    obtain ⟨t, hflow, hreach⟩ := Balanced.all hi hinit hs
    have htest : ∀ rest, Listing.flow E (some (p.level.push c.isSome.toNat))
        ((if c.isSome then [.branch .jz (p.base + 3)] else []) ++ rest) =
          Listing.flow E (some p.level) rest := by
      intro rest
      cases c with
      | none => rfl
      | some c => exact Listing.flow_jz hstop rest
    refine ⟨some p.level, ?_, .inr rfl⟩
    refine (flow_trans hflow).trans ?_
    refine (flow_mark hreach htop _).trans ?_
    refine (flow_trans (Term.flow_codeOpt hc hfc)).trans ?_
    refine (htest _).trans ?_
    refine (Balanced.through hb hbody hnext _).trans ?_
    refine (Balanced.through hst hstep hagain _).trans ?_
    refine (flow_jmp htop _).trans ?_
    exact flow_mark (.inl rfl) hstop []
  | switch breakable value labels bodies otherwise hb ho =>
    obtain ⟨hvalue, hlabels, hlength, -⟩ := hw
    obtain ⟨⟨⟨⟨⟨⟨⟨hstart, -⟩, hfv⟩, hfl⟩, -⟩, hdone, -⟩, hfb⟩, hstop, -⟩ := hf
    have htargets : ∀ i < labels.length, E (p.base + 3 + i) = _ :=
      fun i hi => fits_choices hfb i (hlength ▸ hi)
    refine hs.enter hstart ?_
    refine (Listing.flow_pushTarget _).trans ?_
    refine (flow_trans (value.flow_code _ _ hvalue hfv)).trans ?_
    refine (flow_trans (Label.flow_codeChoices hlabels htargets hfl)).trans ?_
    refine (Balanced.through ho hblocks.1 hdone _).trans ?_
    refine (Listing.flow_caseDone hstop _).trans ?_
    refine (flow_trans (Balanced.choices hb rfl hblocks.2 hfb hstop)).trans ?_
    exact flow_mark (.inl rfl) hstop []
  | exit e =>
    obtain ⟨t, hexit, hreach⟩ := flow_exitCode hp e
    exact ⟨t, (flow_mark hs hf.1 _).trans hexit, hreach⟩
  | ret | abort => exact ⟨none, flow_mark hs hf.1.1 _, .inl rfl⟩
  | retValue t | abortValue t =>
    refine ⟨none, (flow_mark hs hf.1.1 _).trans ?_, .inl rfl⟩
    exact flow_trans (t.flow_code _ _ hw hf.2)
  | assign v index value =>
    obtain ⟨⟨⟨hstart, -⟩, hfv⟩, hfi⟩ := hf
    refine hs.enter hstart ?_
    refine (flow_trans (value.flow_code _ _ hw.2 hfv)).trans ?_
    refine (flow_trans (Term.flow_codeOpt hw.1 hfi)).trans ?_
    rw [Shape.push_push, Variable.access, flow_plain rfl]
    rfl
  | update v index op value =>
    obtain ⟨⟨⟨⟨hstart, -⟩, hfi⟩, hfv⟩, hfi'⟩ := hf
    refine hs.enter hstart ?_
    refine (flow_trans (Term.flow_codeOpt hw.1 hfi)).trans ?_
    rw [Variable.access, flow_plain rfl]
    refine (flow_trans (value.flow_code _ _ hw.2 hfv)).trans ?_
    rw [Shape.push_push, Entry.op, flow_plain rfl]
    refine (flow_trans (Term.flow_codeOpt hw.1 hfi')).trans ?_
    rw [Shape.push_push, Variable.access, flow_plain rfl]
    rfl
  | invoke m arguments index =>
    obtain ⟨hlength, harguments, hindex⟩ := hw
    obtain ⟨⟨⟨hstart, -⟩, hfa⟩, hfi⟩ := hf
    refine hs.enter hstart ?_
    refine (Listing.flow_anchor _).trans ?_
    refine (flow_trans (Term.flow_codeAll harguments hfa)).trans ?_
    refine (flow_trans (Term.flow_codeOpt hindex hfi)).trans ?_
    rw [Shape.push_push, hlength]
    have hdropped : false = true → m.returns ≠ 0 := fun h => absurd h Bool.false_ne_true
    exact Listing.flow_call hdropped []
  | discard t =>
    refine hs.enter hf.1.1 ?_
    refine (flow_trans (t.flow_code _ _ hw hf.2)).trans ?_
    have hone : 1 ≤ (p.level.push 1).depth := Nat.succ_pos _
    exact Listing.flow_pop hone []
  | assembly origin block =>
    refine hs.enter hf.1 ?_
    exact flow_plain (c := .inline origin block) rfl p.level []
  | debug values record =>
    obtain ⟨hlength, hvalues⟩ := hw
    rw [Nat.min_eq_left hlength]
    refine hs.enter hf.1.1 ?_
    refine (flow_trans (Term.flow_codeAll hvalues hf.2)).trans ?_
    exact flow_plain (c := .debug values.length record) rfl p.level []

/-! ### Everywhere in a method -/

/-- A command stands in a list of commands or somewhere inside of one of them. -/
inductive Stands : Setting → List Command → Setting → Command → Prop
  | head (p : Setting) (c : Command) (cs : List Command) : Stands p (c :: cs) p c
  | tail {p q : Setting} {c d : Command} {cs : List Command} :
    Stands (p.on (p.base + c.lines)) cs q d → Stands p (c :: cs) q d
  | inner {p q r : Setting} {c d : Command} {cs block : List Command} :
    (q, block) ∈ c.blocks p → Stands q block r d → Stands p (c :: cs) r d

/-- What is a part of something is a part of it with something behind. -/
theorem infix_before {part whole : Listing} (h : part <:+: whole) (rest : Listing) :
    part <:+: whole ++ rest :=
  h.trans (List.prefix_append whole rest).isInfix

theorem infix_choices {choices : LineId} :
    ∀ q ∈ choiceBlocks p bs,
      codeAll q.1.outer q.1.base q.2 <:+: codeBodies p.outer p.base choices ends bs := by
  induction bs generalizing p choices ends with
  | nil => intro q hq; nomatch hq
  | cons b bs ih =>
    intro q hq
    rcases List.mem_cons.mp hq with rfl | hq
    · exact infix_before ⟨_, _, rfl⟩ _
    · exact (ih q hq).trans (List.suffix_append _ _).isInfix

/-- The code of what is inside of a command is a part of its code. -/
theorem infix_blocks (c : Command) :
    ∀ q ∈ c.blocks p, codeAll q.1.outer q.1.base q.2 <:+: c.code p.outer p.base := by
  cases c with simp only [Command.blocks, List.forall_mem_cons, List.not_mem_nil, false_imp_iff, implies_true,
    and_true]
  | ifThen negate c yes =>
    exact ⟨_, _, rfl⟩
  | ifElse negate c yes no =>
    exact ⟨infix_before (infix_before ⟨_, _, rfl⟩ _) _, ⟨_, _, rfl⟩⟩
  | preLoop isUntil c body =>
    exact ⟨_, _, rfl⟩
  | postLoop isUntil c body =>
    exact infix_before (infix_before ⟨_, _, rfl⟩ _) _
  | forever body | countLoop count body | rangeLoop v index first last step body =>
    exact ⟨_, _, rfl⟩
  | forLoop init c step body =>
    refine ⟨?_, ?_, ⟨_, _, rfl⟩⟩
    · exact infix_before (infix_before (infix_before (infix_before (infix_before (infix_before
        (List.prefix_append _ _).isInfix _) _) _) _) _) _
    · exact infix_before (infix_before ⟨_, _, rfl⟩ _) _
  | switch breakable value labels bodies otherwise =>
    refine ⟨infix_before (infix_before ⟨_, _, rfl⟩ _) _, fun q hq => ?_⟩
    exact infix_before ((infix_choices q hq).trans (List.suffix_append _ _).isInfix) _

theorem Stands.infix (h : Stands p cs q d) : d.code q.outer q.base <:+: codeAll p.outer p.base cs := by
  induction h with
  | head p c cs => exact (List.prefix_append _ _).isInfix
  | tail _ ih => exact ih.trans (List.suffix_append _ _).isInfix
  | inner hblock _ ih => exact infix_before (ih.trans (infix_blocks _ _ hblock)) _

theorem Stands.typed (h : Stands p cs q d) (ht : TypedAll E p cs) : d.Typed E q := by
  induction h with
  | head p c cs => exact ht.head
  | tail _ ih => exact ih ht.tail
  | inner hblock _ ih => exact ih (ht.head.blocks _ hblock)

/-- The code of a command begins with a line between commands. -/
theorem begins (c : Command) (p : Setting) : ∃ line rest others,
    c.code p.outer p.base = .mark line :: rest ∧ c.entries p = (line, p.level) :: others := by
  induction c using Command.induct generalizing p with
  | forLoop init c step body hi =>
    cases init with
    | nil => exact ⟨_, _, _, rfl, rfl⟩
    | cons first init =>
      obtain ⟨line, rest, others, hcode, hentries⟩ :=
        hi first (.head _) (p.on (p.base + 4))
      have hcode' : first.code p.outer (p.base + 4) = .mark line :: rest := hcode
      have hentries' : first.entries (p.on (p.base + 4)) = (line, p.level) :: others := hentries
      simp only [code, codeAll, entries, entriesAll, hcode', hentries', List.cons_append]
      exact ⟨_, _, _, rfl, rfl⟩
  | _ => exact ⟨_, _, _, rfl, rfl⟩

/-- So a command that is consistent is reached with what the constructs around hold. -/
theorem Typed.reached (ht : c.Typed E p) {r : Option Shape}
    (h : Listing.flow E s (c.code p.outer p.base) = some r) : p.Reached s := by
  obtain ⟨line, rest, others, hcode, hentries⟩ := c.begins p
  have hline : E line = some p.level := (fits_cons.mp (hentries ▸ ht.fits)).1
  rw [hcode] at h
  obtain ⟨x, hx, hs, -⟩ := Listing.flow_mark_eq_some h
  cases hline.symm.trans hx
  exact hs

/-- The code of the commands of a method, with what is on the stack where each of its lines begins: every
instruction finds what it takes, and every way to a line leads there with what the line begins with.
What is on the stack before and after a command, if control gets there, are the longs that the
constructs around hold, and a term adds one long to what it finds. -/
structure Consistent (E : LineId → Option Shape) (cs : List Command) : Prop where
  wellFormed : ∃ exits, WellFormedAll exits cs
  lines : ∀ line, (E line).isSome ↔ line ∈ Listing.marks (body cs).listing
  flow : ∃ r, Listing.flow E (some {}) (body cs).listing = some r ∧ (r = none ∨ r = some {})
  commands : ∀ (p : Setting) (c : Command), Stands {} cs p c → ∃ before after s r,
    (body cs).listing = before ++ c.code p.outer p.base ++ after ∧
    Listing.flow E (some {}) before = some s ∧
    Listing.flow E s (c.code p.outer p.base) = some r ∧
    p.Reached s ∧ p.Reached r ∧ p.level.depth = (p.outer.map Enclosure.held).sum
  terms : ∀ before (t : Term) base after, t.Saturated →
    (body cs).listing = before ++ t.code base ++ after → ∃ s : Shape,
      Listing.flow E (some {}) before = some (some s) ∧
      Listing.flow E (some s) (t.code base) = some (some (s.push 1))

theorem Consistent.of_typed (ht : TypedAll E {} cs)
    (hlines : ∀ line, (E line).isSome ↔ line ∈ Listing.marks (body cs).listing) : Consistent E cs := by
  obtain ⟨r, hflow, hr⟩ := Balanced.all (fun c _ => c.flow_code) ht (.inr rfl)
  refine ⟨ht.wellFormed, hlines, ⟨r, hflow, hr⟩, ?_, ?_⟩
  · intro p c hstands
    have hc := hstands.typed ht
    obtain ⟨before, after, hsplit⟩ := hstands.infix
    obtain ⟨u, hfront, -⟩ := flow_append_eq_some.mp (hsplit ▸ hflow)
    obtain ⟨s, hbefore, hcode⟩ := flow_append_eq_some.mp hfront
    have hs := hc.reached hcode
    obtain ⟨u', hcode', hreached⟩ := c.flow_code p s hc hs
    exact ⟨before, after, s, u', hsplit.symm, hbefore, hcode', hs, hreached, hc.supported.depth_eq⟩
  · intro before t base after hsaturated hsplit
    have hflow' : Listing.flow E (some {}) (body cs).listing = some r := hflow
    rw [hsplit] at hflow'
    obtain ⟨u, hfront, -⟩ := flow_append_eq_some.mp hflow'
    obtain ⟨s, hbefore, hcode⟩ := flow_append_eq_some.mp hfront
    obtain ⟨x, rfl, rfl⟩ := t.push_of_flow base s u hsaturated hcode
    exact ⟨x, hbefore, hcode⟩

/-- The code of well-formed commands is consistent with the shapes that its lines are given. -/
theorem exists_consistent (h : WellFormedAll exits cs) : ∃ E, Consistent E cs := by
  have hkeys : (entriesAll {} cs).map Prod.fst = Listing.marks (body cs).listing :=
    fst_entriesAll (fun c _ => c.fst_entries) {}
  have hfits := fits_lookup (hkeys ▸ nodup_marks h)
  refine ⟨_, Consistent.of_typed ⟨Setting.supported_outermost, hfits, exits, h⟩ fun line => ?_⟩
  rw [← hkeys, List.lookup_isSome_iff]
  simp

end Command

/-- **The code of every method is consistent**, if debugging is off: its lines can be given what is on the
stack when they begin. -/
theorem parts_consistent {config : Config} {library : Library} {nodes : List Node} {unitName : String}
    {parts : Parts} {d : Draft}
    (h : Compile.parts config library nodes (Draft.initial unitName) = .ok parts d)
    (hdebug : config.debug = false) {m : MethodDraft} (hm : m ∈ parts.methods) :
    ∃ E, Command.Consistent E m.body := by
  obtain ⟨t⟩ := Compile.parts_stages h
  refine Command.exists_consistent (Compile.yields_methodBodies (fun hon => ?_) _ _ _ t.bodies_eq m hm)
  nomatch hdebug.symm.trans hon

/-- A method with a switch in a counted loop: the first choice goes on with the next round, the second one
leaves the loop. -/
def exitsInSwitch : List Node :=
  let number (v : Int64) : Expr := .literal {} (Literal.ofInt v)
  let choices : List Choice :=
    [.mk [.value (number 5)] [.next {}], .mk [.range (number 1) (number 2)] [.leave {}]]
  [.method {
    isPublic := true
    name := ⟨⟨"main"⟩, {}⟩
    body := [.repeatLoop (some (number 3)) [.switch (number 5) choices none false]] }]

/-- The method has fourteen lines, and its code is consistent. -/
theorem parts_consistent_exitsInSwitch :
    ∃ (parts : Parts) (d : Draft) (m : MethodDraft),
      Compile.parts {} {} exitsInSwitch (Draft.initial "t") = .ok parts d ∧ m ∈ parts.methods ∧
      (Command.body m.body).lineCount = 14 ∧ ∃ E, Command.Consistent E m.body := by
  have hcount : (match Compile.parts {} {} exitsInSwitch (Draft.initial "t") with
      | .ok parts _ => parts.methods.map fun m => (Command.body m.body).lineCount
      | .error _ _  => []) = [14] := by decide +kernel
  cases hparts : Compile.parts {} {} exitsInSwitch (Draft.initial "t") with
  | error e d =>
    rw [hparts] at hcount
    nomatch hcount
  | ok parts d =>
    rw [hparts] at hcount
    obtain ⟨m, hm, hlines⟩ := List.mem_map.mp (hcount ▸ List.mem_singleton_self 14)
    exact ⟨parts, d, m, rfl, hm, hlines, parts_consistent hparts rfl hm⟩

end Propeller
