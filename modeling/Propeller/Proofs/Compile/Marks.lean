import Mathlib.Algebra.Order.Group.Multiset
import Mathlib.Tactic.Abel
import Propeller.Proofs.Compile.WellFormed

/-!
# Compile — the lines of code

Code takes the numbers of its lines from a given one on.  The marks in the code of a term or of a
command are just these numbers, each of them once, in some order (`Term.lines_code`,
`Command.lines_code`).  All that is needed for this is that a switch has labels for each of its choices
(`Command.Paired`).  So no line of a method begins twice (`Command.nodup_marks`).
-/

namespace Propeller

variable {exits : Exits} {cs : List Command} {bs : List (List Command)}

namespace Listing

/-- The lines that begin in a listing, in order. -/
def marks : Listing → List LineId
  | []                 => []
  | .mark line :: rest => line :: marks rest
  | .code _ :: rest    => marks rest

@[simp]
theorem marks_nil : marks [] = [] := rfl

@[simp]
theorem marks_mark (line : LineId) (rest : Listing) : marks (.mark line :: rest) = line :: marks rest :=
  rfl

@[simp]
theorem marks_code (c : Code) (rest : Listing) : marks (.code c :: rest) = marks rest := rfl

@[simp]
theorem marks_append (a b : Listing) : marks (a ++ b) = marks a ++ marks b := by
  induction a with
  | nil => rfl
  | cons e a ih =>
    cases e with
    | mark line => exact congrArg (line :: ·) ih
    | code c => exact ih

/-- The lines that begin in a listing, in any order. -/
def lines (l : Listing) : Multiset LineId := marks l

@[simp]
theorem lines_nil : lines [] = 0 := rfl

@[simp]
theorem lines_mark (line : LineId) (rest : Listing) :
    lines (.mark line :: rest) = {line} + lines rest := rfl

@[simp]
theorem lines_code (c : Code) (rest : Listing) : lines (.code c :: rest) = lines rest := rfl

@[simp]
theorem lines_append (a b : Listing) : lines (a ++ b) = lines a + lines b := by
  rw [lines, marks_append]
  rfl

end Listing

/-- The numbers of `count` lines from one on. -/
def span (base : LineId) (count : Nat) : Multiset LineId := List.range' base count

@[simp]
theorem span_zero (base : LineId) : span base 0 = 0 := rfl

@[simp]
theorem span_one (base : LineId) : span base 1 = {base} := rfl

theorem span_add (base : LineId) (m n : Nat) : span base (m + n) = span base m + span (base + m) n := by
  rw [span, ← List.range'_append_1]
  rfl

theorem span_succ (base : LineId) (n : Nat) : span base (n + 1) = {base} + span (base + 1) n := by
  rw [Nat.add_comm, span_add, span_one]

theorem span_two (base : LineId) : span base 2 = {base} + {base + 1} := rfl

theorem span_three (base : LineId) : span base 3 = {base} + {base + 1} + {base + 2} := rfl

theorem span_four (base : LineId) :
    span base 4 = {base} + {base + 1} + {base + 2} + {base + 3} := rfl

attribute [local simp] Entry.op Entry.branch Variable.access

namespace Term

theorem lines_codeAll {ts : List Term}
    (h : ∀ t ∈ ts, ∀ base, Listing.lines (t.code base) = span base t.lines) (base : LineId) :
    Listing.lines (codeAll base ts) = span base (linesAll ts) := by
  induction ts generalizing base with
  | nil => rfl
  | cons t ts ih =>
    rw [codeAll, Listing.lines_append, h t (.head _),
      ih fun x hx => h x (.tail _ hx), linesAll, span_add]

/-- **The lines of a term** are numbered from its first one on. -/
theorem lines_code (t : Term) (base : LineId) :
    Listing.lines (t.code base) = span base t.lines := by
  induction t using Term.induct generalizing base with
  | constant value => rfl
  | read v index hi | address v index hi => simp [code, lines, codeOpt_eq, linesOpt_eq, lines_codeAll hi]
  | unary op operand ih => simp [code, lines, ih]
  | binary op left right ihl ihr => simp [code, lines, ihl, ihr, span_add]
  | ternary c yes no ihc ihy ihn =>
    simp only [code, lines, Listing.lines_append, Entry.branch, Listing.lines_code, Listing.lines_mark,
      Listing.lines_nil, ihc, ihy, ihn, span_add, span_two, Nat.add_assoc]
    abel
  | call m arguments index ha hi =>
    simp [code, lines, codeOpt_eq, linesOpt_eq, lines_codeAll ha, lines_codeAll hi, span_add]

theorem lines_all (ts : List Term) (base : LineId) :
    Listing.lines (codeAll base ts) = span base (linesAll ts) :=
  lines_codeAll (fun t _ => t.lines_code) base

theorem lines_opt (t : Option Term) (base : LineId) :
    Listing.lines (codeOpt base t) = span base (linesOpt t) := by
  rw [codeOpt_eq, linesOpt_eq, lines_all]

end Term

namespace Label

theorem lines_code (l : Label) (base target : LineId) :
    Listing.lines (l.code base target) = span base l.lines := by
  cases l with
  | value t => simp [code, lines, t.lines_code]
  | range low high => simp [code, lines, low.lines_code, high.lines_code, span_add]

theorem lines_codeAll (ls : List Label) (base target : LineId) :
    Listing.lines (codeAll base target ls) = span base (linesAll ls) := by
  induction ls generalizing base with
  | nil => rfl
  | cons l ls ih => rw [codeAll, Listing.lines_append, l.lines_code, ih, linesAll, span_add]

theorem lines_codeChoices (cs : List (List Label)) (base target : LineId) :
    Listing.lines (codeChoices base target cs) = span base (linesChoices cs) := by
  induction cs generalizing base target with
  | nil => rfl
  | cons c cs ih => rw [codeChoices, Listing.lines_append, lines_codeAll, ih, linesChoices, span_add]

end Label

namespace Command

theorem marks_exitCode (outer : List Enclosure) (e : Exit) : Listing.marks (exitCode outer e) = [] := by
  unfold exitCode
  split
  · rfl
  · rfl
  · rfl

theorem lines_exitCode (outer : List Enclosure) (e : Exit) : Listing.lines (exitCode outer e) = 0 :=
  congrArg Multiset.ofList (marks_exitCode outer e)

mutual

/-- Every switch in a command has labels for each of its choices. -/
def Paired : Command → Prop
  | ifThen _ _ yes            => PairedAll yes
  | ifElse _ _ yes no         => PairedAll yes ∧ PairedAll no
  | preLoop _ _ body          => PairedAll body
  | postLoop _ _ body         => PairedAll body
  | forever body              => PairedAll body
  | countLoop _ body          => PairedAll body
  | rangeLoop _ _ _ _ _ body  => PairedAll body
  | forLoop init _ step body  => PairedAll init ∧ PairedAll body ∧ PairedAll step
  | switch _ _ labels bodies otherwise =>
    labels.length = bodies.length ∧ PairedAll otherwise ∧ PairedBodies bodies
  | exit _ | ret _ | abort _ | assign _ _ _ _ | invoke _ _ _ | discard _ | assembly _ _
  | debug _ _                 => True

/-- Every switch in several commands has labels for each of its choices. -/
def PairedAll : List Command → Prop
  | []      => True
  | c :: cs => c.Paired ∧ PairedAll cs

/-- Every switch in the commands of choices has labels for each of its choices. -/
def PairedBodies : List (List Command) → Prop
  | []      => True
  | b :: bs => PairedAll b ∧ PairedBodies bs

end

theorem pairedAll_iff : PairedAll cs ↔ ∀ c ∈ cs, c.Paired := by
  induction cs with
  | nil => simp [PairedAll]
  | cons c cs ih => simp [PairedAll, ih]

theorem pairedBodies_iff : PairedBodies bs ↔ ∀ b ∈ bs, ∀ c ∈ b, c.Paired := by
  induction bs with
  | nil => simp [PairedBodies]
  | cons b bs ih => simp [PairedBodies, pairedAll_iff, ih]

theorem WellFormedAll.paired (h : ∀ c ∈ cs, ∀ exits, c.WellFormed exits → c.Paired)
    (hw : WellFormedAll exits cs) : PairedAll cs :=
  pairedAll_iff.mpr fun c hc => h c hc exits (wellFormedAll_iff.mp hw c hc)

theorem WellFormedBodies.paired (h : ∀ b ∈ bs, ∀ c ∈ b, ∀ exits, c.WellFormed exits → c.Paired)
    (hw : WellFormedBodies exits bs) : PairedBodies bs :=
  pairedBodies_iff.mpr fun b hb c hc => h b hb c hc exits (wellFormedBodies_iff.mp hw b hb c hc)

theorem WellFormed.paired (c : Command) (exits : Exits) (hw : c.WellFormed exits) : c.Paired := by
  induction c using Command.induct generalizing exits with
  | ifThen negate c yes hy => exact WellFormedAll.paired hy hw.2
  | ifElse negate c yes no hy hn =>
    exact ⟨WellFormedAll.paired hy hw.2.1, WellFormedAll.paired hn hw.2.2⟩
  | preLoop isUntil c body hb | postLoop isUntil c body hb => exact WellFormedAll.paired hb hw.2
  | forever body hb => exact WellFormedAll.paired hb hw
  | countLoop count body hb => exact WellFormedAll.paired hb hw.2
  | rangeLoop v index first last step body hb => exact WellFormedAll.paired hb hw.2.2.2.2
  | forLoop init c step body hi hs hb =>
    exact ⟨WellFormedAll.paired hi hw.1, WellFormedAll.paired hb hw.2.2.1,
      WellFormedAll.paired hs hw.2.2.2⟩
  | switch breakable value labels bodies otherwise hb ho =>
    exact ⟨hw.2.2.1, WellFormedAll.paired ho hw.2.2.2.1, WellFormedBodies.paired hb hw.2.2.2.2⟩
  | _ => trivial

/-- The lines of a command are numbered from its first one on. -/
def Numbered (c : Command) : Prop :=
  ∀ outer base, c.Paired → Listing.lines (c.code outer base) = span base c.lines

theorem lines_codeAll (h : ∀ c ∈ cs, c.Numbered) (hw : PairedAll cs) (outer : List Enclosure)
    (base : LineId) : Listing.lines (codeAll outer base cs) = span base (linesAll cs) := by
  induction cs generalizing base with
  | nil => rfl
  | cons c cs ih =>
    rw [codeAll, Listing.lines_append, h c (.head _) _ _ hw.1,
      ih (fun x hx => h x (.tail _ hx)) hw.2, linesAll, span_add]

/-- The choices of a switch begin and end at lines of their own. -/
theorem lines_codeBodies (h : ∀ b ∈ bs, ∀ c ∈ b, c.Numbered) (hw : PairedBodies bs)
    (outer : List Enclosure) (base choices ends : LineId) :
    Listing.lines (codeBodies outer base choices ends bs) =
      span choices bs.length + span ends bs.length + span base (linesBodies bs) := by
  induction bs generalizing base choices ends with
  | nil => rfl
  | cons b bs ih =>
    simp only [codeBodies, Listing.lines_append, Listing.lines_mark, Entry.op, Listing.lines_code,
      Listing.lines_nil, lines_codeAll (h b (.head _)) hw.1,
      ih (fun x hx => h x (.tail _ hx)) hw.2, List.length_cons, linesBodies,
      span_succ, span_add]
    abel

/-- **The lines of a command** are numbered from its first one on. -/
theorem lines_code (c : Command) : c.Numbered := by
  induction c using Command.induct with
    (intro outer base hw
     simp only [code, lines, Listing.lines_append, Listing.lines_mark, Entry.branch,
       Variable.access, Entry.op, Listing.lines_code, Listing.lines_nil, Term.lines_code,
       Term.lines_all, Term.lines_opt, Label.lines_codeChoices, lines_exitCode, Term.linesOpt, span_add,
       span_one, span_two, span_three, span_four, Nat.add_assoc, add_zero])
  | ifThen negate c yes hy =>
    rw [lines_codeAll hy hw]
    abel
  | ifElse negate c yes no hy hn =>
    rw [lines_codeAll hy hw.1, lines_codeAll hn hw.2]
    abel
  | preLoop _ _ body hb | postLoop _ _ body hb | forever body hb | countLoop _ body hb =>
    rw [lines_codeAll hb hw]
    abel
  | rangeLoop v index first last step body hb =>
    rw [lines_codeAll hb hw]
    abel
  | forLoop init c step body hi hs hb =>
    have hskip : Listing.lines (if c.isSome then [.code (.branch .jz (base + 3))] else []) = 0 := by
      split <;> rfl
    rw [hskip, lines_codeAll hi hw.1, lines_codeAll hb hw.2.1, lines_codeAll hs hw.2.2]
    abel
  | switch breakable value labels bodies otherwise hb ho =>
    rw [lines_codeAll ho hw.2.1, lines_codeBodies hb hw.2.2, hw.1]
    abel
  | assign | update | invoke => abel

/-- **Every line of a body begins once.** -/
theorem marks_perm (h : PairedAll cs) :
    (Listing.marks (body cs).listing).Perm (List.range (body cs).lineCount) := by
  have hlines : Listing.lines (body cs).listing = span 0 (linesAll cs) :=
    lines_codeAll (fun c _ => c.lines_code) h [] 0
  rw [List.range_eq_range']
  exact Multiset.coe_eq_coe.mp hlines

/-- **No line begins twice** in the body of a method. -/
theorem nodup_marks (h : WellFormedAll exits cs) : (Listing.marks (body cs).listing).Nodup :=
  (marks_perm (WellFormedAll.paired (fun c _ => WellFormed.paired c) h)).nodup_iff.mpr
    List.nodup_range

end Command

end Propeller
