import Propeller.Proofs.Compile.Instructions
import Propeller.Proofs.Compile.Translation

/-!
# Compile — closed bodies

The body of a method is closed: every line of it begins once, every branch leads to one of its lines, and
behind its last instruction control goes back to the caller (`Body.Closed`, `methodBody_closed`).

A branch leads to a line of the command that it belongs to, or out of it to a line that a construct around
offers.  So if all these lines are below a number, then no branch leads beyond it (`Listing.Below`,
`Command.below_code`).
-/

namespace Propeller

variable {ts : List Term} {base target stop : Nat} {t : Option Term} {cs : List Command}
  {bs : List (List Command)} {ss : List Statement}

/-! ### Where branches lead -/

/-- No branch of a listing leads to the line `n` or beyond. -/
def Listing.Below (n : Nat) (l : Listing) : Prop :=
  ∀ (branch : Branch) (line : Nat), Entry.branch branch line ∈ l → line < n

namespace Listing

variable {n : Nat} {rest : Listing}

@[simp]
theorem below_nil : Below n [] := by simp [Below]

@[simp]
theorem below_cons {e : Entry} :
    Below n (e :: rest) ↔ (∀ branch (line : Nat), e = .branch branch line → line < n) ∧ Below n rest := by
  simp [Below, or_imp, forall_and, eq_comm]

@[simp]
theorem below_append {a b : Listing} : Below n (a ++ b) ↔ Below n a ∧ Below n b := by
  simp [Below, or_imp, forall_and]

end Listing

attribute [local simp] Entry.op Entry.branch Variable.access

open Listing (below_nil below_append)

namespace Term

variable {n : Nat}

theorem below_codeAll (h : ∀ t ∈ ts, ∀ base : Nat, base + t.lines ≤ n → Listing.Below n (t.code base))
    (hn : base + linesAll ts ≤ n) : Listing.Below n (codeAll base ts) := by
  induction ts generalizing base with
  | nil => exact below_nil
  | cons t ts ih =>
    rw [linesAll] at hn
    refine below_append.mpr ⟨h t (.head _) base (by omega), ?_⟩
    exact ih (fun x hx => h x (.tail _ hx)) (by omega)

/-- **A branch in a term** leads to a line of the term. -/
theorem below_code (t : Term) (hn : base + t.lines ≤ n) : Listing.Below n (t.code base) := by
  induction t using Term.induct generalizing base with
  | constant value => simp [code]
  | read v index hi | address v index hi =>
    rw [lines, linesOpt_eq] at hn
    simp [code, codeOpt_eq, below_codeAll hi hn]
  | unary op operand ih =>
    rw [lines] at hn
    simp [code, ih hn]
  | binary op left right ihl ihr =>
    rw [lines] at hn
    simp (disch := omega) [code, ihl, ihr]
  | ternary c yes no ihc ihy ihn =>
    rw [lines] at hn
    simp (disch := omega) [code, ihc, ihy, ihn]
    omega
  | call m arguments index ha hi =>
    rw [lines, linesOpt_eq] at hn
    simp (disch := omega) [code, codeOpt_eq, below_codeAll ha, below_codeAll hi]

theorem below_all (hn : base + linesAll ts ≤ n) : Listing.Below n (codeAll base ts) :=
  below_codeAll (fun t _ _ => t.below_code) hn

theorem below_opt (hn : base + linesOpt t ≤ n) : Listing.Below n (codeOpt base t) := by
  rw [linesOpt_eq] at hn
  exact codeOpt_eq t base ▸ below_all hn

end Term

namespace Label

variable {n : Nat}

theorem below_code (l : Label) (hn : base + l.lines ≤ n) (ht : target < n) :
    Listing.Below n (l.code base target) := by
  cases l with
  | value t =>
    rw [lines] at hn
    simp [code, t.below_code hn, ht]
  | range low high =>
    rw [lines] at hn
    simp (disch := omega) [code, low.below_code, high.below_code, ht]

theorem below_codeAll {ls : List Label} (hn : base + linesAll ls ≤ n) (ht : target < n) :
    Listing.Below n (codeAll base target ls) := by
  induction ls generalizing base with
  | nil => exact below_nil
  | cons l ls ih =>
    rw [linesAll] at hn
    exact below_append.mpr ⟨l.below_code (by omega) ht, ih (by omega)⟩

theorem below_codeChoices {cs : List (List Label)} (hn : base + linesChoices cs ≤ n)
    (ht : target + cs.length ≤ n) : Listing.Below n (codeChoices base target cs) := by
  induction cs generalizing base target with
  | nil => exact below_nil
  | cons c cs ih =>
    rw [linesChoices] at hn
    rw [List.length_cons] at ht
    exact below_append.mpr ⟨below_codeAll (by omega) (by omega), ih (by omega) (by omega)⟩

end Label

namespace Command

variable {n : Nat} {outer : List Enclosure}

/-- Every line that a construct offers is below `n`. -/
def OffersBelow (n : Nat) (outer : List Enclosure) : Prop :=
  ∀ c ∈ outer, ∀ target ∈ c.targets, target.2 < n

theorem OffersBelow.inLoop (h : OffersBelow n outer) {next : Nat} (held : Nat) (hnext : next < n)
    (hstop : stop < n) : OffersBelow n (loop next stop held :: outer) := by
  intro c hc
  rcases List.mem_cons.mp hc with rfl | hc
  · simpa [loop] using ⟨hstop, hnext⟩
  · exact h c hc

theorem OffersBelow.inSwitch (h : OffersBelow n outer) (breakable : Bool) (held : Nat) (hstop : stop < n) :
    OffersBelow n ({ targets := if breakable then [(.leave, stop)] else [], held } :: outer) := by
  intro c hc
  rcases List.mem_cons.mp hc with rfl | hc
  · cases breakable <;> simp [hstop]
  · exact h c hc

theorem OffersBelow.findExit_lt (h : OffersBelow n outer) {e : Exit} {line : Nat} {held : Nat}
    (hfind : findExit e outer = some (line, held)) : line < n := by
  induction outer generalizing held with
  | nil => cases hfind
  | cons c outer ih =>
    rw [findExit] at hfind
    cases hlookup : c.targets.lookup e with
    | some target =>
      rw [hlookup] at hfind
      cases hfind
      obtain ⟨before, after, htargets, -⟩ := List.lookup_eq_some_iff.mp hlookup
      exact h c (.head _) (e, line) (by simp [htargets])
    | none =>
      rw [hlookup] at hfind
      obtain ⟨⟨target, dropped⟩, hinner, ⟨⟩⟩ := Option.map_eq_some_iff.mp hfind
      exact ih (fun x hx => h x (.tail _ hx)) hinner

theorem below_exitCode (h : OffersBelow n outer) (e : Exit) : Listing.Below n (exitCode outer e) := by
  unfold exitCode
  split
  · exact below_nil
  · next hfind => simpa using h.findExit_lt hfind
  · next hfind => simpa using h.findExit_lt hfind

/-- The branches of a command stay below every number above its lines and those offered around it. -/
def Bounded (c : Command) : Prop :=
  ∀ (n : Nat) outer (base : Nat), OffersBelow n outer → base + c.lines ≤ n →
    Listing.Below n (c.code outer base)

theorem below_codeAll (h : ∀ c ∈ cs, c.Bounded) (ho : OffersBelow n outer) (hn : base + linesAll cs ≤ n) :
    Listing.Below n (codeAll outer base cs) := by
  induction cs generalizing base with
  | nil => exact below_nil
  | cons c cs ih =>
    rw [linesAll] at hn
    refine below_append.mpr ⟨h c (.head _) n outer base ho (by omega), ?_⟩
    exact ih (fun x hx => h x (.tail _ hx)) (by omega)

theorem below_codeBodies (h : ∀ b ∈ bs, ∀ c ∈ b, c.Bounded) (ho : OffersBelow n outer)
    {choices ends : Nat} (hn : base + linesBodies bs ≤ n) :
    Listing.Below n (codeBodies outer base choices ends bs) := by
  induction bs generalizing base choices ends with
  | nil => exact below_nil
  | cons b bs ih =>
    rw [linesBodies] at hn
    simp (disch := omega) [codeBodies, below_codeAll (h b (.head _)) ho,
      ih fun x hx => h x (.tail _ hx)]

/-- **A branch in a command** leads to a line of the command, or to one that a construct around it
offers. -/
theorem below_code (c : Command) : c.Bounded := by
  induction c using Command.induct with
    (intro n outer base ho hn
     rw [lines] at hn)
  | ifThen negate c yes hy =>
    simp (disch := omega) [code, c.below_code, below_codeAll hy ho]
    omega
  | ifElse negate c yes no hy hn' =>
    simp (disch := omega) [code, c.below_code, below_codeAll hy ho, below_codeAll hn' ho]
    omega
  | preLoop isUntil c body hb =>
    have hin : OffersBelow n (loop base (base + 2) 0 :: outer) := ho.inLoop 0 (by omega) (by omega)
    simp (disch := omega) [code, c.below_code, below_codeAll hb hin]
    omega
  | postLoop isUntil c body hb =>
    have hin : OffersBelow n (loop (base + 1) (base + 2) 0 :: outer) :=
      ho.inLoop 0 (by omega) (by omega)
    simp (disch := omega) [code, c.below_code, below_codeAll hb hin]
    omega
  | forever body hb =>
    have hin : OffersBelow n (loop (base + 1) (base + 2) 0 :: outer) :=
      ho.inLoop 0 (by omega) (by omega)
    simp (disch := omega) [code, below_codeAll hb hin]
    omega
  | countLoop count body hb =>
    have hin : OffersBelow n (loop (base + 2) (base + 3) 1 :: outer) :=
      ho.inLoop 1 (by omega) (by omega)
    simp (disch := omega) [code, count.below_code, below_codeAll hb hin]
    omega
  | rangeLoop v index first last step body hb =>
    have hin : OffersBelow n (loop (base + 2) (base + 3) 4 :: outer) :=
      ho.inLoop 4 (by omega) (by omega)
    simp (disch := omega) [code, first.below_code, last.below_code, step.below_code,
      Term.below_opt, below_codeAll hb hin]
    omega
  | forLoop init c step body hi hs hb =>
    have hin : OffersBelow n (loop (base + 1) (base + 3) 0 :: outer) :=
      ho.inLoop 0 (by omega) (by omega)
    cases c <;> simp (disch := omega) [code, Term.below_opt, below_codeAll hi ho, below_codeAll hs hin,
      below_codeAll hb hin] <;> omega
  | switch breakable value labels bodies otherwise hb hd =>
    have hstop : base + 2 < n := by omega
    have hin := ho.inSwitch breakable 2 hstop
    simp (disch := omega) [code, value.below_code, Label.below_codeChoices, below_codeAll hd hin,
      below_codeBodies hb hin]
    omega
  | exit e => simpa [code] using below_exitCode ho e
  | retValue t | abortValue t =>
    rw [Term.linesOpt] at hn
    simp (disch := omega) [code, t.below_code]
  | assign | update => simp (disch := omega) [code, Term.below_code, Term.below_opt]
  | invoke m arguments index => simp (disch := omega) [code, Term.below_all, Term.below_opt]
  | discard t => simp (disch := omega) [code, t.below_code]
  | debug values record => simp (disch := omega) [code, Term.below_all]
  | _ => simp [code]

end Command

/-! ### The end of a method -/

/-- Control goes back to the caller. -/
def Op.leavesMethod : Op → Bool
  | .returnResults | .returnArgs | .abort | .abortArg => true
  | _                                                 => false

/-- Commands whose code ends with going back to the caller. -/
def Command.EndsMethod (cs : List Command) : Prop :=
  ∃ front last, cs = front ++ [last] ∧ ((∃ t, last = .ret t) ∨ ∃ t, last = .abort t)

namespace Statement

variable {N : Names → Prop} {debugging : Bool} {Runs : Text → Command → Prop}

end Statement

namespace Command

theorem codeAll_append (outer : List Enclosure) (base : LineId) (cs cs' : List Command) :
    codeAll outer base (cs ++ cs') =
      codeAll outer base cs ++ codeAll outer (base + linesAll cs) cs' := by
  induction cs generalizing base with
  | nil => simp [codeAll, linesAll]
  | cons c cs ih => simp [codeAll, linesAll, ih, Nat.add_assoc]

/-- The last instruction of such commands. -/
theorem EndsMethod.code (h : EndsMethod cs) :
    ∃ front o, (body cs).listing = front ++ [.op o] ∧ o.leavesMethod = true := by
  obtain ⟨front, last, rfl, hlast⟩ := h
  rw [body, codeAll_append, codeAll, codeAll, List.append_nil]
  rcases hlast with ⟨t, rfl⟩ | ⟨t, rfl⟩
  · cases t with
    | none => exact ⟨_ ++ [.mark _], .returnResults, by rw [List.append_assoc]; rfl, rfl⟩
    | some t => exact ⟨_ ++ _, .returnArgs, by rw [List.append_assoc]; rfl, rfl⟩
  · cases t with
    | none => exact ⟨_ ++ [.mark _], .abort, by rw [List.append_assoc]; rfl, rfl⟩
    | some t => exact ⟨_ ++ _, .abortArg, by rw [List.append_assoc]; rfl, rfl⟩

end Command

/-! ### The body of a method -/

/-- A body is closed. -/
structure Body.Closed (b : Body) : Prop where
  /-- Every line begins, and just once. -/
  lines : (Listing.marks b.listing).Perm (List.range b.lineCount)
  /-- Every branch leads to a line that begins. -/
  branches : ∀ (branch : Branch) (line : Nat), Entry.branch branch line ∈ b.listing →
    line ∈ Listing.marks b.listing
  /-- The last instruction goes back to the caller. -/
  ends : ∃ front o, b.listing = front ++ [.op o] ∧ o.leavesMethod = true

end Propeller
