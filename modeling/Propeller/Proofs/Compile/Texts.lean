import Mathlib.Data.List.Forall2
import Propeller.Proofs.Compile.Induction

/-!
# Compile — what is carried out as it is written

Blocks of assembly code and debug statements are *texts*: they are put aside as they are written, and the code
of a method has one instruction for each of them, which says its number.

* `Statement.texts`: the texts of a statement, in the order of its code.
* `Listing.performed`: the instructions of a listing that carry out texts.  A term has none.
* `Listing.Performs`: the instructions of a listing carry out some texts, one for one and in order.
-/

namespace Propeller

/-- What is carried out as it is written. -/
inductive Text
  | assembly (lines : List SourceLine)
  | debug (arguments : List DebugArgument)

namespace Text

def assembly? : Text → Option (List SourceLine)
  | assembly lines => some lines
  | debug _        => none

def debug? : Text → Option (List DebugArgument)
  | assembly _      => none
  | debug arguments => some arguments

end Text

/-! ### Texts of statements -/

namespace Statement

section Texts

variable (debugging : Bool)

mutual

/-- What is carried out as it is written, in the order in which it is compiled. -/
def texts : Statement → List Text
  | conditional branches otherwise => textsGuarded branches ++ textsOpt otherwise
  | whileLoop _ _ _ body           => textsAll body
  | repeatLoop _ body              => textsAll body
  | rangeLoop _ _ _ _ body         => textsAll body
  | forLoop init _ step body       => textsAll init ++ (textsAll body ++ textsAll step)
  | switch _ choices otherwise _   => textsOpt otherwise ++ textsChoices choices
  | assembly _ lines               => [.assembly lines]
  | debug _ arguments              => if debugging then [.debug arguments] else []
  | leave _ | next _ | ret _ | abort _ | assign _ _ _ | expression _ _ => []

def textsGuarded : List Guarded → List Text
  | []                   => []
  | .mk _ _ body :: rest => textsAll body ++ textsGuarded rest

def textsAll : List Statement → List Text
  | []      => []
  | s :: ss => s.texts ++ textsAll ss

def textsOpt : Option (List Statement) → List Text
  | none    => []
  | some ss => textsAll ss

def textsChoices : List Choice → List Text
  | []                 => []
  | .mk _ body :: rest => textsAll body ++ textsChoices rest

end

theorem textsOpt_eq (ss : Option (List Statement)) :
    textsOpt debugging ss = textsAll debugging (ss.getD []) := by
  cases ss <;> rfl

end Texts

end Statement

/-! ### Instructions of texts -/

/-- The instruction of an entry, if it carries out a text. -/
def Entry.performs? : Entry → Option Code
  | .code (.inline origin block) => some (.inline origin block)
  | .code (.debug values record) => some (.debug values record)
  | _                            => none

/-- The instructions of a listing that carry out texts, in order. -/
def Listing.performed (l : Listing) : List Code := l.filterMap Entry.performs?

namespace Listing

@[simp]
theorem performed_nil : performed [] = [] := rfl

@[simp]
theorem performed_append (a b : Listing) : performed (a ++ b) = performed a ++ performed b :=
  List.filterMap_append

@[simp]
theorem performed_cons (e : Entry) (l : Listing) : performed (e :: l) = e.performs?.toList ++ performed l := by
  cases he : e.performs? <;> simp [performed, he]

end Listing

attribute [simp] Entry.performs?
attribute [local simp] Entry.op Entry.branch Variable.access

namespace Term

theorem performed_codeAll {ts : List Term} (h : ∀ t ∈ ts, ∀ base, Listing.performed (t.code base) = [])
    (base : LineId) : Listing.performed (codeAll base ts) = [] := by
  induction ts generalizing base with
  | nil => rfl
  | cons t ts ih =>
    rw [codeAll, Listing.performed_append, h t (.head _), ih fun x hx => h x (.tail _ hx), List.append_nil]

/-- **The code of a term** carries out no text. -/
@[simp]
theorem performed_code (t : Term) (base : LineId) : Listing.performed (t.code base) = [] := by
  induction t using Term.induct generalizing base with
  | constant value => rfl
  | read v index hi | address v index hi => simp [code, codeOpt_eq, performed_codeAll hi]
  | unary op operand ih => simp [code, ih]
  | binary op left right ihl ihr => simp [code, ihl, ihr]
  | ternary c yes no ihc ihy ihn => simp [code, ihc, ihy, ihn]
  | call m arguments index ha hi => simp [code, codeOpt_eq, performed_codeAll ha, performed_codeAll hi]

@[simp]
theorem performed_all (ts : List Term) (base : LineId) : Listing.performed (codeAll base ts) = [] :=
  performed_codeAll (fun t _ => t.performed_code) base

@[simp]
theorem performed_opt (t : Option Term) (base : LineId) : Listing.performed (codeOpt base t) = [] := by
  rw [codeOpt_eq, performed_all]

end Term

namespace Label

theorem performed_codeAll (ls : List Label) (base target : LineId) :
    Listing.performed (codeAll base target ls) = [] := by
  induction ls generalizing base with
  | nil => rfl
  | cons l ls ih => cases l <;> simp [codeAll, code, ih]

@[simp]
theorem performed_codeChoices (cs : List (List Label)) (base target : LineId) :
    Listing.performed (codeChoices base target cs) = [] := by
  induction cs generalizing base target with
  | nil => rfl
  | cons c cs ih => rw [codeChoices, Listing.performed_append, performed_codeAll, ih, List.append_nil]

end Label

/-! ### Texts in a listing -/

/-- An instruction carries out a text: it is that of a command that the text becomes, whose code stands in a
listing.  `Runs` tells which commands a text becomes. -/
def Text.PerformedIn (Runs : Text → Command → Prop) (l : Listing) (t : Text) (c : Code) : Prop :=
  ∃ command base, Runs t command ∧ command.code [] base <:+: l ∧ Listing.performed (command.code [] base) = [c]

theorem Text.PerformedIn.mono {Runs : Text → Command → Prop} {a b : Listing} {t : Text} {c : Code}
    (h : t.PerformedIn Runs a c) (hab : a <:+: b) : t.PerformedIn Runs b c := by
  obtain ⟨command, base, hruns, hin, hc⟩ := h
  exact ⟨command, base, hruns, hin.trans hab, hc⟩

/-- The instructions of a listing carry out texts, one for one and in order. -/
def Listing.Performs (Runs : Text → Command → Prop) (l : Listing) (texts : List Text) : Prop :=
  List.Forall₂ (Text.PerformedIn Runs l) texts l.performed

namespace Listing.Performs

variable {Runs : Text → Command → Prop} {a b : Listing} {texts more : List Text}

theorem none (h : a.performed = []) : a.Performs Runs [] := by
  rw [Performs, h]
  exact .nil

/-- What is around a piece of code does not matter, if it carries out nothing. -/
theorem mono (h : a.Performs Runs texts) (hab : a <:+: b) (heq : b.performed = a.performed) :
    b.Performs Runs texts := by
  rw [Performs, heq]
  exact List.Forall₂.imp (fun _ _ ht => ht.mono hab) h

theorem append (ha : a.Performs Runs texts) (hb : b.Performs Runs more) :
    (a ++ b).Performs Runs (texts ++ more) := by
  rw [Performs, performed_append]
  exact List.rel_append (ha.imp fun _ _ ht => ht.mono (List.prefix_append a b).isInfix)
    (hb.imp fun _ _ ht => ht.mono (List.suffix_append a b).isInfix)

end Listing.Performs

end Propeller
