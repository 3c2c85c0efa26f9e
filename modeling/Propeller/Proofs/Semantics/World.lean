import Propeller.Bytecode.LineTree
import Propeller.Source.Tree

/-!
# Semantics — actions in a world

What a program does is seen from outside as a history of events: operations of the interpreter with their
operands, blocks of assembly code, debug statements.  The world answers each event with numbers, which
may depend on everything that has happened before; memory, the methods that are called and the pins are
all behind these answers.

An `Act` is something that happens in a world.  Statements act and end somehow (`Ending`), and the
constructs of the language are made here of the actions of their parts: loops, in which an iteration is
one more round (`rounds`), and the choice of a switch.  A loop that has not ended after `fuel` rounds is
cut off there, so that a program that runs for ever has a history for every bound.
-/

namespace Propeller

/-- A number of the interpreter. -/
abbrev Long := BitVec 32

/-- Something that is seen to happen.  Operands are given in the order in which they are taken from the
stack. -/
inductive Event
  /-- An instruction, with its operands. -/
  | operation (c : Code) (operands : List Long)
  /-- A block of assembly code, as it is written. -/
  | assembly (lines : List SourceLine)
  /-- A debug statement, as it is written, with the values that it shows. -/
  | debug (arguments : List DebugArgument) (values : List Long)
  /-- A loop over a range goes to its next value, if there is one. -/
  | advance (longs : List Long)

/-- What has happened, the last event first. -/
abbrev History := List Event

/-- What a program runs in. -/
structure World where
  /-- The numbers that an event gives, by their place. -/
  answer : History → Event → Nat → Long
  /-- A number lies between two others. -/
  inRange : (low high value : Long) → Bool
  /-- What is written in blocks of assembly code, by their number. -/
  assemblies : List (List SourceLine) := []
  /-- What is written in debug statements, by the number of their record. -/
  debugs : List (List DebugArgument) := []

/-! ### Actions -/

/-- Something that happens after a history, and gives something. -/
def Act (α : Type) : Type := History → α × History

namespace Act

instance monad : Monad Act where
  pure a := fun h => (a, h)
  bind x f := fun h => f (x h).1 (x h).2

@[simp]
theorem pure_apply {α : Type} (a : α) (h : History) : (pure a : Act α) h = (a, h) := rfl

@[simp]
theorem bind_apply {α β : Type} (x : Act α) (f : α → Act β) (h : History) :
    (x >>= f) h = f (x h).1 (x h).2 := rfl

end Act

namespace World

variable (w : World)

/-- Something happens. -/
def perform (e : Event) : Act (Nat → Long) := fun h => (w.answer h e, e :: h)

/-- The event of an instruction with its operands. -/
def event (c : Code) (operands : List Long) : Event :=
  match c with
  | .inline _ block => .assembly (w.assemblies.getD block [])
  | .debug _ record => .debug (w.debugs.getD record []) operands
  | c               => .operation c operands

/-- An instruction is carried out. -/
def operate (c : Code) (operands : List Long) : Act (Nat → Long) := w.perform (w.event c operands)

end World

/-- A number counts as true, or as false if that is asked for. -/
def Long.holds (negate : Bool) (v : Long) : Bool := (v ≠ 0) != negate

/-! ### The constructs of the language -/

/-- How an action ends. -/
inductive Ending
  /-- It is through. -/
  | done
  /-- It goes to another place of a construct around it. -/
  | exit (e : Exit)
  /-- It hands control back to the caller. -/
  | returned
  /-- A loop has been cut off. -/
  | cut
deriving DecidableEq

namespace Ending

/-- How a loop ends after its body has ended: not at all if there is a next round. -/
def afterBody : Ending → Option Ending
  | done        => none
  | exit .next  => none
  | exit .leave => some done
  | returned    => some returned
  | cut         => some cut

/-- How a switch ends after one of its choices has ended. -/
def afterChoice (breakable : Bool) : Ending → Ending
  | exit .leave => if breakable then done else exit .leave
  | e           => e

end Ending

namespace Act

variable {σ : Type}

/-- One action after the other, if the first one gets through. -/
def before (first second : Act Ending) : Act Ending := do
  match ← first with
  | .done => second
  | e     => return e

theorem before_apply (first second : Act Ending) (h : History) :
    first.before second h = if (first h).1 = .done then second (first h).2 else first h := by
  rw [before, bind_apply]
  generalize first h = o
  obtain ⟨e, h'⟩ := o
  cases e <;> rfl

theorem before_done (x : Act Ending) : x.before (return .done) = x := by
  funext h
  rw [before_apply]
  split
  · next hdone => exact Prod.ext hdone.symm rfl
  · rfl

theorem before_assoc (x y z : Act Ending) : (x.before y).before z = x.before (y.before z) := by
  funext h
  simp only [before_apply]
  by_cases hx : (x h).1 = .done
  · simp only [if_pos hx]
  · simp only [if_neg hx]

/-- Nothing comes after an action that never gets through. -/
theorem before_of_ne_done {x : Act Ending} (hx : ∀ h, (x h).1 ≠ .done) (y : Act Ending) :
    x.before y = x := by
  funext h
  rw [before_apply, if_neg (hx h)]

/-- Rounds of a loop, until one ends it. -/
def rounds (round : σ → Act (σ ⊕ Ending)) : (fuel : Nat) → σ → Act Ending
  | 0,        _ => return .cut
  | fuel + 1, s => do
    match ← round s with
    | .inl s => rounds round fuel s
    | .inr e => return e

/-- The body of a loop, and what comes after it in a round unless the body leaves the loop. -/
def inRound (body : Act Ending) (rest : Act (σ ⊕ Ending)) : Act (σ ⊕ Ending) := do
  match (← body).afterBody with
  | none   => rest
  | some e => return .inr e

/-- A loop with the condition in front. -/
def preLoop (fuel : Nat) (test : Act Bool) (body : Act Ending) : Act Ending :=
  rounds (fun () => do if ← test then inRound body (return .inl ()) else return .inr .done) fuel ()

/-- A loop with the condition behind, which is tested also when the body goes to the next round. -/
def postLoop (fuel : Nat) (body : Act Ending) (test : Act Bool) : Act Ending :=
  rounds (fun () => inRound body do return if ← test then .inl () else .inr .done) fuel ()

def forever (fuel : Nat) (body : Act Ending) : Act Ending :=
  rounds (fun () => inRound body (return .inl ())) fuel ()

/-- A loop that is repeated a number of times. -/
def times (body : Act Ending) : Nat → Act Ending
  | 0     => return .done
  | n + 1 => do
    match (← body).afterBody with
    | none   => times body n
    | some e => return e

/-- A loop over a range.  The world keeps count in four numbers. -/
def rangeLoop (w : World) (fuel : Nat) (body : Act Ending) (start : Nat → Long) : Act Ending :=
  rounds (fun a => inRound body do
    let b ← w.perform (.advance [a 0, a 1, a 2, a 3])
    return if b 0 = 0 then .inr .done else .inl fun i => b (i + 1)) fuel start

/-- A loop with a step between rounds.  In a round after the first one the step comes first; a step that
goes to the next round itself begins once more. -/
def forLoop (fuel : Nat) (test : Act Bool) (step body : Act Ending) : Act Ending :=
  let checked : Act (Bool ⊕ Ending) := do
    if ← test then inRound body (return .inl true) else return .inr .done
  rounds (fun again => do
    if again then
      match ← step with
      | .done       => checked
      | .exit .next => return .inl true
      | e           => return .inr (e.afterBody.getD .done)
    else checked) fuel false

/-- One of several choices, or what is done otherwise. -/
def switch (breakable : Bool) (choice : Act (Option Nat)) (bodies : Nat → Act Ending)
    (otherwise : Act Ending) : Act Ending := do
  match ← choice with
  | some i => return (← bodies i).afterChoice breakable
  | none   => return (← otherwise).afterChoice breakable

end Act

end Propeller
