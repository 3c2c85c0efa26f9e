import Propeller.Proofs.Compile.Meaning
import Propeller.Proofs.Compile.Texts
import Propeller.Proofs.Semantics.Command

/-!
# Semantics — what statements do

Statements act as they are written (`Statement.exec`): the conditions of a chain are tested in order until
one of them holds, a loop goes on as its kind says, a switch compares its value with the labels of its
choices in order and does at most one of them, and leaving a construct or going to the next round ends the
statements in between.  The expressions in conditions, labels and assignments stand for their terms, and
names mean what they mean in the method.

The blocks of assembly code and the debug statements of a body are found again by their numbers
(`World.showing`).
-/

namespace Propeller

/-- The world in which blocks of assembly code and debug statements are the ones of some texts. -/
def World.showing (w : World) (texts : List Text) : World :=
  { w with assemblies := texts.filterMap Text.assembly?, debugs := texts.filterMap Text.debug? }

namespace Statement

section Exec

variable (w : World) (fuel : Nat) (debugging : Bool) (n : Names)

mutual

/-- What a statement does. -/
def exec : Statement → Act Ending
  | conditional branches otherwise => execGuarded (execOpt otherwise) branches
  | whileLoop c isUntil true body =>
    Act.postLoop fuel (execAll body) ((c.termIn n).test w isUntil)
  | whileLoop c isUntil false body =>
    Act.preLoop fuel ((c.termIn n).test w isUntil) (execAll body)
  | repeatLoop none body => Act.forever fuel (execAll body)
  | repeatLoop (some count) body => do
    let v ← (count.termIn n).eval w
    Act.times (execAll body) v.toNat
  | rangeLoop target first last step body => do
    let (v, index) := target.targetIn n
    let x ← (first.termIn n).eval w
    let y ← (last.termIn n).eval w
    let z ← Term.eval w ((step.map (·.termIn n)).getD (.constant (.int 1)))
    let i ← Term.evalOpt w (index.map (·.termIn n))
    let a ← w.operate (v.instruction index.isSome .repeatInit) (i ++ [z, y, x])
    Act.rangeLoop w fuel (execAll body) a
  | forLoop init c step body =>
    (execAll init).before
      (Act.forLoop fuel (Term.testOpt w (c.map (·.termIn n))) (execAll step) (execAll body))
  | switch value choices otherwise breakable => do
    let v ← (value.termIn n).eval w
    let labels := choices.map fun c => c.labels.map (·.labelIn n)
    Act.switch breakable (Label.choose w v labels) (execChoice choices) (execOpt otherwise)
  | leave _ => return .exit .leave
  | next _ => return .exit .next
  | ret value => Command.exec w fuel (.ret (value.map (·.termIn n)))
  | abort value => Command.exec w fuel (.abort (value.map (·.termIn n)))
  | assign target op value => Command.exec w fuel (n.assignment target op value)
  | expression location e => Command.exec w fuel (n.alone location e)
  | assembly _ lines => do
    let _ ← w.perform (.assembly lines)
    return .done
  | debug _ arguments =>
    if debugging then do
      let values ← Term.evalAll w ((MethodContext.debugValues arguments).map (·.termIn n))
      let _ ← w.perform (.debug arguments values)
      return .done
    else return .done

/-- The first of some conditions that holds, and what is done if none of them does. -/
def execGuarded (otherwise : Act Ending) : List Guarded → Act Ending
  | []                         => otherwise
  | .mk c negate body :: rest => do
    if ← (c.termIn n).test w negate then execAll body else execGuarded otherwise rest

/-- Statements one after the other. -/
def execAll : List Statement → Act Ending
  | []      => return .done
  | s :: ss => s.exec.before (execAll ss)

def execOpt : Option (List Statement) → Act Ending
  | none    => return .done
  | some ss => execAll ss

/-- The statements of one of several choices. -/
def execChoice : List Choice → (i : Nat) → Act Ending
  | [],              _     => return .done
  | .mk _ body :: _, 0     => execAll body
  | _ :: cs,         i + 1 => execChoice cs i

end

theorem execOpt_eq (ss : Option (List Statement)) :
    execOpt w fuel debugging n ss = execAll w fuel debugging n (ss.getD []) := by
  cases ss <;> rfl

/-- What the body of a method does: it hands control back at its end at the latest. -/
def execBody (ss : List Statement) : Act Ending :=
  (execAll w fuel debugging n ss).before (Command.exec w fuel (.ret none))

end Exec

end Statement

end Propeller
