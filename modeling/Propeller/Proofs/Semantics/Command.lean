import Propeller.Compile.Command
import Propeller.Proofs.Semantics.World

/-!
# Semantics — what terms and commands do

The parts of a term are evaluated from the left, each operation is an event, and of a choice only one
side is evaluated (`Term.eval`).  Commands act one after the other, and the constructs among them are the
ones of `Act` (`Command.exec`).
-/

namespace Propeller

/-- The instruction that does something with a variable. -/
def Variable.instruction (v : Variable) (indexed : Bool) (o : Op) : Code :=
  .access { slot := v.slot, kind := v.kind, indexed } o

variable (w : World)

namespace Term

mutual

/-- The value of a term. -/
def eval : Term → Act Long
  | constant value       => do return (← w.operate (.constant value) []) 0
  | read v index         => do
    let i ← evalOpt index
    return (← w.operate (v.instruction index.isSome .read) i) 0
  | address v index      => do
    let i ← evalOpt index
    return (← w.operate (v.instruction index.isSome .address) i) 0
  | unary op operand     => do
    let x ← operand.eval
    return (← w.operate (.op (.unary op)) [x]) 0
  | binary op left right => do
    let x ← left.eval
    let y ← right.eval
    return (← w.operate (.op (.binary op)) [y, x]) 0
  | ternary c yes no     => do
    if (← c.eval) = 0 then no.eval else yes.eval
  | call m arguments index => do
    let xs ← evalAll arguments
    let i ← evalOpt index
    return (← w.operate (.call m index.isSome) (i ++ xs)) 0

/-- The values of several terms, the last one first. -/
def evalAll : List Term → Act (List Long)
  | []      => return []
  | t :: ts => do
    let x ← t.eval
    let xs ← evalAll ts
    return xs ++ [x]

/-- The value of a term that may be missing. -/
def evalOpt : Option Term → Act (List Long)
  | none   => return []
  | some t => do return [← t.eval]

end

/-- A condition holds, or does not hold if that is asked for. -/
def test (negate : Bool) (c : Term) : Act Bool := do return Long.holds negate (← c.eval w)

/-- A condition holds, or there is none. -/
def testOpt : Option Term → Act Bool
  | none   => return true
  | some c => c.test w false

end Term

namespace Label

/-- A value matches a label. -/
def accepts (v : Long) : Label → Act Bool
  | value t        => do return (← t.eval w) = v
  | range low high => do
    let l ← low.eval w
    let h ← high.eval w
    return w.inRange l h v

/-- A value matches one of several labels, which are compared in order. -/
def anyAccepts (v : Long) : List Label → Act Bool
  | []      => return false
  | l :: ls => do if ← l.accepts w v then return true else anyAccepts v ls

/-- The first choice that has a matching label. -/
def choose (v : Long) : List (List Label) → Act (Option Nat)
  | []      => return none
  | c :: cs => do
    if ← anyAccepts w v c then return some 0 else return (← choose v cs).map (· + 1)

end Label

namespace Command

variable (fuel : Nat)

mutual

/-- What a command does. -/
def exec : Command → Act Ending
  | ifThen negate c yes => do
    if ← c.test w negate then execAll yes else return .done
  | ifElse negate c yes no => do
    if ← c.test w negate then execAll yes else execAll no
  | preLoop isUntil c body => Act.preLoop fuel (c.test w isUntil) (execAll body)
  | postLoop isUntil c body => Act.postLoop fuel (execAll body) (c.test w isUntil)
  | forever body => Act.forever fuel (execAll body)
  | countLoop count body => do
    let n ← count.eval w
    Act.times (execAll body) n.toNat
  | rangeLoop v index first last step body => do
    let x ← first.eval w
    let y ← last.eval w
    let z ← step.eval w
    let i ← Term.evalOpt w index
    let a ← w.operate (v.instruction index.isSome .repeatInit) (i ++ [z, y, x])
    Act.rangeLoop w fuel (execAll body) a
  | forLoop init c step body =>
    (execAll init).before (Act.forLoop fuel (Term.testOpt w c) (execAll step) (execAll body))
  | switch breakable value labels bodies otherwise => do
    let v ← value.eval w
    Act.switch breakable (Label.choose w v labels) (execChoice bodies) (execAll otherwise)
  | exit e => return .exit e
  | ret none => do
    let _ ← w.operate (.op .returnResults) []
    return .returned
  | ret (some t) => do
    let x ← t.eval w
    let _ ← w.operate (.op .returnArgs) [x]
    return .returned
  | abort none => do
    let _ ← w.operate (.op .abort) []
    return .returned
  | abort (some t) => do
    let x ← t.eval w
    let _ ← w.operate (.op .abortArg) [x]
    return .returned
  | assign v index none value => do
    let x ← value.eval w
    let i ← Term.evalOpt w index
    let _ ← w.operate (v.instruction index.isSome .write) (i ++ [x])
    return .done
  | assign v index (some op) value => do
    let i ← Term.evalOpt w index
    let old ← w.operate (v.instruction index.isSome .read) i
    let x ← value.eval w
    let new ← w.operate (.op (.binary op)) [x, old 0]
    let i ← Term.evalOpt w index
    let _ ← w.operate (v.instruction index.isSome .write) (i ++ [new 0])
    return .done
  | invoke m arguments index => do
    let xs ← Term.evalAll w arguments
    let i ← Term.evalOpt w index
    let _ ← w.operate (.call m index.isSome) (i ++ xs)
    return .done
  | discard t => do
    let _ ← t.eval w
    return .done
  | assembly origin block => do
    let _ ← w.operate (.inline origin block) []
    return .done
  | debug values record => do
    let xs ← Term.evalAll w values
    let _ ← w.operate (.debug values.length record) xs
    return .done

/-- What several commands do. -/
def execAll : List Command → Act Ending
  | []      => return .done
  | c :: cs => c.exec.before (execAll cs)

/-- What the commands of one of several choices do. -/
def execChoice : List (List Command) → (i : Nat) → Act Ending
  | [],      _     => return .done
  | b :: _,  0     => execAll b
  | _ :: bs, i + 1 => execChoice bs i

end

theorem execAll_singleton (c : Command) : execAll w fuel [c] = c.exec w fuel := Act.before_done _

theorem execAll_append (cs cs' : List Command) :
    execAll w fuel (cs ++ cs') = (execAll w fuel cs).before (execAll w fuel cs') := by
  induction cs with
  | nil => rfl
  | cons c cs ih => rw [List.cons_append, execAll, execAll, ih, Act.before_assoc]

end Command

end Propeller
