import Propeller.Bytecode.LineTree
import Propeller.Compile.Term

/-!
# Compile — commands

A command is a statement whose expressions have become terms.  `Command.code` gives its
instructions.  A command that runs to its end leaves the stack as it found it; while the commands
in a counted loop, a loop over a range or a switch run, that construct keeps longs on the stack, and
jumping out of it drops them first.

As for terms, the lines of a command are numbered from a given one on.
-/

namespace Propeller

/-- What a value is compared with in a switch. -/
inductive Label
  | value (t : Term)
  | range (low high : Term)
deriving Inhabited

/-- A command of the language that is compiled. -/
inductive Command
  | ifThen (negate : Bool) (condition : Term) (yes : List Command)
  | ifElse (negate : Bool) (condition : Term) (yes no : List Command)
  /-- A loop with the condition in front. -/
  | preLoop (isUntil : Bool) (condition : Term) (body : List Command)
  /-- A loop with the condition behind. -/
  | postLoop (isUntil : Bool) (condition : Term) (body : List Command)
  | forever (body : List Command)
  | countLoop (count : Term) (body : List Command)
  | rangeLoop (v : Variable) (index : Option Term) (first last step : Term) (body : List Command)
  | forLoop (init : List Command) (condition : Option Term) (step body : List Command)
  /-- The first choice that has a matching label, or what is done otherwise. -/
  | switch (breakable : Bool) (value : Term) (labels : List (List Label))
      (bodies : List (List Command)) (otherwise : List Command)
  | exit (e : Exit)
  | ret (value : Option Term)
  | abort (value : Option Term)
  /-- Write a variable or one of its elements; an operator is applied to the old value first. -/
  | assign (v : Variable) (index : Option Term) (op : Option BinaryOp) (value : Term)
  /-- Call a method and drop its results. -/
  | invoke (m : Method) (arguments : List Term) (index : Option Term)
  /-- Evaluate a term and drop its value. -/
  | discard (t : Term)
  /-- Run a block of assembly code. -/
  | assembly (origin block : Nat)
  | debug (values : List Term) (record : Nat)
deriving Inhabited

namespace Label

/-- How many lines the comparison with a label has. -/
def lines : Label → Nat
  | value t        => t.lines
  | range low high => low.lines + high.lines

/-- Compare with a label, and go to a line if it matches. -/
def code (base target : LineId) : Label → Listing
  | value t        => t.code base ++ [.branch .caseValue target]
  | range low high =>
    low.code base ++ high.code (base + low.lines) ++ [.branch .caseRange target]

/-- How many lines the comparison with several labels has. -/
def linesAll : List Label → Nat
  | []      => 0
  | l :: ls => l.lines + linesAll ls

/-- Compare with several labels in order. -/
def codeAll (base target : LineId) : List Label → Listing
  | []      => []
  | l :: ls => l.code base target ++ codeAll (base + l.lines) target ls

/-- How many lines the comparison with the labels of several choices has. -/
def linesChoices : List (List Label) → Nat
  | []      => 0
  | c :: cs => linesAll c + linesChoices cs

/-- Compare with the labels of several choices, whose lines are numbered from `target` on. -/
def codeChoices (base target : LineId) : List (List Label) → Listing
  | []      => []
  | c :: cs => codeAll base target c ++ codeChoices (base + linesAll c) (target + 1) cs

end Label

namespace Command

mutual

/-- How many lines the code of a command has. -/
def lines : Command → Nat
  | ifThen _ c yes           => 2 + c.lines + linesAll yes
  | ifElse _ c yes no        => 4 + c.lines + linesAll yes + linesAll no
  | preLoop _ c body         => 3 + c.lines + linesAll body
  | postLoop _ c body        => 3 + c.lines + linesAll body
  | forever body             => 3 + linesAll body
  | countLoop n body         => 4 + n.lines + linesAll body
  | rangeLoop _ i first last step body =>
    4 + first.lines + last.lines + step.lines + Term.linesOpt i + linesAll body
  | forLoop init c step body =>
    4 + linesAll init + Term.linesOpt c + linesAll body + linesAll step
  | switch _ value labels bodies otherwise =>
    3 + labels.length + bodies.length + value.lines + Label.linesChoices labels +
      linesAll otherwise + linesBodies bodies
  | exit _                   => 1
  | ret value                => 1 + Term.linesOpt value
  | abort value              => 1 + Term.linesOpt value
  | assign _ index none value     => 1 + value.lines + Term.linesOpt index
  | assign _ index (some _) value => 1 + Term.linesOpt index + value.lines + Term.linesOpt index
  | invoke _ arguments index => 1 + Term.linesAll arguments + Term.linesOpt index
  | discard t                => 1 + t.lines
  | assembly _ _             => 1
  | debug values _           => 1 + Term.linesAll values

/-- How many lines the code of several commands has. -/
def linesAll : List Command → Nat
  | []      => 0
  | c :: cs => c.lines + linesAll cs

/-- How many lines the commands of several choices have. -/
def linesBodies : List (List Command) → Nat
  | []      => 0
  | b :: bs => linesAll b + linesBodies bs

end

/-- What a loop offers its commands. -/
def loop (next exit : LineId) (held : Nat) : Enclosure :=
  { targets := [(.leave, exit), (.next, next)], held }

/-- Jump out of the nearest construct that has the wanted line, with what is held dropped. -/
def exitCode (outer : List Enclosure) (e : Exit) : Listing :=
  match findExit e outer with
  | none           => []
  | some (line, 0) => [.branch .jmp line]
  | some (line, n) => [.code (.pop (4 * n)), .branch .jmp line]

/-- The branch that skips something unless a condition holds. -/
def skipUnless (negate : Bool) : Branch := if negate then .jnz else .jz

mutual

/-- The code of a command inside of constructs. -/
def code (outer : List Enclosure) (base : LineId) : Command → Listing
  | ifThen negate c yes =>
    let start := base
    let stop := base + 1
    let first := base + 2
    [.mark start] ++ c.code first ++ [.branch (skipUnless negate) stop] ++
      codeAll outer (first + c.lines) yes ++ [.mark stop]
  | ifElse negate c yes no =>
    let start := base
    let alternative := base + 1
    let skip := base + 2
    let stop := base + 3
    let first := base + 4
    let second := first + c.lines
    [.mark start] ++ c.code first ++ [.branch (skipUnless negate) alternative] ++
      codeAll outer second yes ++ [.mark skip, .branch .jmp stop, .mark alternative] ++
      codeAll outer (second + linesAll yes) no ++ [.mark stop]
  | preLoop isUntil c body =>
    let top := base
    let again := base + 1
    let stop := base + 2
    let first := base + 3
    [.mark top] ++ c.code first ++ [.branch (skipUnless isUntil) stop] ++
      codeAll (loop top stop 0 :: outer) (first + c.lines) body ++
      [.mark again, .branch .jmp top, .mark stop]
  | postLoop isUntil c body =>
    let top := base
    let next := base + 1
    let stop := base + 2
    let first := base + 3
    [.mark top] ++ codeAll (loop next stop 0 :: outer) (first + c.lines) body ++
      [.mark next] ++ c.code first ++ [.branch (skipUnless !isUntil) top, .mark stop]
  | forever body =>
    let top := base
    let next := base + 1
    let stop := base + 2
    let first := base + 3
    [.mark top] ++ codeAll (loop next stop 0 :: outer) first body ++
      [.mark next, .branch .jmp top, .mark stop]
  | countLoop n body =>
    let start := base
    let top := base + 1
    let next := base + 2
    let stop := base + 3
    let first := base + 4
    [.mark start] ++ n.code first ++ [.branch .tjz stop, .mark top] ++
      codeAll (loop next stop 1 :: outer) (first + n.lines) body ++
      [.mark next, .branch .djnz top, .mark stop]
  | rangeLoop v index lower upper step body =>
    let start := base
    let top := base + 1
    let next := base + 2
    let stop := base + 3
    let first := base + 4
    let second := first + lower.lines
    let third := second + upper.lines
    let fourth := third + step.lines
    [.mark start] ++ lower.code first ++ upper.code second ++ step.code third ++
      Term.codeOpt fourth index ++ [v.access index.isSome .repeatInit, .mark top] ++
      codeAll (loop next stop 4 :: outer) (fourth + Term.linesOpt index) body ++
      [.mark next, .branch .repeatLoop top, .mark stop]
  | forLoop init c step body =>
    let top := base
    let next := base + 1
    let again := base + 2
    let stop := base + 3
    let first := base + 4
    let second := first + linesAll init
    let third := second + Term.linesOpt c
    let inner := loop next stop 0 :: outer
    codeAll outer first init ++ [.mark top] ++
      Term.codeOpt second c ++ (if c.isSome then [.branch .jz stop] else []) ++
      codeAll inner third body ++ [.mark next] ++
      codeAll inner (third + linesAll body) step ++ [.mark again, .branch .jmp top, .mark stop]
  | switch breakable value labels bodies otherwise =>
    let start := base
    let done := base + 1
    let stop := base + 2
    let choices := base + 3
    let ends := choices + labels.length
    let first := ends + bodies.length
    let second := first + value.lines
    let third := second + Label.linesChoices labels
    let targets := if breakable then [(.leave, stop)] else []
    let inner := { targets, held := 2 } :: outer
    [.mark start, .branch .pushTarget stop] ++ value.code first ++
      Label.codeChoices second choices labels ++
      codeAll inner third otherwise ++ [.mark done, .op .caseDone] ++
      codeBodies inner (third + linesAll otherwise) choices ends bodies ++ [.mark stop]
  | exit e => .mark base :: exitCode outer e
  | ret none => [.mark base, .op .returnResults]
  | ret (some t) => [.mark base] ++ t.code (base + 1) ++ [.op .returnArgs]
  | abort none => [.mark base, .op .abort]
  | abort (some t) => [.mark base] ++ t.code (base + 1) ++ [.op .abortArg]
  | assign v index none value =>
    let first := base + 1
    [.mark base] ++ value.code first ++ Term.codeOpt (first + value.lines) index ++
      [v.access index.isSome .write]
  | assign v index (some op) value =>
    let first := base + 1
    let second := first + Term.linesOpt index
    [.mark base] ++ Term.codeOpt first index ++ [v.access index.isSome .read] ++
      value.code second ++ [.op (.binary op)] ++
      Term.codeOpt (second + value.lines) index ++ [v.access index.isSome .write]
  | invoke m arguments index =>
    let first := base + 1
    [.mark base, .op .anchor] ++ Term.codeAll first arguments ++
      Term.codeOpt (first + Term.linesAll arguments) index ++ [.code (.call m index.isSome)]
  | discard t => [.mark base] ++ t.code (base + 1) ++ [.code (.pop 4)]
  | assembly origin block => [.mark base, .code (.inline origin block)]
  | debug values record =>
    [.mark base] ++ Term.codeAll (base + 1) values ++
      [.code (.debug (min values.length 255) record)]

/-- The code of commands one after the other. -/
def codeAll (outer : List Enclosure) (base : LineId) : List Command → Listing
  | []      => []
  | c :: cs => c.code outer base ++ codeAll outer (base + c.lines) cs

/-- The code of the commands of several choices: the lines of the choices and of their ends are
numbered from `choices` and from `ends` on. -/
def codeBodies (outer : List Enclosure) (base choices ends : LineId) :
    List (List Command) → Listing
  | []      => []
  | b :: bs =>
    [.mark choices] ++ codeAll outer base b ++ [.mark ends, .op .caseDone] ++
      codeBodies outer (base + linesAll b) (choices + 1) (ends + 1) bs

end

/-- The body of a method that consists of commands. -/
def body (cs : List Command) : Body :=
  { lineCount := linesAll cs, listing := codeAll [] 0 cs }

end Command

end Propeller
