import Propeller.Bytecode.Listing

/-!
# Bytecode — exits and line trees

A construct that encloses statements can have lines to go to, its end and its next round, and can
hold longs on the stack while its statements run.  `findExit` takes the nearest construct with the
wanted line and adds up what is held on the way.

A `LineTree` builds a listing in any order: lines are added below other lines, may be reserved
before they are placed, and are stored parent first.
-/

namespace Propeller

/-- Where to go in an enclosing construct. -/
inductive Exit
  /-- Its end. -/
  | leave
  /-- Its next round. -/
  | next
deriving DecidableEq, Inhabited

/-- What a construct offers the statements in it. -/
structure Enclosure where
  targets : List (Exit × LineId) := []
  /-- How many longs it holds on the stack. -/
  held : Nat := 0
deriving Inhabited

/-- The nearest construct, from the inside, with the wanted line: the line, and how many longs have
to be dropped.  Leaving a construct drops what it holds itself, its next round does not. -/
def findExit (exit : Exit) : List Enclosure → Option (LineId × Nat)
  | [] => none
  | e :: outer =>
    match e.targets.lookup exit with
    | some line => some (line, if exit = .leave then e.held else 0)
    | none      => (findExit exit outer).map fun (line, dropped) => (line, e.held + dropped)

/-- A line of a tree. -/
structure LineNode where
  parent : Option LineId := none
  children : List LineId := []
  code : List Code := []
  enclosure : Enclosure := {}
deriving Inhabited

/-- Lines by number; the first is the root. -/
structure LineTree where
  nodes : Array LineNode := #[{}]
deriving Inhabited

namespace LineTree

/-- The number of the first line. -/
def root : LineId := 0

/-- The number that the next line gets. -/
def nextLine (t : LineTree) : LineId := t.nodes.size

/-- A line. -/
def node (t : LineTree) (line : LineId) : LineNode := t.nodes.getD line {}

/-- Change a line. -/
def modify (t : LineTree) (line : LineId) (f : LineNode → LineNode) : LineTree :=
  ⟨t.nodes.modify line f⟩

/-- Make a line that stands nowhere yet. -/
def reserve (t : LineTree) : LineTree := ⟨t.nodes.push {}⟩

/-- Put a line below another, after the lines that are there. -/
def place (t : LineTree) (parent line : LineId) : LineTree :=
  (t.modify line fun n => { n with parent := some parent }).modify parent
    fun n => { n with children := n.children ++ [line] }

/-- Make a line below another. -/
def add (t : LineTree) (parent : LineId) : LineTree := t.reserve.place parent t.nextLine

/-- Append an instruction to a line. -/
def push (t : LineTree) (line : LineId) (c : Code) : LineTree :=
  t.modify line fun n => { n with code := n.code ++ [c] }

/-- Let a line offer a target to the lines below it. -/
def setTarget (t : LineTree) (line : LineId) (exit : Exit) (target : LineId) : LineTree :=
  t.modify line fun n =>
    { n with enclosure := { n.enclosure with targets := n.enclosure.targets ++ [(exit, target)] } }

/-- Let a line hold longs on the stack. -/
def setHeld (t : LineTree) (line : LineId) (longs : Nat) : LineTree :=
  t.modify line fun n => { n with enclosure := { n.enclosure with held := longs } }

/-- At most `steps` enclosures from a line up to the root. -/
def enclosuresWithin (t : LineTree) : (steps : Nat) → LineId → List Enclosure
  | 0,         _    => []
  | steps + 1, line =>
    let n := t.node line
    n.enclosure :: match n.parent with
      | none        => []
      | some parent => t.enclosuresWithin steps parent

/-- What encloses a line, itself included, from the inside. -/
def enclosures (t : LineTree) (line : LineId) : List Enclosure :=
  t.enclosuresWithin t.nodes.size line

/-- Where an exit leads from a line. -/
def findExit (t : LineTree) (line : LineId) (exit : Exit) : Option (LineId × Nat) :=
  Propeller.findExit exit (t.enclosures line)

/-- The lines from a line down, parent first, with at most `depth` levels. -/
def orderWithin (t : LineTree) : (depth : Nat) → LineId → List LineId
  | 0,         _    => []
  | depth + 1, line => line :: (t.node line).children.flatMap (t.orderWithin depth)

/-- The lines in the order in which they are stored.  A tree is not deeper than it has lines. -/
def order (t : LineTree) : List LineId := t.orderWithin t.nodes.size root

/-- There is nothing in the tree. -/
def isEmpty (t : LineTree) : Bool := t.nodes.size ≤ 1 && (t.node root).code.isEmpty

/-- The listing of a tree. -/
def body (t : LineTree) : Body :=
  { lineCount := t.nodes.size
    listing := t.order.flatMap fun line => .mark line :: (t.node line).code.map .code }

end LineTree

end Propeller
