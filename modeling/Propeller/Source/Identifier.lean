/-!
# Source — identifiers

Names are compared without regard to the case of ASCII letters: `OUTA`, `outa` and `OutA` are one
name.  The spelling is kept for messages; comparison looks at the folded characters only
(`Identifier.beq_iff`).
-/

namespace Propeller

/-- The characters of a text with ASCII capitals made small. -/
def foldCase (text : String) : List Char := text.toList.map Char.toLower

/-- Two texts are the same name. -/
def sameName (a b : String) : Bool := foldCase a == foldCase b

/-- A name as it was written. -/
structure Identifier where
  spelling : String
deriving Inhabited

namespace Identifier

/-- What is compared: the spelling with ASCII capitals made small. -/
def key (n : Identifier) : List Char := foldCase n.spelling

instance : BEq Identifier := ⟨fun a b => a.key == b.key⟩

theorem beq_iff {a b : Identifier} : (a == b) = true ↔ a.key = b.key :=
  show (a.key == b.key) = true ↔ _ from beq_iff_eq

instance : ReflBEq Identifier := ⟨beq_iff.mpr rfl⟩

theorem beq_comm (a b : Identifier) : (a == b) = (b == a) :=
  Bool.eq_iff_iff.mpr (by simp only [beq_iff]; exact eq_comm)

/-- `object.member`, the name under which a child object's `member` is known to its parent. -/
def qualified (object member : Identifier) : Identifier :=
  ⟨s!"{object.spelling}.{member.spelling}"⟩

/-- The labels that belong to the section of the last global label start with a dot. -/
def isLocalLabel (n : Identifier) : Bool := n.spelling.toList.head? == some '.'

/-- How many different names there are among two. -/
def countDistinct (a b : Identifier) : Nat := if a == b then 1 else 2

end Identifier

end Propeller
