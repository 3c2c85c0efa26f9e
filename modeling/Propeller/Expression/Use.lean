/-!
# Expressions — uses

Which declarations code refers to, one entry for each time it does.
-/

namespace Propeller

/-- A reference to a declaration, by its number. -/
inductive Use
  | objectVar (id : Nat)
  | localVar (id : Nat)
  | method (id : Nat)
deriving DecidableEq, Inhabited

/-- References to declarations, the latest first. -/
abbrev Uses := List Use

namespace Uses

/-- Note one more reference. -/
def mark (u : Uses) (x : Use) : Uses := x :: u

/-- Take one reference back, if there is one. -/
def unmark (u : Uses) (x : Use) : Uses := u.erase x

end Uses

end Propeller
