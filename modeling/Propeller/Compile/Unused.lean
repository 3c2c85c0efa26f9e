import Propeller.Compile.Draft

/-!
# Compile — what is never used

A private method that no remaining method calls can be left out, and then the methods that only it
called as well (`unusedMethods`).
-/

namespace Propeller

/-- A method is called by one that is not among the removed ones. -/
def isCalled (methods : List MethodDraft) (removed : List Nat) (id : Nat) : Bool :=
  methods.any fun m => !removed.contains m.method.id && m.uses.contains (.method id)

/-- The private methods that only removed methods call. -/
def uncalled (methods : List MethodDraft) (removed : List Nat) : List Nat :=
  (methods.filter fun m => !m.method.isPublic && !isCalled methods removed m.method.id).map
    (·.method.id)

/-- The private methods that are left when uncalled ones are removed `rounds` times. -/
def removedWithin (methods : List MethodDraft) : (rounds : Nat) → List Nat
  | 0          => []
  | rounds + 1 => uncalled methods (removedWithin methods rounds)

/-- The private methods that no other method needs.  Every round but the last removes at least one,
so that there are no more rounds than methods. -/
def unusedMethods (methods : List MethodDraft) : List Nat := removedWithin methods methods.length

/-- A variable of the object is referred to. -/
def isUsedVar (methods : List MethodDraft) (v : ObjectVar) : Bool :=
  methods.any fun m => m.uses.contains (.objectVar v.id)

/-- The warnings about a method and its local variables. -/
def MethodDraft.unusedWarnings (methods : List MethodDraft) (removed : List Nat)
    (m : MethodDraft) : List (Located String) :=
  let own :=
    if !m.method.isPublic && !isCalled methods removed m.method.id
    then [⟨s!"Method `{m.method.name.spelling}` is never used", m.location⟩] else []
  let locals :=
    if removed.contains m.method.id then []
    else m.locals.filter fun v => !m.uses.contains (.localVar v.value.id)
  own ++ locals.map fun v =>
    ⟨s!"Local variable `{v.value.name.spelling}` is never used", v.location⟩

/-- The warnings about everything that is never used. -/
def unusedWarnings (methods : List MethodDraft) (removed : List Nat)
    (objectVars : List (Located ObjectVar)) : List (Located String) :=
  methods.flatMap (·.unusedWarnings methods removed) ++
    (objectVars.filter fun v => !isUsedVar methods v.value).map fun v =>
      ⟨s!"Variable `{v.value.name.spelling}` is never used", v.location⟩

end Propeller
