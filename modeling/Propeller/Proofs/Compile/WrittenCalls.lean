import Propeller.Proofs.Compile.CalledMethods

/-!
# Compile — calls in the order in which they are made

A call may do something, so it matters that it is neither lost nor made twice.  `Statement.writtenAll` lists
the calls that are written in statements, in the order in which they are to be made: calls, members of
children and names of methods, wherever they stand.  Compiled code departs from what is written in two
places, and the list says so if it is asked for the calls that are made:

* the index of an element that is changed by an operator is computed once to read the element and again to
  write it, and with it the calls in the index are made twice;
* a constant of a child is put in its place without a look at what is written in the brackets of the
  child, and a call there is not made.

The calling instructions of a method that is compiled without errors are those of the calls in this list,
one for one and in the same order (`parts_writtenCalls`).
-/

namespace Propeller

/-! ### Calling instructions -/

/-- A calling instruction is the one of a call that is written: it calls the method that its name stands
for, of an instance that an index says if one is written. -/
def CallSite.IsCalledBy (n : Names) (k : CallSite) (instruction : Method × Bool) : Prop :=
  n.symbol? k.name = some (.method instruction.1) ∧ instruction.2 = k.index.isSome

theorem CallSite.Becomes.isCalledBy {n : Names} {k : CallSite} {c : Call} (h : k.Becomes n.Alike c) :
    k.IsCalledBy n c.instruction := by
  refine ⟨h.symbol_eq, ?_⟩
  have hindex : c.instruction.2 = c.index.isSome := rfl
  rw [hindex, h.index_eq, Option.isSome_map]

/-- **No call is lost or made twice**, but for the two places that `Statement.writtenAll` knows of: the calling
instructions of a method that is compiled without errors are those of the calls that are made, one for one
and in order. -/
theorem parts_writtenCalls {config : Config} {library : Library} {tree : ObjectTree} {p : Parts}
    {d : Draft} (h : Compile.parts config library tree.nodes (Draft.initial tree.name) = .ok p d)
    (hok : d.report.hasErrors = false) :
    List.Forall₂ (fun decl m => List.Forall₂ (CallSite.IsCalledBy (d.names m.scope))
        (Statement.writtenAll true (d.names m.scope) config.debug decl.body)
        (Listing.callees (Command.body m.body).listing))
      tree.methodDecls p.methods := by
  obtain ⟨t⟩ := Compile.parts_stages h
  rw [t.methodDecls_eq]
  refine (t.bodies_become hok).imp ?_
  rintro decl m ⟨own, hown, hbody⟩
  have hcalls : Command.callsAll m.body = Command.callsAll own := by
    rw [hbody, Command.callsAll_append]
    split
    · exact List.append_nil _
    · exact List.append_nil _
  rw [Command.body, Command.callees_codeAll fun c _ => c.callees_code, hcalls, List.forall₂_map_right_iff]
  exact (Statement.BecomesAll.made_of (fun s _ => s.makes) hown).imp fun k c hk => hk.isCalledBy

/-- A method whose calls stand in the index of an element that is changed, in the value that it is changed
by, in the condition behind a loop, and alone. -/
def callsInLoop : ObjectTree where
  name := "t"
  nodes :=
    let name (text : String) : Located Identifier := ⟨⟨text⟩, {}⟩
    let number (v : Int64) : Expr := .literal {} (Literal.ofInt v)
    [.objectVars [{ kind := .long, name := name "a", count := some (number 4) }],
     .method { isPublic := true, name := name "main", body :=
       [.whileLoop (.name {} ⟨"more"⟩) false true
          [.assign (.index {} (name "a") (.name {} ⟨"place"⟩)) (some (.integer .add))
            (.call {} none none (name "twice") [number 1])],
        .expression {} (.name {} ⟨"stop"⟩)] },
     .method { isPublic := false, name := name "more", results := [name "r"] },
     .method { isPublic := false, name := name "place", results := [name "r"] },
     .method { isPublic := false, name := name "twice", parameters := [name "x"], results := [name "r"] },
     .method { isPublic := false, name := name "stop" }]

/-- The index is computed before the value and again behind it, and the condition of the loop comes behind
its body. -/
theorem parts_writtenCalls_callsInLoop :
    ∃ (p : Parts) (d : Draft),
      Compile.parts {} {} callsInLoop.nodes (Draft.initial callsInLoop.name) = .ok p d ∧
      d.report.hasErrors = false ∧
      p.methods.map (fun m => (Listing.callees (Command.body m.body).listing).map (·.1.name.spelling)) =
        [["place", "twice", "place", "more", "stop"], [], [], [], []] ∧
      List.Forall₂ (fun decl m => List.Forall₂ (CallSite.IsCalledBy (d.names m.scope))
          (Statement.writtenAll true (d.names m.scope) false decl.body)
          (Listing.callees (Command.body m.body).listing))
        callsInLoop.methodDecls p.methods := by
  obtain ⟨p, d, hparts, hcompiled⟩ := exists_of_ok
    (r := Compile.parts {} {} callsInLoop.nodes (Draft.initial callsInLoop.name))
    (g := fun p d => !d.report.hasErrors && p.methods.map (fun m =>
      (Listing.callees (Command.body m.body).listing).map (·.1.name.spelling)) ==
        [["place", "twice", "place", "more", "stop"], [], [], [], []]) (by decide +kernel)
  rw [Bool.and_eq_true, Bool.not_eq_true', beq_iff_eq] at hcompiled
  exact ⟨p, d, hparts, hcompiled.1, hcompiled.2, parts_writtenCalls hparts hcompiled.1⟩

/-- Every path leads to an object that exports a constant. -/
def oneConstant : Library where
  object _ := .ok { bytes := [1, 2, 3, 4, 5], constants := [(⟨"BAUD"⟩, .int 5)] }

/-- An object with a method that changes an element whose index is computed by a call, and one that reads a
constant of a child with a call in its brackets. -/
def callsInIndices : ObjectTree where
  name := "t"
  nodes :=
    let name (text : String) : Located Identifier := ⟨⟨text⟩, {}⟩
    let number (v : Int64) : Expr := .literal {} (Literal.ofInt v)
    let place : Expr := .call {} none none (name "place") []
    [.objects [{ name := name "kid", path := ⟨"kid", {}⟩ }],
     .objectVars [{ kind := .long, name := name "a", count := some (number 4) }],
     .method { isPublic := true, name := name "change", body :=
       [.assign (.index {} (name "a") place) (some (.integer .add)) (number 1)] },
     .method { isPublic := true, name := name "fetch", results := [name "r"], body :=
       [.ret (some (.member {} (name "kid") (some place) (name "BAUD")))] },
     .method { isPublic := false, name := name "place", results := [name "r"] }]

/-- **Not every call that is written is made once:** in each of the first two methods one call is written.
The first one makes it twice, and the second one never. -/
theorem calls_madeTwice_or_never :
    ∃ (p : Parts) (d : Draft),
      Compile.parts {} oneConstant callsInIndices.nodes (Draft.initial callsInIndices.name) = .ok p d ∧
      d.report.hasErrors = false ∧
      (callsInIndices.methodDecls.zip p.methods).map (fun x =>
        ((Statement.writtenAll false (d.names x.2.scope) false x.1.body).length,
          (Listing.callees (Command.body x.2.body).listing).length)) = [(1, 2), (1, 0), (0, 0)] := by
  obtain ⟨p, d, hparts, hcompiled⟩ := exists_of_ok
    (r := Compile.parts {} oneConstant callsInIndices.nodes (Draft.initial callsInIndices.name))
    (g := fun p d => !d.report.hasErrors && (callsInIndices.methodDecls.zip p.methods).map (fun x =>
      ((Statement.writtenAll false (d.names x.2.scope) false x.1.body).length,
        (Listing.callees (Command.body x.2.body).listing).length)) == [(1, 2), (1, 0), (0, 0)])
    (by decide +kernel)
  rw [Bool.and_eq_true, Bool.not_eq_true', beq_iff_eq] at hcompiled
  exact ⟨p, d, hparts, hcompiled⟩

end Propeller
