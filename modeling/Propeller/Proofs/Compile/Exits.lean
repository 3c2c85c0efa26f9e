import Mathlib.Data.List.Flatten
import Propeller.Proofs.Compile.CalledMethods
import Propeller.Proofs.Compile.ReportedExits

/-!
# Compile — exits of methods

What becomes of the exit sites of an object.  If nothing is wrong with it, each of them is a jump to the
nearest construct that it can go to (`Compile.Stages.exits_jump`).  The ones that have no such construct
around them are reported, each once and in order, as far as they are reached
(`Compile.Stages.misplaced_last`).  Together: `exits_jump_or_are_reported`.
-/

namespace Propeller

open Statement (exitSitesAll)

/-! ### The methods of an object -/

/-- Exit sites stand in the code of a method one after the other, each with a line of its own, and jump. -/
def MethodDraft.Jumps (m : MethodDraft) (sites : List ExitSite) : Prop :=
  ∃ places, List.Forall₂ (ExitSite.JumpsFrom (Command.body m.body).listing) sites places ∧
    (places.map ExitPlace.line).Sublist (Listing.marks (Command.body m.body).listing) ∧
    (Listing.marks (Command.body m.body).listing).Nodup

namespace Compile

variable {config : Config} {library : Library} {base : Draft} {e : Exit}

/-- **The exits of a method that are reported** are those that are reached and have nowhere to go. -/
theorem finds_methodBody {m : MethodDraft} {n : Names}
    (hn : ∀ d, base.Extends d → (d.names m.scope).Alike n) (decl : MethodDecl) :
    Finds base e (methodBody config library m decl) (lost e (exitSitesAll n.checks decl.body))
      (exitSitesAll n.checks decl.body = exitSitesAll .all decl.body) := by
  have huses : Finds base e (modify fun d => { d with uses := [] }) [] True :=
    fun d _ => ⟨(Draft.Extends.refl d).withUses [], (List.append_nil _).symm, fun _ => trivial⟩
  have hget : Finds base e (get : Compile Draft) [] True :=
    fun d _ => ⟨.refl d, (List.append_nil _).symm, fun _ => trivial⟩
  let context : MethodContext := { config, library, method := m }
  have hblock : Finds base e (Statement.block context {} decl.body)
      (lostWithin {} e (exitSitesAll n.checks decl.body))
      (exitSitesAll n.checks decl.body = exitSitesAll .all decl.body) :=
    Statement.finds_block (fun s _ => s.finds_commands hn) {}
  have hbody : Finds base e (Statement.body context decl.body)
      (lostWithin {} e (exitSitesAll n.checks decl.body))
      (exitSitesAll n.checks decl.body = exitSitesAll .all decl.body) := by
    refine Finds.weaken (finds_bind (M := []) (D := True) (succeeds_block _ _ _) hblock
      fun commands => ?_) (List.append_nil _) And.left
    split
    · exact finds_pure _
    · exact finds_pure _
  -- around the body of a method there is nowhere to go
  have hnowhere : ∀ sites, lostWithin {} e sites = lost e sites := by
    cases e <;> exact fun _ => rfl
  refine Finds.weaken (finds_bind (steady_modify fun _ _ => trivial) huses fun _ =>
    finds_bind (succeeds_body _ _) hbody fun body => finds_map hget _) ?_ fun h => h.2.1
  rw [List.nil_append, List.append_nil, hnowhere]

/-- The exits of all methods are reported one method after the other. -/
theorem finds_methodBodies {n : MethodDraft → Names} {methods : List (MethodDraft × MethodDecl)}
    (hn : ∀ m ∈ methods, ∀ d, base.Extends d → (d.names m.1.scope).Alike (n m.1)) :
    Finds base e (methodBodies config library methods)
      (methods.flatMap fun m => lost e (exitSitesAll (n m.1).checks m.2.body)) True := by
  induction methods with
  | nil => exact finds_pure _
  | cons m rest ih =>
    have hfirst : Finds base e (methodBody config library m.1 m.2) _ _ :=
      finds_methodBody (hn m (.head _)) m.2
    have hrest := ih fun m' hm' => hn m' (.tail _ hm')
    refine (finds_bind (succeeds_methodBody _ _ _ _) hfirst fun first => finds_map hrest _).weaken ?_
      fun _ => trivial
    rw [List.flatMap_cons]

/-- **The exits of a method jump** to the nearest constructs that they can go to, unless an error is
reported. -/
theorem methodBody_jumps {m₀ m : MethodDraft} {n : Names} {decl : MethodDecl} {d d' : Draft}
    (hn : ∀ d, base.Extends d → (d.names m₀.scope).Alike n) (hd : base.Extends d)
    (h : methodBody config library m₀ decl d = .ok m d') (he : d'.report.errors = d.report.errors) :
    m.Jumps (exitSitesAll .all decl.body) := by
  obtain ⟨⟨own, hown, hbody⟩, -⟩ :=
    methodBody_becomes (N := fun _ => True) (fun _ _ => trivial) (.refl d) h he
  have hlisting : Command.codeAll [] 0 own <:+: (Command.body m.body).listing := by
    rw [Command.body, hbody, Command.codeAll_append]
    exact (List.prefix_append ..).isInfix
  obtain ⟨places, hstand, hlines⟩ :=
    (Statement.BecomesAll.lays (fun s _ => s.laid) hown [] 0).places.mono hlisting
  -- an exit with nowhere to go would have been reported
  have hdepth : ∀ s ∈ exitSitesAll .all decl.body, s.depth? ≠ none := by
    intro s hs hnone
    obtain ⟨hfound, hreached⟩ := (finds_methodBody (e := s.exit) hn decl).of_ok hd h
    rw [hreached he, Report.misplaced_of_errors he, List.self_eq_append_right] at hfound
    have hlost := List.filter_eq_nil_iff.mp (List.map_eq_nil_iff.mp hfound) s hs
    exact hlost (decide_eq_true ⟨rfl, hnone⟩)
  refine ⟨places, ?_, hlines, (Command.marks_perm (methodBody_paired h)).nodup_iff.mpr List.nodup_range⟩
  refine ((List.forall₂_and_left _ _).mpr ⟨hdepth, hstand⟩).imp fun s place hs => ?_
  obtain ⟨depth, hdepth⟩ := Option.ne_none_iff_exists'.mp hs.1
  exact hs.2.jumpsFrom hdepth

namespace Stages

variable {nodes : List Node} {unitName : String} {p : Parts} {last : Draft}
  (t : Stages config library nodes unitName p last)

/-- Nothing is reported about exits in front of the bodies of methods. -/
theorem misplaced_data (e : Exit) : t.data.report.misplaced e = [] := by
  have hdata :=
    calc t.data.report.misplaced
        = t.declarations.report.misplaced := Unrelated.of_ok (fun _ => steady_convert _ _ _) t.data_eq
      _ = t.exports.report.misplaced :=
          Unrelated.of_ok (fun _ => steady_addDeclarations _ _) t.declarations_eq
      _ = t.children.report.misplaced := Unrelated.of_ok (fun _ => steady_addExports) t.exports_eq
      _ = t.clock.report.misplaced := Unrelated.of_ok (fun _ =>
          steady_attemptAll (steady_addChild (fun _ _ h => h) library) Untouched.fatal _) t.children_eq
      _ = t.constants.report.misplaced :=
          Unrelated.of_ok (fun _ => steady_attempt (steady_clock config) Untouched.fatal) t.clock_eq
      _ = t.selection.report.misplaced := Unrelated.of_ok (fun _ =>
          steady_attemptAll (steady_addConstants fun _ _ h => h) Untouched.fatal _) t.constants_eq
      _ = (Draft.initial unitName).report.misplaced :=
          Unrelated.of_ok (fun _ => Node.steady_selectAll nodes) t.selection_eq
  rw [hdata]
  rfl

/-- **The exits of an object that are reported** are those of its methods. -/
theorem misplaced_last (e : Exit) :
    last.report.misplaced e = (p.methods.zip (t.selected.flatMap Node.methodDecls)).flatMap fun m =>
      lost e (exitSitesAll (last.names m.1.scope).checks m.2.body) := by
  let decls := t.selected.flatMap Node.methodDecls
  have hscopes : p.methods.map MethodDraft.scope = t.methods.map MethodDraft.scope :=
    t.methods_map fun _ _ _ => rfl
  -- what is found in a method depends on it by its scope only
  have hzip : ∀ ms : List MethodDraft, (ms.zip decls).flatMap (fun m =>
        lost e (exitSitesAll (last.names m.1.scope).checks m.2.body)) =
      ((ms.map MethodDraft.scope).zip decls).flatMap fun m =>
        lost e (exitSitesAll (last.names m.1).checks m.2.body) := by
    intro ms
    rw [List.zip_map_left, List.flatMap_map]
    rfl
  have hrun := (finds_methodBodies (e := e) (n := fun m => last.names m.scope) fun m hm d hd =>
    (t.alike_of_extends (List.of_mem_zip hm).1 hd).symm).of_ok (.refl _) t.bodies_eq
  rw [hrun.1, t.misplaced_data, List.nil_append, hzip, hzip, hscopes]

/-- Unless an error is reported, the exits of every method jump. -/
theorem exits_jump (hclean : last.report.hasErrors = false) :
    List.Forall₂ (fun decl m => m.Jumps (exitSitesAll .all decl.body))
      (t.selected.flatMap Node.methodDecls) p.methods := by
  have hall := t.bodies hclean fun m₀ hm₀ decl d m d' hd hbody _ he =>
    methodBody_jumps (fun _ hext => (t.alike_of_extends hm₀ hext).symm) hd hbody he
  refine hall.imp ?_
  rintro decl m ⟨m₀, -, -, hjumps⟩
  exact hjumps

end Stages

end Compile

/-- **Every exit jumps, or is reported.**  In an object that is compiled without errors, each exit goes to the
nearest construct that offers it, and drops what is held by the constructs that are left.  The exits that are
reported are those that are reached and have no such construct around them, each of them once. -/
theorem exits_jump_or_are_reported (config : Config) (library : Library) (tree : ObjectTree) :
    ∃ p d, Compile.parts config library tree.nodes (Draft.initial tree.name) = .ok p d ∧
      List.Forall₂ Declares p.methods tree.methodDecls ∧
      (d.report.hasErrors = false →
        List.Forall₂ (fun decl m => m.Jumps (Statement.exitSitesAll .all decl.body))
          tree.methodDecls p.methods) ∧
      ∀ e,
        (compile config library tree).report.misplaced e =
          ((p.methods.zip tree.methodDecls).flatMap fun m =>
            lost e (Statement.exitSitesAll (d.names m.1.scope).checks m.2.body)) ∧
        ((compile config library tree).report.misplaced e).Sublist
          (tree.methodDecls.flatMap fun decl => lost e (Statement.exitSitesAll .all decl.body)) := by
  obtain ⟨p, d, h⟩ := Compile.exists_parts config library tree.nodes (Draft.initial tree.name)
  obtain ⟨t⟩ := Compile.parts_stages h
  have hdeclare := Compile.parts_declare h
  have hfound : ∀ e, (compile config library tree).report.misplaced e =
      (p.methods.zip tree.methodDecls).flatMap fun m =>
        lost e (Statement.exitSitesAll (d.names m.1.scope).checks m.2.body) := by
    intro e
    rw [compile_misplaced h, t.misplaced_last e, t.methodDecls_eq]
  refine ⟨p, d, h, hdeclare, fun hok => ?_, fun e => ⟨hfound e, ?_⟩⟩
  · rw [t.methodDecls_eq]
    exact t.exits_jump hok
  · have hall : tree.methodDecls = (p.methods.zip tree.methodDecls).map Prod.snd :=
      (List.map_snd_zip (Nat.le_of_eq hdeclare.length_eq.symm)).symm
    rw [hfound e, hall, List.flatMap_map, ← hall]
    refine List.Sublist.flatMap_right _ fun m _ => ?_
    exact lost_sublist e (Statement.exitSitesAll_sublist fun s _ => s.exitSites_sublist _)

/-- A method that leaves a switch in a loop and a loop in the switch, and goes on with either loop. -/
def leavesNested : ObjectTree where
  name := "t"
  nodes :=
    let name (text : String) : Located Identifier := ⟨⟨text⟩, {}⟩
    let number (v : Int64) : Expr := .literal {} (Literal.ofInt v)
    let inner : Statement :=
      .rangeLoop (.name {} ⟨"i"⟩) (number 1) (number 3) none [.next {}, .leave {}]
    [.method { isPublic := true, name := name "main", locals := [{ kind := .long, name := name "i" }],
               body :=
      [.repeatLoop (some (number 5))
        [.switch (number 1) [.mk [.value (number 1)] [inner], .mk [.value (number 2)] [.next {}]]
          (some [.leave {}]) false]] }]

/-- The first exit leaves the switch and the loop around it, which hold three longs.  The next two are those
of the inner loop, and the last one leaves the switch only. -/
theorem exits_jump_or_are_reported_leavesNested :
    ∃ p d, Compile.parts {} {} leavesNested.nodes (Draft.initial leavesNested.name) = .ok p d ∧
      d.report.hasErrors = false ∧
      leavesNested.methodDecls.map (fun decl => (Statement.exitSitesAll .all decl.body).map fun s =>
        (s.exit, s.depth?.map fun depth => (depth, s.dropped depth))) =
        [[(.leave, some (1, 3)), (.next, some (0, 0)), (.leave, some (0, 4)), (.next, some (1, 2))]] ∧
      List.Forall₂ (fun decl m => m.Jumps (Statement.exitSitesAll .all decl.body))
        leavesNested.methodDecls p.methods := by
  obtain ⟨p, d, h, hcompiled⟩ := exists_of_ok
    (r := Compile.parts {} {} leavesNested.nodes (Draft.initial leavesNested.name))
    (g := fun _ d => !d.report.hasErrors) (by decide +kernel)
  obtain ⟨p', d', h', -, hjump, -⟩ := exits_jump_or_are_reported {} {} leavesNested
  rw [h] at h'
  cases h'
  rw [Bool.not_eq_true'] at hcompiled
  exact ⟨p, d, h, hcompiled, by decide +kernel, hjump hcompiled⟩

/-- A method with an exit that has nowhere to go, behind a condition that is wrong. -/
def leavesBehindError : ObjectTree where
  name := "t"
  nodes :=
    [.method { isPublic := true, name := ⟨⟨"main"⟩, {}⟩, body :=
      [.conditional [.mk (.name {} ⟨"nowhere"⟩) false [.leave {}]] none] }]

/-- **Not every exit that has nowhere to go is reported:** if the condition in front of it is wrong, nothing
is said about the exit. -/
theorem exit_behindError_not_reported :
    leavesBehindError.methodDecls.flatMap (fun decl =>
      lost .leave (Statement.exitSitesAll .all decl.body)) = [some {}] ∧
    (compile {} {} leavesBehindError).report.entries.map Diagnostic.message =
      ["Symbol `nowhere` is undefined"] := by
  decide +kernel

end Propeller
