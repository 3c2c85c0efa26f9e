import Propeller.Proofs.Compile.CalledMethods
import Propeller.Proofs.Semantics.Compiled
import Propeller.Proofs.Semantics.Run

/-!
# Semantics — control flow is kept

The interpreter follows every method of an object that is compiled without errors: it tests the same
conditions and labels, and carries out the same statements, in the order in which the statements of the
method do so (`parts_follow`).
-/

namespace Propeller

variable {w : World}
variable {fuel scopes labels : Nat} {debugging : Bool} {n : Names} {ss : List Statement} {d : Draft}

/-! ### Bodies of methods -/

namespace Statement

/-- Statements that end with a return never get through. -/
theorem execAll_ne_done (hlast : (ss.getLast?.map isReturn).getD false = true) (h : History) :
    (execAll w fuel debugging n ss h).1 ≠ .done := by
  induction ss generalizing h with
  | nil => nomatch hlast
  | cons s ss ih =>
    rw [execAll, Act.before_apply]
    by_cases hs : (s.exec w fuel debugging n h).1 = .done
    · rw [if_pos hs]
      cases ss with
      | nil =>
        cases s with
        | ret value =>
          cases value <;> nomatch hs
        | abort value => cases value <;> nomatch hs
        | _ => nomatch hlast
      | cons s' ss => exact ih (by simpa using hlast) _
    · rw [if_neg hs]
      exact hs

theorem execBody_ne_done (h : History) : (execBody w fuel debugging n ss h).1 ≠ .done := by
  rw [execBody, Act.before_apply]
  by_cases hs : (execAll w fuel debugging n ss h).1 = .done
  · rw [if_pos hs]
    exact fun hret => nomatch hret
  · rw [if_neg hs]
    exact hs

/-- The commands of a body do what the body does. -/
theorem execBody_eq {N : Names → Prop} (hN : ∀ n', N n' → n'.Alike n) {library : Library}
    {own : List Command} (hown : BecomesAll N debugging (Text.RunBy library d N w.Finds) ss own) (fuel : Nat) :
    Command.execAll w fuel (own ++ if (ss.getLast?.map isReturn).getD false then [] else [.ret none]) =
      execBody w fuel debugging n ss := by
  have hsame := execAll_eq (fun s _ => s.exec_eq hN) hown fuel
  split
  · next hlast =>
    rw [List.append_nil, hsame, execBody, Act.before_of_ne_done (execAll_ne_done hlast)]
  · rw [Command.execAll_append, hsame, Command.execAll_singleton]
    rfl

end Statement

/-- The interpreter follows commands from their beginning. -/
theorem Command.follows {cs : List Command} (hw : WellFormedAll {} cs) {source : Nat → Act Ending}
    (hsource : ∀ fuel, execAll w fuel cs = source fuel)
    (hdone : ∀ fuel h, (source fuel h).1 ≠ .done) :
    Follows w (body cs).listing { rest := (body cs).listing } source := by
  have hn : (Listing.marks (body cs).listing).Nodup := nodup_marks hw
  have ho : Offers (body cs).listing {} {} := by
    intro e he
    cases e <;> nomatch he
  have hlisting : codeAll [] 0 cs ++ [] = (body cs).listing := List.append_nil _
  have hs : (codeAll [] 0 cs ++ []) <:+ (body cs).listing := ⟨[], hlisting⟩
  refine Follows.of_meets (fun fuel => ?_) fun fuel => hdone fuel _
  rw [← hsource fuel, ← hlisting]
  exact Simulated.all (fun c _ => c.meets_exec (hlisting ▸ hn)) hw (hlisting ▸ ho) (hlisting ▸ hs) []

/-! ### Objects -/

/-- What is carried out as it is written in the methods of an object. -/
def ObjectTree.texts (tree : ObjectTree) (debugging : Bool) : List Text :=
  tree.methodDecls.flatMap fun decl => Statement.textsAll debugging decl.body

namespace Compile

variable {config : Config} {library : Library} {base last : Draft}

/-- **Bodies of methods**, one after the other, add their texts, and they do what is written. -/
theorem methodBodies_exec {methods : List (MethodDraft × MethodDecl)}
    (hm : ∀ m ∈ methods, ∀ x, base.Extends x → (last.names m.1.scope).Alike (x.names m.1.scope))
    {compiled : List MethodDraft} (hd : base.Extends d)
    (h : methodBodies config library methods d = .ok compiled last)
    (he : last.report.errors = d.report.errors)
    (hn : d.Numbers w.Finds (methods.flatMap fun m => Statement.textsAll config.debug m.2.body)) :
    d.Adds library last (methods.flatMap fun m => Statement.textsAll config.debug m.2.body) ∧
      List.Forall₂ (fun (m : MethodDraft) (decl : MethodDecl) => ∀ fuel,
        Command.execAll w fuel m.body =
          Statement.execBody w fuel config.debug (last.names m.scope) decl.body)
        compiled (methods.map Prod.snd) := by
  induction methods generalizing d compiled with
  | nil =>
    cases h
    exact ⟨.nil rfl rfl, .nil⟩
  | cons m rest ih =>
    obtain ⟨halike, hm⟩ := List.forall_mem_cons.mp hm
    obtain ⟨first, d₁, hfirst, h⟩ := bind_eq_ok h
    obtain ⟨others, d₂, hothers, h⟩ := bind_eq_ok h
    cases h
    have hext : d.Extends d₁ := (keeps_methodBody config library m.1 m.2).of_ok (.refl d) hfirst
    have hext' : d₁.Extends last := (keeps_methodBodies config library rest).of_ok (.refl d₁) hothers
    obtain ⟨he₁, he₂⟩ := hext.errors_eq hext' he
    obtain ⟨⟨own, hown, hbody⟩, -, hadds⟩ := methodBody_becomes_in
      (k := ⟨library, base, last, (last.names m.1.scope).Alike, w.Finds⟩) halike hd hfirst hext' he₁ hn.left
    obtain ⟨hadds', hsame⟩ := ih hm (hd.trans hext) hothers he₂ (hn.right hadds)
    refine ⟨hadds.append hadds', .cons (fun fuel => ?_) hsame⟩
    rw [hbody, (methodBody_same hfirst).2]
    exact Statement.execBody_eq (fun _ h => h.symm) hown fuel

end Compile

/-- The texts of an object are found in the world that shows them. -/
theorem World.numbers_showing (hd : d.Declared scopes labels) (texts : List Text) :
    d.Numbers (w.showing texts).Finds texts where
  blocks p hp := by
    rw [hd.blocks_eq] at hp
    simp [Finds, showing, List.mem_zipIdx_iff_getElem?.mp hp]
  records p hp := by
    rw [hd.records_eq] at hp
    simp [Finds, showing, List.mem_zipIdx_iff_getElem?.mp hp]

/-- **Control flow is kept.**  The interpreter follows every method of an object that is compiled without
errors, in a world that carries out the assembly code and the debug statements of the object; these are
found by the numbers that the object gives them. -/
theorem parts_follow {config : Config} {library : Library} {tree : ObjectTree} {p : Parts} {d : Draft}
    (h : Compile.parts config library tree.nodes (Draft.initial tree.name) = .ok p d)
    (hok : d.report.hasErrors = false)
    (hfew : config.debug = true → ∀ decl ∈ tree.methodDecls, Statement.ShowsFewAll decl.body)
    (w : World) :
    List.Forall₂
        (fun m decl => Follows (w.showing (tree.texts config.debug)) (Command.body m.body).listing
          { rest := (Command.body m.body).listing }
          fun fuel => Statement.execBody (w.showing (tree.texts config.debug)) fuel config.debug
            (d.names m.scope) decl.body)
        p.methods tree.methodDecls ∧
      (Draft.initial tree.name).Adds library d (tree.texts config.debug) := by
  obtain ⟨t⟩ := Compile.parts_stages h
  have hlength := (Compile.addDeclarations_declare t.declarations_eq).length_eq
  have hdecls : (t.methods.zip (t.selected.flatMap Node.methodDecls)).map Prod.snd = tree.methodDecls := by
    rw [t.methodDecls_eq, List.map_snd_zip (Nat.le_of_eq hlength.symm)]
  have htexts : (t.methods.zip (t.selected.flatMap Node.methodDecls)).flatMap
      (fun m => Statement.textsAll config.debug m.2.body) = tree.texts config.debug := by
    rw [ObjectTree.texts, ← hdecls, List.flatMap_map]
  have hclean : d.report.errors = t.data.report.errors := by
    rw [Report.errors_eq_nil hok, Report.errors_eq_nil (t.extends_last.hasErrors_of hok)]
  have hformed : ∀ m ∈ p.methods, Command.WellFormedAll {} m.body := by
    refine Compile.yields_methodBodies (fun hon m hm => hfew hon m.2 ?_) _ _ _ t.bodies_eq
    exact hdecls ▸ List.mem_map_of_mem hm
  have hnumbers := w.numbers_showing t.declared_data (tree.texts config.debug)
  rw [← htexts] at hnumbers
  obtain ⟨hadds, hsame⟩ := Compile.methodBodies_exec
    (fun m hm x hx => t.alike_of_extends (List.of_mem_zip hm).1 hx) (.refl t.data) t.bodies_eq hclean hnumbers
  rw [htexts] at hadds hsame
  rw [hdecls] at hsame
  constructor
  · refine ((List.forall₂_and_left _ _).mpr ⟨hformed, hsame⟩).imp fun m decl ⟨hw, hexec⟩ => ?_
    exact Command.follows hw hexec fun fuel h => Statement.execBody_ne_done h
  · obtain ⟨new, hnew, hall⟩ := hadds.blocks
    refine ⟨⟨new, ?_, hall⟩, ?_⟩
    · rw [hnew, t.declared_data.blocks_eq]
      rfl
    · rw [hadds.records, t.declared_data.records_eq]
      rfl

/-- A method with a loop, in which a switch goes on with the next round or leaves the loop, and otherwise a
value is shown at the end of the round. -/
def switchInLoop : ObjectTree :=
  let number (v : Int64) : Expr := .literal {} (Literal.ofInt v)
  let i : Expr := .name {} ⟨"i"⟩
  let choices : List Choice :=
    [.mk [.value (number 5)] [.next {}], .mk [.range (number 7) (number 8)] [.leave {}]]
  { name := "t"
    nodes := [.method {
      isPublic := true
      name := ⟨⟨"main"⟩, {}⟩
      locals := [{ kind := .long, name := ⟨⟨"i"⟩, {}⟩ }]
      body := [.forLoop [.assign i none (number 0)]
        (some (.binary {} (.integer .less) i (number 9)))
        [.assign i (some (.integer .add)) (number 1)]
        [.switch i choices none false, .debug {} [.value .udec i "i"]]] }] }

/-- The method is compiled with its debug statement, and followed by the interpreter. -/
theorem parts_follow_switchInLoop :
    ∃ (p : Parts) (d : Draft),
      Compile.parts { debug := true } {} switchInLoop.nodes (Draft.initial switchInLoop.name) = .ok p d ∧
      d.report.hasErrors = false ∧ p.methods.length = 1 ∧ d.debug.records.length = 1 ∧ ∀ w : World,
        List.Forall₂
          (fun m decl => Follows (w.showing (switchInLoop.texts true)) (Command.body m.body).listing
            { rest := (Command.body m.body).listing }
            fun fuel => Statement.execBody (w.showing (switchInLoop.texts true)) fuel true
              (d.names m.scope) decl.body)
          p.methods switchInLoop.methodDecls := by
  have hcompiled : (match Compile.parts { debug := true } {} switchInLoop.nodes
        (Draft.initial switchInLoop.name) with
      | .ok p d    => some (d.report.hasErrors, p.methods.length, d.debug.records.length)
      | .error _ _ => none) = some (false, 1, 1) := by decide +kernel
  cases hparts : Compile.parts { debug := true } {} switchInLoop.nodes
      (Draft.initial switchInLoop.name) with
  | error e d =>
    rw [hparts] at hcompiled
    cases hcompiled
  | ok p d =>
    rw [hparts] at hcompiled
    obtain ⟨hok, hmethods, hrecords⟩ : d.report.hasErrors = false ∧ p.methods.length = 1 ∧
      d.debug.records.length = 1 := by simpa using hcompiled
    refine ⟨p, d, rfl, hok, hmethods, hrecords, fun w => (parts_follow hparts hok ?_ w).1⟩
    intro _ decl hdecl
    obtain rfl := List.mem_singleton.mp hdecl
    simp [Statement.ShowsFewAll, Statement.ShowsFew, Statement.ShowsFewChoices, Statement.ShowsFewOpt,
      MethodContext.debugValues]

/-- A world in which a number that is written stands for itself. -/
def World.literal : World where
  answer _ e _ :=
    match e with
    | .operation (.constant (.number l)) _ => BitVec.ofNat 32 l.value.word
    | _                                    => 0
  inRange _ _ _ := false

/-- How often something has been shown. -/
def History.shown (h : History) : Nat :=
  h.countP fun
    | .debug _ _ => true
    | _          => false

/-- A loop of two rounds, in which one value more is shown than can be counted in one byte. -/
def manyValuesInLoop : ObjectTree :=
  let number (v : Int64) : Expr := .literal {} (Literal.ofInt v)
  { name := "t"
    nodes := [.method {
      isPublic := true
      name := ⟨⟨"main"⟩, {}⟩
      body := [.repeatLoop (some (number 2))
        [.debug {} (List.replicate 256 (.value .udec (number 1) ""))]] }] }

/-- Too many values are not refused, and the interpreter does not follow: a value stays on the stack above
the counter of the loop, is counted down in its place, and the loop is left after its first round. -/
theorem not_follows_manyValuesInLoop :
    ∃ (p : Parts) (d : Draft) (w : World),
      Compile.parts { debug := true } {} manyValuesInLoop.nodes (Draft.initial manyValuesInLoop.name) =
        .ok p d ∧
      d.report.hasErrors = false ∧
      ¬ List.Forall₂
          (fun m decl => Follows (w.showing (manyValuesInLoop.texts true)) (Command.body m.body).listing
            { rest := (Command.body m.body).listing }
            fun fuel => Statement.execBody (w.showing (manyValuesInLoop.texts true)) fuel true
              (d.names m.scope) decl.body)
          p.methods manyValuesInLoop.methodDecls := by
  let w := World.literal.showing (manyValuesInLoop.texts true)
  let decls := manyValuesInLoop.methodDecls
  have hcompiled : (match Compile.parts { debug := true } {} manyValuesInLoop.nodes
        (Draft.initial manyValuesInLoop.name) with
      | .ok p d    => some (d.report.hasErrors, p.methods.map fun (m : MethodDraft) =>
        ((Machine.runFor w (Command.body m.body).listing 267
          { rest := (Command.body m.body).listing }).map
            fun (s : Machine) => (s.rest.isNone, History.shown s.history),
        decls.map fun (decl : MethodDecl) =>
          History.shown (Statement.execBody w 0 true (d.names m.scope) decl.body []).2))
      | .error _ _ => none) = some (false, [(some (true, 1), [2])]) := by decide +kernel
  cases hparts : Compile.parts { debug := true } {} manyValuesInLoop.nodes
      (Draft.initial manyValuesInLoop.name) with
  | error e d =>
    rw [hparts] at hcompiled
    cases hcompiled
  | ok p d =>
    rw [hparts] at hcompiled
    obtain ⟨hok, hmethods⟩ := Prod.mk.inj (Option.some.inj hcompiled)
    obtain ⟨m, hm, hruns⟩ := List.map_eq_singleton_iff.mp hmethods
    obtain ⟨hrun, hsource⟩ := Prod.mk.inj hruns
    obtain ⟨decl, hdecls, htwice⟩ := List.map_eq_singleton_iff.mp hsource
    obtain ⟨s, hs, hend⟩ := Option.map_eq_some_iff.mp hrun
    obtain ⟨hrest, honce⟩ := Prod.mk.inj hend
    refine ⟨p, d, World.literal, rfl, hok, fun hall => ?_⟩
    rw [hm, show manyValuesInLoop.methodDecls = [decl] from hdecls] at hall
    obtain ⟨hfollows, -⟩ := List.forall₂_cons.mp hall
    obtain ⟨fuel, hfuel⟩ := (hfollows.returns s.history).mpr
      ⟨s, ⟨267, hs⟩, Option.isNone_iff_eq_none.mp hrest, rfl⟩
    -- No loop of the method is cut off by the fuel, so both rounds are always there.
    have hfree : ∀ decl ∈ decls, Statement.execBody w fuel true (d.names m.scope) decl.body =
        Statement.execBody w 0 true (d.names m.scope) decl.body := by
      intro decl hdecl
      obtain rfl := List.mem_singleton.mp hdecl
      simp only [Statement.execBody, Statement.execAll, Statement.exec, Command.exec]
    have hsame : Statement.execBody w 0 true (d.names m.scope) decl.body [] = (.returned, s.history) :=
      hfree decl (hdecls ▸ List.mem_singleton_self decl) ▸ hfuel
    rw [hsame, honce] at htwice
    cases htwice

end Propeller
