import Propeller.Proofs.Compile.Verdict

/-!
# Compile — limits and warnings

The limit on how often code is placed is asked by three loops, one for the assembly code of the object, one
for each block of assembly code in a method, and one for all methods.  Each of them stops at the first
round in which nothing moves, so that a higher limit leaves what it finds as it is.  Warnings go to the
report that decides whether there is an image, but they do not count as errors.

* `Compile.parts_config`: the parts of an object depend on the configuration only through the clock
  tolerance and whether debug statements are compiled.
* `buildImage_more`: an image that was put together within a limit is put together within any higher one.
* `compile_more`: what a compilation gives is the same with a higher limit, and with or without warnings.
-/

namespace Propeller

variable {config config' : Config} {scopes : Scopes} {limit limit' : Nat} {t : Addresses}
  {r : Resolution} {start : Int}

/-! ### Parts -/

namespace MethodContext

variable {config : Config} {m : MethodContext}

theorem labelAll_config (labels : List CaseLabel) :
    labelAll { m with config } labels = m.labelAll labels := by
  induction labels with
  | nil => rfl
  | cons l ls ih =>
    rw [labelAll, labelAll, ih]
    cases l <;> rfl

theorem labels_config (choices : List Choice) :
    labels { m with config } choices = m.labels choices := by
  induction choices with
  | nil => rfl
  | cons c cs ih => rw [labels, labels, labelAll_config, ih]

end MethodContext

namespace Statement

variable {config : Config} {m : MethodContext}

theorem block_config {ss : List Statement} (exits : Exits)
    (h : ∀ s ∈ ss, ∀ exits, commands { m with config } exits s = commands m exits s) :
    block { m with config } exits ss = block m exits ss := by
  induction ss with
  | nil => rfl
  | cons s ss ih =>
    obtain ⟨hs, hss⟩ := List.forall_mem_cons.mp h
    rw [block, block, hs, ih hss]

theorem blocks_config {choices : List Choice} (exits : Exits)
    (h : ∀ labels body, Choice.mk labels body ∈ choices → ∀ s ∈ body, ∀ exits,
      commands { m with config } exits s = commands m exits s) :
    blocks { m with config } exits choices = blocks m exits choices := by
  induction choices with
  | nil => rfl
  | cons choice choices ih =>
    obtain ⟨labels, body⟩ := choice
    rw [blocks, blocks, block_config exits (h labels body List.mem_cons_self),
      ih fun labels body hm => h labels body (.tail _ hm)]

theorem guarded_config {branches : List Guarded} (exits : Exits) (hasElse : Bool)
    (otherwise : Compile (List Command))
    (h : ∀ c negate body, Guarded.mk c negate body ∈ branches → ∀ s ∈ body, ∀ exits,
      commands { m with config } exits s = commands m exits s) :
    guarded { m with config } exits hasElse otherwise branches =
      guarded m exits hasElse otherwise branches := by
  induction branches with
  | nil => rfl
  | cons branch branches ih =>
    obtain ⟨c, negate, body⟩ := branch
    rw [guarded, guarded, block_config exits (h c negate body List.mem_cons_self),
      ih fun c negate body hm => h c negate body (.tail _ hm)]
    rfl

/-- Of the configuration, statements ask only whether debug statements are compiled. -/
theorem commands_config (h : config.debug = m.config.debug) (s : Statement) :
    ∀ exits, commands { m with config } exits s = commands m exits s := by
  induction s using Statement.induct with
    (intro exits
     rw [commands, commands])
  | conditional branches otherwise hbranches hotherwise =>
    rw [guarded_config _ _ _ hbranches, blockOpt_eq, blockOpt_eq, block_config _ hotherwise]
  | preLoop _ _ body hbody | postLoop _ _ body hbody | countLoop _ body hbody =>
    rw [block_config _ hbody]
    rfl
  | forever body hbody => rw [block_config _ hbody]
  | rangeLoop target first last step body hbody =>
    rw [block_config _ hbody]
    rfl
  | forLoop init c step body hinit hstep hbody =>
    rw [block_config _ hinit, block_config _ hstep, block_config _ hbody]
    rfl
  | switch value choices otherwise breakable hchoices hotherwise =>
    simp only [MethodContext.labels_config, blocks_config _ hchoices, blockOpt_eq,
      block_config _ hotherwise]
    rfl
  | debug l arguments =>
    rw [MethodContext.debug, MethodContext.debug, h]
    rfl
  | _ => rfl

end Statement

namespace Compile

theorem methodBody_config (h : config'.debug = config.debug) (library : Library) (m : MethodDraft)
    (decl : MethodDecl) : methodBody config' library m decl = methodBody config library m decl := by
  have hblock : Statement.block ⟨config', library, m⟩ {} decl.body =
      Statement.block ⟨config, library, m⟩ {} decl.body :=
    Statement.block_config (m := ⟨config, library, m⟩) {} fun s _ => Statement.commands_config h s
  rw [methodBody, methodBody, Statement.body, Statement.body, hblock]

theorem methodBodies_config (h : config'.debug = config.debug) (library : Library)
    (methods : List (MethodDraft × MethodDecl)) :
    methodBodies config' library methods = methodBodies config library methods := by
  induction methods with
  | nil => rfl
  | cons m rest ih => rw [methodBodies, methodBodies, methodBody_config h, ih]

/-- **The parts of an object** depend on the configuration only through the clock tolerance and whether
debug statements are compiled. -/
theorem parts_config (config config' : Config) (hdebug : config'.debug = config.debug)
    (htolerance : config'.clockTolerance = config.clockTolerance) (library : Library)
    (nodes : List Node) : parts config' library nodes = parts config library nodes := by
  have hclock : clock config' = clock config := by rw [clock, clock, htolerance]
  simp only [parts, hclock, methodBodies_config hdebug]

end Compile

/-! ### Placing code -/

/-- Assembly code that has no problem is the same with a higher limit. -/
theorem assemble_more {start : Start} {lines : List AsmLine}
    (h : (assemble scopes start lines limit t).problems = []) (hle : limit ≤ limit') :
    assemble scopes start lines limit' t = assemble scopes start lines limit t := by
  obtain ⟨ps, hconverge, -⟩ := assemble_eq h
  have hmore : converge scopes start lines limit' t = converge scopes start lines limit t :=
    (convergeWithin_more hconverge hle).trans hconverge.symm
  rw [assemble, assemble, hmore]

theorem assembleBlocks_more {blocks : List InlineBlock}
    (h : (assembleBlocks scopes limit blocks t).2.2 = []) (hle : limit ≤ limit') :
    assembleBlocks scopes limit' blocks t = assembleBlocks scopes limit blocks t := by
  induction blocks generalizing t with
  | nil => rfl
  | cons b bs ih =>
    obtain ⟨hb, hbs⟩ := List.append_eq_nil_iff.mp h
    simp only [assembleBlocks, assemble_more hb hle, ih hbs]

theorem layoutWithin_more {rounds rounds' : Nat} {methods laid : List (Body × MethodLayout)}
    (h : layoutWithin r start rounds methods = some laid) (hle : rounds ≤ rounds') :
    layoutWithin r start rounds' methods = some laid := by
  induction rounds generalizing rounds' methods with
  | zero => cases h
  | succ rounds ih =>
    obtain ⟨more, rfl⟩ := Nat.exists_eq_add_of_lt (Nat.lt_of_succ_le hle)
    simp only [layoutWithin] at h ⊢
    split at h
    · exact h
    · exact ih h (by omega)

/-- Methods that are laid out are laid out in the same way with a higher limit. -/
theorem layoutMethods_more {bodies : List Body} {layouts : List MethodLayout}
    (h : layoutMethods r start limit bodies = .ok layouts) (hle : limit ≤ limit') :
    layoutMethods r start limit' bodies = .ok layouts := by
  unfold layoutMethods at h ⊢
  simp only at h ⊢
  split at h
  · next laid hlaid =>
    rw [layoutWithin_more hlaid hle]
    exact h
  · cases h

/-! ### The image -/

/-- A configuration with other settings for what is warned of and how often code is placed. -/
def Config.adjusted (config : Config) (warnUnused : Bool) (limit : Nat) : Config :=
  { config with warnUnused, iterationLimit := limit }

namespace Parts

variable {config : Config} {d : Draft} {p : Parts} {limit : Nat} (warn : Bool)

theorem assembly_more (h : (p.assembly config d).problems = [])
    (hle : config.iterationLimit ≤ limit) :
    p.assembly (config.adjusted warn limit) d = p.assembly config d :=
  assemble_more h hle

theorem inlineCode_more (h : (p.assembly config d).problems = [])
    (hblocks : (p.inlineCode config d).2.2 = []) (hle : config.iterationLimit ≤ limit) :
    p.inlineCode (config.adjusted warn limit) d = p.inlineCode config d := by
  rw [inlineCode, p.assembly_more warn h hle]
  exact assembleBlocks_more hblocks hle

theorem codeStart_more (h : (p.assembly config d).problems = [])
    (hle : config.iterationLimit ≤ limit) :
    p.codeStart (config.adjusted warn limit) d = p.codeStart config d := by
  rw [codeStart, p.assembly_more warn h hle]
  rfl

theorem resolution_more (h : (p.assembly config d).problems = [])
    (hblocks : (p.inlineCode config d).2.2 = []) (hle : config.iterationLimit ≤ limit) :
    p.resolution (config.adjusted warn limit) d = p.resolution config d := by
  rw [resolution, p.inlineCode_more warn h hblocks hle]
  rfl

end Parts

/-- **An image that was put together** within a limit is put together within any higher one. -/
theorem buildImage_more {d : Draft} {p : Parts} {image : ObjectImage}
    (h : buildImage config d p (p.removed config) = .ok image) (hle : config.iterationLimit ≤ limit)
    (warn : Bool) :
    buildImage (config.adjusted warn limit) d p (p.removed (config.adjusted warn limit)) =
      .ok image := by
  rw [buildImage_eq] at h ⊢
  simp only at h ⊢
  split at h
  · cases h
  · next hproblems =>
    obtain ⟨hassembly, hblocks⟩ : (p.assembly config d).problems = [] ∧
        (p.inlineCode config d).2.2 = [] := by simpa using hproblems
    obtain ⟨layouts, hlayouts, h⟩ := bind_eq_ok h
    have hlaid := layoutMethods_more (mapError_eq_ok hlayouts) hle
    rw [p.assembly_more warn hassembly hle, p.inlineCode_more warn hassembly hblocks hle,
      p.resolution_more warn hassembly hblocks hle, p.codeStart_more warn hassembly hle,
      if_neg hproblems]
    exact (congrArg (fun x => Except.mapError _ x >>= _) hlaid).trans h

/-- **Limits and warnings.**  If a compilation succeeds, it also succeeds with a higher limit and with or
without warnings of what is never used, and gives the same image and the same debug data. -/
theorem compile_more {config : Config} {library : Library} {tree : ObjectTree}
    (h : (compile config library tree).succeeded = true) {limit : Nat}
    (hle : config.iterationLimit ≤ limit) (warn : Bool) :
    let config' := { config with warnUnused := warn, iterationLimit := limit }
    (compile config' library tree).succeeded = true ∧
      (compile config' library tree).image = (compile config library tree).image ∧
      (compile config' library tree).debug = (compile config library tree).debug := by
  obtain ⟨p, d, image, hparts, hbuilt⟩ := compile_succeeded h
  have hsame := Compile.parts_config config (config.adjusted warn limit) rfl rfl library tree.nodes
  have hbuilt' : p.Built (config.adjusted warn limit) d image :=
    ⟨hbuilt.parts, buildImage_more hbuilt.image hle warn, hbuilt.debug⟩
  obtain ⟨-, himage, hdebug⟩ := hbuilt.compile hparts
  obtain ⟨hsucceeded, himage', hdebug'⟩ := hbuilt'.compile ((congrFun hsame _).trans hparts)
  exact ⟨hsucceeded, himage'.trans himage.symm, hdebug'.trans hdebug.symm⟩

/-- An object with a word of data behind a label and a private method that nothing calls; its other
method shows a text and ends in a loop. -/
def showAndStay : ObjectTree where
  name := "t"
  nodes :=
    let name (text : String) : Located Identifier := ⟨⟨text⟩, {}⟩
    [.data [{ label := some (name "x"), mnemonic := some (name "WORD"),
              operands := [{ value := .name {} ⟨"x"⟩ }] }],
     .method { isPublic := false, name := name "idle" },
     .method { isPublic := true, name := name "main",
               body := [.debug {} [.text "on"], .repeatLoop none []] }]

/-- Two rounds are enough for this object, and it is the same with a hundred of them and a warning. -/
theorem compile_more_showAndStay :
    let config : Config := { debug := true, iterationLimit := 2 }
    let config' : Config := { config with warnUnused := true, iterationLimit := 100 }
    (compile config {} showAndStay).succeeded = true ∧
      (compile config' {} showAndStay).succeeded = true ∧
      (compile config' {} showAndStay).image = (compile config {} showAndStay).image ∧
      (compile config' {} showAndStay).debug = (compile config {} showAndStay).debug := by
  have hsucceeded : (compile { debug := true, iterationLimit := 2 } {}
      showAndStay).succeeded = true := by decide +kernel
  exact ⟨hsucceeded, compile_more hsucceeded (by decide) true⟩

end Propeller
