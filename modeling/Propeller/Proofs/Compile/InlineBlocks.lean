import Propeller.Proofs.Compile.CalledMethods
import Propeller.Proofs.Compile.ExitSites

/-!
# Compile — the blocks of assembly code in methods

A block of assembly code that is written in a method begins with its origin, or it has none and begins at
0.  The lines behind the origin are converted one by one, and an instruction that returns is put behind
them (`InlineBlock.MadeOf`).  The block itself is set aside, and the code of the method says only its
origin and its number.

* `Listing.inlines`: the instructions of a listing that run blocks of assembly code.
* `parts_texts`: in a method that is compiled without errors there is one instruction for each text.
* `parts_inlineBlocks`: so there is one for each block that is written, and it says the number of this block.
-/

namespace Propeller

/-! ### Instructions that run a block -/

/-- The origin and the block that an instruction says, if it is one that runs a block of assembly code. -/
def Entry.inline? : Entry → Option (Nat × Nat)
  | .code (.inline origin block) => some (origin, block)
  | _                            => none

theorem Entry.eq_of_inline? {e : Entry} {inline : Nat × Nat} (h : e.inline? = some inline) :
    e = .code (.inline inline.1 inline.2) := by
  unfold Entry.inline? at h
  split at h
  · cases h
    rfl
  · cases h

/-- The instructions of a listing that run blocks of assembly code, in order. -/
def Listing.inlines (l : Listing) : List (Nat × Nat) := l.filterMap Entry.inline?

/-- They are among those that carry out texts. -/
theorem Listing.inlines_eq (l : Listing) :
    l.inlines = l.performed.filterMap fun c => Entry.inline? (.code c) := by
  rw [inlines, performed, List.filterMap_filterMap]
  congr 1
  funext e
  cases e with
  | mark line => rfl
  | code c => cases c <;> rfl

/-! ### Blocks among texts -/

namespace Statement

variable {debugging : Bool}

/-- The blocks that are written in a statement are those among its texts. -/
def Assembles (debugging : Bool) (s : Statement) : Prop :=
  (s.texts debugging).filterMap Text.assembly? = s.assemblies

theorem assembles_all {ss : List Statement} (h : ∀ s ∈ ss, s.Assembles debugging) :
    (textsAll debugging ss).filterMap Text.assembly? = assembliesAll ss := by
  induction ss with
  | nil => rfl
  | cons s ss ih =>
    rw [textsAll, assembliesAll, List.filterMap_append, h s (.head _), ih fun x hx => h x (.tail _ hx)]

theorem assembles_guarded {branches : List Guarded}
    (h : ∀ c negate body, Guarded.mk c negate body ∈ branches → ∀ s ∈ body, s.Assembles debugging) :
    (textsGuarded debugging branches).filterMap Text.assembly? = assembliesGuarded branches := by
  induction branches with
  | nil => rfl
  | cons g rest ih =>
    obtain ⟨c, negate, body⟩ := g
    rw [textsGuarded, assembliesGuarded, List.filterMap_append, assembles_all (h c negate body (.head _)),
      ih fun c n b hb => h c n b (.tail _ hb)]

theorem assembles_choices {choices : List Choice}
    (h : ∀ labels body, Choice.mk labels body ∈ choices → ∀ s ∈ body, s.Assembles debugging) :
    (textsChoices debugging choices).filterMap Text.assembly? = assembliesChoices choices := by
  induction choices with
  | nil => rfl
  | cons c rest ih =>
    obtain ⟨labels, body⟩ := c
    rw [textsChoices, assembliesChoices, List.filterMap_append, assembles_all (h labels body (.head _)),
      ih fun l b hb => h l b (.tail _ hb)]

theorem assembles (s : Statement) : s.Assembles debugging := by
  induction s using Statement.induct with
  | conditional branches otherwise hb ho =>
    rw [Assembles, texts, List.filterMap_append, assembles_guarded hb, textsOpt_eq, assembles_all ho]
    cases otherwise <;> rfl
  | switch value choices otherwise breakable hc ho =>
    rw [Assembles, texts, List.filterMap_append, assembles_choices hc, textsOpt_eq, assembles_all ho]
    cases otherwise <;> rfl
  | forLoop init c step body hi hs hb =>
    simp [Assembles, texts, assemblies, assembles_all hi, assembles_all hs, assembles_all hb]
  | preLoop _ _ body hb | postLoop _ _ body hb | forever body hb | countLoop _ body hb
  | rangeLoop _ _ _ _ body hb => exact assembles_all hb
  | debug l arguments => cases debugging <;> rfl
  | _ => rfl

end Statement

/-! ### The methods of an object -/

/-- What is related one for one stays so when some pairs are left out. -/
theorem forall₂_filterMap {α β γ δ : Type} {R : α → β → Prop} {S : γ → δ → Prop} {f : α → Option γ}
    {g : β → Option δ} {xs : List α} {ys : List β} (h : List.Forall₂ R xs ys)
    (hR : ∀ x y, R x y → f x = none ∧ g y = none ∨ ∃ a b, f x = some a ∧ g y = some b ∧ S a b) :
    List.Forall₂ S (xs.filterMap f) (ys.filterMap g) := by
  induction h with
  | nil => exact .nil
  | cons hxy _ ih =>
    obtain ⟨hf, hg⟩ | ⟨a, b, hf, hg, hs⟩ := hR _ _ hxy
    · rwa [List.filterMap_cons_none hf, List.filterMap_cons_none hg]
    · rw [List.filterMap_cons_some hf, List.filterMap_cons_some hg]
      exact .cons hs ih

variable {config : Config} {library : Library} {tree : ObjectTree} {p : Parts} {d : Draft}

/-- A text is carried out by the instruction that runs its block, or by the one that shows its values. -/
theorem Text.PerformedIn.inline_or_debug {N : Names → Prop} {Num : Text → Nat → Prop} {l : Listing} {t : Text}
    {c : Code} (h : t.PerformedIn (RunBy library d N Num) l c) :
    (∃ lines origin block, t = .assembly lines ∧ c = .inline origin block ∧
      RunsBlock library d.blocks lines (origin, block)) ∨
    ∃ arguments ts record base, t = .debug arguments ∧ c = .debug (min ts.length 255) record ∧
      Expr.MeansAll N (MethodContext.debugValues arguments) ts ∧
      d.debug.records[record]? = some (DebugTable.descriptor (arguments.map DebugArgument.item)) ∧
      (Command.debug ts record).code [] base <:+: l := by
  obtain ⟨command, base, hruns, hin, hc⟩ := h
  cases t with
  | assembly lines =>
    cases command with
    | assembly origin block =>
      obtain rfl : Code.inline origin block = c := by simpa [Command.code] using hc
      exact .inl ⟨lines, origin, block, rfl, rfl, hruns.2⟩
    | _ => exact hruns.elim
  | debug arguments =>
    cases command with
    | debug ts record =>
      obtain rfl : Code.debug (min ts.length 255) record = c := by simpa [Command.code] using hc
      exact .inr ⟨arguments, ts, record, base, rfl, rfl, hruns.2.1, hruns.2.2, hin⟩
    | _ => exact hruns.elim

/-- **The texts of an object.**  In a method that is compiled without errors there is one instruction for each
text, in order, and it carries out this text. -/
theorem parts_texts (h : Compile.parts config library tree.nodes (Draft.initial tree.name) = .ok p d)
    (hok : d.report.hasErrors = false) :
    List.Forall₂ (fun decl m => (Command.body m.body).listing.Performs
      (Text.RunBy library d (d.names m.scope).Alike fun _ _ => True) (Statement.textsAll config.debug decl.body))
      tree.methodDecls p.methods := by
  obtain ⟨t⟩ := Compile.parts_stages h
  rw [t.methodDecls_eq]
  refine (t.bodies_become hok).imp ?_
  rintro decl m ⟨own, hown, hbody⟩
  have hlays := Statement.BecomesAll.lays (fun s _ => s.laid) hown [] 0
  -- a return that is added carries out nothing
  refine hlays.performs.mono ?_ ?_
  all_goals rw [Command.body, hbody, Command.codeAll_append]
  · exact (List.prefix_append ..).isInfix
  · split <;> simp [Command.codeAll, Command.code, Entry.op]

/-- **The blocks of assembly code of an object.**  In a method that is compiled without errors there is one
instruction for each block that is written, in order, and it runs the block that is made of its lines. -/
theorem parts_inlineBlocks
    (h : Compile.parts config library tree.nodes (Draft.initial tree.name) = .ok p d)
    (hok : d.report.hasErrors = false) :
    List.Forall₂ (fun decl m => List.Forall₂ (RunsBlock library d.blocks)
        (Statement.assembliesAll decl.body) (Listing.inlines (Command.body m.body).listing))
      tree.methodDecls p.methods := by
  refine (parts_texts h hok).imp fun decl m htexts => ?_
  rw [← Statement.assembles_all fun s _ => s.assembles, Listing.inlines_eq]
  refine forall₂_filterMap htexts fun t c ht => ?_
  obtain ⟨lines, origin, block, rfl, rfl, hruns⟩ | ⟨_, _, _, _, rfl, rfl, -⟩ := ht.inline_or_debug
  · exact .inr ⟨lines, (origin, block), rfl, rfl, hruns⟩
  · exact .inl ⟨rfl, rfl⟩

end Propeller
