import Propeller.Proofs.Compile.CallSites
import Propeller.Proofs.Compile.ExitSites
import Propeller.Proofs.Compile.ExitErrors

/-!
# Compile — which exits are reported

An exit site that has no construct around it to go to is reported, if it is reached: a statement is looked at
no further than to an expression that is wrong, and nothing that comes behind it in the statement is
reported.

* `Names.checks`: which expressions are in order.
* `Compile.Passes`: a step that succeeds exactly if an expression is in order.
* `Compile.Finds`: a step that reports exits.
* `Statement.finds_commands`: the exit sites of a statement that are reported.
-/

namespace Propeller

variable {α β : Type}
variable {c : Construct} {x : Compile α} {f : α → Compile β} {d d' : Draft} {a : α} {ss : List Statement}

/-! ### Exits with nowhere to go -/

/-- There is somewhere to go for an exit. -/
def Exits.offers (exits : Exits) : Exit → Bool
  | .leave => exits.leave
  | .next  => exits.next

/-- The locations of the exits of a kind that have nowhere to go. -/
def lost (e : Exit) (sites : List ExitSite) : List (Option Location) :=
  (sites.filter fun s => s.exit = e ∧ s.depth? = none).map fun s => some s.location

/-- The same inside of something with exits of its own. -/
def lostWithin (exits : Exits) (e : Exit) (sites : List ExitSite) : List (Option Location) :=
  if exits.offers e then [] else lost e sites

theorem lost_append (e : Exit) (sites sites' : List ExitSite) :
    lost e (sites ++ sites') = lost e sites ++ lost e sites' := by
  simp only [lost, List.filter_append, List.map_append]

theorem lost_sublist (e : Exit) {sites sites' : List ExitSite} (h : sites.Sublist sites') :
    (lost e sites).Sublist (lost e sites') :=
  (h.filter _).map _

theorem ExitSite.depth?_within (s : ExitSite) (c : Construct) :
    (s.within c).depth? = none ↔ s.depth? = none ∧ c.offers s.exit = false := by
  simp only [within, depth?, List.findIdx?_eq_none_iff, List.mem_append, List.mem_singleton, or_imp,
    forall_and, forall_eq]

/-- In a construct that offers an exit none is left that has nowhere to go. -/
theorem lost_within (e : Exit) (c : Construct) (sites : List ExitSite) :
    lost e (sites.map (.within c)) = if c.offers e then [] else lost e sites := by
  unfold lost
  rw [List.filter_map, List.map_map]
  split
  · next hoffers =>
    rw [List.filter_eq_nil_iff.mpr, List.map_nil]
    intro s _ hs
    obtain ⟨hexit, hdepth⟩ := of_decide_eq_true hs
    have hnone := ((s.depth?_within c).mp hdepth).2
    rw [show s.exit = e from hexit, hoffers] at hnone
    cases hnone
  · next hoffers =>
    have hcongr : ∀ s ∈ sites, decide ((s.within c).exit = e ∧ (s.within c).depth? = none) =
        decide (s.exit = e ∧ s.depth? = none) := by
      intro s _
      rw [decide_eq_decide, s.depth?_within c]
      refine and_congr_right fun hexit => and_iff_left ?_
      rw [show s.exit = e from hexit]
      exact Bool.eq_false_iff.mpr hoffers
    exact congrArg (List.map _) (List.filter_congr hcongr)

section LostWithin

variable {exits inner : Exits} {e : Exit} {sites sites' : List ExitSite}

theorem lostWithin_nil : lostWithin exits e [] = [] := by
  unfold lostWithin
  split <;> rfl

theorem lostWithin_append :
    lostWithin exits e (sites ++ sites') = lostWithin exits e sites ++ lostWithin exits e sites' := by
  unfold lostWithin
  split
  · rfl
  · exact lost_append e sites sites'

theorem lostWithin_ite {b : Bool} :
    lostWithin exits e (if b then sites else []) = if b then lostWithin exits e sites else [] := by
  split
  · rfl
  · exact lostWithin_nil

/-- The exits inside of a construct. -/
theorem lostWithin_within (h : inner.offers e = (exits.offers e || c.offers e)) :
    lostWithin exits e (sites.map (.within c)) = lostWithin inner e sites := by
  unfold lostWithin
  rw [h, lost_within]
  cases exits.offers e <;> cases c.offers e <;> rfl

theorem Exits.offers_inLoop (exits : Exits) (h : c.offers e = true) :
    Exits.inLoop.offers e = (exits.offers e || c.offers e) := by
  rw [h, Bool.or_true]
  cases e <;> rfl

theorem Exits.offers_inSwitch (exits : Exits) (breakable : Bool) :
    ({ exits with leave := exits.leave || breakable } : Exits).offers e =
      (exits.offers e || (Construct.switch breakable).offers e) := by
  cases e with
  | leave => rfl
  | next => exact (Bool.or_false _).symm

end LostWithin

/-! ### Expressions that are in order -/

/-- What a computation gives, if it gives something. -/
def Tracked.result? (x : Tracked α) : Option α :=
  match x [] with
  | .ok a _    => some a
  | .error _ _ => none

theorem Tracked.isSome_result?_map (x : Tracked α) (f : α → β) :
    (result? (x >>= fun a => pure (f a))).isSome = x.result?.isSome := by
  unfold result?
  cases hx : x [] with
  | ok a u => rw [run_bind_ok hx]; rfl
  | error e u => rw [run_bind_error hx]; rfl

/-- The expressions that have a term, and those that can be written to. -/
def Names.checks (n : Names) : Checks :=
  { value := fun e => (e.term n).result?.isSome
    target := fun e =>
      (e.target n).result?.isSome && e.targetIndex.all fun i => (i.term n).result?.isSome }

namespace Compile

/-- Wherever a step is taken after what is declared, it succeeds exactly if a condition holds.  It fails with
nothing that is about an exit, and changes nothing but the note of what is referred to. -/
def Passes (base : Draft) (x : Compile α) (b : Bool) : Prop :=
  ∀ d, base.Extends d → match x d with
    | .ok _ d'        => b = true ∧ ∃ u, d' = { d with uses := u }
    | .error error d' => b = false ∧ error.value.exit? = none ∧ ∃ u, d' = { d with uses := u }

section Passes

variable {base : Draft} {b b' : Bool}

theorem passes_pure (a : α) : Passes base (pure a) true := fun d _ => ⟨rfl, d.uses, rfl⟩

theorem passes_bind {Q : α → Prop} (hx : Passes base x b) (hq : Yields x Q)
    (hf : ∀ a, Q a → Passes base (f a) b') : Passes base (x >>= f) (b && b') := by
  intro d hd
  have hrun := hx d hd
  cases hxd : x d with
  | ok a d₁ =>
    rw [hxd] at hrun
    obtain ⟨rfl, u, rfl⟩ := hrun
    rw [run_bind_ok hxd, Bool.true_and]
    have hrest := hf a (hq d a _ hxd) _ (hd.withUses u)
    cases hfa : f a { d with uses := u } with
    | ok c d₂ =>
      rw [hfa] at hrest
      obtain ⟨hb, u', rfl⟩ := hrest
      exact ⟨hb, u', rfl⟩
    | error error d₂ =>
      rw [hfa] at hrest
      obtain ⟨hb, herror, u', rfl⟩ := hrest
      exact ⟨hb, herror, u', rfl⟩
  | error error d₁ =>
    rw [hxd] at hrun
    rw [run_bind_error hxd]
    exact ⟨by rw [hrun.1, Bool.false_and], hrun.2⟩

theorem passes_map (hx : Passes base x b) (f : α → β) : Passes base (x >>= fun a => pure (f a)) b := by
  have h := passes_bind hx (yields_any x) fun a _ => passes_pure (f a)
  rwa [Bool.and_true] at h

theorem passes_tracked {x y : Tracked α} {Q : Uses → α → Set Nat → Prop} (h : Agree x y) (h' : Agree y x)
    (hx : Notes x Q) : Passes base (tracked x) y.result?.isSome := by
  intro d _
  unfold tracked
  cases hrun : x d.uses with
  | ok a u =>
    obtain ⟨u', hy⟩ := h d.uses [] a u hrun
    exact ⟨by rw [Tracked.result?, hy]; rfl, u, rfl⟩
  | error error u =>
    refine ⟨?_, hx.of_error hrun, u, rfl⟩
    cases hy : y [] with
    | ok a u' =>
      obtain ⟨u'', hx'⟩ := h' [] d.uses a u' hy
      rw [hrun] at hx'
      cases hx'
    | error _ _ => rw [Tracked.result?, hy]; rfl

end Passes

end Compile

namespace MethodContext

open Compile (Passes passes_pure passes_bind passes_map passes_tracked)

variable {base : Draft} {m : MethodContext} {n : Names}
  (hn : ∀ d, base.Extends d → (d.names m.method.scope).Alike n)

include hn

theorem passes_names {f : Names → Compile α} {b : Bool} (hf : ∀ n', n'.Alike n → Passes base (f n') b) :
    Passes base (Compile.names m.method.scope >>= f) b :=
  fun d hd => hf (d.names m.method.scope) (hn d hd) d hd

theorem passes_term (e : Expr) : Passes base (m.term e) (n.checks.value e) :=
  passes_names hn fun n' h =>
    passes_tracked (e.agree_term h) (e.agree_term h.symm) (e.notes_saturated n')

theorem passes_termOpt (e : Option Expr) : Passes base (m.termOpt e) (n.checks.valueOpt e) := by
  cases e with
  | none => exact passes_names hn fun _ _ d _ => ⟨rfl, d.uses, rfl⟩
  | some e =>
    refine passes_names hn fun n' h => ?_
    have hterm : Passes base (Compile.tracked (Expr.termOpt n' (some e)))
        (Expr.termOpt n (some e)).result?.isSome :=
      passes_tracked (Expr.agree_termOpt fun x _ => x.agree_term h)
        (Expr.agree_termOpt fun x _ => x.agree_term h.symm)
        (Expr.notes_termOpt fun x _ => x.notes_saturated n')
    have hsame : (Expr.termOpt n (some e)).result?.isSome = n.checks.valueOpt (some e) :=
      Tracked.isSome_result?_map (e.term n) some
    rwa [hsame] at hterm

theorem passes_target (e : Expr) : Passes base (m.target e) (e.target n).result?.isSome :=
  passes_names hn fun n' h =>
    passes_tracked (e.agree_target h) (e.agree_target h.symm) (e.notes_target n'.accesses_true)

omit hn in
theorem yields_targetIndex (e : Expr) : Yields (m.target e) fun found => found.2 = e.targetIndex := by
  refine yields_bind (yields_any _) fun n _ => yields_tracked ?_
  cases e with
  | name | index => exact yields_bind (yields_any _) fun v _ => yields_pure rfl
  | _ => exact yields_throw _

theorem passes_label (l : CaseLabel) : Passes base (m.label l) (n.checks.label l) := by
  cases l with
  | value e => exact passes_map (passes_term hn e) _
  | range low high =>
    exact passes_bind (passes_term hn low) (yields_any _) fun x _ => passes_map (passes_term hn high) _

theorem passes_labelAll (ls : List CaseLabel) :
    Passes base (m.labelAll ls) (ls.all n.checks.label) := by
  induction ls with
  | nil => exact passes_pure _
  | cons l ls ih =>
    exact passes_bind (passes_label hn l) (yields_any _) fun first _ => passes_map ih _

theorem passes_labels (cs : List Choice) : Passes base (m.labels cs) (n.checks.labels cs) := by
  induction cs with
  | nil => exact passes_pure _
  | cons c cs ih =>
    exact passes_bind (passes_labelAll hn c.labels) (yields_any _) fun first _ => passes_map ih _

end MethodContext

/-! ### Steps that report exits -/

/-- What a report says about exits is among its errors. -/
theorem Report.misplaced_of_errors {r r' : Report} (h : r'.errors = r.errors) (e : Exit) :
    r'.misplaced e = r.misplaced e := by
  have herrors : ∀ r : Report, r.misplaced e = (r.errors.filter fun d =>
      d.severity = .error ∧ d.message = e.misplaced.message).map Diagnostic.location := by
    intro r
    unfold misplaced errors
    rw [List.filter_filter]
    refine congrArg _ (List.filter_congr fun d _ => ?_)
    obtain ⟨severity, message, location, children⟩ := d
    cases severity with
    | warning => simp [Diagnostic.severity]
    | error => simp [Diagnostic.isError]
  rw [herrors, herrors, h]

namespace Compile

/-- Wherever a step is taken after what is declared, it reports certain exits of a kind as misplaced, the one
that it fails with included.  Unless it reports an error, a condition holds. -/
def Finds (base : Draft) (e : Exit) (x : Compile α) (found : List (Option Location)) (C : Prop) : Prop :=
  ∀ d, base.Extends d → match x d with
    | .ok _ d' => d.Extends d' ∧ d'.report.misplaced e = d.report.misplaced e ++ found ∧
        (d'.report.errors = d.report.errors → C)
    | .error error d' => d.Extends d' ∧
        d'.report.misplaced e ++ CompileError.misplacedAt error e = d.report.misplaced e ++ found

section Finds

variable {base : Draft} {e : Exit} {L M : List (Option Location)} {C D : Prop}

theorem Finds.of_ok (h : Finds base e x L C) (hd : base.Extends d) (hx : x d = .ok a d') :
    d'.report.misplaced e = d.report.misplaced e ++ L ∧ (d'.report.errors = d.report.errors → C) := by
  have hrun := h d hd
  rw [hx] at hrun
  exact hrun.2

theorem Finds.weaken (h : Finds base e x L C) (hL : L = M) (hC : C → D) : Finds base e x M D := by
  intro d hd
  have hrun := h d hd
  rw [← hL]
  cases hx : x d with
  | ok a d' =>
    rw [hx] at hrun
    exact ⟨hrun.1, hrun.2.1, fun he => hC (hrun.2.2 he)⟩
  | error error d' =>
    rw [hx] at hrun
    exact hrun

theorem finds_pure (a : α) : Finds base e (pure a) [] True :=
  fun d _ => ⟨.refl d, (List.append_nil _).symm, fun _ => trivial⟩

/-- A step fails with nothing that is about an exit, and leaves what is reported about exits as it is. -/
def Unrelated (x : Compile α) : Prop :=
  ∀ found, Steady (fun d => d.report.misplaced = found) Other x

theorem Unrelated.of_ok (h : Unrelated x) (hx : x d = .ok a d') :
    d'.report.misplaced = d.report.misplaced :=
  (h _).of_ok rfl hx

instance (found : Exit → List (Option Location)) :
    Untouched fun d => d.report.misplaced = found where
  declares {d d'} h hd := by
    rcases h.report_eq with hr | ⟨l, message, hr⟩
    · rw [hr, hd]
    · rw [hr, ← hd]
      exact funext fun e => d.report.misplaced_warn e l message
  fatal d error herror hd := by
    refine Eq.trans (funext fun e => ?_) hd
    rw [Report.misplaced_fatal, CompileError.misplacedAt, herror]
    exact List.append_nil _

instance (found : Exit → List (Option Location)) :
    Indifferent fun d => d.report.misplaced = found :=
  ⟨fun _ _ h => h, fun _ _ _ h => h⟩

theorem finds_unrelated (hk : ∀ d : Draft, Keeps d.Extends x) (h : Unrelated x) :
    Finds base e x [] True := by
  intro d _
  have hrun := h _ d rfl
  have hext := hk d d (.refl d)
  cases hx : x d with
  | ok a d' =>
    rw [hx] at hrun hext
    exact ⟨hext, by rw [hrun, List.append_nil], fun _ => trivial⟩
  | error error d' =>
    rw [hx] at hrun hext
    refine ⟨hext, ?_⟩
    rw [CompileError.misplacedAt, hrun.2, hrun.1]
    rfl

theorem finds_passes {b : Bool} {Q : α → Prop} (hx : Passes base x b) (hq : Yields x Q)
    (hf : ∀ a, Q a → Finds base e (f a) L C) :
    Finds base e (x >>= f) (if b then L else []) (b = true ∧ C) := by
  intro d hd
  have hrun := hx d hd
  cases hxd : x d with
  | ok a d₁ =>
    rw [hxd] at hrun
    obtain ⟨rfl, u, rfl⟩ := hrun
    rw [run_bind_ok hxd]
    have hrest := hf a (hq d a _ hxd) _ (hd.withUses u)
    have hext := (Draft.Extends.refl d).withUses u
    cases hfa : f a { d with uses := u } with
    | ok c d₂ =>
      rw [hfa] at hrest
      exact ⟨hext.trans hrest.1, hrest.2.1, fun he => ⟨rfl, hrest.2.2 he⟩⟩
    | error error d₂ =>
      rw [hfa] at hrest
      exact ⟨hext.trans hrest.1, hrest.2⟩
  | error error d₁ =>
    rw [hxd] at hrun
    obtain ⟨rfl, herror, u, rfl⟩ := hrun
    rw [run_bind_error hxd]
    refine ⟨(Draft.Extends.refl d).withUses u, ?_⟩
    rw [CompileError.misplacedAt, herror]
    rfl

theorem finds_bind (hs : Succeeds x) (hx : Finds base e x L C) (hf : ∀ a, Finds base e (f a) M D) :
    Finds base e (x >>= f) (L ++ M) (C ∧ D) := by
  intro d hd
  obtain ⟨a, d₁, hxd⟩ := hs.exists_ok (d := d) trivial
  have hrun := hx d hd
  rw [hxd] at hrun
  obtain ⟨hext, hfound, hC⟩ := hrun
  rw [run_bind_ok hxd]
  have hrest := hf a d₁ (hd.trans hext)
  cases hfa : f a d₁ with
  | ok c d₂ =>
    rw [hfa] at hrest
    obtain ⟨hext', hfound', hD⟩ := hrest
    refine ⟨hext.trans hext', by rw [hfound', hfound, List.append_assoc], fun he => ?_⟩
    obtain ⟨he₁, he₂⟩ := hext.errors_eq hext' he
    exact ⟨hC he₁, hD he₂⟩
  | error error d₂ =>
    rw [hfa] at hrest
    exact ⟨hext.trans hrest.1, by rw [hrest.2, hfound, List.append_assoc]⟩

/-- At last something is made of the result. -/
theorem finds_map (hx : Finds base e x L C) (f : α → β) :
    Finds base e (x >>= fun a => pure (f a)) L C := by
  intro d hd
  have hrun := hx d hd
  cases hxd : x d with
  | ok a d₁ =>
    rw [hxd] at hrun
    rw [run_bind_ok hxd]
    exact hrun
  | error error d₁ =>
    rw [hxd] at hrun
    rw [run_bind_error hxd]
    exact hrun

/-- The exit that a step fails with is reported if it is tried. -/
theorem finds_attempt (hk : ∀ d : Draft, Keeps d.Extends x) (hx : Finds base e x L C) :
    Finds base e (attempt x) L C := by
  intro d hd
  have hrun := hx d hd
  cases hxd : x d with
  | ok a d₁ =>
    rw [hxd] at hrun
    rw [attempt_of_ok hxd]
    exact hrun
  | error error d₁ =>
    rw [hxd] at hrun
    have hattempt := attempt_of_error hxd
    rw [hattempt]
    refine ⟨hrun.1.withReport (List.prefix_append ..), ?_, fun he => ?_⟩
    · rw [Report.misplaced_fatal]
      exact hrun.2
    · exact absurd he (attempt_none_errors (hk d) hattempt)

end Finds

end Compile

/-! ### Statements -/

namespace Statement

open Compile (Succeeds steady_pure steady_bind succeeds_block Finds finds_pure finds_unrelated finds_passes
  finds_bind finds_map finds_attempt)

variable {base : Draft} {m : MethodContext} {n : Names} {e : Exit}

/-- Compiling a statement reports its exits that have nowhere to go, as far as they are reached.  Unless an
error is reported, all of them are reached. -/
def FindsExits (base : Draft) (m : MethodContext) (n : Names) (e : Exit) (s : Statement) : Prop :=
  ∀ exits, Finds base e (s.commands m exits) (lostWithin exits e (s.exitSites n.checks))
    (s.exitSites n.checks = s.exitSites .all)

theorem finds_block (h : ∀ s ∈ ss, s.FindsExits base m n e) (exits : Exits) :
    Finds base e (block m exits ss) (lostWithin exits e (exitSitesAll n.checks ss))
      (exitSitesAll n.checks ss = exitSitesAll .all ss) := by
  induction ss with
  | nil => exact (finds_pure _).weaken lostWithin_nil.symm fun _ => rfl
  | cons s ss ih =>
    have hfirst := finds_attempt (fun _ => s.keeps_commands exits)
      (h s (.head _) exits)
    have hrest := ih fun x hx => h x (.tail _ hx)
    refine Finds.weaken (finds_bind (Compile.succeeds_attempt _) hfirst fun first =>
      finds_map hrest _) lostWithin_append.symm ?_
    rintro ⟨hs, hss⟩
    rw [exitSitesAll, exitSitesAll, hs, hss]

theorem finds_blocks {cs : List Choice}
    (h : ∀ labels body, Choice.mk labels body ∈ cs → ∀ s ∈ body, s.FindsExits base m n e)
    (exits : Exits) :
    Finds base e (blocks m exits cs) (lostWithin exits e (exitSitesChoices n.checks cs))
      (exitSitesChoices n.checks cs = exitSitesChoices .all cs) := by
  induction cs with
  | nil => exact (finds_pure _).weaken lostWithin_nil.symm fun _ => rfl
  | cons c cs ih =>
    obtain ⟨labels, body⟩ := c
    have hfirst := finds_block (h labels body (.head _)) exits
    have hrest := ih fun l b hb => h l b (.tail _ hb)
    refine Finds.weaken (finds_bind (succeeds_block m exits body) hfirst fun first =>
      finds_map hrest _) lostWithin_append.symm ?_
    rintro ⟨hs, hss⟩
    rw [exitSitesChoices, exitSitesChoices, hs, hss]

/-- An exit itself is reported if there is nowhere to go. -/
theorem finds_exit (kind : Exit) (l : Location) (exits : Exits) (a : α) :
    Finds base e (if exits.offers kind then pure a else throw ⟨kind.misplaced, l⟩)
      (lostWithin exits e [{ exit := kind, location := l }]) True := by
  have hother : kind ≠ e → lost e [{ exit := kind, location := l }] = [] := by
    cases kind <;> cases e <;> simp [lost]
  -- an exit of the other kind is not looked for
  have hlost : lostWithin exits e [{ exit := kind, location := l }] =
      if exits.offers kind then [] else lost e [{ exit := kind, location := l }] := by
    by_cases hkind : kind = e
    · rw [lostWithin, hkind]
    · rw [lostWithin, hother hkind, ite_self, ite_self]
  have hfound : CompileError.misplacedAt ⟨kind.misplaced, l⟩ e =
      lost e [{ exit := kind, location := l }] := by
    cases kind <;> cases e <;> rfl
  rw [hlost]
  split
  · exact finds_pure a
  · exact fun d _ => ⟨.refl d, congrArg _ hfound⟩

/-- The statements in a construct. -/
theorem finds_inside (h : ∀ s ∈ ss, s.FindsExits base m n e) {exits inner : Exits}
    (hinner : inner.offers e = (exits.offers e || c.offers e)) :
    Finds base e (block m inner ss)
      (lostWithin exits e ((exitSitesAll n.checks ss).map (ExitSite.within c)))
      ((exitSitesAll n.checks ss).map (ExitSite.within c) =
        (exitSitesAll .all ss).map (ExitSite.within c)) :=
  (finds_block h inner).weaken (lostWithin_within hinner).symm (congrArg _)

section

variable (hn : ∀ d, base.Extends d → (d.names m.method.scope).Alike n)

include hn

/-- What is written to is in order if its index is, which is looked at next. -/
theorem finds_target (target : Expr) {f : Variable × Option Expr → Compile α}
    {L : List (Option Location)} {C : Prop}
    (hf : ∀ v, Finds base e (f (v, target.targetIndex))
      (if n.checks.valueOpt target.targetIndex then L else [])
      (n.checks.valueOpt target.targetIndex = true ∧ C)) :
    Finds base e (m.target target >>= f) (if n.checks.target target then L else [])
      (n.checks.target target = true ∧ C) := by
  have hchecks : n.checks.target target = true ↔
      (target.target n).result?.isSome = true ∧ n.checks.valueOpt target.targetIndex = true :=
    Bool.and_eq_true_iff
  have hfound : ∀ found : Variable × Option Expr, found.2 = target.targetIndex → Finds base e (f found)
      (if n.checks.valueOpt target.targetIndex then L else [])
      (n.checks.valueOpt target.targetIndex = true ∧ C) := by
    rintro ⟨v, index⟩ rfl
    exact hf v
  refine Finds.weaken (finds_passes (m.passes_target hn target) (m.yields_targetIndex target) hfound)
    ((if_congr hchecks rfl rfl).trans (ite_and ..)).symm ?_
  rintro ⟨htarget, hindex, hC⟩
  exact ⟨hchecks.mpr ⟨htarget, hindex⟩, hC⟩

/-- Nothing is reached behind a condition that is wrong, be it in the other branches. -/
theorem finds_guarded {hasElse : Bool} {exits : Exits} {otherwise : Compile (List Command)}
    {last last' : List ExitSite} (hnone : hasElse = false → last = [] ∧ last' = [])
    (ho : Finds base e otherwise (lostWithin exits e last) (last = last')) {branches : List Guarded}
    (h : ∀ c negate body, Guarded.mk c negate body ∈ branches → ∀ s ∈ body, s.FindsExits base m n e) :
    Finds base e (guarded m exits hasElse otherwise branches)
      (lostWithin exits e (exitSitesGuarded n.checks last branches))
      (exitSitesGuarded n.checks last branches = exitSitesGuarded .all last' branches) := by
  induction branches with
  | nil => exact ho
  | cons g rest ih =>
    obtain ⟨c, negate, body⟩ := g
    have hown := finds_block (h c negate body (.head _)) exits
    have hrest := ih fun c n b hb => h c n b (.tail _ hb)
    rw [guarded]
    refine Finds.weaken (finds_passes (m.passes_term hn c) (yields_any _) fun t _ =>
      finds_bind (M := lostWithin exits e (exitSitesGuarded n.checks last rest))
        (D := exitSitesGuarded n.checks last rest = exitSitesGuarded .all last' rest)
        (succeeds_block m exits body) hown fun yes => ?_) ?_ ?_
    · split
      · next hend =>
        simp only [Bool.and_eq_true, List.isEmpty_iff, Bool.not_eq_true'] at hend
        obtain ⟨hlast, hlast'⟩ := hnone hend.2
        rw [hend.1, exitSitesGuarded, exitSitesGuarded, hlast, hlast', lostWithin_nil]
        exact (finds_pure _).weaken rfl fun _ => rfl
      · exact finds_map hrest _
    · rw [exitSitesGuarded, lostWithin_ite, lostWithin_append]
    · rintro ⟨hc, hs, hss⟩
      rw [exitSitesGuarded, exitSitesGuarded, hc, hs, hss]
      rfl

/-- **The exits of a statement that are reported** are those that are reached and have nowhere to go. -/
theorem finds_commands (s : Statement) : s.FindsExits base m n e := by
  -- statements that have no others in them
  have hleaf : ∀ s : Statement, (∀ ok, s.exitSites ok = []) →
      (∀ exits, Compile.Unrelated (s.commands m exits)) → s.FindsExits base m n e := by
    intro s hs hu exits
    rw [hs, hs, lostWithin_nil]
    exact (finds_unrelated (fun _ => s.keeps_commands exits) (hu exits)).weaken rfl fun _ => rfl
  induction s using Statement.induct with
  | conditional branches otherwise hb ho =>
    intro exits
    simp only [commands, exitSites, blockOpt_eq, exitSitesOpt_eq]
    refine finds_guarded hn (fun hnone => ?_) (finds_block ho exits) hb
    cases otherwise with
    | none => exact ⟨rfl, rfl⟩
    | some body => cases hnone
  | preLoop c isUntil body hb =>
    intro exits
    have hbody := finds_inside (c := .loop) hb (exits.offers_inLoop rfl)
    refine Finds.weaken (finds_passes (m.passes_term hn c) (yields_any _) fun t _ =>
      finds_map hbody _) lostWithin_ite.symm ?_
    rintro ⟨hc, hbody⟩
    rw [exitSites, hc, hbody]
    rfl
  | postLoop c isUntil body hb =>
    intro exits
    have hbody := finds_inside (c := .loop) hb (exits.offers_inLoop rfl)
    refine Finds.weaken (finds_bind (succeeds_block m _ body) hbody fun b => finds_map
      (finds_unrelated (fun _ => m.keeps_term c) (fun _ => m.steady_term c)) _) ?_ fun hall => hall.1
    exact List.append_nil _
  | forever body hb => exact fun exits => finds_map (finds_inside hb (exits.offers_inLoop rfl)) _
  | countLoop count body hb =>
    intro exits
    have hbody := finds_inside (c := .countLoop) hb (exits.offers_inLoop rfl)
    refine Finds.weaken (finds_passes (m.passes_term hn count) (yields_any _) fun t _ =>
      finds_map hbody _) lostWithin_ite.symm ?_
    rintro ⟨hc, hbody⟩
    rw [exitSites, hc, hbody]
    rfl
  | rangeLoop target first last step body hb =>
    intro exits
    have hbody := finds_inside (c := .rangeLoop) hb (exits.offers_inLoop rfl)
    refine Finds.weaken (finds_passes (m.passes_term hn first) (yields_any _) fun x _ =>
      finds_passes (m.passes_term hn last) (yields_any _) fun y _ =>
      finds_passes (m.passes_termOpt hn step) (yields_any _) fun z _ =>
      finds_target hn target fun v =>
      finds_passes (m.passes_termOpt hn _) (yields_any _) fun i _ => finds_map hbody _) ?_ ?_
    · rw [exitSites, lostWithin_ite]
      simp only [Bool.and_eq_true, ite_and]
    · rintro ⟨hfirst, hlast, hstep, htarget, hbody⟩
      rw [exitSites, hfirst, hlast, hstep, htarget, hbody, exitSites, Checks.valueOpt_all]
      rfl
  | forLoop init c step body hi hs hb =>
    intro exits
    have hbody := finds_inside (c := .loop) hb (exits.offers_inLoop rfl)
    have hstep := finds_inside (c := .loop) hs (exits.offers_inLoop rfl)
    refine Finds.weaken (finds_bind (succeeds_block m _ init) (finds_block hi exits) fun x =>
      finds_passes (m.passes_termOpt hn c) (yields_any _) fun t _ =>
      finds_bind (succeeds_block m _ body) hbody fun b => finds_map hstep _) ?_ ?_
    · rw [exitSites, lostWithin_append, lostWithin_ite, List.map_append, lostWithin_append]
    · rintro ⟨hinit, hc, hbody, hstep⟩
      rw [exitSites, exitSites, hinit, hc, Checks.valueOpt_all, List.map_append, List.map_append, hbody,
        hstep]
  | switch value choices otherwise breakable hc ho =>
    intro exits
    have hinner : lostWithin exits e ((exitSitesAll n.checks (otherwise.getD []) ++
          exitSitesChoices n.checks choices).map (.within (.switch breakable))) =
        lostWithin { exits with leave := exits.leave || breakable } e
          (exitSitesAll n.checks (otherwise.getD []) ++ exitSitesChoices n.checks choices) :=
      lostWithin_within (exits.offers_inSwitch breakable)
    simp only [commands, blockOpt_eq]
    refine Finds.weaken (finds_passes (m.passes_term hn value) (yields_any _) fun t _ =>
      finds_passes (m.passes_labels hn choices) (yields_any _) fun ls _ =>
      finds_bind (succeeds_block m _ _) (finds_block ho _) fun o =>
      finds_map (finds_blocks hc _) _) ?_ ?_
    · rw [exitSites, exitSitesOpt_eq, lostWithin_ite, hinner, lostWithin_append]
      simp only [Bool.and_eq_true, ite_and]
    · rintro ⟨hvalue, hlabels, hother, hchoices⟩
      simp only [exitSites, exitSitesOpt_eq]
      rw [hvalue, hlabels, hother, hchoices, Checks.labels_all]
      rfl
  | leave l => exact fun exits => (finds_exit .leave l exits _).weaken rfl fun _ => rfl
  | next l => exact fun exits => (finds_exit .next l exits _).weaken rfl fun _ => rfl
  | ret value | abort value =>
    exact hleaf _ (fun _ => rfl) fun _ _ => steady_bind (m.steady_termOpt _) fun _ => steady_pure _
  | assign target op value =>
    exact hleaf _ (fun _ => rfl) fun _ _ => steady_bind (m.steady_assign _ _ _) fun _ => steady_pure _
  | expression l value =>
    exact hleaf _ (fun _ => rfl) fun _ _ => steady_bind (m.steady_expression _ _) fun _ => steady_pure _
  | assembly l lines =>
    exact hleaf _ (fun _ => rfl) fun _ _ => steady_bind
      (Compile.steady_inlineAssembly (fun _ _ h => h) (fun _ _ h => h) _ _ _ _) fun _ => steady_pure _
  | debug l arguments => exact hleaf _ (fun _ => rfl) fun _ _ => m.steady_debug _ _

end

end Statement

end Propeller
