import Propeller.Proofs.Compile.Inline
import Propeller.Proofs.Compile.Meaning

/-!
# Compile — what statements become

Statements are compiled step by step, with a draft that every step may change, and a statement that is
wrong is left out.  If no error is reported, none is left out: then every statement has become the
commands that belong to it (`Statement.Becomes`), and the methods that are noted as referred to are
those of the calls in the commands (`Statement.renders_commands`).

* `Expr.Means`, `Statement.Becomes`: what expressions and statements become.
* `Renders`: a step that gives something, adds texts and notes methods, unless an error is reported.
-/

namespace Propeller

open Compile (Keeps)
open Command (calls callsAll)

variable {α β : Type}
variable {a : α} {d d' : Draft} {x : Compile α} {config : Config} {library : Library} {m' : MethodDraft}
  {decl : MethodDecl}

/-! ### What statements become -/

section Becomes

variable (N : Names → Prop)

/-- A call may mean a method, with names of some kind. -/
def CalleeOf (object : Option (Located Identifier)) (method : Located Identifier) (given : Nat)
    (m : Method) : Prop :=
  ∃ n, N n ∧ ∃ wanted location u u', n.callee object method given wanted location u = .ok m u'

namespace Expr

/-- An expression means a term, with names of some kind. -/
def Means (e : Expr) (t : Term) : Prop := ∃ n, N n ∧ ∃ u u', e.term n u = .ok t u'

/-- Several expressions mean terms. -/
def MeansAll (es : List Expr) (ts : List Term) : Prop :=
  ∃ n, N n ∧ ∃ u u', termAll n es u = .ok ts u'

/-- Terms of expressions are saturated. -/
theorem MeansAll.saturated {N : Names → Prop} {es : List Expr} {ts : List Term} (h : MeansAll N es ts) :
    ts.length = es.length ∧ ∀ t ∈ ts, t.Saturated := by
  obtain ⟨n, -, u, u', hrun⟩ := h
  obtain ⟨_, ⟨⟨hlength, hproper⟩, -⟩, -⟩ := (notes_termAll fun e _ => e.notes_saturated n).of_ok hrun
  exact ⟨hlength, fun t ht => (hproper t ht).saturated⟩

/-- An expression that may be missing means a term. -/
def MeansOpt (e : Option Expr) (t : Option Term) : Prop :=
  ∃ n, N n ∧ ∃ u u', termOpt n e u = .ok t u'

/-- An assignment writes to a variable, with an index. -/
def Targets (e : Expr) (v : Variable) (i : Option Term) : Prop :=
  (∃ n, N n ∧ ∃ u u', e.target n u = .ok (v, e.targetIndex) u') ∧ MeansOpt N e.targetIndex i

/-- A call that stands alone becomes a command. -/
def Invokes (location : Location) (object : Option (Located Identifier)) (i : Option Expr)
    (method : Located Identifier) (arguments : List Expr) (c : Command) : Prop :=
  ∃ m ts t, (∃ n, N n ∧ ∃ u u', n.callee object method arguments.length false location u = .ok m u') ∧
    MeansAll N arguments ts ∧ MeansOpt N i t ∧ c = .invoke m ts t

/-- An expression that stands alone becomes a command. -/
def StandsFor (location : Location) : Expr → Command → Prop
  | call _ object i method arguments, c => Invokes N location object i method arguments c
  | name l x, c =>
    (∃ n, N n ∧ ∃ m, n.scopes.symbol? n.scope x = some (.method m)) ∧
        Invokes N location none none ⟨x, l⟩ [] c ∨
      (∃ n, N n ∧ ∀ m, n.scopes.symbol? n.scope x ≠ some (.method m)) ∧
        ∃ t, (name l x).Means N t ∧ c = .discard t
  | e, c => ∃ t, e.Means N t ∧ c = .discard t

end Expr

/-- A label of a choice becomes one. -/
def CaseLabel.Becomes : CaseLabel → Label → Prop
  | value e, l        => ∃ t, e.Means N t ∧ l = .value t
  | range low high, l => ∃ x y, low.Means N x ∧ high.Means N y ∧ l = .range x y

/-- The labels of choices become labels. -/
def Choice.LabelsBecome (c : Choice) (ls : List Label) : Prop :=
  List.Forall₂ (CaseLabel.Becomes N) c.labels ls

namespace Statement

/-! `Runs` tells which commands carry out a text. -/

variable (debugging : Bool) (Runs : Text → Command → Prop)

mutual

/-- A statement becomes commands. -/
def Becomes : Statement → List Command → Prop
  | conditional branches otherwise, cs =>
    BecomesGuarded otherwise.isSome (fun last => BecomesOpt otherwise last) branches cs
  | whileLoop condition isUntil true body, cs =>
    ∃ t b, condition.Means N t ∧ BecomesAll body b ∧ cs = [.postLoop isUntil t b]
  | whileLoop condition isUntil false body, cs =>
    ∃ t b, condition.Means N t ∧ BecomesAll body b ∧ cs = [.preLoop isUntil t b]
  | repeatLoop none body, cs => ∃ b, BecomesAll body b ∧ cs = [.forever b]
  | repeatLoop (some count) body, cs =>
    ∃ t b, count.Means N t ∧ BecomesAll body b ∧ cs = [.countLoop t b]
  | rangeLoop target first last step body, cs =>
    ∃ v i x y z b, first.Means N x ∧ last.Means N y ∧ Expr.MeansOpt N step z ∧
      target.Targets N v i ∧ BecomesAll body b ∧
      cs = [.rangeLoop v i x y (z.getD (.constant (.int 1))) b]
  | forLoop init condition step body, cs =>
    ∃ x t b y, BecomesAll init x ∧ Expr.MeansOpt N condition t ∧ BecomesAll body b ∧
      BecomesAll step y ∧ cs = [.forLoop x t y b]
  | switch value choices otherwise breakable, cs =>
    ∃ t ls o bs, value.Means N t ∧ List.Forall₂ (Choice.LabelsBecome N) choices ls ∧
      BecomesOpt otherwise o ∧ BecomesChoices choices bs ∧ cs = [.switch breakable t ls bs o]
  | leave _, cs => cs = [.exit .leave]
  | next _, cs => cs = [.exit .next]
  | ret value, cs => ∃ t, Expr.MeansOpt N value t ∧ cs = [.ret t]
  | abort value, cs => ∃ t, Expr.MeansOpt N value t ∧ cs = [.abort t]
  | assign target op value, cs =>
    ∃ v i t, target.Targets N v i ∧ value.Means N t ∧ cs = [.assign v i op t]
  | expression l e, cs => ∃ c, e.StandsFor N l c ∧ cs = [c]
  | assembly _ lines, cs =>
    ∃ origin block, Runs (.assembly lines) (.assembly origin block) ∧ cs = [.assembly origin block]
  | debug _ arguments, cs =>
    if debugging then ∃ ts record, Expr.MeansAll N (MethodContext.debugValues arguments) ts ∧
      Runs (.debug arguments) (.debug ts record) ∧ cs = [.debug ts record]
    else cs = []

/-- Statements become commands one after the other. -/
def BecomesAll : List Statement → List Command → Prop
  | [], cs      => cs = []
  | s :: ss, cs => ∃ first rest, s.Becomes first ∧ BecomesAll ss rest ∧ cs = first ++ rest

/-- Statements that may be missing become commands. -/
def BecomesOpt : Option (List Statement) → List Command → Prop
  | none, cs    => cs = []
  | some ss, cs => BecomesAll ss cs

/-- A chain of conditions becomes commands, with `Last` for what is done if none of them holds. -/
def BecomesGuarded (hasElse : Bool) (Last : List Command → Prop) :
    List Guarded → List Command → Prop
  | [], cs => Last cs
  | .mk condition negate body :: rest, cs =>
    ∃ t yes, condition.Means N t ∧ BecomesAll body yes ∧
      if rest.isEmpty && !hasElse then cs = [.ifThen negate t yes]
      else ∃ no, BecomesGuarded hasElse Last rest no ∧ cs = [.ifElse negate t yes no]

/-- The statements of choices become commands. -/
def BecomesChoices : List Choice → List (List Command) → Prop
  | [], bs              => bs = []
  | .mk _ b :: rest, bs => ∃ first more, BecomesAll b first ∧ BecomesChoices rest more ∧ bs = first :: more

end

variable {N} {debugging} {Runs} in
theorem becomesOpt_iff {ss : Option (List Statement)} {cs : List Command} :
    BecomesOpt N debugging Runs ss cs ↔ BecomesAll N debugging Runs (ss.getD []) cs := by
  cases ss <;> exact .rfl

end Statement

end Becomes

/-! ### Names that mean the same -/

section Alike

variable {N : Names → Prop} {n : Names} (hN : ∀ n', N n' → n'.Alike n)

include hN

namespace Expr

variable {e : Expr}

theorem Means.eq {t : Term} (h : e.Means N t) : t = e.termIn n := by
  obtain ⟨n', hn, u, u', ht⟩ := h
  exact e.yields_termIn (hN n' hn) u t u' ht

theorem MeansAll.eq {es : List Expr} {ts : List Term} (h : MeansAll N es ts) :
    ts = es.map (·.termIn n) := by
  obtain ⟨n', hn, u, u', ht⟩ := h
  exact yields_termAllIn (hN n' hn) es u ts u' ht

theorem MeansOpt.eq {e : Option Expr} {t : Option Term} (h : MeansOpt N e t) :
    t = e.map (·.termIn n) := by
  obtain ⟨n', hn, u, u', ht⟩ := h
  exact yields_termOptIn (hN n' hn) e u t u' ht

theorem Targets.eq {v : Variable} {i : Option Term} (h : e.Targets N v i) :
    e.targetIn n = (v, e.targetIndex) ∧ i = e.targetIndex.map (·.termIn n) := by
  obtain ⟨⟨n', hn, u, u', hv⟩, hi⟩ := h
  exact ⟨(e.yields_targetIn (hN n' hn) u _ u' hv).symm, hi.eq hN⟩

theorem Invokes.eq {location : Location} {object : Option (Located Identifier)} {i : Option Expr}
    {method : Located Identifier} {arguments : List Expr} {c : Command}
    (h : Invokes N location object i method arguments c) :
    c = n.invocation location object i method arguments := by
  obtain ⟨m, ts, t, ⟨n', hn, u, u', hm⟩, hts, ht, rfl⟩ := h
  rw [Names.invocation, (n'.agree_callee (hN n' hn) _ _ _ _ _).value_eq hm, hts.eq hN, ht.eq hN]

theorem StandsFor.eq {location : Location} {c : Command} (h : e.StandsFor N location c) :
    c = n.alone location e := by
  cases e with
  | call l object i method arguments => exact Invokes.eq hN h
  | name l x =>
    rcases h with ⟨⟨n', hn, m, hm⟩, h⟩ | ⟨⟨n', hn, hm⟩, t, ht, rfl⟩
    · rw [Names.alone, (hN n' hn).bound_eq, hm]
      exact Invokes.eq hN h
    · rw [Names.alone, (hN n' hn).bound_eq, ht.eq hN]
      split
      · next m h => exact absurd h (hm m)
      · rfl
  | _ =>
    obtain ⟨t, ht, rfl⟩ := h
    exact congrArg Command.discard (ht.eq hN)

end Expr

theorem CaseLabel.Becomes.eq {l : CaseLabel} {r : Label} (h : l.Becomes N r) : r = l.labelIn n := by
  cases l with
  | value e =>
    obtain ⟨t, ht, rfl⟩ := h
    rw [ht.eq hN, labelIn]
  | range low high =>
    obtain ⟨x, y, hx, hy, rfl⟩ := h
    rw [hx.eq hN, hy.eq hN, labelIn]

theorem labels_eq {cs : List Choice} {ls : List (List Label)}
    (h : List.Forall₂ (Choice.LabelsBecome N) cs ls) :
    ls = cs.map fun c => c.labels.map (·.labelIn n) := by
  have hlabels : ∀ {c ls}, Choice.LabelsBecome N c ls → ls = c.labels.map (·.labelIn n) := by
    intro c ls h
    rw [← List.forall₂_eq_eq_eq, List.forall₂_map_right_iff]
    exact h.flip.imp fun _ _ h => CaseLabel.Becomes.eq hN h
  rw [← List.forall₂_eq_eq_eq, List.forall₂_map_right_iff]
  exact h.flip.imp fun _ _ h => hlabels h

end Alike

/-! ### Steps that render statements -/

/-- If nothing has been added to the errors in the end, then neither before. -/
theorem Draft.Extends.errors_eq {d'' : Draft} (h : d.Extends d') (h' : d'.Extends d'')
    (he : d''.report.errors = d.report.errors) :
    d'.report.errors = d.report.errors ∧ d''.report.errors = d'.report.errors :=
  Report.errors_eq_of_prefix h.report_prefix h'.report_prefix he

/-- The failure of a step that was tried is one more error. -/
theorem Compile.attempt_none_errors (hk : Keeps d.Extends x) (h : attempt x d = .ok none d') :
    d'.report.errors ≠ d.report.errors := by
  have hext := hk d (.refl d)
  cases hx : x d with
  | ok b d₁ =>
    rw [attempt_of_ok hx] at h
    cases h
  | error e d₁ =>
    rw [attempt_of_error hx] at h
    rw [hx] at hext
    cases h
    have hlength : (d₁.report.fatal (e.map CompileError.message)).errors.length =
        d₁.report.errors.length + 1 := by
      simp [Report.errors, Report.fatal, Diagnostic.error, Diagnostic.isError]
    have hle := (Report.errors_mono hext.report_prefix).length_le
    intro he
    have hsame : (d₁.report.fatal (e.map CompileError.message)).errors.length =
        d.report.errors.length := congrArg List.length he
    omega

/-- A command carries out a text: it runs the block of its lines, or it shows the values that are asked for and
refers to its descriptor.  `Num` tells which numbers a text may have. -/
def Text.RunBy (library : Library) (d : Draft) (N : Names → Prop) (Num : Text → Nat → Prop) :
    Text → Command → Prop
  | assembly lines, .assembly origin block =>
    Num (assembly lines) block ∧ RunsBlock library d.blocks lines (origin, block)
  | debug arguments, .debug ts record      =>
    Num (debug arguments) record ∧ Expr.MeansAll N (MethodContext.debugValues arguments) ts ∧
      d.debug.records[record]? = some (DebugTable.descriptor (arguments.map DebugArgument.item))
  | _, _                                   => False

/-- The course of a compilation: the draft in which everything is declared, the last draft, what names mean,
and the numbers that texts may have. -/
structure Course where
  library : Library
  base : Draft
  last : Draft
  N : Names → Prop
  Num : Text → Nat → Prop

/-- Commands carry out texts, as there are blocks and descriptors in the end. -/
def Course.Runs (k : Course) : Text → Command → Prop := Text.RunBy k.library k.last k.N k.Num

/-- In the course of a compilation, a step gives something with a property, together with the methods that it
notes, and adds some texts, unless it reports an error. -/
def Renders (k : Course) (x : Compile α) (texts : List Text) (Q : α → Set Nat → Prop) : Prop :=
  ∀ d a d', k.base.Extends d → x d = .ok a d' → d.Extends d' ∧
    (d'.Extends k.last → d'.report.errors = d.report.errors → d.Numbers k.Num texts →
      d.Adds k.library d' texts ∧ ∃ ids, Q a ids ∧ Noted d.uses d'.uses ids)

variable {k : Course}

section Renders

variable {texts more : List Text} {Q : α → Set Nat → Prop} {R : β → Set Nat → Prop} {f : α → Compile β}

theorem renders_pure (h : Q a ∅) : Renders k (pure a) [] Q := by
  rintro d _ _ _ ⟨⟩
  exact ⟨.refl d, fun _ _ _ => ⟨.nil rfl rfl, ∅, h, .refl _⟩⟩

theorem renders_throw (e : Located CompileError) : Renders k (throw e : Compile α) texts Q := by
  rintro _ _ _ _ ⟨⟩

/-- What the first step gives is known only when the second one is over, since it may be the one that
reports an error. -/
theorem renders_bind (hx : Renders k x texts Q)
    (hf : ∀ a, Renders k (f a) more fun b more => ∀ ids, Q a ids → R b (ids ∪ more)) :
    Renders k (x >>= f) (texts ++ more) R := by
  intro d b d'' hd h
  obtain ⟨a, d', ha, hb⟩ := Compile.bind_eq_ok h
  obtain ⟨hext, hq⟩ := hx d a d' hd ha
  obtain ⟨hext', hr⟩ := hf a d' b d'' (hd.trans hext) hb
  refine ⟨hext.trans hext', fun hlast he hn => ?_⟩
  obtain ⟨he₁, he₂⟩ := hext.errors_eq hext' he
  obtain ⟨hadds, ids, hq, hids⟩ := hq (hext'.trans hlast) he₁ hn.left
  obtain ⟨hadds', more, hr, hmore⟩ := hr hlast he₂ (hn.right hadds)
  exact ⟨hadds.append hadds', ids ∪ more, hr ids hq, hids.trans hmore⟩

/-- First a step without texts. -/
theorem renders_after (hx : Renders k x [] Q)
    (hf : ∀ a, Renders k (f a) texts fun b more => ∀ ids, Q a ids → R b (ids ∪ more)) :
    Renders k (x >>= f) texts R :=
  renders_bind hx hf

theorem renders_weaken {Q' : α → Set Nat → Prop} (hx : Renders k x texts Q)
    (h : ∀ a ids, Q a ids → Q' a ids) : Renders k x texts Q' :=
  fun d a d' hd hrun => (hx d a d' hd hrun).imp id fun hq hlast he hn => by
    obtain ⟨hadds, ids, hq, hids⟩ := hq hlast he hn
    exact ⟨hadds, ids, h a ids hq, hids⟩

/-- At last something is made of the result. -/
theorem renders_map {f : α → β} (hx : Renders k x texts Q) (hf : ∀ a ids, Q a ids → R (f a) ids) :
    Renders k (x >>= fun a => pure (f a)) texts R := by
  rw [← List.append_nil texts]
  exact renders_bind hx fun a => renders_pure fun ids hq => by simpa using hf a ids hq

theorem renders_get {f : Draft → Compile α} (hf : ∀ d, k.base.Extends d → Renders k (f d) texts Q) :
    Renders k (get >>= f) texts Q :=
  fun d a d' hd h => hf d hd d a d' hd h

theorem renders_tracked {x : Tracked α} {P : Uses → α → Set Nat → Prop} (hx : Notes x P)
    (hQ : ∀ u a u' ids, x u = .ok a u' → P u' a ids → Q a ids) :
    Renders k (Compile.tracked x) [] Q := by
  intro d a d' _ h
  unfold Compile.tracked at h
  cases hrun : x d.uses with
  | error e u =>
    rw [hrun] at h
    cases h
  | ok b u =>
    rw [hrun] at h
    cases h
    obtain ⟨ids, hp, hids⟩ := hx.of_ok hrun
    refine ⟨(Draft.Extends.refl d).withUses u, fun _ _ _ => ?_⟩
    exact ⟨.nil rfl rfl, ids, hQ _ _ _ _ hrun hp, hids⟩

/-- A step that is tried succeeds, unless an error is reported. -/
theorem renders_attempt (hk : ∀ d : Draft, Keeps d.Extends x) (hx : Renders k x texts Q) :
    Renders k (Compile.attempt x) texts fun o ids => ∃ a, o = some a ∧ Q a ids := by
  intro d o d' hd h
  refine ⟨(Compile.keeps_attempt (hk d)).of_ok (.refl d) h, fun hlast he hn => ?_⟩
  cases o with
  | none => exact absurd he (Compile.attempt_none_errors (hk d) h)
  | some a =>
    obtain ⟨hadds, ids, hq, hids⟩ := (hx d a d' hd (Compile.attempt_eq_some h)).2 hlast he hn
    exact ⟨hadds, ids, ⟨a, rfl, hq⟩, hids⟩

end Renders

namespace MethodContext

variable {m : MethodContext} (hN : ∀ d, k.base.Extends d → k.N (d.names m.method.scope))

include hN

/-- A step that asks for the names. -/
theorem renders_names {f : Names → Compile α} {texts : List Text} {Q : α → Set Nat → Prop}
    (hf : ∀ n, k.N n → Renders k (f n) texts Q) : Renders k (Compile.names m.method.scope >>= f) texts Q :=
  fun d a d' hd h => hf (d.names m.method.scope) (hN d hd) d a d' hd h

/-- What is computed with the names, if its calls are noted. -/
theorem renders_named {f : Names → Tracked α} {P : Uses → α → Prop} {calls : α → List Call}
    (hf : ∀ n, Notes (f n) fun u a ids => P u a ∧ ids = callIds (calls a)) :
    Renders k (Compile.names m.method.scope >>= fun n => Compile.tracked (f n)) [] fun a ids =>
      (∃ n, k.N n ∧ ∃ u u', f n u = .ok a u') ∧ ids = callIds (calls a) :=
  renders_names hN fun n hn => renders_tracked (hf n) fun u _ u' _ h hids =>
    ⟨⟨n, hn, u, u', h⟩, hids.2⟩

theorem renders_term (e : Expr) :
    Renders k (m.term e) [] fun t ids => e.Means k.N t ∧ ids = callIds t.calls :=
  renders_named hN fun n => e.notes_saturated n

theorem renders_terms (es : List Expr) :
    Renders k (m.terms es) [] fun ts ids =>
      Expr.MeansAll k.N es ts ∧ ids = callIds (Term.callsAll ts) :=
  renders_named hN fun n => Expr.notes_termAll fun e _ => e.notes_saturated n

theorem renders_termOpt (e : Option Expr) :
    Renders k (m.termOpt e) [] fun t ids =>
      Expr.MeansOpt k.N e t ∧ ids = callIds (Term.callsOpt t) :=
  renders_named hN fun n => Expr.notes_termOpt fun e _ => e.notes_saturated n

theorem renders_target (e : Expr) :
    Renders k (m.target e) [] fun r ids =>
      ((∃ n, k.N n ∧ ∃ u u', e.target n u = .ok (r.1, e.targetIndex) u') ∧ r.2 = e.targetIndex) ∧ ids = ∅ :=
  renders_names hN fun n hn => renders_tracked (e.notes_target n.accesses_true) fun u _ u' _ h hr =>
    ⟨⟨⟨n, hn, u, u', hr.2.1 ▸ h⟩, hr.2.1⟩, hr.2.2⟩

theorem renders_label (l : CaseLabel) :
    Renders k (m.label l) [] fun r ids => l.Becomes k.N r ∧ ids = callIds r.calls := by
  cases l with
  | value e =>
    refine renders_map (renders_term hN e) ?_
    rintro t _ ⟨ht, rfl⟩
    exact ⟨⟨t, ht, rfl⟩, rfl⟩
  | range low high =>
    refine renders_after (renders_term hN low) fun x => ?_
    refine renders_map (renders_term hN high) ?_
    rintro y _ ⟨hy, rfl⟩ _ ⟨hx, rfl⟩
    exact ⟨⟨x, y, hx, hy, rfl⟩, by simp [Label.calls]⟩

theorem renders_labelAll (ls : List CaseLabel) :
    Renders k (m.labelAll ls) [] fun rs ids =>
      List.Forall₂ (CaseLabel.Becomes k.N) ls rs ∧ ids = callIds (rs.flatMap Label.calls) := by
  induction ls with
  | nil => exact renders_pure ⟨.nil, callIds_nil.symm⟩
  | cons l ls ih =>
    refine renders_after (renders_label hN l) fun first => renders_map ih ?_
    rintro rest _ ⟨hrest, rfl⟩ _ ⟨hfirst, rfl⟩
    exact ⟨.cons hfirst hrest, by simp⟩

theorem renders_labels (cs : List Choice) :
    Renders k (m.labels cs) [] fun rs ids =>
      List.Forall₂ (Choice.LabelsBecome k.N) cs rs ∧ ids = callIds (Label.callsChoices rs) := by
  induction cs with
  | nil => exact renders_pure ⟨.nil, callIds_nil.symm⟩
  | cons c cs ih =>
    refine renders_after (renders_labelAll hN c.labels) fun first => renders_map ih ?_
    rintro rest _ ⟨hrest, rfl⟩ _ ⟨hfirst, rfl⟩
    exact ⟨.cons hfirst hrest, by simp [Label.callsChoices]⟩

theorem renders_assign (target : Expr) (op : Option BinaryOp) (value : Expr) :
    Renders k (m.assign target op value) [] fun c ids =>
      (Statement.assign target op value).Becomes k.N m.config.debug k.Runs [c] ∧
        ids = callIds c.calls := by
  refine renders_after (renders_target hN target) fun (v, index) => ?_
  cases op with
  | none =>
    refine renders_after (renders_term hN value) fun t => renders_map (renders_termOpt hN index) ?_
    rintro i _ ⟨hi, rfl⟩ _ ⟨ht, rfl⟩ _ ⟨⟨hv, rfl⟩, rfl⟩
    exact ⟨⟨v, i, t, ⟨hv, hi⟩, ht, rfl⟩, by simp [calls]⟩
  | some op =>
    refine renders_after (renders_termOpt hN index) fun i => renders_map (renders_term hN value) ?_
    rintro t _ ⟨ht, rfl⟩ _ ⟨hi, rfl⟩ _ ⟨⟨hv, rfl⟩, rfl⟩
    refine ⟨⟨v, i, t, ⟨hv, hi⟩, ht, rfl⟩, ?_⟩
    -- the calls of the index are there twice
    rw [Set.empty_union, calls, callIds_append, callIds_append, Set.union_comm,
      Set.union_right_comm, Set.union_assoc, Set.union_self]

theorem renders_invoke (location : Location) (object : Option (Located Identifier))
    (index : Option Expr) (method : Located Identifier) (arguments : List Expr) :
    Renders k (m.invoke location object index method arguments) [] fun c ids =>
      Expr.Invokes k.N location object index method arguments c ∧ ids = callIds c.calls := by
  refine renders_names hN fun n hn => ?_
  have hcallee : Renders k (Compile.tracked (n.callee object method arguments.length false location)) []
      fun callee ids => (∃ n, k.N n ∧ ∃ u u', n.callee object method arguments.length false location u =
        .ok callee u') ∧ ids = ∅ :=
    renders_tracked (n.notes_callee _ _ _ _ _) fun u _ u' _ h hids => ⟨⟨n, hn, u, u', h⟩, hids.1⟩
  refine renders_after hcallee fun callee => ?_
  refine renders_after (renders_terms hN arguments) fun ts => ?_
  refine renders_after (renders_termOpt hN index) fun t => ?_
  have huse : Renders k (Compile.tracked (Tracked.use (.method callee.id))) [] fun _ ids =>
      ids = {callee.id} :=
    renders_tracked (Tracked.notes_use _) fun _ _ _ _ _ h => by simpa [eq_comm] using h.2
  refine renders_map huse ?_
  rintro _ _ rfl _ ⟨ht, rfl⟩ _ ⟨hts, rfl⟩ _ ⟨hcallee, rfl⟩
  exact ⟨⟨callee, ts, t, hcallee, hts, ht, rfl⟩, by simp [calls]⟩

theorem renders_discard (e : Expr) :
    Renders k (m.term e >>= fun t => pure (Command.discard t)) [] fun c ids =>
      (∃ t, e.Means k.N t ∧ c = .discard t) ∧ ids = callIds c.calls := by
  refine renders_map (renders_term hN e) ?_
  rintro t _ ⟨ht, rfl⟩
  exact ⟨⟨t, ht, rfl⟩, rfl⟩

theorem renders_expression (location : Location) (e : Expr) :
    Renders k (m.expression location e) [] fun c ids =>
      e.StandsFor k.N location c ∧ ids = callIds c.calls := by
  cases e with
  | call l object index method arguments => exact renders_invoke hN _ _ _ _ _
  | name l x =>
    refine renders_get fun d hd => ?_
    split
    · next hm =>
      exact renders_weaken (renders_invoke hN _ _ _ _ _) fun c ids h =>
        ⟨.inl ⟨⟨_, hN d hd, _, hm⟩, h.1⟩, h.2⟩
    · next hm =>
      exact renders_weaken (renders_discard hN _) fun c ids h => ⟨.inr ⟨⟨_, hN d hd, hm⟩, h.1⟩, h.2⟩
  | _ => exact renders_discard hN _

theorem renders_debug (location : Location) (arguments : List DebugArgument) :
    Renders k (m.debug location arguments)
        ((Statement.debug location arguments).texts m.config.debug) fun cs ids =>
      (Statement.debug location arguments).Becomes k.N m.config.debug k.Runs cs ∧
        ids = callIds (callsAll cs) := by
  unfold MethodContext.debug
  simp only [Statement.Becomes]
  cases m.config.debug with
  | false => exact renders_pure ⟨rfl, callIds_nil.symm⟩
  | true =>
    refine renders_after (renders_terms hN _) fun ts => ?_
    intro d cs d' _ h
    obtain ⟨_, _, hget, h⟩ := Compile.bind_eq_ok h
    cases hget
    cases hadd : d.debug.add (arguments.map DebugArgument.item) with
    | error e =>
      simp only [hadd] at h
      cases h
    | ok r =>
      simp only [hadd] at h
      cases h
      obtain ⟨hrecord, hrecords⟩ := DebugTable.add_eq_ok hadd
      refine ⟨(Draft.Extends.refl d).withRecords (hrecords ▸ List.prefix_append ..), fun hlast _ hn => ?_⟩
      refine ⟨⟨⟨[], (List.append_nil _).symm, .nil⟩, hrecords⟩, ∅, ?_, .refl _⟩
      · rintro _ ⟨hts, rfl⟩
        have hnumber : k.Num (.debug arguments) r.1 :=
          hn.records (_, _) (by simp [Statement.texts, Text.debug?, hrecord])
        obtain ⟨more, hmore⟩ := hlast.records_prefix
        have hstored : k.last.debug.records[r.1]? =
            some (DebugTable.descriptor (arguments.map DebugArgument.item)) := by
          simp [← hmore, hrecords, hrecord]
        exact ⟨⟨ts, r.1, hts, ⟨hnumber, hts, hstored⟩, rfl⟩, by simp [callsAll, calls]⟩

end MethodContext

/-- A block of assembly code becomes one command, which runs it. -/
theorem Compile.renders_inlineAssembly (m : MethodDraft) (location : Location) (lines : List SourceLine) :
    Renders k (inlineAssembly k.library m location lines) [.assembly lines] fun c ids =>
      (∃ origin block, k.Runs (.assembly lines) (.assembly origin block) ∧ c = .assembly origin block) ∧
        ids = ∅ := by
  intro d c d' _ h
  refine ⟨(keeps_inlineAssembly _ _ _ _).of_ok (.refl d) h, fun hlast he hn => ?_⟩
  obtain ⟨b, hc, hblocks, hdebug, huses, hmade⟩ := inlineAssembly_eq_ok h
  have hnumber : k.Num (.assembly lines) d.blocks.length := hn.blocks (_, _) (by simp [Text.assembly?])
  refine ⟨⟨⟨[b], hblocks, .cons ⟨_, _, _, _, _, h, hblocks⟩ .nil⟩, by simp [hdebug, Text.debug?]⟩, ∅,
    ⟨⟨(b.origin % 2 ^ 32).toNat, d.blocks.length, ⟨hnumber, b, ?_, hmade he, rfl⟩, hc⟩, rfl⟩, fun i => ?_⟩
  · obtain ⟨new, hnew, -⟩ := hlast.blocks_eq
    simp [hnew, hblocks]
  · -- only local variables are noted
    rw [huses]
    simp [Uses.mark]

namespace Statement

variable {m : MethodContext}

/-- Compiling a statement gives the commands that it becomes. -/
def Rendered (k : Course) (m : MethodContext) (s : Statement) : Prop :=
  ∀ exits, Renders k (s.commands m exits) (s.texts m.config.debug) fun cs ids =>
    s.Becomes k.N m.config.debug k.Runs cs ∧ ids = callIds (callsAll cs)

theorem renders_block {ss : List Statement} (h : ∀ s ∈ ss, s.Rendered k m) (exits : Exits) :
    Renders k (block m exits ss) (textsAll m.config.debug ss) fun cs ids =>
      BecomesAll k.N m.config.debug k.Runs ss cs ∧ ids = callIds (callsAll cs) := by
  induction ss with
  | nil => exact renders_pure ⟨rfl, callIds_nil.symm⟩
  | cons s ss ih =>
    rw [block, textsAll]
    refine renders_bind (renders_attempt (fun _ => s.keeps_commands exits)
      (h s (.head _) exits)) fun first => ?_
    refine renders_map (ih fun x hx => h x (.tail _ hx)) ?_
    rintro rest _ ⟨hrest, rfl⟩ _ ⟨cs, rfl, hcs, rfl⟩
    exact ⟨⟨cs, rest, hcs, hrest, rfl⟩, by simp [Command.callsAll_append]⟩

theorem renders_blocks {cs : List Choice}
    (h : ∀ labels body, Choice.mk labels body ∈ cs → ∀ s ∈ body, s.Rendered k m)
    (exits : Exits) :
    Renders k (blocks m exits cs) (textsChoices m.config.debug cs) fun bs ids =>
      BecomesChoices k.N m.config.debug k.Runs cs bs ∧ ids = callIds (Command.callsBodies bs) := by
  induction cs with
  | nil => exact renders_pure ⟨rfl, callIds_nil.symm⟩
  | cons c cs ih =>
    obtain ⟨labels, body⟩ := c
    rw [blocks, textsChoices]
    refine renders_bind (renders_block (h labels body (.head _)) exits) fun first => ?_
    refine renders_map (ih fun l b hb => h l b (.tail _ hb)) ?_
    rintro rest _ ⟨hrest, rfl⟩ _ ⟨hfirst, rfl⟩
    exact ⟨⟨first, rest, hfirst, hrest, rfl⟩, by simp [Command.callsBodies]⟩

section

variable (hlibrary : m.library = k.library) (hN : ∀ d, k.base.Extends d → k.N (d.names m.method.scope))

include hN

theorem renders_guarded {exits : Exits} {otherwise : Option (List Statement)}
    (ho : ∀ s ∈ otherwise.getD [], s.Rendered k m) {branches : List Guarded}
    (h : ∀ c negate body, Guarded.mk c negate body ∈ branches → ∀ s ∈ body, s.Rendered k m) :
    Renders k (guarded m exits otherwise.isSome (blockOpt m exits otherwise) branches)
      (textsGuarded m.config.debug branches ++ textsOpt m.config.debug otherwise) fun cs ids =>
        BecomesGuarded k.N m.config.debug k.Runs otherwise.isSome
          (BecomesOpt k.N m.config.debug k.Runs otherwise) branches cs ∧ ids = callIds (callsAll cs) := by
  induction branches with
  | nil => cases otherwise <;> exact renders_block ho exits
  | cons g rest ih =>
    obtain ⟨c, negate, body⟩ := g
    rw [guarded, textsGuarded, List.append_assoc]
    simp only [BecomesGuarded]
    refine renders_after (m.renders_term hN c) fun t => ?_
    refine renders_bind (renders_block (h c negate body (.head _)) exits) fun yes => ?_
    split
    · next hlast =>
      obtain ⟨rfl, rfl⟩ : rest = [] ∧ otherwise = none := by simpa using hlast
      refine renders_pure ?_
      rintro _ ⟨hyes, rfl⟩ _ ⟨ht, rfl⟩
      exact ⟨⟨t, yes, ht, hyes, rfl⟩, by simp [callsAll, calls]⟩
    · refine renders_map (ih fun c n b hb => h c n b (.tail _ hb)) ?_
      rintro no _ ⟨hno, rfl⟩ _ ⟨hyes, rfl⟩ _ ⟨ht, rfl⟩
      refine ⟨⟨t, yes, ht, hyes, no, hno, rfl⟩, ?_⟩
      simp [callsAll, calls]

include hlibrary

/-- **What a statement becomes.**  Unless an error is reported, compiling a statement gives the commands
that it becomes, and notes the methods that they call. -/
theorem renders_commands (s : Statement) : s.Rendered k m := by
  induction s using Statement.induct with intro exits
  | conditional branches otherwise hb ho => exact renders_guarded hN ho hb
  | preLoop c isUntil body hb | countLoop c body hb =>
    refine renders_after (m.renders_term hN c) fun t => renders_map (renders_block hb _) ?_
    rintro b _ ⟨hb, rfl⟩ _ ⟨ht, rfl⟩
    exact ⟨⟨t, b, ht, hb, rfl⟩, by simp [callsAll, calls]⟩
  | postLoop c isUntil body hb =>
    rw [texts, ← List.append_nil (textsAll m.config.debug body)]
    refine renders_bind (renders_block hb _) fun b => renders_map (m.renders_term hN c) ?_
    rintro t _ ⟨ht, rfl⟩ _ ⟨hb, rfl⟩
    exact ⟨⟨t, b, ht, hb, rfl⟩, by simp [callsAll, calls]⟩
  | forever body hb =>
    refine renders_map (renders_block hb _) ?_
    rintro b _ ⟨hb, rfl⟩
    exact ⟨⟨b, hb, rfl⟩, by simp [callsAll, calls]⟩
  | rangeLoop target first last step body hb =>
    refine renders_after (m.renders_term hN first) fun x => ?_
    refine renders_after (m.renders_term hN last) fun y => ?_
    refine renders_after (m.renders_termOpt hN step) fun z => ?_
    refine renders_after (m.renders_target hN target) ?_
    rintro ⟨v, index⟩
    refine renders_after (m.renders_termOpt hN index) fun i => renders_map (renders_block hb _) ?_
    rintro b _ ⟨hb, rfl⟩ _ ⟨hi, rfl⟩ _ ⟨⟨hv, rfl⟩, rfl⟩ _ ⟨hz, rfl⟩ _ ⟨hy, rfl⟩ _ ⟨hx, rfl⟩
    refine ⟨⟨v, i, x, y, z, b, hx, hy, hz, ⟨hv, hi⟩, hb, rfl⟩, ?_⟩
    cases z <;> simp [callsAll, calls, Term.calls, Term.callsOpt]
  | forLoop init c step body hi hs hb =>
    refine renders_bind (renders_block hi _) fun x => renders_after (m.renders_termOpt hN c) fun t => ?_
    refine renders_bind (renders_block hb _) fun b => renders_map (renders_block hs _) ?_
    rintro y _ ⟨hy, rfl⟩ _ ⟨hb, rfl⟩ _ ⟨ht, rfl⟩ _ ⟨hx, rfl⟩
    refine ⟨⟨x, t, b, y, hx, ht, hb, hy, rfl⟩, ?_⟩
    simp [callsAll, calls]
  | switch value choices otherwise breakable hc ho =>
    refine renders_after (m.renders_term hN value) fun t => ?_
    refine renders_after (m.renders_labels hN choices) fun ls => ?_
    simp only [texts, textsOpt_eq, blockOpt_eq]
    refine renders_bind (renders_block ho _) fun o => renders_map (renders_blocks hc _) ?_
    rintro bs _ ⟨hbs, rfl⟩ _ ⟨ho, rfl⟩ _ ⟨hls, rfl⟩ _ ⟨ht, rfl⟩
    refine ⟨⟨t, ls, o, bs, ht, hls, becomesOpt_iff.mpr ho, hbs, rfl⟩, ?_⟩
    simp [callsAll, calls]
  | leave l | next l =>
    rw [commands]
    split
    · exact renders_pure ⟨rfl, by simp [callsAll, calls]⟩
    · exact renders_throw _
  | ret value | abort value =>
    refine renders_map (m.renders_termOpt hN value) ?_
    rintro t _ ⟨ht, rfl⟩
    exact ⟨⟨t, ht, rfl⟩, by simp [callsAll, calls]⟩
  | assign target op value =>
    refine renders_map (m.renders_assign hN target op value) ?_
    rintro c _ ⟨hc, rfl⟩
    exact ⟨hc, by simp [callsAll]⟩
  | expression l value =>
    refine renders_map (m.renders_expression hN l value) ?_
    rintro c _ ⟨hc, rfl⟩
    exact ⟨⟨c, hc, rfl⟩, by simp [callsAll]⟩
  | assembly l lines =>
    simp only [commands, hlibrary]
    refine renders_map (Compile.renders_inlineAssembly _ l lines) ?_
    rintro _ _ ⟨⟨origin, block, hruns, rfl⟩, rfl⟩
    exact ⟨⟨origin, block, hruns, rfl⟩, by simp [callsAll, calls]⟩
  | debug l arguments =>
    exact m.renders_debug hN l arguments

/-- The body of a method ends with what its last statement becomes, or with a return that is added. -/
theorem renders_body (ss : List Statement) :
    Renders k (body m ss) (textsAll m.config.debug ss) fun cs ids =>
      (∃ own, BecomesAll k.N m.config.debug k.Runs ss own ∧
        cs = own ++ if (ss.getLast?.map isReturn).getD false then [] else [.ret none]) ∧
        ids = callIds (callsAll cs) := by
  rw [body, ← List.append_nil (textsAll m.config.debug ss)]
  refine renders_bind (renders_block (fun s _ => s.renders_commands hlibrary hN) {}) fun own => ?_
  split
  · refine renders_pure ?_
    rintro _ ⟨hown, rfl⟩
    exact ⟨⟨own, hown, (List.append_nil _).symm⟩, Set.union_empty _⟩
  · refine renders_pure ?_
    rintro _ ⟨hown, rfl⟩
    refine ⟨⟨own, hown, rfl⟩, ?_⟩
    simp [Command.callsAll_append, callsAll, calls, Term.callsOpt]

end

end Statement

/-- **What a method becomes.**  Unless an error is reported, the body of a method is what its statements
become, and its references to methods are the calls in it.  Its texts are among those of a last draft. -/
theorem Compile.methodBody_becomes_in {m : MethodDraft}
    (hN : ∀ d, k.base.Extends d → k.N (d.names m.scope)) (hd : k.base.Extends d)
    (h : methodBody config k.library m decl d = .ok m' d') (hlast : d'.Extends k.last)
    (he : d'.report.errors = d.report.errors)
    (hn : d.Numbers k.Num (Statement.textsAll config.debug decl.body)) :
    (∃ own, Statement.BecomesAll k.N config.debug k.Runs decl.body own ∧
      m'.body = own ++ if (decl.body.getLast?.map Statement.isReturn).getD false then []
        else [.ret none]) ∧
      (∀ i, Use.method i ∈ m'.uses ↔ ∃ c ∈ callsAll m'.body, c.method.id = i) ∧
      d.Adds k.library d' (Statement.textsAll config.debug decl.body) := by
  obtain ⟨_, d₁, hreset, h⟩ := bind_eq_ok h
  cases hreset
  obtain ⟨body, d₂, hbody, h⟩ := bind_eq_ok h
  obtain ⟨_, _, hget, h⟩ := bind_eq_ok h
  cases hget
  cases h
  have hrun : Renders k (Statement.body { config, library := k.library, method := m } decl.body) _ _ :=
    Statement.renders_body rfl hN decl.body
  obtain ⟨hadds, ids, ⟨hown, rfl⟩, hids⟩ :=
    (hrun _ body d' (hd.withUses []) hbody).2 hlast he ⟨hn.blocks, hn.records⟩
  refine ⟨hown, fun i => ?_, hadds.blocks, hadds.records⟩
  simpa [callIds] using hids i

theorem Compile.methodBody_becomes {m : MethodDraft} {base : Draft} {N : Names → Prop}
    (hN : ∀ d, base.Extends d → N (d.names m.scope)) (hd : base.Extends d)
    (h : methodBody config library m decl d = .ok m' d') (he : d'.report.errors = d.report.errors) :
    (∃ own, Statement.BecomesAll N config.debug (Text.RunBy library d' N fun _ _ => True) decl.body own ∧
      m'.body = own ++ if (decl.body.getLast?.map Statement.isReturn).getD false then []
        else [.ret none]) ∧
      ∀ i, Use.method i ∈ m'.uses ↔ ∃ c ∈ callsAll m'.body, c.method.id = i := by
  obtain ⟨hown, huses, -⟩ := methodBody_becomes_in (k := ⟨library, base, d', N, fun _ _ => True⟩) hN hd h
    (.refl d') he ⟨fun _ _ => trivial, fun _ _ => trivial⟩
  exact ⟨hown, huses⟩

end Propeller
