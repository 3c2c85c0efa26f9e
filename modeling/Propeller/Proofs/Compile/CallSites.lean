import Propeller.Proofs.Compile.Translation

/-!
# Compile — where methods are called

A call site is a place in a method where another method may be called: a call, a member of a child, or a
name that stands alone, which is a call if it is the name of a method.  A constant of a child is none, and
what is written in its brackets is not looked at; nor is a debug statement unless debugging is asked for.

`Statement.writtenAll` lists the sites that are calls, by what the names in them stand for: if a method is
compiled without errors, they become the calls in its code one for one and in the same order
(`Statement.BecomesAll.made_of`).  `Statement.callSitesAll` lists all of the sites and does not need to know
the names.  Those of its sites that have the name of a method are the calls that are written
(`Statement.covers`), so they are the calls in the code (`Statement.BecomesAll.correspond`).
-/

namespace Propeller

open Command (callsAll)

variable {e : Expr} {es : List Expr} {ss : List Statement} {branches : List Guarded} {m m' : MethodDraft}
  {decl : MethodDecl}

/-- A place where a method may be called. -/
structure CallSite where
  /-- The child whose method is meant, if it is not one of the object itself. -/
  object : Option (Located Identifier)
  /-- Which one of several instances of the child is meant. -/
  index : Option Expr
  method : Located Identifier
  arguments : List Expr

namespace CallSite

/-- The name that is looked up. -/
def name (k : CallSite) : Identifier :=
  match k.object with
  | none   => k.method.value
  | some o => o.value.qualified k.method.value

variable (N : Names → Prop)

/-- A call site becomes a call. -/
def Becomes (k : CallSite) (c : Call) : Prop :=
  CalleeOf N k.object k.method k.arguments.length c.method ∧
    Expr.MeansAll N k.arguments c.arguments ∧ Expr.MeansOpt N k.index c.index

/-- The name of a call site stands for a method. -/
def MeansMethod (k : CallSite) : Prop := ∀ n, N n → ∃ m, n.symbol? k.name = some (.method m)

/-- Call sites and calls are the same. -/
structure Correspond (ks : List CallSite) (cs : List Call) : Prop where
  /-- Every site becomes a call; one of the object itself does so if it has the name of a method. -/
  becomes : ∀ k ∈ ks, (k.object = none → k.MeansMethod N) → ∃ c ∈ cs, k.Becomes N c
  /-- Every call comes from a site. -/
  comes : ∀ c ∈ cs, ∃ k ∈ ks, k.Becomes N c

/-- The order of calls and how often they stand there does not matter. -/
theorem Correspond.congr {N : Names → Prop} {ks : List CallSite} {cs cs' : List Call}
    (h : Correspond N ks cs) (hc : ∀ c, c ∈ cs' ↔ c ∈ cs) : Correspond N ks cs' where
  becomes k hk hm := by
    obtain ⟨c, hmem, hbecomes⟩ := h.becomes k hk hm
    exact ⟨c, (hc c).mpr hmem, hbecomes⟩
  comes c hmem := h.comes c ((hc c).mp hmem)

end CallSite

/-- Which members of children are constants, as names say. -/
def Expr.isConstantIn (n : Names) (x : Identifier) : Bool :=
  match n.symbol? x with
  | none             => false
  | some (.method _) => false
  | some _           => true

namespace CallSite.Becomes

variable {n : Names} {k : CallSite} {c : Call} (h : k.Becomes n.Alike c)

include h

/-- The name of a call site stands for the method that is called. -/
theorem symbol_eq : n.symbol? k.name = some (.method c.method) := by
  obtain ⟨⟨n', hn, wanted, location, u, u', hc⟩, -, -⟩ := h
  rw [← hn.symbol_eq]
  exact (n'.yields_callee _ _ _ _ _ u c.method u' hc).symbol_eq

theorem length_arguments : k.arguments.length = c.method.parameters := by
  obtain ⟨⟨n', hn, wanted, location, u, u', hc⟩, -, -⟩ := h
  exact (n'.yields_callee _ _ _ _ _ u c.method u' hc).parameters_eq

theorem object_known {o : Located Identifier} (ho : k.object = some o) :
    ∃ child, n.links.get? o.value = some child := by
  obtain ⟨⟨n', hn, wanted, location, u, u', hc⟩, -, -⟩ := h
  rw [← hn.links_eq]
  exact (n'.yields_callee _ _ _ _ _ u c.method u' hc).known o ho

theorem arguments_eq : c.arguments = k.arguments.map (·.termIn n) := by
  exact h.2.1.eq fun _ hn => hn.symm

theorem index_eq : c.index = k.index.map (·.termIn n) := by
  exact h.2.2.eq fun _ hn => hn.symm

end CallSite.Becomes

/-! ### Calls that are written -/

namespace Expr

section

variable (made : Bool) (n : Names)

mutual

/-- The calls in an expression: those that are written, or those that are made. -/
def written : Expr → List CallSite
  | literal _ _         => []
  | text _ _            => []
  | name l x            =>
    match n.symbol? x with
    | some (.method _) => [⟨none, none, ⟨x, l⟩, []⟩]
    | _                => []
  | member _ object i x =>
    if isConstantIn n (object.value.qualified x.value) then if made then [] else writtenOpt i
    else writtenOpt i ++ [⟨some object, i, x, []⟩]
  | index _ _ i         => i.written
  | unary _ _ operand   => operand.written
  | binary _ _ left right => left.written ++ right.written
  | ternary _ c yes no  => c.written ++ yes.written ++ no.written
  | addressOf _ operand => operand.written
  | call _ object i method arguments =>
    writtenAll arguments ++ writtenOpt i ++ [⟨object, i, method, arguments⟩]

/-- The calls in several expressions. -/
def writtenAll : List Expr → List CallSite
  | []      => []
  | e :: es => e.written ++ writtenAll es

/-- The calls in an expression that may be missing. -/
def writtenOpt : Option Expr → List CallSite
  | none   => []
  | some e => e.written

end

end

end Expr

/-- The calls in a label of a choice. -/
def CaseLabel.written (made : Bool) (n : Names) : CaseLabel → List CallSite
  | value e        => e.written made n
  | range low high => low.written made n ++ high.written made n

namespace Statement

section

variable (made : Bool) (n : Names) (debugging : Bool)

mutual

/-- The calls in a statement: those that are written, or those that are made. -/
def written : Statement → List CallSite
  | conditional branches otherwise => writtenGuarded branches ++ writtenOpt otherwise
  | whileLoop c _ true body        => writtenAll body ++ c.written made n
  | whileLoop c _ false body       => c.written made n ++ writtenAll body
  | repeatLoop count body          => Expr.writtenOpt made n count ++ writtenAll body
  | rangeLoop target first last step body =>
    first.written made n ++ last.written made n ++ Expr.writtenOpt made n step ++
      Expr.writtenOpt made n target.targetIndex ++ writtenAll body
  | forLoop init c step body       =>
    writtenAll init ++ Expr.writtenOpt made n c ++ writtenAll body ++ writtenAll step
  | switch value choices otherwise _ =>
    value.written made n ++ choices.flatMap (fun c => c.labels.flatMap (·.written made n)) ++
      writtenOpt otherwise ++ writtenChoices choices
  | leave _                        => []
  | next _                         => []
  | ret value                      => Expr.writtenOpt made n value
  | abort value                    => Expr.writtenOpt made n value
  | assign target none value       =>
    value.written made n ++ Expr.writtenOpt made n target.targetIndex
  | assign target (some _) value   =>
    Expr.writtenOpt made n target.targetIndex ++ value.written made n ++
      if made then Expr.writtenOpt made n target.targetIndex else []
  | expression _ e                 => e.written made n
  | assembly _ _                   => []
  | debug _ arguments              =>
    if debugging then Expr.writtenAll made n (MethodContext.debugValues arguments) else []

/-- The calls in several statements. -/
def writtenAll : List Statement → List CallSite
  | []      => []
  | s :: ss => s.written ++ writtenAll ss

/-- The calls in statements that may be missing. -/
def writtenOpt : Option (List Statement) → List CallSite
  | none    => []
  | some ss => writtenAll ss

/-- The calls in a chain of conditions. -/
def writtenGuarded : List Guarded → List CallSite
  | []                       => []
  | .mk condition _ body :: rest =>
    condition.written made n ++ writtenAll body ++ writtenGuarded rest

/-- The calls in the statements of choices. -/
def writtenChoices : List Choice → List CallSite
  | []              => []
  | .mk _ b :: rest => writtenAll b ++ writtenChoices rest

end

end

end Statement

/-! ### Calls that are made -/

/-- Calls are made for the sites of a list, one for one and in the same order. -/
def Made (n : Names) (ks : List CallSite) (cs : List Call) : Prop :=
  List.Forall₂ (CallSite.Becomes n.Alike) ks cs

namespace Made

variable {n : Names} {ks ks' : List CallSite} {cs cs' : List Call}

theorem nil : Made n [] [] := List.Forall₂.nil

theorem single {k : CallSite} {c : Call} (h : k.Becomes n.Alike c) : Made n [k] [c] :=
  List.Forall₂.cons h List.Forall₂.nil

theorem append (h : Made n ks cs) (h' : Made n ks' cs') : Made n (ks ++ ks') (cs ++ cs') :=
  List.rel_append h h'

end Made

namespace Expr

variable {N : Names → Prop} {n n' : Names}

/-- A variable is not a method. -/
theorem yields_variableOf (n : Names) (x : Identifier) (indexed : Bool) (l : Location) :
    Yields (n.variableOf x indexed l) fun _ => ∀ m, n.symbol? x ≠ some (.method m) := by
  unfold Names.variableOf
  cases hx : n.symbol? x with
  | none => exact yields_throw _
  | some e =>
    cases e with
    | method m => exact yields_throw _
    | _ => exact fun _ _ _ _ m hm => by cases hm

theorem callSite_calleeOf (hn : N n) (object : Option (Located Identifier))
    (method : Located Identifier) (given : Nat) (wanted : Bool) (location : Location) :
    Yields (n.callee object method given wanted location) (CalleeOf N object method given) :=
  fun u _ u' h => ⟨n, hn, wanted, location, u, u', h⟩

/-- Nothing more is to be said of a reference that is noted at last. -/
theorem yields_used {α : Type} {Q : α → Prop} {x : Use} {a : α} (h : Q a) :
    Yields (Tracked.use x >>= fun _ => pure a) Q :=
  yields_bind (yields_any _) fun _ _ => yields_pure h

/-- In a constant expression nothing is called. -/
theorem written_of_isStatic (h : e.isStatic n = true) : e.written true n = [] := by
  induction e using Expr.induct with
  | literal | text => rfl
  | name l x =>
    rw [written]
    split
    · next hm => simp only [isStatic, hm, Bool.false_eq_true] at h
    · rfl
  | member l object i x _ =>
    have hconstant : isConstantIn n (object.value.qualified x.value) = true := h
    rw [written, if_pos hconstant, if_pos rfl]
  | unary l op operand ih => exact ih h
  | binary l op left right ihl ihr =>
    rw [isStatic, Bool.and_eq_true] at h
    rw [written, ihl h.1, ihr h.2, List.append_nil]
  | ternary l c yes no ihc ihy ihn =>
    rw [isStatic, Bool.and_eq_true, Bool.and_eq_true] at h
    rw [written, ihc h.1.1, ihy h.1.2, ihn h.2, List.append_nil, List.append_nil]
  | _ => cases h

/-- The calls in the terms of an expression are those that are written. -/
def Makes (n n' : Names) (e : Expr) : Prop :=
  Yields (e.term n') fun t => Made n (e.written true n) t.calls

theorem makes_of_dynamic (hn : n.Alike n')
    (h : e.isStatic n = false → Yields (e.dynamicTerm n') fun t => Made n (e.written true n) t.calls) :
    e.Makes n n' := by
  rw [Makes, term_eq, isStatic_eq hn]
  split
  · next hstatic =>
    refine yields_liftExcept fun t ht => ?_
    obtain ⟨value, rfl⟩ := staticTerm_eq_ok n' ht
    rw [written_of_isStatic hstatic]
    exact .nil
  · next hstatic => exact h (Bool.eq_false_iff.mpr hstatic)

theorem makes_all (hn : n.Alike n') (h : ∀ e ∈ es, e.Makes n n') :
    Yields (termAll n' es) fun ts =>
      MeansAll n.Alike es ts ∧ Made n (writtenAll true n es) (Term.callsAll ts) := by
  intro u ts u' hrun
  refine ⟨⟨n', hn, u, u', hrun⟩, ?_⟩
  induction es generalizing u ts with
  | nil =>
    cases hrun
    exact .nil
  | cons e es ih =>
    obtain ⟨t, u₁, ht, hrun⟩ := run_bind_eq_ok hrun
    obtain ⟨rest, u₂, hrest, hrun⟩ := run_bind_eq_ok hrun
    cases hrun
    exact (h e (.head _) u t u₁ ht).append
      (ih (fun x hx => h x (.tail _ hx)) u₁ rest hrest)

theorem makes_opt (hn : n.Alike n') {e : Option Expr} (h : ∀ x ∈ e, x.Makes n n') :
    Yields (termOpt n' e) fun t =>
      MeansOpt n.Alike e t ∧ Made n (writtenOpt true n e) (Term.callsOpt t) := by
  intro u t u' hrun
  refine ⟨⟨n', hn, u, u', hrun⟩, ?_⟩
  cases e with
  | none =>
    cases hrun
    exact .nil
  | some e =>
    obtain ⟨t, u₁, ht, hrun⟩ := run_bind_eq_ok hrun
    cases hrun
    exact h e rfl u t _ ht

/-- The name of a variable is not a call. -/
theorem yields_notCalled (hn : n.Alike n') (l : Location) (x : Identifier) (indexed : Bool)
    (location : Location) :
    Yields (n'.variableOf x indexed location) fun _ => (name l x).written true n = [] := by
  refine (yields_variableOf n' x indexed location).weaken fun _ hx => ?_
  rw [written]
  split
  · next m hm => exact absurd ((hn.symbol_eq x).trans hm) (hx m)
  · rfl

/-- **The calls in an expression.** -/
theorem makes (hn : n.Alike n') (e : Expr) : e.Makes n n' := by
  have hnone : MeansOpt n.Alike none none := ⟨n', hn, [], [], rfl⟩
  have hnil : MeansAll n.Alike [] [] := ⟨n', hn, [], [], rfl⟩
  induction e using Expr.induct with refine makes_of_dynamic hn fun hstatic => ?_
  | literal | text => exact yields_throw _
  | name l x =>
    simp only [dynamicTerm]
    split
    · next m hm =>
      refine yields_bind (callSite_calleeOf hn _ _ _ _ _) fun m hcallee => yields_used ?_
      have hcalled : (name l x).written true n = [⟨none, none, ⟨x, l⟩, []⟩] := by
        simp only [written, (hn.symbol_eq x).symm.trans hm]
      rw [hcalled]
      exact .single ⟨hcallee, hnil, hnone⟩
    · refine yields_bind (yields_notCalled hn l x _ _) fun v hv => yields_pure ?_
      rw [hv]
      exact .nil
  | member l object i x hi =>
    have hcalled : ¬isConstantIn n (object.value.qualified x.value) = true :=
      Bool.eq_false_iff.mp hstatic
    refine yields_bind (callSite_calleeOf hn _ _ _ _ _) fun m hm => ?_
    refine yields_bind (makes_opt hn hi) fun t ht => yields_used ?_
    rw [written, if_neg hcalled]
    exact ht.2.append (.single ⟨hm, hnil, ht.1⟩)
  | index l base i hi =>
    refine yields_bind hi fun t ht => ?_
    exact yields_bind (yields_any _) fun v _ => yields_pure ht
  | unary l op operand ih =>
    exact yields_bind ih fun t ht => yields_pure ht
  | binary l op left right ihl ihr =>
    refine yields_bind ihl fun x hx => ?_
    exact yields_bind ihr fun y hy => yields_pure (hx.append hy)
  | ternary l c yes no ihc ihy ihn =>
    refine yields_bind ihc fun x hx => ?_
    refine yields_bind ihy fun y hy => yields_bind ihn fun z hz => ?_
    exact yields_pure ((hx.append hy).append hz)
  | addressOf l operand _ hi =>
    cases operand with
    | name inner x =>
      refine yields_bind (yields_notCalled hn inner x _ _) fun v hv => yields_pure ?_
      rw [written, hv]
      exact .nil
    | index inner base i =>
      refine yields_bind (hi _ _ _ rfl) fun t ht => ?_
      exact yields_bind (yields_any _) fun v _ => yields_pure ht
    | _ => exact yields_throw _
  | call l object i method arguments hi ha =>
    refine yields_bind (callSite_calleeOf hn _ _ _ _ _) fun m hm => ?_
    refine yields_bind (makes_all hn ha) fun ts hts => ?_
    refine yields_bind (makes_opt hn hi) fun t ht => yields_used ?_
    exact (hts.2.append ht.2).append (.single ⟨hm, hts.1, ht.1⟩)

theorem Means.made {t : Term} (h : e.Means n.Alike t) : Made n (e.written true n) t.calls := by
  obtain ⟨n', hn, u, u', hrun⟩ := h
  exact makes hn e u t u' hrun

theorem MeansAll.made {ts : List Term} (h : MeansAll n.Alike es ts) :
    Made n (writtenAll true n es) (Term.callsAll ts) := by
  obtain ⟨n', hn, u, u', hrun⟩ := h
  exact (makes_all hn (fun e _ => makes hn e) u ts u' hrun).2

theorem MeansOpt.made {e : Option Expr} {t : Option Term} (h : MeansOpt n.Alike e t) :
    Made n (writtenOpt true n e) (Term.callsOpt t) := by
  obtain ⟨n', hn, u, u', hrun⟩ := h
  exact (makes_opt hn (fun e _ => makes hn e) u t u' hrun).2

end Expr

namespace Statement

variable {n : Names} {debugging : Bool} {Runs : Text → Command → Prop}

/-- The calls in what a statement becomes are those that are written. -/
def Makes (n : Names) (debugging : Bool) (Runs : Text → Command → Prop) (s : Statement) : Prop :=
  ∀ cs, s.Becomes n.Alike debugging Runs cs → Made n (s.written true n debugging) (callsAll cs)

theorem BecomesAll.made_of (h : ∀ s ∈ ss, s.Makes n debugging Runs) {cs : List Command}
    (hcs : BecomesAll n.Alike debugging Runs ss cs) :
    Made n (writtenAll true n debugging ss) (callsAll cs) := by
  induction ss generalizing cs with
  | nil =>
    cases hcs
    exact .nil
  | cons s ss ih =>
    obtain ⟨first, rest, hfirst, hrest, rfl⟩ := hcs
    rw [Command.callsAll_append]
    exact (h s (.head _) first hfirst).append
      (ih (fun x hx => h x (.tail _ hx)) hrest)

theorem BecomesChoices.made_of {choices : List Choice}
    (h : ∀ labels body, Choice.mk labels body ∈ choices → ∀ s ∈ body, s.Makes n debugging Runs)
    {bs : List (List Command)} (hbs : BecomesChoices n.Alike debugging Runs choices bs) :
    Made n (writtenChoices true n debugging choices) (Command.callsBodies bs) := by
  induction choices generalizing bs with
  | nil =>
    cases hbs
    exact .nil
  | cons c choices ih =>
    obtain ⟨labels, body⟩ := c
    obtain ⟨first, more, hfirst, hmore, rfl⟩ := hbs
    exact (BecomesAll.made_of (h labels body (.head _)) hfirst).append
      (ih (fun l b hb => h l b (.tail _ hb)) hmore)

theorem made_label {label : CaseLabel} {l : Label} (h : label.Becomes n.Alike l) :
    Made n (label.written true n) l.calls := by
  cases label with
  | value e =>
    obtain ⟨t, ht, rfl⟩ := h
    exact ht.made
  | range low high =>
    obtain ⟨x, y, hx, hy, rfl⟩ := h
    exact hx.made.append hy.made

theorem made_labels {choices : List Choice} {ls : List (List Label)}
    (h : List.Forall₂ (Choice.LabelsBecome n.Alike) choices ls) :
    Made n (choices.flatMap fun c => c.labels.flatMap (·.written true n)) (Label.callsChoices ls) := by
  have hlabels : ∀ {labels : List CaseLabel} {l : List Label},
      List.Forall₂ (CaseLabel.Becomes n.Alike) labels l →
      Made n (labels.flatMap (·.written true n)) (l.flatMap Label.calls) := by
    intro labels l hl
    induction hl with
    | nil => exact .nil
    | cons hlabel _ ih => exact (made_label hlabel).append ih
  induction h with
  | nil => exact .nil
  | cons hc _ ih => exact (hlabels hc).append ih

/-- A chain of conditions has the calls of what is done if none of them holds behind its own. -/
theorem BecomesGuarded.made_of {hasElse : Bool} {Last : List Command → Prop} {last : List CallSite}
    (hlast : ∀ cs, Last cs → Made n last (callsAll cs)) (hnone : hasElse = false → last = [])
    (h : ∀ c negate body, Guarded.mk c negate body ∈ branches → ∀ s ∈ body, s.Makes n debugging Runs)
    {cs : List Command} (hcs : BecomesGuarded n.Alike debugging Runs hasElse Last branches cs) :
    Made n (writtenGuarded true n debugging branches ++ last) (callsAll cs) := by
  induction branches generalizing cs with
  | nil => exact hlast cs hcs
  | cons g rest ih =>
    obtain ⟨c, negate, body⟩ := g
    obtain ⟨t, yes, ht, hyes, hcs⟩ := hcs
    have hown := ht.made.append (BecomesAll.made_of (h c negate body (.head _)) hyes)
    rw [writtenGuarded, List.append_assoc]
    split at hcs
    · next hend =>
      obtain rfl := hcs
      simp only [Bool.and_eq_true, List.isEmpty_iff, Bool.not_eq_true'] at hend
      rw [hend.1, hnone hend.2]
      exact hown.append .nil
    · obtain ⟨no, hno, rfl⟩ := hcs
      have hrest := ih (fun c n b hb => h c n b (.tail _ hb)) hno
      rw [callsAll, callsAll, Command.calls, List.append_nil]
      exact hown.append hrest

/-- An expression that stands alone is called, or evaluated and dropped. -/
theorem made_expression {l : Location} {c : Command} (h : e.StandsFor n.Alike l c) :
    Made n (e.written true n) c.calls := by
  have hinvokes : ∀ {object i method arguments},
      Expr.Invokes n.Alike l object i method arguments c →
      Made n (Expr.writtenAll true n arguments ++ Expr.writtenOpt true n i ++
        [⟨object, i, method, arguments⟩]) c.calls := by
    rintro object i method arguments ⟨m, ts, t, ⟨n', hn, u, u', hm⟩, hts, ht, rfl⟩
    exact (hts.made.append ht.made).append (.single ⟨⟨n', hn, _, _, u, u', hm⟩, hts, ht⟩)
  cases e with
  | call l object i method arguments => exact hinvokes h
  | name l x =>
    rcases h with ⟨-, h⟩ | ⟨-, t, ht, rfl⟩
    · have hcalled : (Expr.name l x).written true n = [⟨none, none, ⟨x, l⟩, []⟩] := by
        obtain ⟨m, ts, t, ⟨n', hn, u, u', hm⟩, hts, ht, -⟩ := h
        have hk : CallSite.Becomes n.Alike ⟨none, none, ⟨x, l⟩, []⟩ ⟨m, ts, t⟩ :=
          ⟨⟨n', hn, _, _, u, u', hm⟩, hts, ht⟩
        have hsymbol : n.symbol? x = some (.method m) := hk.symbol_eq
        simp only [Expr.written, hsymbol]
      rw [hcalled]
      exact hinvokes h
    · exact ht.made
  | _ =>
    obtain ⟨t, ht, rfl⟩ := h
    exact ht.made

/-- **The calls in a statement.** -/
theorem makes (s : Statement) : s.Makes n debugging Runs := by
  have hone : ∀ {ks : List CallSite} {c : Command}, Made n ks c.calls →
      Made n ks (callsAll [c]) := by
    intro ks c h
    rw [callsAll, callsAll, List.append_nil]
    exact h
  induction s using Statement.induct with
  | conditional branches otherwise hb ho =>
    intro cs hcs
    refine BecomesGuarded.made_of (fun _ h => ?_) (fun hnone => ?_) hb hcs
    · cases otherwise <;> exact BecomesAll.made_of ho h
    · rw [Option.isSome_eq_false_iff, Option.isNone_iff_eq_none] at hnone
      rw [hnone]
      rfl
  | preLoop c isUntil body hb | countLoop c body hb =>
    rintro cs ⟨t, b, ht, hbody, rfl⟩
    exact hone (ht.made.append (BecomesAll.made_of hb hbody))
  | postLoop c isUntil body hb =>
    rintro cs ⟨t, b, ht, hbody, rfl⟩
    exact hone ((BecomesAll.made_of hb hbody).append ht.made)
  | forever body hb =>
    rintro cs ⟨b, hbody, rfl⟩
    exact hone (BecomesAll.made_of hb hbody)
  | rangeLoop target first last step body hb =>
    rintro cs ⟨v, i, x, y, z, b, hx, hy, hz, hi, hbody, rfl⟩
    refine hone ?_
    -- a step that is missing is a constant, in which nothing is called
    have hstep : Made n (Expr.writtenOpt true n step) (z.getD (.constant (.int 1))).calls := by
      have hz := hz.made
      cases z with
      | none | some => exact hz
    exact (((hx.made.append hy.made).append hstep).append hi.2.made).append
      (BecomesAll.made_of hb hbody)
  | forLoop init c step body hi hs hb =>
    rintro cs ⟨x, t, b, y, hinit, ht, hbody, hstep, rfl⟩
    exact hone ((((BecomesAll.made_of hi hinit).append ht.made).append
      (BecomesAll.made_of hb hbody)).append (BecomesAll.made_of hs hstep))
  | switch value choices otherwise breakable hc ho =>
    rintro cs ⟨t, ls, o, bs, ht, hlabels, hotherwise, hbodies, rfl⟩
    refine hone (((ht.made.append (made_labels hlabels)).append ?_).append (BecomesChoices.made_of hc hbodies))
    cases otherwise <;> exact BecomesAll.made_of ho hotherwise
  | leave l | next l =>
    rintro cs rfl
    exact .nil
  | ret value | abort value =>
    rintro cs ⟨t, ht, rfl⟩
    exact hone ht.made
  | assign target op value =>
    rintro cs ⟨v, i, t, hi, ht, rfl⟩
    cases op with
    | none => exact hone (ht.made.append hi.2.made)
    | some op => exact hone ((hi.2.made.append ht.made).append hi.2.made)
  | expression l value =>
    rintro cs ⟨c, hc, rfl⟩
    exact hone (made_expression hc)
  | assembly l lines =>
    rintro cs ⟨_, _, -, rfl⟩
    exact .nil
  | debug l arguments =>
    intro cs hcs
    simp only [Becomes] at hcs
    rw [written]
    split at hcs
    · next hdebug =>
      obtain ⟨ts, record, hts, -, rfl⟩ := hcs
      rw [if_pos hdebug]
      exact hone hts.made
    · next hdebug =>
      obtain rfl := hcs
      rw [if_neg hdebug]
      exact .nil

end Statement

/-! ### Call sites -/

namespace Expr

section

variable (isConstant : Identifier → Bool)

mutual

/-- The call sites in an expression, given which members of children are constants. -/
def callSites : Expr → List CallSite
  | literal _ _              => []
  | text _ _                 => []
  | name l x                 => [⟨none, none, ⟨x, l⟩, []⟩]
  | member _ object i x      =>
    if isConstant (object.value.qualified x.value) then []
    else callSitesOpt i ++ [⟨some object, i, x, []⟩]
  | index _ _ i              => i.callSites
  | unary _ _ operand        => operand.callSites
  | binary _ _ left right    => left.callSites ++ right.callSites
  | ternary _ c yes no       => c.callSites ++ yes.callSites ++ no.callSites
  | addressOf _ operand      => operand.callSites
  | call _ object i method arguments =>
    callSitesAll arguments ++ callSitesOpt i ++ [⟨object, i, method, arguments⟩]

/-- The call sites in several expressions. -/
def callSitesAll : List Expr → List CallSite
  | []      => []
  | e :: es => e.callSites ++ callSitesAll es

/-- The call sites in an expression that may be missing. -/
def callSitesOpt : Option Expr → List CallSite
  | none   => []
  | some e => e.callSites

end

end

/-- Names tell constants of children from methods as it is given. -/
def Tells (n : Names) (isConstant : Identifier → Bool) : Prop :=
  ∀ l object i x, (member l object i x).isStatic n = isConstant (object.value.qualified x.value)

end Expr

/-- The call sites in a label of a choice. -/
def CaseLabel.callSites (isConstant : Identifier → Bool) : CaseLabel → List CallSite
  | value e        => e.callSites isConstant
  | range low high => low.callSites isConstant ++ high.callSites isConstant

namespace Statement

section

variable (isConstant : Identifier → Bool) (debugging : Bool)

mutual

/-- The call sites in a statement. -/
def callSites : Statement → List CallSite
  | conditional branches otherwise => callSitesGuarded branches ++ callSitesOpt otherwise
  | whileLoop c _ _ body           => c.callSites isConstant ++ callSitesAll body
  | repeatLoop count body          => Expr.callSitesOpt isConstant count ++ callSitesAll body
  | rangeLoop target first last step body =>
    first.callSites isConstant ++ last.callSites isConstant ++ Expr.callSitesOpt isConstant step ++
      Expr.callSitesOpt isConstant target.targetIndex ++ callSitesAll body
  | forLoop init c step body       =>
    callSitesAll init ++ Expr.callSitesOpt isConstant c ++ callSitesAll body ++ callSitesAll step
  | switch value choices otherwise _ =>
    value.callSites isConstant ++
      choices.flatMap (fun c => c.labels.flatMap (·.callSites isConstant)) ++
      callSitesOpt otherwise ++ callSitesChoices choices
  | leave _                        => []
  | next _                         => []
  | ret value                      => Expr.callSitesOpt isConstant value
  | abort value                    => Expr.callSitesOpt isConstant value
  | assign target _ value          =>
    value.callSites isConstant ++ Expr.callSitesOpt isConstant target.targetIndex
  | expression _ e                 => e.callSites isConstant
  | assembly _ _                   => []
  | debug _ arguments              =>
    if debugging then Expr.callSitesAll isConstant (MethodContext.debugValues arguments) else []

/-- The call sites in several statements. -/
def callSitesAll : List Statement → List CallSite
  | []      => []
  | s :: ss => s.callSites ++ callSitesAll ss

/-- The call sites in statements that may be missing. -/
def callSitesOpt : Option (List Statement) → List CallSite
  | none    => []
  | some ss => callSitesAll ss

/-- The call sites in a chain of conditions. -/
def callSitesGuarded : List Guarded → List CallSite
  | []                       => []
  | .mk condition _ body :: rest =>
    condition.callSites isConstant ++ callSitesAll body ++ callSitesGuarded rest

/-- The call sites in the statements of choices. -/
def callSitesChoices : List Choice → List CallSite
  | []              => []
  | .mk _ b :: rest => callSitesAll b ++ callSitesChoices rest

end

end

end Statement

/-- The calls among call sites are those with a child, and those with the name of a method. -/
structure CallsAmong (n : Names) (ks sites : List CallSite) : Prop where
  isSite : ∀ k ∈ ks, k ∈ sites
  isCall : ∀ k ∈ sites, (k.object = none → k.MeansMethod n.Alike) → k ∈ ks

namespace CallsAmong

variable {n : Names} {ks ks' js js' : List CallSite} {cs : List Call}

theorem refl (ks : List CallSite) : CallsAmong n ks ks := ⟨fun _ h => h, fun _ h _ => h⟩

theorem append (h : CallsAmong n ks js) (h' : CallsAmong n ks' js') : CallsAmong n (ks ++ ks') (js ++ js') where
  isSite k hk := List.mem_append.mpr ((List.mem_append.mp hk).imp (h.isSite k) (h'.isSite k))
  isCall k hk hm := List.mem_append.mpr
    ((List.mem_append.mp hk).imp (fun hk => h.isCall k hk hm) fun hk => h'.isCall k hk hm)

/-- The order of calls and how often they stand there does not matter. -/
theorem congr (h : CallsAmong n ks js) (hk : ∀ k, k ∈ ks' ↔ k ∈ ks) : CallsAmong n ks' js :=
  ⟨fun k hmem => h.isSite k ((hk k).mp hmem), fun k hmem hm => (hk k).mpr (h.isCall k hmem hm)⟩

theorem flatMap {α : Type} {f g : α → List CallSite} {as : List α}
    (h : ∀ a ∈ as, CallsAmong n (f a) (g a)) : CallsAmong n (as.flatMap f) (as.flatMap g) where
  isSite k hk := by
    obtain ⟨a, ha, hk⟩ := List.mem_flatMap.mp hk
    exact List.mem_flatMap.mpr ⟨a, ha, (h a ha).isSite k hk⟩
  isCall k hk hm := by
    obtain ⟨a, ha, hk⟩ := List.mem_flatMap.mp hk
    exact List.mem_flatMap.mpr ⟨a, ha, (h a ha).isCall k hk hm⟩

theorem correspond (h : CallsAmong n ks js) (hmade : Made n ks cs) :
    CallSite.Correspond n.Alike js cs where
  becomes k hk hm := by
    obtain ⟨c, hc, hbecomes⟩ := exists_of_forall₂ hmade.flip (h.isCall k hk hm)
    exact ⟨c, hc, hbecomes⟩
  comes c hc := by
    obtain ⟨k, hk, hbecomes⟩ := exists_of_forall₂ hmade hc
    exact ⟨k, h.isSite k hk, hbecomes⟩

end CallsAmong

section Covers

variable {n : Names} {isConstant : Identifier → Bool} {debugging : Bool}
  {Runs : Text → Command → Prop}

namespace Expr

/-- The calls among the call sites of an expression are those that are written. -/
abbrev Covers (n : Names) (isConstant : Identifier → Bool) (e : Expr) : Prop :=
  CallsAmong n (e.written true n) (e.callSites isConstant)

theorem covers_all (h : ∀ e ∈ es, e.Covers n isConstant) :
    CallsAmong n (writtenAll true n es) (callSitesAll isConstant es) := by
  induction es with
  | nil => exact .refl _
  | cons e es ih =>
    rw [List.forall_mem_cons] at h
    exact h.1.append (ih h.2)

theorem covers_opt {e : Option Expr} (h : ∀ x ∈ e, x.Covers n isConstant) :
    CallsAmong n (writtenOpt true n e) (callSitesOpt isConstant e) := by
  cases e with
  | none => exact .refl _
  | some e => exact h e rfl

theorem covers (hK : Tells n isConstant) (e : Expr) : e.Covers n isConstant := by
  induction e using Expr.induct with
  | literal | text => exact .refl _
  | name l x =>
    rw [Covers, written]
    split
    · exact .refl _
    · next hnone =>
      refine ⟨fun k hk => absurd hk List.not_mem_nil, fun k hk hm => ?_⟩
      obtain rfl := List.mem_singleton.mp hk
      obtain ⟨m, hsymbol⟩ := hm rfl n (.refl n)
      exact absurd hsymbol (hnone m)
  | member l object i x hi =>
    have hconstant : isConstantIn n (object.value.qualified x.value) = _ := hK l object i x
    rw [Covers, written, callSites, hconstant]
    split
    · exact .refl _
    · exact (covers_opt hi).append (.refl _)
  | index l base i hi => exact hi
  | unary l op operand ih => exact ih
  | binary l op left right ihl ihr => exact ihl.append ihr
  | ternary l c yes no ihc ihy ihn => exact (ihc.append ihy).append ihn
  | addressOf l operand ih _ => exact ih
  | call l object i method arguments hi ha =>
    exact ((covers_all ha).append (covers_opt hi)).append (.refl _)

end Expr

namespace Statement

/-- The calls among the call sites of a statement are those that are written. -/
abbrev Covers (n : Names) (isConstant : Identifier → Bool) (debugging : Bool) (s : Statement) : Prop :=
  CallsAmong n (s.written true n debugging) (s.callSites isConstant debugging)

theorem covers_all (h : ∀ s ∈ ss, s.Covers n isConstant debugging) :
    CallsAmong n (writtenAll true n debugging ss) (callSitesAll isConstant debugging ss) := by
  induction ss with
  | nil => exact .refl _
  | cons s ss ih =>
    rw [List.forall_mem_cons] at h
    exact h.1.append (ih h.2)

theorem covers_choices {choices : List Choice}
    (h : ∀ labels body, .mk labels body ∈ choices → ∀ s ∈ body, s.Covers n isConstant debugging) :
    CallsAmong n (writtenChoices true n debugging choices)
      (callSitesChoices isConstant debugging choices) := by
  induction choices with
  | nil => exact .refl _
  | cons c choices ih =>
    obtain ⟨labels, body⟩ := c
    exact (covers_all (h labels body (.head _))).append
      (ih fun l b hb => h l b (.tail _ hb))

variable (hK : Expr.Tells n isConstant)

include hK

theorem covers_guarded
    (h : ∀ c negate body, .mk c negate body ∈ branches → ∀ s ∈ body, s.Covers n isConstant debugging) :
    CallsAmong n (writtenGuarded true n debugging branches)
      (callSitesGuarded isConstant debugging branches) := by
  induction branches with
  | nil => exact .refl _
  | cons g branches ih =>
    obtain ⟨c, negate, body⟩ := g
    exact ((c.covers hK).append (covers_all (h c negate body (.head _)))).append
      (ih fun c n b hb => h c n b (.tail _ hb))

theorem covers_label (label : CaseLabel) :
    CallsAmong n (label.written true n) (label.callSites isConstant) := by
  cases label with
  | value e => exact e.covers hK
  | range low high => exact (low.covers hK).append (high.covers hK)

theorem covers (s : Statement) : s.Covers n isConstant debugging := by
  have hopt (e : Option Expr) : CallsAmong n (Expr.writtenOpt true n e) (Expr.callSitesOpt isConstant e) :=
    Expr.covers_opt fun x _ => x.covers hK
  induction s using Statement.induct with
  | conditional branches otherwise hb ho =>
    refine (covers_guarded hK hb).append ?_
    cases otherwise <;> exact covers_all ho
  | preLoop c isUntil body hb => exact (c.covers hK).append (covers_all hb)
  | postLoop c isUntil body hb =>
    refine ((c.covers hK).append (covers_all hb)).congr fun k => ?_
    simp only [written, List.mem_append, or_comm]
  | forever body hb => exact covers_all hb
  | countLoop count body hb => exact (count.covers hK).append (covers_all hb)
  | rangeLoop target first last step body hb =>
    exact ((((first.covers hK).append (last.covers hK)).append (hopt step)).append
      (hopt target.targetIndex)).append (covers_all hb)
  | forLoop init c step body hi hs hb =>
    exact (((covers_all hi).append (hopt c)).append (covers_all hb)).append (covers_all hs)
  | switch value choices otherwise breakable hc ho =>
    refine (((value.covers hK).append (.flatMap fun c _ => .flatMap fun l _ => covers_label hK l)).append
      ?_).append (covers_choices hc)
    cases otherwise <;> exact covers_all ho
  | leave | next => exact .refl _
  | ret value | abort value => exact hopt value
  | assign target op value =>
    have hown := (value.covers hK).append (hopt target.targetIndex)
    cases op with
    | none => exact hown
    | some op =>
      -- the calls in the index are made twice
      refine hown.congr fun k => ?_
      simp only [written, if_true, List.mem_append]
      tauto
  | expression l value => exact value.covers hK
  | assembly l lines => exact .refl _
  | debug l arguments =>
    rw [Covers, written, callSites]
    split
    · exact Expr.covers_all fun e _ => e.covers hK
    · exact .refl _

/-- **The calls in the body of a method.** -/
theorem BecomesAll.correspond {cs : List Command} (h : BecomesAll n.Alike debugging Runs ss cs) :
    CallSite.Correspond n.Alike (callSitesAll isConstant debugging ss) (callsAll cs) :=
  (covers_all fun s _ => covers hK s).correspond (BecomesAll.made_of (fun s _ => s.makes) h)

end Statement

end Covers

/-! ### Methods -/

namespace Compile

/-- **What a method has become** whose names mean what they mean in a draft: its calls are those of its
declaration, and its references to methods are its calls. -/
structure Finished (config : Config) (final : Draft) (decl : MethodDecl) (m : MethodDraft) : Prop where
  correspond : ∀ isConstant, Expr.Tells (final.names m.scope) isConstant →
    CallSite.Correspond (final.names m.scope).Alike
      (Statement.callSitesAll isConstant config.debug decl.body) (callsAll m.body)
  uses_iff : ∀ i, Use.method i ∈ m.uses ↔ ∃ c ∈ callsAll m.body, c.method.id = i

variable {config : Config} {library : Library} {base final d d' : Draft}

/-- The body of a method leaves what the method is. -/
theorem methodBody_same (h : methodBody config library m decl d = .ok m' d') :
    m'.method = m.method ∧ m'.scope = m.scope := by
  obtain ⟨_, _, -, h⟩ := bind_eq_ok h
  obtain ⟨_, _, -, h⟩ := bind_eq_ok h
  obtain ⟨_, _, -, h⟩ := bind_eq_ok h
  cases h
  exact ⟨rfl, rfl⟩

theorem methodBody_finished (hN : ∀ d, base.Extends d → (final.names m.scope).Alike (d.names m.scope))
    (hd : base.Extends d) (h : methodBody config library m decl d = .ok m' d')
    (he : d'.report.errors = d.report.errors) :
    m'.method = m.method ∧ m'.scope = m.scope ∧ Finished config final decl m' := by
  obtain ⟨⟨own, hown, hbody⟩, huses⟩ := methodBody_becomes hN hd h he
  have hsame := methodBody_same h
  refine ⟨hsame.1, hsame.2, fun isConstant htells => ?_, huses⟩
  rw [hsame.2] at htells ⊢
  refine (hown.correspond htells).congr fun c => ?_
  -- a return that is added calls nothing
  rw [hbody, Command.callsAll_append]
  split
  · simp [callsAll]
  · simp [callsAll, Command.calls, Term.callsOpt]

/-- What is so of each body that is compiled without errors is so of all of them, unless an error is
reported. -/
theorem methodBodies_forall₂ {R : MethodDraft × MethodDecl → MethodDraft → Prop}
    {methods : List (MethodDraft × MethodDecl)} {compiled : List MethodDraft}
    (hR : ∀ m ∈ methods, ∀ x m' x', base.Extends x → methodBody config library m.1 m.2 x = .ok m' x' →
      x'.Extends d' → x'.report.errors = x.report.errors → R m m')
    (hd : base.Extends d) (h : methodBodies config library methods d = .ok compiled d')
    (he : d'.report.errors = d.report.errors) : List.Forall₂ R methods compiled := by
  induction methods generalizing d compiled with
  | nil =>
    cases h
    exact .nil
  | cons m rest ih =>
    obtain ⟨first, d₁, hfirst, h⟩ := bind_eq_ok h
    obtain ⟨others, d₂, hothers, h⟩ := bind_eq_ok h
    cases h
    have hext : d.Extends d₁ := (keeps_methodBody config library m.1 m.2).of_ok (.refl d) hfirst
    have hext' : d₁.Extends d' := (keeps_methodBodies config library rest).of_ok (.refl d₁) hothers
    obtain ⟨he₁, he₂⟩ := hext.errors_eq hext' he
    refine .cons ?_ (ih (fun m hm => hR m (.tail _ hm)) (hd.trans hext) hothers he₂)
    exact hR m (.head _) d first d₁ hd hfirst hext' he₁

end Compile

end Propeller
