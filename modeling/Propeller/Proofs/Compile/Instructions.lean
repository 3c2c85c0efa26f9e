import Propeller.Proofs.Compile.Inline
import Propeller.Proofs.Compile.Marks
import Propeller.Proofs.Compile.Meaning

/-!
# Compile — the instructions of compiled methods

What holds of every instruction of every method is proved along the way on which instructions are made:
an expression becomes a term (`Expr.notes_term`), a statement becomes commands, and terms and commands become
code.

* `Gathers`: a step that notes references, and what it gives.  References are only added, so that a property
  that speaks of what has been noted holds on from where it is found.
* `Command.Proper`: what is proved of commands, that they are well-formed and that every instruction of
  theirs has a property.
* `Compile.methodBodies_every`: if a property is common and holds of every access to a variable that a
  name can stand for, then it holds of every instruction of every method.
* `Compile.yields_methodBodies`: the commands of every method are well-formed, if every debug statement
  shows values that can be counted in one byte.
-/

namespace Propeller

variable {line : LineId} {o : Op} {v : Variable} {ts arguments : List Term} {t index : Option Term}
  {cs : List Command} {bs : List (List Command)} {record : Nat} {ss : List Statement}
  {ms : List MethodDraft} {d d' : Draft}

/-! ### Commands -/

namespace Label

variable {C : Code → Prop}

/-- A label is saturated, and every instruction of it has a property. -/
structure Proper (C : Code → Prop) (l : Label) : Prop where
  every : ∀ base target, (l.code base target).Every C
  saturated : l.Saturated

theorem every_codeAll {ls : List Label} (h : ∀ l ∈ ls, l.Proper C) (base target : LineId) :
    (codeAll base target ls).Every C := by
  induction ls generalizing base with
  | nil => exact Listing.every_nil
  | cons l ls ih =>
    rw [codeAll, Listing.every_append]
    exact ⟨(h l (.head _)).every _ _, ih (fun x hx => h x (.tail _ hx)) _⟩

theorem every_codeChoices {cs : List (List Label)} (h : ∀ c ∈ cs, ∀ l ∈ c, l.Proper C)
    (base target : LineId) : (codeChoices base target cs).Every C := by
  induction cs generalizing base target with
  | nil => exact Listing.every_nil
  | cons c cs ih =>
    rw [codeChoices, Listing.every_append]
    exact ⟨every_codeAll (h c (.head _)) _ _,
      ih (fun x hx => h x (.tail _ hx)) _ _⟩

end Label

namespace Command

variable {C : Code → Prop} {F : Prop} {exits : Exits}

/-- Every instruction of a command has a property, whatever stands around it, every switch in it has labels
for its choices, and the command is well-formed if `F` holds. -/
structure Proper (C : Code → Prop) (F : Prop) (exits : Exits) (c : Command) : Prop where
  every : ∀ outer base, (c.code outer base).Every C
  paired : c.Paired
  wellFormed : F → c.WellFormed exits

theorem every_codeAll (h : ∀ c ∈ cs, c.Proper C F exits) (outer : List Enclosure) (base : LineId) :
    (codeAll outer base cs).Every C := by
  induction cs generalizing base with
  | nil => exact Listing.every_nil
  | cons c cs ih =>
    rw [codeAll, Listing.every_append]
    exact ⟨(h c (.head _)).every _ _, ih (fun x hx => h x (.tail _ hx)) _⟩

theorem wellFormedAll_of (h : ∀ c ∈ cs, c.Proper C F exits) (hF : F) : WellFormedAll exits cs :=
  wellFormedAll_iff.mpr fun c hc => (h c hc).wellFormed hF

theorem wellFormedBodies_of (h : ∀ b ∈ bs, ∀ c ∈ b, c.Proper C F exits) (hF : F) :
    WellFormedBodies exits bs :=
  wellFormedBodies_iff.mpr fun b hb c hc => (h b hb c hc).wellFormed hF

theorem pairedAll_of (h : ∀ c ∈ cs, c.Proper C F exits) : PairedAll cs :=
  pairedAll_iff.mpr fun c hc => (h c hc).paired

theorem pairedBodies_of (h : ∀ b ∈ bs, ∀ c ∈ b, c.Proper C F exits) : PairedBodies bs :=
  pairedBodies_iff.mpr fun b hb c hc => (h b hb c hc).paired

section

variable (hC : Code.Common C)
include hC

theorem every_codeBodies (h : ∀ b ∈ bs, ∀ c ∈ b, c.Proper C F exits) (outer : List Enclosure)
    (base choices ends : LineId) : (codeBodies outer base choices ends bs).Every C := by
  induction bs generalizing base choices ends with
  | nil => exact Listing.every_nil
  | cons b bs ih =>
    have hrest := ih fun x hx => h x (.tail _ hx)
    simp [codeBodies, every_codeAll (h b (.head _)), hrest, hC.op .caseDone trivial]

theorem proper_exit {e : Exit} (h : F → (exit e).WellFormed exits) : (exit e).Proper C F exits := by
  refine ⟨fun outer base => ?_, trivial, h⟩
  rw [code, Listing.every_mark, exitCode]
  split
  · exact Listing.every_nil
  · simp [hC.branch]
  · simp [hC.branch, hC.pop]

theorem proper_assign {op : Option BinaryOp} {value : Term} (hv : v.Suits C index.isSome)
    (hi : ∀ i ∈ index, i.Proper C) (h : value.Proper C) :
    (assign v index op value).Proper C F exits := by
  refine ⟨fun outer base => ?_, trivial, fun _ => ⟨Term.saturatedOpt_of hi, h.saturated⟩⟩
  cases op <;>
    simp [code, Listing.every_access hv, h.every, Term.every_codeOpt hi, hC.op (.binary _) trivial]

theorem proper_invoke {m : Method} (hm : arguments.length = m.parameters)
    (ha : ∀ a ∈ arguments, a.Proper C) (hi : ∀ i ∈ index, i.Proper C) :
    (invoke m arguments index).Proper C F exits :=
  ⟨fun outer base => by
    simp [code, Term.every_codeAll ha, Term.every_codeOpt hi, hC.op .anchor trivial, hC.call],
    trivial, fun _ => ⟨hm, Term.saturatedAll_of ha, Term.saturatedOpt_of hi⟩⟩

theorem proper_discard {t : Term} (h : t.Proper C) : (discard t).Proper C F exits :=
  ⟨fun outer base => by simp [code, h.every, hC.pop], trivial, fun _ => h.saturated⟩

theorem proper_leave (h : ∀ x ∈ t, x.Proper C) :
    (ret t).Proper C F exits ∧ (abort t).Proper C F exits := by
  refine ⟨⟨fun outer base => ?_, trivial, fun _ => Term.saturatedOpt_of h⟩,
    fun outer base => ?_, trivial, fun _ => Term.saturatedOpt_of h⟩
  · cases t with
    | none => simp [code, hC.op .returnResults trivial]
    | some t => simp [code, (h t rfl).every, hC.op .returnArgs trivial]
  · cases t with
    | none => simp [code, hC.op .abort trivial]
    | some t => simp [code, (h t rfl).every, hC.op .abortArg trivial]

/-- Loops around a term and commands. -/
theorem proper_loop (b : Bool) {t : Term} (ht : t.Proper C) (hbody : ∀ c ∈ cs, c.Proper C F .inLoop) :
    (preLoop b t cs).Proper C F exits ∧ (postLoop b t cs).Proper C F exits ∧
      (countLoop t cs).Proper C F exits := by
  have hw : F → t.Saturated ∧ WellFormedAll .inLoop cs :=
    fun hF => ⟨ht.saturated, wellFormedAll_of hbody hF⟩
  refine ⟨⟨fun _ _ => ?_, pairedAll_of hbody, hw⟩, ⟨fun _ _ => ?_, pairedAll_of hbody, hw⟩,
    fun _ _ => ?_, pairedAll_of hbody, hw⟩
  all_goals simp [code, ht.every, every_codeAll hbody, hC.branch]

theorem proper_assembly (origin number : Nat) : (assembly origin number).Proper C F exits :=
  ⟨fun outer base => by simp [code, hC.inline], trivial, fun _ => trivial⟩

theorem proper_debug (h : ∀ t ∈ ts, t.Proper C) (hr : record < 2 ^ 8) (hfew : F → ts.length ≤ 255) :
    (debug ts record).Proper C F exits := by
  refine ⟨fun outer base => ?_, trivial, fun hF => ⟨hfew hF, Term.saturatedAll_of h⟩⟩
  have hcount : min ts.length 255 < 2 ^ 8 :=
    Nat.lt_of_le_of_lt (Nat.min_le_right _ _) (by decide)
  simp only [code, Listing.every_append, Listing.every_mark, Listing.every_code]
  exact ⟨⟨Listing.every_nil, Term.every_codeAll h _⟩, hC.debug hcount hr, Listing.every_nil⟩

end

end Command

/-! ### References that are noted -/

/-- From a draft on that extends another one, a step only adds references.  What it gives has a property
together with the references that have been noted by then, or with more of them. -/
def Gathers {α : Type} (base : Draft) (x : Compile α) (Q : Uses → α → Prop) : Prop :=
  ∀ d, base.Extends d → match x d with
    | .ok a d'    => base.Extends d' ∧ d.uses ⊆ d'.uses ∧ ∀ u, d'.uses ⊆ u → Q u a
    | .error _ d' => base.Extends d' ∧ d.uses ⊆ d'.uses

section Gathers

variable {α β : Type} {base : Draft} {Q : Uses → α → Prop} {R : Uses → β → Prop}

theorem Gathers.of_ok {x : Compile α} (h : Gathers base x Q) {a : α} (hd : base.Extends d)
    (hx : x d = .ok a d') : Q d'.uses a := by
  have := h d hd
  rw [hx] at this
  exact this.2.2 _ (List.Subset.refl _)

theorem gathers_pure {a : α} (h : ∀ u, Q u a) : Gathers base (pure a) Q :=
  fun _ hd => ⟨hd, List.Subset.refl _, fun u _ => h u⟩

theorem gathers_throw (e : Located CompileError) : Gathers base (throw e : Compile α) Q :=
  fun _ hd => ⟨hd, List.Subset.refl _⟩

/-- What the first step gives still has its property behind the second one. -/
theorem gathers_bind {x : Compile α} {f : α → Compile β} (hx : Gathers base x Q)
    (hf : ∀ a, Gathers base (f a) fun u b => Q u a → R u b) : Gathers base (x >>= f) R := by
  intro d hd
  have hfirst := hx d hd
  cases hrun : x d with
  | error e d' =>
    rw [run_bind_error hrun]
    rw [hrun] at hfirst
    exact hfirst
  | ok a d' =>
    rw [run_bind_ok hrun]
    rw [hrun] at hfirst
    obtain ⟨hd', hgrows, ha⟩ := hfirst
    have hsecond := hf a d' hd'
    cases hnext : f a d' with
    | error e d'' =>
      rw [hnext] at hsecond
      exact ⟨hsecond.1, List.Subset.trans hgrows hsecond.2⟩
    | ok b d'' =>
      rw [hnext] at hsecond
      obtain ⟨hd'', hmore, hb⟩ := hsecond
      exact ⟨hd'', List.Subset.trans hgrows hmore,
        fun u hu => hb u hu (ha u (List.Subset.trans hmore hu))⟩

/-- A step that goes on with the draft that it has seen. -/
theorem gathers_get {f : Draft → Compile α} (h : ∀ d, base.Extends d → Gathers base (f d) Q) :
    Gathers base (get >>= f) Q :=
  fun d hd => h d hd d hd

end Gathers

namespace Compile

variable {α : Type} {base : Draft} {Q : Uses → α → Prop}

theorem gathers_tracked {x : Tracked α} {P : Uses → α → Set Nat → Prop} (h : Notes x P)
    (hQ : ∀ u a ids, P u a ids → Q u a) : Gathers base (tracked x) Q := by
  intro d hd
  have hrun := h d.uses
  unfold tracked
  cases hx : x d.uses with
  | ok a u =>
    rw [hx] at hrun
    obtain ⟨hgrows, ids, -, hp⟩ := hrun
    exact ⟨hd.withUses u, hgrows, fun v hv => hQ v a ids (hp v hv)⟩
  | error e u =>
    rw [hx] at hrun
    exact ⟨hd.withUses u, hrun.1⟩

theorem gathers_attempt {x : Compile α} (h : Gathers base x Q) :
    Gathers base (attempt x) fun u o => ∀ a ∈ o, Q u a := by
  intro d hd
  have := h d hd
  cases hx : x d with
  | ok a d' =>
    rw [attempt_of_ok hx]
    rw [hx] at this
    refine ⟨this.1, this.2.1, fun u hu b hb => ?_⟩
    obtain rfl := Option.some.inj hb
    exact this.2.2 u hu
  | error e d' =>
    rw [attempt_of_error hx]
    rw [hx] at this
    exact ⟨this.1.withReport (List.prefix_append ..), this.2, fun u _ b hb => by cases hb⟩

/-- A step that looks up names goes on with names from a draft of the method. -/
theorem gathers_names {N : Names → Prop} {scope : ScopeId} {f : Names → Compile α}
    (hN : ∀ d, base.Extends d → N (d.names scope))
    (h : ∀ n, N n → Gathers base (f n) Q) :
    Gathers base (names scope >>= f) Q :=
  fun d hd => h (d.names scope) (hN d hd) d hd

end Compile

/-- The term of an expression is saturated. -/
theorem Expr.yields_term (n : Names) (e : Expr) : Yields (e.term n) Term.Saturated := by
  intro u t u' h
  obtain ⟨_, ht, -⟩ := (e.notes_saturated n).of_ok h
  exact ht.1.saturated

/-! ### Statements -/

/-- The number of a descriptor fits into a byte. -/
theorem DebugTable.add_lt {t table : DebugTable} {items : List DebugItem}
    (h : t.add items = .ok (record, table)) : record < 2 ^ 8 := by
  unfold DebugTable.add at h
  split at h
  · next hlt =>
    cases h
    exact hlt
  · cases h

namespace Compile

variable {base : Draft} {C : Uses → Code → Prop}

instance untouchedUses (uses : Uses) : Untouched fun d => uses ⊆ d.uses where
  declares h hd := h.uses_eq ▸ hd
  fatal _ _ _ hd := hd

/-- A block of assembly code adds references to the variables that it finds in registers. -/
theorem noted_inlineAssembly (library : Library) (m : MethodDraft) (location : Location)
    (lines : List SourceLine) (uses : Uses) :
    Keeps (fun d => uses ⊆ d.uses) (inlineAssembly library m location lines) := by
  have hmark : ∀ (registers : List (LocalVar × Nat)) (u : Uses),
      u ⊆ registers.foldl (fun u r => u.mark (.localVar r.1.id)) u := by
    intro registers
    induction registers with
    | nil => exact fun u => List.Subset.refl u
    | cons r rest ih => exact fun u => List.Subset.trans (List.subset_cons_self _ _) (ih _)
  refine keeps_bind (steady_pushScope _).keeps fun _ => ?_
  refine keeps_bind (leads_modify fun d hd => List.Subset.trans hd (hmark _ _)) fun _ => ?_
  refine keeps_bind (steady_bindRegisters _ _).keeps fun _ => ?_
  refine keeps_bind (steady_splitOrigin _ _).keeps fun _ => ?_
  refine keeps_bind (steady_convert _ _ _).keeps fun _ => ?_
  exact keeps_bind (keeps_liftExcept _) fun _ => leads_modifyGet fun _ hd => hd

theorem gathers_inlineAssembly (hC : ∀ u, Code.Common (C u)) (F : Prop) (exits : Exits) (library : Library)
    (m : MethodDraft) (location : Location) (lines : List SourceLine) :
    Gathers base (inlineAssembly library m location lines)
      fun u => Command.Proper (C u) F exits := by
  intro d hd
  have hextends := keeps_inlineAssembly library m location lines d hd
  have hnoted := noted_inlineAssembly library m location lines d.uses d (List.Subset.refl _)
  cases hx : inlineAssembly library m location lines d with
  | error e d' =>
    rw [hx] at hextends hnoted
    exact ⟨hextends, hnoted⟩
  | ok c d' =>
    rw [hx] at hextends hnoted
    obtain ⟨b, rfl, -⟩ := inlineAssembly_eq_ok hx
    exact ⟨hextends, hnoted, fun u _ => Command.proper_assembly (hC u) _ _⟩

end Compile

namespace MethodContext

open Compile (gathers_names gathers_tracked)

variable {base : Draft} {C : Uses → Code → Prop} (F : Prop) (exits : Exits) (m : MethodContext)
  (hC : ∀ u, Code.Common (C u))
  (hN : ∀ d, base.Extends d → (d.names m.method.scope).Accesses C)

include hN in
theorem gathers_target (e : Expr) :
    Gathers base (m.target e) fun u t => t.1.Suits (C u) t.2.isSome :=
  gathers_names hN fun _ hn => gathers_tracked (Expr.notes_target hn e) fun _ _ _ h => h.1

include hC hN

theorem gathers_term (e : Expr) :
    Gathers base (m.term e) fun u => Term.Proper (C u) :=
  gathers_names hN fun _ hn => gathers_tracked (Expr.notes_term hC hn e) fun _ _ _ h => h.1

theorem gathers_terms (es : List Expr) :
    Gathers base (m.terms es) fun u ts =>
      ts.length = es.length ∧ ∀ t ∈ ts, t.Proper (C u) :=
  gathers_names hN fun _ hn =>
    gathers_tracked (Expr.notes_termAll fun e _ => e.notes_term hC hn) fun _ _ _ h => h.1

theorem gathers_termOpt (e : Option Expr) :
    Gathers base (m.termOpt e) fun u t =>
      t.isSome = e.isSome ∧ ∀ x ∈ t, x.Proper (C u) :=
  gathers_names hN fun _ hn =>
    gathers_tracked (Expr.notes_termOpt fun e _ => e.notes_term hC hn) fun _ _ _ h => h.1

theorem gathers_label (l : CaseLabel) :
    Gathers base (m.label l) fun u => Label.Proper (C u) := by
  cases l with
  | value e =>
    refine gathers_bind (m.gathers_term hC hN e) fun t => gathers_pure fun u ht => ⟨fun _ _ => ?_, ht.saturated⟩
    simp [Label.code, ht.every, (hC u).branch]
  | range low high =>
    refine gathers_bind (m.gathers_term hC hN low) fun x => ?_
    refine gathers_bind (m.gathers_term hC hN high) fun y => gathers_pure fun u hy hx => ?_
    refine ⟨fun _ _ => ?_, hx.saturated, hy.saturated⟩
    simp [Label.code, hx.every, hy.every, (hC u).branch]

theorem gathers_labelAll (ls : List CaseLabel) :
    Gathers base (m.labelAll ls) fun u found => ∀ l ∈ found, l.Proper (C u) := by
  induction ls with
  | nil => exact gathers_pure (by simp)
  | cons l ls ih =>
    refine gathers_bind (m.gathers_label hC hN l) fun first => gathers_bind ih fun rest => ?_
    exact gathers_pure fun u hrest hfirst => List.forall_mem_cons.mpr ⟨hfirst, hrest⟩

theorem gathers_labels (cs : List Choice) :
    Gathers base (m.labels cs) fun u found =>
      found.length = cs.length ∧ ∀ ls ∈ found, ∀ l ∈ ls, l.Proper (C u) := by
  induction cs with
  | nil => exact gathers_pure (by simp)
  | cons c cs ih =>
    refine gathers_bind (m.gathers_labelAll hC hN c.labels) fun first => gathers_bind ih fun rest => ?_
    refine gathers_pure fun u hrest hfirst => ⟨congrArg (· + 1) hrest.1, ?_⟩
    exact List.forall_mem_cons.mpr ⟨hfirst, hrest.2⟩

theorem gathers_assign (target : Expr) (op : Option BinaryOp) (value : Expr) :
    Gathers base (m.assign target op value) fun u => Command.Proper (C u) F exits := by
  refine gathers_bind (m.gathers_target hN target) fun t => ?_
  cases op with
  | none =>
    refine gathers_bind (m.gathers_term hC hN value) fun x => ?_
    refine gathers_bind (m.gathers_termOpt hC hN t.2) fun i => gathers_pure fun u hi hx ht => ?_
    exact Command.proper_assign (hC u) (hi.1 ▸ ht) hi.2 hx
  | some op =>
    refine gathers_bind (m.gathers_termOpt hC hN t.2) fun i => ?_
    refine gathers_bind (m.gathers_term hC hN value) fun x => gathers_pure fun u hx hi ht => ?_
    exact Command.proper_assign (hC u) (hi.1 ▸ ht) hi.2 hx

theorem gathers_invoke (location : Location) (object : Option (Located Identifier))
    (index : Option Expr) (method : Located Identifier) (arguments : List Expr) :
    Gathers base (m.invoke location object index method arguments)
      fun u => Command.Proper (C u) F exits := by
  refine gathers_names hN fun n _ => ?_
  refine gathers_bind (gathers_tracked (n.notes_callee _ _ _ _ _) fun _ _ _ h => h.2) fun callee => ?_
  refine gathers_bind (m.gathers_terms hC hN arguments) fun args => ?_
  refine gathers_bind (m.gathers_termOpt hC hN index) fun i => ?_
  refine gathers_bind (gathers_tracked (Tracked.notes_use _) fun _ _ _ h => h.1) fun _ => ?_
  refine gathers_pure fun u _ hi hargs hcallee => ?_
  exact Command.proper_invoke (hC u) (hargs.1.trans hcallee.parameters_eq) hargs.2 hi.2

theorem gathers_expression (location : Location) (e : Expr) :
    Gathers base (m.expression location e) fun u => Command.Proper (C u) F exits := by
  have discarded : ∀ e, Gathers base (do return Command.discard (← m.term e))
      fun u => Command.Proper (C u) F exits :=
    fun e => gathers_bind (m.gathers_term hC hN e) fun t =>
      gathers_pure fun u ht => Command.proper_discard (hC u) ht
  unfold MethodContext.expression
  split
  · exact m.gathers_invoke F exits hC hN _ _ _ _ _
  · refine gathers_get fun d _ => ?_
    split
    · exact m.gathers_invoke F exits hC hN _ _ _ _ _
    · exact discarded _
  · exact discarded _

theorem gathers_debug (location : Location) {arguments : List DebugArgument}
    (hfew : F → m.config.debug = true → (debugValues arguments).length ≤ 255) :
    Gathers base (m.debug location arguments)
      fun u cs => ∀ c ∈ cs, c.Proper (C u) F exits := by
  rw [MethodContext.debug]
  split
  · exact gathers_pure (by simp)
  · next hdebug =>
    refine gathers_bind (m.gathers_terms hC hN _) fun values d hd => ?_
    rw [Compile.get_bind]
    cases hadd : d.debug.add (arguments.map DebugArgument.item) with
    | error e => exact ⟨hd, List.Subset.refl _⟩
    | ok added =>
      obtain ⟨record, table⟩ := added
      obtain ⟨-, hrecords⟩ := DebugTable.add_eq_ok hadd
      refine ⟨hd.withRecords (hrecords ▸ List.prefix_append _ _), List.Subset.refl _, ?_⟩
      intro u _ hvalues
      have hrecord := DebugTable.add_lt hadd
      refine List.forall_mem_singleton.mpr (Command.proper_debug (hC u) hvalues.2 hrecord fun hF => ?_)
      exact hvalues.1 ▸ hfew hF (by simpa using hdebug)

end MethodContext

namespace Statement

open Compile (gathers_attempt)
open Command (every_codeAll every_codeBodies pairedAll_of wellFormedAll_of)

variable {base : Draft} {C : Uses → Code → Prop} {F : Prop} {m : MethodContext}

/-- The commands of a statement are proper with any exits around it.  They are well-formed if it is compiled
for debugging only when it shows few values. -/
def Gathered (base : Draft) (C : Uses → Code → Prop) (F : Prop) (m : MethodContext) (s : Statement) : Prop :=
  ∀ exits, (F → m.config.debug = true → s.ShowsFew) →
    Gathers base (s.commands m exits) fun u cs => ∀ c ∈ cs, c.Proper (C u) F exits

theorem gathers_block (h : ∀ s ∈ ss, s.Gathered base C F m) (exits : Exits)
    (hs : F → m.config.debug = true → ShowsFewAll ss) :
    Gathers base (block m exits ss) fun u cs => ∀ c ∈ cs, c.Proper (C u) F exits := by
  induction ss with
  | nil => exact gathers_pure (by simp)
  | cons s ss ih =>
    rw [block]
    have hfirst := h s (.head _) exits fun hF hd => (hs hF hd).1
    refine gathers_bind (gathers_attempt hfirst) fun first => ?_
    refine gathers_bind (ih (fun x hx => h x (.tail _ hx)) fun hF hd => (hs hF hd).2)
      fun rest => gathers_pure fun u hrest hfirst => List.forall_mem_append.mpr ⟨?_, hrest⟩
    cases first with
    | none => simp
    | some cs => exact hfirst cs rfl

theorem gathers_blocks {cs : List Choice}
    (h : ∀ labels body, Choice.mk labels body ∈ cs → ∀ s ∈ body, s.Gathered base C F m)
    (exits : Exits) (hs : F → m.config.debug = true → ShowsFewChoices cs) :
    Gathers base (blocks m exits cs) fun u bodies =>
      bodies.length = cs.length ∧ ∀ b ∈ bodies, ∀ c ∈ b, c.Proper (C u) F exits := by
  induction cs with
  | nil => exact gathers_pure (by simp)
  | cons c cs ih =>
    obtain ⟨labels, body⟩ := c
    rw [blocks]
    refine gathers_bind (gathers_block (h labels body (.head _)) exits
      fun hF hd => (hs hF hd).1) fun first => ?_
    refine gathers_bind (ih (fun l b hb => h l b (.tail _ hb)) fun hF hd => (hs hF hd).2)
      fun rest => gathers_pure fun u hrest hfirst => ⟨congrArg (· + 1) hrest.1, ?_⟩
    exact List.forall_mem_cons.mpr ⟨hfirst, hrest.2⟩

variable (hC : ∀ u, Code.Common (C u))
  (hN : ∀ d, base.Extends d → (d.names m.method.scope).Accesses C)
include hC hN

theorem gathers_guarded {hasElse : Bool} {exits : Exits} {otherwise : Compile (List Command)}
    (ho : Gathers base otherwise fun u cs => ∀ c ∈ cs, c.Proper (C u) F exits)
    {branches : List Guarded}
    (h : ∀ c negate body, Guarded.mk c negate body ∈ branches → ∀ s ∈ body, s.Gathered base C F m)
    (hs : F → m.config.debug = true → ShowsFewGuarded branches) :
    Gathers base (guarded m exits hasElse otherwise branches)
      fun u cs => ∀ c ∈ cs, c.Proper (C u) F exits := by
  induction branches with
  | nil => exact ho
  | cons g rest ih =>
    obtain ⟨c, negate, body⟩ := g
    rw [guarded]
    refine gathers_bind (m.gathers_term hC hN c) fun t => ?_
    refine gathers_bind (gathers_block (h c negate body (.head _)) exits
      fun hF hd => (hs hF hd).1) fun yes => ?_
    split
    · refine gathers_pure fun u hyes ht => List.forall_mem_singleton.mpr
        ⟨fun outer base => ?_, pairedAll_of hyes, fun hF => ⟨ht.saturated, wellFormedAll_of hyes hF⟩⟩
      simp [Command.code, ht.every, every_codeAll hyes, (hC u).branch]
    · refine gathers_bind (ih (fun c n b hb => h c n b (.tail _ hb))
        fun hF hd => (hs hF hd).2) fun no => ?_
      refine gathers_pure fun u hno hyes ht => List.forall_mem_singleton.mpr
        ⟨fun outer base => ?_, ⟨pairedAll_of hyes, pairedAll_of hno⟩, fun hF => ?_⟩
      · simp [Command.code, ht.every, every_codeAll hyes, every_codeAll hno, (hC u).branch]
      · exact ⟨ht.saturated, wellFormedAll_of hyes hF, wellFormedAll_of hno hF⟩

/-- **The commands of a statement** are proper. -/
theorem gathers_commands (s : Statement) : s.Gathered base C F m := by
  -- what is compiled to one command
  have one : ∀ {x : Compile Command} {exits : Exits}, (Gathers base x fun u => Command.Proper (C u) F exits) →
      Gathers base (do return [← x]) fun u cs => ∀ c ∈ cs, c.Proper (C u) F exits :=
    fun hx => gathers_bind hx fun _ => gathers_pure fun _ hc => List.forall_mem_singleton.mpr hc
  induction s using Statement.induct with intro exits hs
  | conditional branches otherwise hb ho =>
    rw [commands, blockOpt_eq]
    refine gathers_guarded hC hN (gathers_block ho exits fun hF hd => ?_) hb fun hF hd => (hs hF hd).1
    cases otherwise <;> exact (hs hF hd).2
  | preLoop c isUntil body hb =>
    refine gathers_bind (m.gathers_term hC hN c) fun t => ?_
    refine gathers_bind (gathers_block hb _ hs) fun body => gathers_pure fun u hbody ht => ?_
    exact List.forall_mem_singleton.mpr (Command.proper_loop (hC u) isUntil ht hbody).1
  | postLoop c isUntil body hb =>
    refine gathers_bind (gathers_block hb _ hs) fun body => ?_
    refine gathers_bind (m.gathers_term hC hN c) fun t => gathers_pure fun u ht hbody => ?_
    exact List.forall_mem_singleton.mpr (Command.proper_loop (hC u) isUntil ht hbody).2.1
  | forever body hb =>
    refine gathers_bind (gathers_block hb _ hs) fun body => gathers_pure fun u hbody => ?_
    refine List.forall_mem_singleton.mpr
      ⟨fun outer base => ?_, pairedAll_of hbody, wellFormedAll_of hbody⟩
    simp [Command.code, every_codeAll hbody, (hC u).branch]
  | countLoop count body hb =>
    refine gathers_bind (m.gathers_term hC hN count) fun t => ?_
    refine gathers_bind (gathers_block hb _ hs) fun body => gathers_pure fun u hbody ht => ?_
    exact List.forall_mem_singleton.mpr (Command.proper_loop (hC u) false ht hbody).2.2
  | rangeLoop target first last step body hb =>
    refine gathers_bind (m.gathers_term hC hN first) fun x => ?_
    refine gathers_bind (m.gathers_term hC hN last) fun y => ?_
    refine gathers_bind (m.gathers_termOpt hC hN step) fun z => ?_
    refine gathers_bind (m.gathers_target hN target) fun v => ?_
    refine gathers_bind (m.gathers_termOpt hC hN v.2) fun i => ?_
    refine gathers_bind (gathers_block hb _ hs) fun body => gathers_pure fun u hbody hi hv hz hy hx => ?_
    have hstep : (z.getD (.constant (.int 1))).Proper (C u) := by
      cases z with
      | none => exact Term.proper_constant (hC u) _
      | some z => exact hz.2 z rfl
    rw [← hi.1] at hv
    refine List.forall_mem_singleton.mpr ⟨fun outer base => ?_, pairedAll_of hbody, fun hF => ?_⟩
    · simp [Command.code, hx.every, hy.every, hstep.every, Listing.every_access hv,
        Term.every_codeOpt hi.2, every_codeAll hbody, (hC u).branch]
    · exact ⟨hx.saturated, hy.saturated, hstep.saturated, Term.saturatedOpt_of hi.2,
        wellFormedAll_of hbody hF⟩
  | forLoop init c step body hi hst hb =>
    refine gathers_bind (gathers_block hi _ fun hF hd => (hs hF hd).1) fun init => ?_
    refine gathers_bind (m.gathers_termOpt hC hN c) fun t => ?_
    refine gathers_bind (gathers_block hb _ fun hF hd => (hs hF hd).2.2) fun body => ?_
    refine gathers_bind (gathers_block hst _ fun hF hd => (hs hF hd).2.1) fun step => ?_
    refine gathers_pure fun u hstep hbody ht hinit => List.forall_mem_singleton.mpr
      ⟨fun outer base => ?_, ⟨pairedAll_of hinit, pairedAll_of hbody, pairedAll_of hstep⟩, fun hF => ?_⟩
    · have htest : ∀ stop, Listing.Every (C u) (if t.isSome then [.branch .jz stop] else []) := by
        intro stop
        split
        · simp [(hC u).branch]
        · simp
      simp [Command.code, Term.every_codeOpt ht.2, every_codeAll hinit, every_codeAll hbody,
        every_codeAll hstep, htest, (hC u).branch]
    · exact ⟨wellFormedAll_of hinit hF, Term.saturatedOpt_of ht.2, wellFormedAll_of hbody hF,
        wellFormedAll_of hstep hF⟩
  | switch value choices otherwise breakable hc ho =>
    refine gathers_bind (m.gathers_term hC hN value) fun t => ?_
    refine gathers_bind (m.gathers_labels hC hN choices) fun labels => ?_
    simp only [blockOpt_eq]
    refine gathers_bind (gathers_block ho _ fun hF hd => ?_) fun otherwise => ?_
    · cases otherwise <;> exact (hs hF hd).2
    refine gathers_bind (gathers_blocks hc _ fun hF hd => (hs hF hd).1) fun bodies => ?_
    refine gathers_pure fun u hbodies hotherwise hlabels ht => ?_
    have hlength : labels.length = bodies.length := hlabels.1.trans hbodies.1.symm
    refine List.forall_mem_singleton.mpr ⟨fun outer base => ?_,
      ⟨hlength, pairedAll_of hotherwise, Command.pairedBodies_of hbodies.2⟩, fun hF => ?_⟩
    · simp [Command.code, ht.every, Label.every_codeChoices hlabels.2, every_codeAll hotherwise,
        every_codeBodies (hC u) hbodies.2, (hC u).op .caseDone trivial, (hC u).branch]
    · exact ⟨ht.saturated, fun ls hls l hl => (hlabels.2 ls hls l hl).saturated, hlength,
        wellFormedAll_of hotherwise hF, Command.wellFormedBodies_of hbodies.2 hF⟩
  | leave l | next l =>
    rw [commands]
    split
    · next h => exact gathers_pure fun u => List.forall_mem_singleton.mpr (Command.proper_exit (hC u) fun _ => h)
    · exact gathers_throw _
  | ret value =>
    refine gathers_bind (m.gathers_termOpt hC hN value) fun t => gathers_pure fun u ht => ?_
    exact List.forall_mem_singleton.mpr (Command.proper_leave (hC u) ht.2).1
  | abort value =>
    refine gathers_bind (m.gathers_termOpt hC hN value) fun t => gathers_pure fun u ht => ?_
    exact List.forall_mem_singleton.mpr (Command.proper_leave (hC u) ht.2).2
  | assign target op value => exact one (m.gathers_assign F exits hC hN target op value)
  | expression l value => exact one (m.gathers_expression F exits hC hN l value)
  | assembly l lines => exact one (Compile.gathers_inlineAssembly hC F exits _ _ l lines)
  | debug l arguments => exact m.gathers_debug F exits hC hN l hs

theorem gathers_body (hs : F → m.config.debug = true → ShowsFewAll ss) :
    Gathers base (body m ss) fun u cs => ∀ c ∈ cs, c.Proper (C u) F {} := by
  refine gathers_bind (gathers_block (fun s _ => gathers_commands hC hN s) {} hs) fun cs => ?_
  split
  · exact gathers_pure fun u hcs => hcs
  · refine gathers_pure fun u hcs => List.forall_mem_append.mpr ⟨hcs, List.forall_mem_singleton.mpr ?_⟩
    exact (Command.proper_leave (hC u) (by simp)).1

end Statement

namespace Compile

variable {base : Draft} {C : Uses → Code → Prop} {config : Config} {library : Library}
  {methods : List (MethodDraft × MethodDecl)}

/-- **The commands of a method** are proper, with a property that is common and that holds of every access to
a variable. -/
theorem methodBody_proper (hC : ∀ u, Code.Common (C u)) {F : Prop} {m m' : MethodDraft} {decl : MethodDecl}
    (hN : ∀ d, base.Extends d → (d.names m.scope).Accesses C)
    (hs : F → config.debug = true → Statement.ShowsFewAll decl.body) (hd : base.Extends d)
    (h : methodBody config library m decl d = .ok m' d') : ∀ c ∈ m'.body, c.Proper (C m'.uses) F {} := by
  obtain ⟨_, _, hreset, h⟩ := bind_eq_ok h
  cases hreset
  obtain ⟨cs, d₀, hbody, h⟩ := bind_eq_ok h
  cases h
  exact (Statement.gathers_body hC hN hs).of_ok (hd.withUses []) hbody

/-- Every switch in a method has labels for each of its choices. -/
theorem methodBody_paired {m m' : MethodDraft} {decl : MethodDecl}
    (h : methodBody config library m decl d = .ok m' d') : Command.PairedAll m'.body :=
  Command.pairedAll_of (methodBody_proper (fun _ => Code.common_true)
    (fun d _ => (d.names _).accesses_true) (F := False) False.elim (.refl d) h)

/-- **The commands of every method** are proper. -/
theorem methodBodies_proper (hC : ∀ u, Code.Common (C u)) {F : Prop}
    (hN : ∀ pair ∈ methods, ∀ d, base.Extends d → (d.names pair.1.scope).Accesses C)
    (hs : F → config.debug = true → ∀ m ∈ methods, Statement.ShowsFewAll m.2.body) (hd : base.Extends d)
    (h : methodBodies config library methods d = .ok ms d') :
    ∀ m ∈ ms, ∀ c ∈ m.body, c.Proper (C m.uses) F {} := by
  induction methods generalizing d ms with
  | nil =>
    cases h
    exact fun m hm => by cases hm
  | cons pair rest ih =>
    obtain ⟨first, d₁, hfirst, h⟩ := bind_eq_ok h
    obtain ⟨others, d₂, hothers, h⟩ := bind_eq_ok h
    cases h
    have hd₁ := (keeps_methodBody config library pair.1 pair.2).of_ok hd hfirst
    have hcs := methodBody_proper hC (hN _ (.head _)) (fun hF hon => hs hF hon _ (.head _)) hd hfirst
    refine List.forall_mem_cons.mpr ⟨hcs, ih (fun p hp => hN p (.tail _ hp)) ?_ hd₁ hothers⟩
    exact fun hF hon p hp => hs hF hon p (.tail _ hp)

/-- **The instructions of every method.** -/
theorem methodBodies_every (hC : ∀ u, Code.Common (C u))
    (hN : ∀ pair ∈ methods, ∀ d, base.Extends d → (d.names pair.1.scope).Accesses C)
    (hd : base.Extends d) (h : methodBodies config library methods d = .ok ms d') :
    ∀ m ∈ ms, (Command.body m.body).listing.Every (C m.uses) := fun m hm =>
  Command.every_codeAll (methodBodies_proper hC hN (F := False) False.elim hd h m hm) _ _

/-- **The commands of every method** are well-formed, if debug statements show few values. -/
theorem yields_methodBodies
    (hs : config.debug = true → ∀ m ∈ methods, Statement.ShowsFewAll m.2.body) :
    Yields (methodBodies config library methods) fun ms => ∀ m ∈ ms, Command.WellFormedAll {} m.body := by
  intro d ms d' h m hm
  exact Command.wellFormedAll_of (methodBodies_proper (fun _ => Code.common_true)
    (fun _ _ d _ => (d.names _).accesses_true) (F := True) (fun _ => hs) (.refl d) h m hm) trivial

end Compile

end Propeller
