import Propeller.Compile.Declarations
import Propeller.Proofs.Outcome

/-!
# Compile — what holds before and after a step

A step of a compilation that fails leaves what it has done in the draft, and `attempt` goes on from
there.  What is said about the draft behind a step has to be said for both endings: `Leads P x Q E`
takes a draft with `P` to one with `Q` when the step succeeds, and to one with `E` when it fails.
There is one rule for each way to put steps together.
-/

namespace Propeller.Compile

variable {α β : Type} {P P' : Draft → Prop} {Q : α → Draft → Prop} {R : β → Draft → Prop}
  {E E' : Draft → Prop}
variable {x : Compile α} {a : α} {f : α → Compile β}

/-- From a draft with `P` on, a step that succeeds leaves `Q`, and one that fails leaves `E`. -/
def Leads (P : Draft → Prop) (x : Compile α) (Q : α → Draft → Prop) (E : Draft → Prop) : Prop :=
  ∀ d, P d → match x d with
    | .ok a d'    => Q a d'
    | .error _ d' => E d'

/-- A step leaves a property of the draft as it is, however it ends. -/
def Keeps (P : Draft → Prop) (x : Compile α) : Prop := Leads P x (fun _ => P) P

namespace Leads

/-- What a step that has succeeded has left. -/
theorem of_ok (h : Leads P x Q E) {d d' : Draft} (hd : P d) (hx : x d = .ok a d') : Q a d' := by
  have := h d hd
  rwa [hx] at this

theorem weaken {Q' : α → Draft → Prop} (h : Leads P x Q E) (hP : ∀ d, P' d → P d)
    (hQ : ∀ a d, Q a d → Q' a d) (hE : ∀ d, E d → E' d) : Leads P' x Q' E' := by
  intro d hd
  have := h d (hP d hd)
  cases hx : x d with
  | ok a d' =>
    rw [hx] at this
    exact hQ a d' this
  | error e d' =>
    rw [hx] at this
    exact hE d' this

end Leads

/-- What holds of no draft in particular can be assumed. -/
theorem leads_of_and {p : Prop} (h : p → Leads P x Q E) : Leads (fun d => P d ∧ p) x Q E :=
  fun d hd => h hd.2 d hd.1

/-- A step may be looked at for one draft at a time. -/
theorem leads_point (h : ∀ d, P d → Leads (fun d' => d' = d) x Q E) : Leads P x Q E :=
  fun d hd => h d hd d rfl

theorem leads_pure (h : ∀ d, P d → Q a d) : Leads P (pure a) Q E := h

theorem leads_throw {e : Located CompileError} (h : ∀ d, P d → E d) :
    Leads P (throw e : Compile α) Q E := h

theorem leads_bind (hx : Leads P x Q E) (hf : ∀ a, Leads (Q a) (f a) R E) : Leads P (x >>= f) R E := by
  intro d hd
  have hconst : (x >>= f) d = ((fun _ => x d : Compile α) >>= f) d := rfl
  rw [hconst]
  have := hx d hd
  cases hrun : x d with
  | ok a d' =>
    rw [hrun] at this
    exact hf a d' this
  | error e d' =>
    rw [hrun] at this
    exact this

/-- A step that looks at the draft goes on with the draft that it has seen. -/
theorem leads_seen {f : Draft → Compile α} (h : ∀ d, P d → Leads (fun x => x = d) (f d) Q E) :
    Leads P (get >>= f) Q E :=
  fun d hd => h d hd d rfl

theorem leads_modify {f : Draft → Draft} {Q : Unit → Draft → Prop} (h : ∀ d, P d → Q () (f d)) :
    Leads P (modify f : Compile Unit) Q E := h

theorem leads_modifyGet {f : Draft → α × Draft} (h : ∀ d, P d → Q (f d).1 (f d).2) :
    Leads P (modifyGet f : Compile α) Q E := h

theorem leads_liftExcept {x : Except (Located CompileError) α} (hok : ∀ a d, x = .ok a → P d → Q a d)
    (herror : ∀ d, P d → E d) : Leads P (liftExcept x : Compile α) Q E := by
  intro d hd
  cases x with
  | ok a => exact hok a d rfl hd
  | error e => exact herror d hd

/-- A step that is tried ends well: what it leaves when it fails is left with one more error. -/
theorem leads_attempt {Q : Option α → Draft → Prop} {F : Draft → Prop}
    (hx : Leads P x (fun a => Q (some a)) F)
    (hfail : ∀ d r, F d → Q none { d with report := d.report.fatal r }) : Leads P (attempt x) Q E := by
  intro d hd
  have hconst : attempt x d = attempt (fun _ => x d) d := rfl
  rw [hconst]
  have := hx d hd
  cases hrun : x d with
  | ok a d' =>
    rw [hrun] at this
    exact this
  | error e d' =>
    rw [hrun] at this
    exact hfail d' _ this

/-- A report with what is to be said about a name. -/
def noting (name : Located Identifier) (r : Report) : Option ScopeWarning → Report
  | none   => r
  | some w => r.warn (some name.location) w.message

theorem prefix_noting (name : Located Identifier) (r : Report) (w : Option ScopeWarning) :
    r.entries <+: (noting name r w).entries := by
  cases w with
  | none => exact List.prefix_refl _
  | some w => exact List.prefix_append ..

theorem hasErrors_noting (name : Located Identifier) (r : Report) (w : Option ScopeWarning) :
    (noting name r w).hasErrors = r.hasErrors := by
  cases w with
  | none => rfl
  | some w => exact (Report.hasErrors_push ..).trans (Bool.or_false _)

/-- Binding a name succeeds, and nothing but the binding and a warning is added. -/
theorem define_eq_ok (scope : ScopeId) (name : Located Identifier) (value : Expression) (d : Draft) :
    define scope name value d = .ok () { d with
      scopes := d.scopes.addSymbol scope name.value value
      report := noting name d.report (d.scopes.warningFor scope name.value) } := by
  unfold define
  rw [get_bind]
  cases d.scopes.warningFor scope name.value <;> rfl

/-! ### Steps that keep a property -/

theorem keeps_pure (a : α) : Keeps P (pure a : Compile α) := leads_pure fun _ h => h

theorem keeps_bind (hx : Keeps P x) (hf : ∀ a, Keeps P (f a)) : Keeps P (x >>= f) :=
  leads_bind hx hf

theorem keeps_get : Keeps P (get : Compile Draft) := fun _ h => h

theorem keeps_liftExcept (x : Except (Located CompileError) α) :
    Keeps P (liftExcept x : Compile α) :=
  leads_liftExcept (fun _ _ _ h => h) fun _ h => h

/-- A property of drafts that holds on, whatever else is reported. -/
class Enduring (P : Draft → Prop) : Prop where
  report : ∀ (d : Draft) (report : Report), d.report.entries <+: report.entries → P d →
    P { d with report }

theorem keeps_attempt [Enduring P] (hx : Keeps P x) : Keeps P (attempt x) :=
  leads_attempt hx fun d _ h => Enduring.report d _ (List.prefix_append ..) h

theorem keeps_attemptAll [Enduring P] {f : α → Compile Unit} {xs : List α}
    (hf : ∀ x ∈ xs, Keeps P (f x)) : Keeps P (attemptAll f xs) := by
  induction xs with
  | nil => exact keeps_pure ()
  | cons x xs ih =>
    rw [List.forall_mem_cons] at hf
    exact keeps_bind (keeps_attempt hf.1) fun _ => ih hf.2

theorem keeps_warn [Enduring P] (l : Option Location) (message : String) : Keeps P (warn l message) :=
  leads_modify fun d h => Enduring.report d _ (List.prefix_append ..) h

theorem keeps_warnAll [Enduring P] (warnings : List ScopeWarning) : Keeps P (warnAll warnings) := by
  induction warnings with
  | nil => exact keeps_pure ()
  | cons w ws ih => exact keeps_bind (keeps_warn _ _) fun _ => ih

theorem keeps_define [Enduring P] {scope : ScopeId} {name : Located Identifier} {value : Expression}
    (h : ∀ d, P d → P { d with scopes := d.scopes.addSymbol scope name.value value }) :
    Keeps P (define scope name value) := by
  intro d hd
  rw [define_eq_ok]
  exact Enduring.report (P := P) { d with scopes := d.scopes.addSymbol scope name.value value } _
    (prefix_noting name d.report _) (h d hd)

end Propeller.Compile
