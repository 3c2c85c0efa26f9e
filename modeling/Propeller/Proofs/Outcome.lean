import Propeller.Compile.Draft

/-!
# Outcomes

A computation of several steps that succeeds has succeeded in each of them.  These lemmas take such
a computation apart, for steps that only fail (`Except`), for steps that also have a state, and for
steps of a compilation, whose state is the draft (`Compile`).

What all outcomes of a computation have in common is `Yields`.  Two computations that take the same steps on
different data are related by `Mirrors`: both succeed, the second with the image of what the first gives, or
both fail, with whatever messages they have.
-/

namespace Propeller

variable {ε ε' α β : Type}
variable {x : Except ε α} {f : α → Except ε β} {b : β} {e : ε} {a : α} {g : α → β} {d d' : Draft}

/-- Two steps that succeed. -/
theorem bind_eq_ok (h : x >>= f = .ok b) : ∃ a, x = .ok a ∧ f a = .ok b := by
  cases x with
  | error e => cases h
  | ok a => exact ⟨a, rfl, h⟩

/-- Two steps of which one fails. -/
theorem bind_eq_error (h : x >>= f = .error e) : x = .error e ∨ ∃ a, x = .ok a ∧ f a = .error e := by
  cases x with
  | error e' =>
    cases h
    exact Or.inl rfl
  | ok a => exact Or.inr ⟨a, rfl, h⟩

theorem ok_bind (a : α) (f : α → Except ε β) : (Except.ok a : Except ε α) >>= f = f a := rfl

theorem bind_congr_ok {g : α → Except ε β} (h : ∀ a, x = .ok a → f a = g a) : x >>= f = x >>= g := by
  cases x with
  | error e => rfl
  | ok a => exact h a rfl

@[simp]
theorem mapError_ok (f : ε → ε') (a : α) : (Except.ok a : Except ε α).mapError f = .ok a := rfl

@[simp]
theorem mapError_error (f : ε → ε') (e : ε) :
    (Except.error e : Except ε α).mapError f = .error (f e) := rfl

/-- A step whose failures are renamed succeeds as it did, -/
theorem mapError_eq_ok {f : ε → ε'} (h : x.mapError f = .ok a) : x = .ok a := by
  cases x with
  | error e => cases h
  | ok b => cases h; rfl

/-- and fails as it did, under the new name. -/
theorem mapError_eq_error {f : ε → ε'} {e : ε'} (h : x.mapError f = .error e) :
    ∃ e', x = .error e' ∧ f e' = e := by
  cases x with
  | error e' => exact ⟨e', rfl, Except.error.inj h⟩
  | ok a => cases h

/-- A step for each element of a list gives one result for each. -/
theorem mapM_eq_ok {xs : List α} {ys : List β} (h : xs.mapM f = .ok ys) :
    ys.length = xs.length ∧ ∀ y ∈ ys, ∃ x ∈ xs, f x = .ok y := by
  induction xs generalizing ys with
  | nil =>
    cases h
    exact ⟨rfl, fun y hy => absurd hy List.not_mem_nil⟩
  | cons x xs ih =>
    rw [List.mapM_cons] at h
    obtain ⟨y, hx, h⟩ := bind_eq_ok h
    obtain ⟨rest, hxs, h⟩ := bind_eq_ok h
    cases h
    obtain ⟨hlen, hrest⟩ := ih hxs
    refine ⟨congrArg (· + 1) hlen, fun z hz => ?_⟩
    rcases List.mem_cons.mp hz with rfl | hz
    · exact ⟨x, List.mem_cons_self .., hx⟩
    · obtain ⟨w, hw, he⟩ := hrest z hz
      exact ⟨w, List.mem_cons_of_mem _ hw, he⟩

/-! ### Failures forgotten -/

@[simp]
theorem toOption_ok (a : α) : (Except.ok a : Except ε α).toOption = some a := rfl

@[simp]
theorem toOption_error (e : ε) : (Except.error e : Except ε α).toOption = none := rfl

@[simp]
theorem toOption_pure (a : α) : (pure a : Except ε α).toOption = some a := rfl

@[simp]
theorem toOption_mapError (f : ε → ε') (x : Except ε α) : (x.mapError f).toOption = x.toOption := by
  cases x <;> rfl

@[simp]
theorem toOption_bind (x : Except ε α) (f : α → Except ε β) :
    (x >>= f).toOption = x.toOption.bind fun a => (f a).toOption := by
  cases x <;> rfl

@[simp]
theorem toOption_map (f : α → β) (x : Except ε α) : (f <$> x).toOption = x.toOption.map f := by
  cases x <;> rfl

@[simp]
theorem toOption_except_map (f : α → β) (x : Except ε α) : (x.map f).toOption = x.toOption.map f := by
  cases x <;> rfl

/-- A step for each element of a list. -/
theorem toOption_mapM_map {γ δ : Type} {f : α → Except ε γ} {f' : β → Except ε' δ} {h : γ → δ}
    (hf : ∀ a, (f' (g a)).toOption = (f a).toOption.map h) (xs : List α) :
    ((xs.map g).mapM f').toOption = (xs.mapM f).toOption.map (List.map h) := by
  induction xs with
  | nil => rfl
  | cons x xs ih =>
    simp only [List.map_cons, List.mapM_cons, toOption_bind, toOption_pure, hf, ih]
    cases (f x).toOption with
    | none => rfl
    | some c => cases (xs.mapM f).toOption <;> rfl

/-- A step for what may be missing. -/
theorem toOption_option_mapM_map {γ δ : Type} {f : α → Except ε γ} {f' : β → Except ε' δ} {h : γ → δ}
    (hf : ∀ a, (f' (g a)).toOption = (f a).toOption.map h) (x : Option α) :
    ((x.map g).mapM f').toOption = (x.mapM f).toOption.map (Option.map h) := by
  cases x with
  | none => rfl
  | some a =>
    simp only [Option.map_some, Option.mapM_some, toOption_map, hf]
    cases (f a).toOption <;> rfl

theorem toOption_eq_of_mapError {y : Except ε α} {f : ε → ε'} (h : x.mapError f = y.mapError f) :
    x.toOption = y.toOption := by
  rw [← toOption_mapError f x, h, toOption_mapError]

/-- Outcomes that differ only in their failures: both give the same, or both fail. -/
theorem ok_or_error_of_toOption {y : Except ε' α} (h : x.toOption = y.toOption) :
    (∃ a, x = .ok a ∧ y = .ok a) ∨ ∃ e e', x = .error e ∧ y = .error e' := by
  cases x with
  | ok a =>
    cases y with
    | ok b => exact .inl ⟨a, rfl, congrArg Except.ok (Option.some.inj h).symm⟩
    | error e => cases h
  | error e =>
    cases y with
    | ok b => cases h
    | error e' => exact .inr ⟨e, e', rfl, rfl⟩

theorem mapError_bind (x : Except ε α) (f : α → Except ε β) (g : ε → ε') :
    (x >>= f).mapError g = x.mapError g >>= fun a => (f a).mapError g := by
  cases x <;> rfl

/-! ### Steps with a state -/

/-- Two steps with a state that succeed. -/
theorem run_bind_eq_ok {σ : Type} {x : EStateM ε σ α} {f : α → EStateM ε σ β} {s s'' : σ}
    (h : (x >>= f) s = .ok b s'') : ∃ a s', x s = .ok a s' ∧ f a s' = .ok b s'' := by
  -- the first step matters only for what it gives for this state
  have hconst : (x >>= f) s = ((fun _ => x s : EStateM ε σ α) >>= f) s := rfl
  rw [hconst] at h
  cases hx : x s with
  | ok a s' =>
    rw [hx] at h
    exact ⟨a, s', rfl, h⟩
  | error e s' =>
    rw [hx] at h
    cases h

/-- A run that passes a test comes to an end. -/
theorem exists_of_ok {σ : Type} {r : EStateM.Result ε σ α} {g : α → σ → Bool}
    (h : (match r with
      | .ok a s    => g a s
      | .error _ _ => false) = true) : ∃ a s, r = .ok a s ∧ g a s = true := by
  cases r with
  | ok a s => exact ⟨a, s, rfl, h⟩
  | error e s => cases h

theorem run_bind_ok {σ : Type} {x : EStateM ε σ α} {f : α → EStateM ε σ β} {s s' : σ}
    (h : x s = .ok a s') : (x >>= f) s = f a s' := by
  have hconst : (x >>= f) s = ((fun _ => x s : EStateM ε σ α) >>= f) s := rfl
  rw [hconst, h]
  rfl

theorem run_bind_error {σ : Type} {x : EStateM ε σ α} {f : α → EStateM ε σ β} {s s' : σ}
    (h : x s = .error e s') : (x >>= f) s = .error e s' := by
  have hconst : (x >>= f) s = ((fun _ => x s : EStateM ε σ α) >>= f) s := rfl
  rw [hconst, h]
  rfl

namespace Compile

/-- Two steps of a compilation that succeed. -/
theorem bind_eq_ok {x : Compile α} {f : α → Compile β} {d'' : Draft} (h : (x >>= f) d = .ok b d'') :
    ∃ a d', x d = .ok a d' ∧ f a d' = .ok b d'' :=
  run_bind_eq_ok h

/-- A step that looks at the draft goes on with the draft that it has seen. -/
theorem get_bind (f : Draft → Compile α) (d : Draft) : (get >>= f) d = f d d := rfl

theorem attempt_of_ok {x : Compile α} (h : x d = .ok a d') : attempt x d = .ok (some a) d' := by
  have hconst : attempt x d = attempt (fun _ => x d) d := rfl
  rw [hconst, h]
  rfl

theorem attempt_of_error {x : Compile α} {e : Located CompileError} (h : x d = .error e d') :
    attempt x d = .ok none { d' with report := d'.report.fatal (e.map CompileError.message) } := by
  have hconst : attempt x d = attempt (fun _ => x d) d := rfl
  rw [hconst, h]
  rfl

/-- A step that was tried and has a result has succeeded. -/
theorem attempt_eq_some {x : Compile α} (h : attempt x d = .ok (some a) d') : x d = .ok a d' := by
  cases hx : x d with
  | ok b d₁ =>
    rw [attempt_of_ok hx] at h
    cases h
    rfl
  | error e d₁ =>
    rw [attempt_of_error hx] at h
    cases h

/-- The failure of a step that was tried is reported. -/
theorem attempt_eq_none {x : Compile α} (h : attempt x d = .ok none d') :
    d'.report.hasErrors = true := by
  cases hx : x d with
  | ok b d₁ =>
    rw [attempt_of_ok hx] at h
    cases h
  | error e d₁ =>
    rw [attempt_of_error hx] at h
    cases h
    exact (Report.hasErrors_push ..).trans (Bool.or_true _)

end Compile

/-! ### What a computation gives -/

section Yields

variable {σ : Type} {Q : α → Prop} {R : β → Prop}

/-- Whatever a computation with a state gives has a property. -/
def Yields (x : EStateM ε σ α) (Q : α → Prop) : Prop := ∀ s a s', x s = .ok a s' → Q a

theorem yields_any (x : EStateM ε σ α) : Yields x fun _ => True := fun _ _ _ _ => trivial

theorem Yields.weaken {Q' : α → Prop} {x : EStateM ε σ α} (h : Yields x Q) (hQ : ∀ a, Q a → Q' a) :
    Yields x Q' :=
  fun s a s' hx => hQ a (h s a s' hx)

theorem yields_pure (h : Q a) : Yields (pure a : EStateM ε σ α) Q := by
  intro s b s' hx
  cases hx
  exact h

theorem yields_throw (e : ε) : Yields (throw e : EStateM ε σ α) Q := by
  intro s a s' hx
  cases hx

theorem yields_bind {x : EStateM ε σ α} {f : α → EStateM ε σ β} (hx : Yields x Q)
    (hf : ∀ a, Q a → Yields (f a) R) : Yields (x >>= f) R := by
  intro s b s'' hrun
  obtain ⟨a, s', ha, hb⟩ := run_bind_eq_ok hrun
  exact hf a (hx s a s' ha) s' b s'' hb

theorem yields_liftExcept (h : ∀ a, x = .ok a → Q a) : Yields (liftExcept x : EStateM ε σ α) Q := by
  intro s a s' hx
  cases x with
  | error e => cases hx
  | ok b =>
    cases hx
    exact h a rfl

theorem yields_tracked {x : Tracked α} (h : Yields x Q) : Yields (Compile.tracked x) Q := by
  intro d a d' hx
  unfold Compile.tracked at hx
  cases hrun : x d.uses with
  | ok b u =>
    rw [hrun] at hx
    cases hx
    exact h _ _ _ hrun
  | error e u =>
    rw [hrun] at hx
    cases hx

end Yields

/-! ### Runs that mirror each other -/

section Mirrors

variable {σ γ δ : Type}

/-- Two runs end in the same way: in related states, and, if they succeed, with related results. -/
inductive Mirrored (S : σ → σ → Prop) (g : α → β) :
    EStateM.Result ε σ α → EStateM.Result ε σ β → Prop
  | ok {a : α} {s s' : σ} (h : S s s') : Mirrored S g (.ok a s) (.ok (g a) s')
  | error {e e' : ε} {s s' : σ} (h : S s s') : Mirrored S g (.error e s) (.error e' s')

/-- Two computations end in the same way from related states on. -/
def Mirrors (S : σ → σ → Prop) (g : α → β) (x : EStateM ε σ α) (y : EStateM ε σ β) : Prop :=
  ∀ s s', S s s' → Mirrored S g (x s) (y s')

variable {S : σ → σ → Prop} {g : α → β} {h : γ → δ}

theorem mirrors_pure (hb : b = g a) : Mirrors S g (pure a : EStateM ε σ α) (pure b) := by
  intro s s' hs
  rw [hb]
  exact .ok hs

theorem mirrors_throw (e e' : ε) : Mirrors S g (throw e : EStateM ε σ α) (throw e') :=
  fun _ _ hs => .error hs

theorem mirrors_bind {x : EStateM ε σ α} {y : EStateM ε σ β} {f : α → EStateM ε σ γ}
    {f' : β → EStateM ε σ δ} (hx : Mirrors S g x y) (hf : ∀ a, Mirrors S h (f a) (f' (g a))) :
    Mirrors S h (x >>= f) (y >>= f') := by
  intro s s' hs
  have hrun := hx s s' hs
  generalize hxs : x s = r at hrun
  generalize hys : y s' = r' at hrun
  cases hrun with
  | ok hs =>
    rw [run_bind_ok hxs, run_bind_ok hys]
    exact hf _ _ _ hs
  | error hs =>
    rw [run_bind_error hxs, run_bind_error hys]
    exact .error hs

/-- Two computations that look at their states go on with the states that they have seen. -/
theorem mirrors_get_bind {f : σ → EStateM ε σ α} {f' : σ → EStateM ε σ β}
    (hf : ∀ s s', S s s' → Mirrors S g (f s) (f' s')) : Mirrors S g (get >>= f) (get >>= f') :=
  fun s s' hs => hf s s' hs s s' hs

theorem mirrors_set {s s' : σ} (hs : S s s') :
    Mirrors S id (set s : EStateM ε σ PUnit) (set s') :=
  fun _ _ _ => .ok hs

theorem mirrors_modify {f f' : σ → σ} (hf : ∀ s s', S s s' → S (f s) (f' s')) :
    Mirrors S id (modify f : EStateM ε σ PUnit) (modify f') :=
  fun s s' hs => .ok (hf s s' hs)

theorem mirrors_modifyGet {f : σ → α × σ} {f' : σ → β × σ}
    (hf : ∀ s s', S s s' → (f' s').1 = g (f s).1 ∧ S (f s).2 (f' s').2) :
    Mirrors S g (modifyGet f : EStateM ε σ α) (modifyGet f') := by
  intro s s' hs
  obtain ⟨hvalue, hstate⟩ := hf s s' hs
  have hrun : (modifyGet f' : EStateM ε σ β) s' = .ok (g (f s).1) (f' s').2 := by
    rw [← hvalue]
    rfl
  rw [hrun]
  exact .ok hstate

theorem mirrors_liftExcept {y : Except ε β} (hy : y.toOption = x.toOption.map g) :
    Mirrors S g (liftExcept x : EStateM ε σ α) (liftExcept y) := by
  cases x with
  | ok a =>
    obtain ⟨b, rfl, hb⟩ | ⟨e, e', rfl, he⟩ :=
      ok_or_error_of_toOption (y := (.ok (g a) : Except ε β)) hy
    · cases hb
      exact mirrors_pure rfl
    · cases he
  | error e =>
    obtain ⟨b, rfl, hb⟩ | ⟨e', e'', rfl, he⟩ :=
      ok_or_error_of_toOption (y := (.error e : Except ε β)) hy
    · cases hb
    · exact mirrors_throw e e'

end Mirrors

end Propeller
