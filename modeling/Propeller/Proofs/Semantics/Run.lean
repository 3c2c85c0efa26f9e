import Propeller.Proofs.Semantics.CommandCode

/-!
# Semantics — whole runs

The interpreter follows a source when both of them do the same: what happens in one of them happens in the
other one in the same order, for as long as they run; if one of them hands control back, the other one
does so after the same history; and the interpreter never gets stuck (`Follows`).

* `Machine.grows_execute`: what has happened stays in the history.
* `Follows.of_meets`: the interpreter follows a source that it meets for every bound on the loops.
-/

namespace Propeller

namespace Machine

variable {w : World} {program : Listing} {a b : Machine}

/-! ### Histories -/

/-- Whatever is reached has the history, and maybe more. -/
def Grows (h : History) (o : Option Machine) : Prop := ∀ b, o = some b → h <:+ b.history

section Grows

variable {h : History}

@[simp]
theorem grows_none (h : History) : Grows h none := fun _ hb => nomatch hb

@[simp]
theorem grows_some : Grows h (some b) ↔ h <:+ b.history := by simp [Grows]

@[simp]
theorem grows_jump {line : LineId} {stack : List Item} (ha : h <:+ a.history) :
    Grows h (a.jump program line stack) := by
  intro b hb
  obtain ⟨rest, -, rfl⟩ := Option.map_eq_some_iff.mp hb
  exact ha

@[simp]
theorem grows_ite {p : Prop} [Decidable p] {x y : Option Machine} (hx : Grows h x) (hy : Grows h y) :
    Grows h (if p then x else y) := by
  split
  · exact hx
  · exact hy

@[simp]
theorem grows_bind {α : Type} {o : Option α} {f : α → Option Machine} (hf : ∀ x, Grows h (f x)) :
    Grows h (o.bind f) := by
  intro b hb
  obtain ⟨x, -, hb⟩ := Option.bind_eq_some_iff.mp hb
  exact hf x b hb

@[simp]
theorem suffix_operate (c : Code) (operands : List Long) : h <:+ (w.operate c operands h).2 :=
  List.suffix_cons _ _

end Grows

/-- **What has happened stays in the history.** -/
theorem grows_execute (s : Machine) (rest : Listing) (c : Code) :
    Grows s.history (s.execute w program rest c) := by
  fun_cases execute w program s rest c
  -- a loop over a range notes its event before it decides where to go
  case case14 =>
    refine grows_bind fun x => grows_ite ?_ ?_
    · exact grows_some.mpr (List.suffix_cons _ _)
    · exact grows_jump (List.suffix_cons _ _)
  all_goals simp

theorem grows_step (s : Machine) : Grows s.history (s.step w program) := by
  rw [step]
  split
  · simp
  · exact grows_execute s _ _
  · simp
  · simp

theorem history_runFor {n : Nat} (h : a.runFor w program n = some b) : a.history <:+ b.history := by
  induction n generalizing a with
  | zero =>
    cases h
    exact List.suffix_refl _
  | succ n ih =>
    obtain ⟨c, hstep, h⟩ := Option.bind_eq_some_iff.mp h
    exact (grows_step a c hstep).trans (ih h)

/-- A run of more steps goes through the state after some of them. -/
theorem runFor_le {m n : Nat} (hle : m ≤ n) (h : a.runFor w program n = some b) :
    ∃ c, a.runFor w program m = some c ∧ c.runFor w program (n - m) = some b := by
  induction m generalizing a n with
  | zero => exact ⟨a, rfl, h⟩
  | succ m ih =>
    cases n with
    | zero => nomatch hle
    | succ n =>
      obtain ⟨c, hstep, h⟩ := Option.bind_eq_some_iff.mp h
      obtain ⟨e, hm, hrest⟩ := ih (Nat.le_of_succ_le_succ hle) h
      refine ⟨e, ?_, ?_⟩
      · rw [runFor, hstep]
        exact hm
      · rw [Nat.succ_sub_succ]
        exact hrest

/-- There is no step after control has been handed back. -/
theorem runFor_halted {n : Nat} (ha : a.rest = none) (h : a.runFor w program n = some b) :
    n = 0 ∧ a = b := by
  cases n with
  | zero => exact ⟨rfl, Option.some.inj h⟩
  | succ n =>
    rw [runFor, step, ha] at h
    cases h

end Machine

open Machine

variable {w : World} {program : Listing} {s : Machine} {source : Nat → Act Ending}

/-- The interpreter does, from a state on, what the source does, however many rounds its loops take. -/
structure Follows (w : World) (program : Listing) (s : Machine) (source : Nat → Act Ending) : Prop where
  /-- The same things happen, in the same order. -/
  happens : ∀ t, (∃ fuel, t <:+ (source fuel s.history).2) ↔
    ∃ n s', s.runFor w program n = some s' ∧ t <:+ s'.history
  /-- Control is handed back after the same history. -/
  returns : ∀ t, (∃ fuel, source fuel s.history = (.returned, t)) ↔
    ∃ s', Reaches w program s s' ∧ s'.rest = none ∧ s'.history = t
  /-- The interpreter goes on until control is handed back. -/
  goes_on : ∀ s', Reaches w program s s' → s'.rest = none ∨ (s'.step w program).isSome

/-- Something that does not get through leads to the end of the method, or goes on for as long as its
loops do. -/
theorem Meets.ends {fuel : Nat} (h : Meets w program fuel {} s (source fuel s.history))
    (hdone : (source fuel s.history).1 ≠ .done) :
    (∃ n s' t, source fuel s.history = (.returned, t) ∧ s.runFor w program n = some s' ∧
      s'.rest = none ∧ s'.history = t) ∨
    (∃ n s' t, source fuel s.history = (.cut, t) ∧ fuel ≤ n ∧ s.runFor w program n = some s' ∧
      s'.history = t) := by
  generalize source fuel s.history = o at h hdone ⊢
  obtain ⟨e, t⟩ := o
  cases e with
  | done => exact absurd rfl hdone
  | exit e =>
    obtain ⟨line, n, target, ⟨hfind, -⟩, -⟩ := h
    nomatch hfind
  | returned =>
    obtain ⟨s', ⟨n, hrun⟩, hrest, hhistory⟩ := h
    exact .inl ⟨n, s', t, rfl, hrun, hrest, hhistory⟩
  | cut =>
    obtain ⟨n, s', hle, hrun, hhistory⟩ := h
    exact .inr ⟨n, s', t, rfl, hle, hrun, hhistory⟩

/-- A state that is reached before the loops are cut off lies on the way of the source. -/
theorem Meets.covers {fuel n : Nat} {s' : Machine}
    (h : Meets w program fuel {} s (source fuel s.history))
    (hdone : (source fuel s.history).1 ≠ .done) (hn : n < fuel)
    (hrun : s.runFor w program n = some s') :
    ∃ k last, s'.runFor w program k = some last ∧ last.history = (source fuel s.history).2 ∧
      ((source fuel s.history).1 = .returned ∧ last.rest = none ∨ 0 < k) := by
  rcases h.ends hdone with ⟨m, last, _, hsource, hm, hrest, rfl⟩ | ⟨m, last, _, hsource, hle, hm, rfl⟩
  · rw [hsource]
    rcases Nat.le_total n m with hnm | hmn
    · obtain ⟨c, hc, hlast⟩ := runFor_le hnm hm
      cases Option.some.inj (hrun.symm.trans hc)
      exact ⟨m - n, last, hlast, rfl, .inl ⟨rfl, hrest⟩⟩
    · -- control has been handed back by then
      obtain ⟨c, hc, hafter⟩ := runFor_le hmn hrun
      cases Option.some.inj (hm.symm.trans hc)
      obtain ⟨-, rfl⟩ := runFor_halted hrest hafter
      exact ⟨0, last, rfl, rfl, .inl ⟨rfl, hrest⟩⟩
  · rw [hsource]
    have hlt : n < m := Nat.lt_of_lt_of_le hn hle
    obtain ⟨c, hc, hlast⟩ := runFor_le (Nat.le_of_lt hlt) hm
    cases Option.some.inj (hrun.symm.trans hc)
    exact ⟨m - n, last, hlast, rfl, .inr (Nat.sub_pos_of_lt hlt)⟩

/-- **The interpreter follows a source** that it meets for every bound on the loops. -/
theorem Follows.of_meets (h : ∀ fuel, Meets w program fuel {} s (source fuel s.history))
    (hdone : ∀ fuel, (source fuel s.history).1 ≠ .done) : Follows w program s source where
  happens t := by
    constructor
    · rintro ⟨fuel, ht⟩
      rcases (h fuel).ends (hdone fuel) with
        ⟨n, s', _, hsource, hrun, -, rfl⟩ | ⟨n, s', _, hsource, -, hrun, rfl⟩
      · rw [hsource] at ht
        exact ⟨n, s', hrun, ht⟩
      · rw [hsource] at ht
        exact ⟨n, s', hrun, ht⟩
    · rintro ⟨n, s', hrun, ht⟩
      obtain ⟨k, last, hlast, hhistory, -⟩ := (h (n + 1)).covers (hdone _) (Nat.lt_succ_self n) hrun
      exact ⟨n + 1, ht.trans (hhistory ▸ history_runFor hlast)⟩
  returns t := by
    constructor
    · rintro ⟨fuel, hsource⟩
      obtain ⟨s', hreach, hend⟩ : Meets w program fuel {} s (.returned, t) := hsource ▸ h fuel
      exact ⟨s', hreach, hend⟩
    · rintro ⟨s', ⟨n, hrun⟩, hrest, rfl⟩
      obtain ⟨k, last, hlast, hhistory, hend⟩ :=
        (h (n + 1)).covers (hdone _) (Nat.lt_succ_self n) hrun
      obtain ⟨rfl, rfl⟩ := runFor_halted hrest hlast
      rcases hend with ⟨hreturned, -⟩ | hk
      · exact ⟨n + 1, Prod.ext hreturned hhistory.symm⟩
      · nomatch hk
  goes_on s' hs' := by
    obtain ⟨n, hrun⟩ := hs'
    obtain ⟨k, last, hlast, -, hend⟩ := (h (n + 1)).covers (hdone _) (Nat.lt_succ_self n) hrun
    cases k with
    | zero =>
      cases hlast
      rcases hend with ⟨-, hrest⟩ | hk
      · exact .inl hrest
      · nomatch hk
    | succ k =>
      obtain ⟨c, hstep, -⟩ := Option.bind_eq_some_iff.mp hlast
      exact .inr (by rw [hstep]; rfl)

end Propeller
