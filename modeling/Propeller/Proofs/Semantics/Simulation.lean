import Propeller.Proofs.Compile.StackDepth
import Propeller.Proofs.Semantics.Evaluation

/-!
# Semantics — simulation by the interpreter

Where the code of a command stands in a program, the interpreter does what the command does: if the
command gets through, control comes to what follows the code, with the same stack; if it goes to another
place of a construct around it, control comes to the line of that place, with what is held in between
dropped; and if a loop is cut off, the interpreter has taken at least as many steps as the loop had rounds
(`Meets`).

* `Meets.rounds`: a loop is simulated if each of its rounds is.
* `Meets.afterChoice`: a switch is simulated if the choice is.
-/

namespace Propeller

open Machine

variable {w : World} {program : Listing}
variable {rest first second : Listing} {h : History} {test : Act Bool} {top : LineId}

/-- Where a command stands in a program that runs: the constructs around it, what is on the stack, and what
comes behind it. -/
structure Site where
  outer : List Enclosure := []
  stack : List Item := []
  rest : Listing := []

namespace Site

/-- Inside of a loop, which holds something on the stack. -/
def inLoop (site : Site) (next stop : LineId) (held : List Item) (rest : Listing) : Site where
  outer := Command.loop next stop held.length :: site.outer
  stack := held ++ site.stack
  rest := rest

/-- Inside of a switch, which holds its value and the address of its end. -/
def inSwitch (site : Site) (breakable : Bool) (stop : LineId) (v : Long) (rest : Listing) : Site where
  outer := Command.selection breakable stop :: site.outer
  stack := .long v :: .exit stop :: site.stack
  rest := rest

/-- The state between commands. -/
def state (site : Site) (rest : Listing) (h : History) : Machine := ⟨some rest, site.stack, [], h⟩

end Site

/-- Whether there is an exit. -/
def Exits.has (exits : Exits) : Exit → Bool
  | .leave => exits.leave
  | .next  => exits.next

/-- Where an exit leads from a site. -/
def LeadsOut (program : Listing) (site : Site) (e : Exit) (line : LineId) (n : Nat) (target : Listing) :
    Prop :=
  findExit e site.outer = some (line, n) ∧ program.after line = some target ∧ n ≤ site.stack.length

/-- Each of the exits leads somewhere. -/
def Offers (program : Listing) (exits : Exits) (site : Site) : Prop :=
  ∀ e, exits.has e = true → ∃ line n target, LeadsOut program site e line n target

/-- The interpreter does from a state on what ends in this way, with at least `fuel` steps before it is cut
off. -/
def Meets (w : World) (program : Listing) (fuel : Nat) (site : Site) (s : Machine) :
    Ending × History → Prop
  | (.done, h)     => Reaches w program s (site.state site.rest h)
  | (.exit e, h)   => ∃ line n target, LeadsOut program site e line n target ∧
    Passes w program s ⟨some target, site.stack.drop n, [], h⟩
  | (.returned, h) => ∃ s', Reaches w program s s' ∧ s'.rest = none ∧ s'.history = h
  | (.cut, h)      => ∃ n s', fuel ≤ n ∧ s.runFor w program n = some s' ∧ s'.history = h

namespace Meets

variable {fuel : Nat} {site : Site} {s s' : Machine} {o : Ending × History}

theorem mono {fuel' : Nat} (hle : fuel ≤ fuel') (h : Meets w program fuel' site s o) :
    Meets w program fuel site s o := by
  obtain ⟨e, h'⟩ := o
  cases e with
  | done | exit | returned => exact h
  | cut =>
    obtain ⟨n, s', hn, hrun⟩ := h
    exact ⟨n, s', Nat.le_trans hle hn, hrun⟩

/-- Some steps more. -/
theorem of_runFor {k : Nat} (hk : s.runFor w program k = some s') (h : Meets w program fuel site s' o) :
    Meets w program (fuel + k) site s o := by
  have hr : Reaches w program s s' := ⟨k, hk⟩
  obtain ⟨e, h'⟩ := o
  cases e with
  | done => exact hr.trans h
  | exit e =>
    obtain ⟨line, n, target, hout, hpass⟩ := h
    exact ⟨line, n, target, hout, hr.passes hpass⟩
  | returned =>
    obtain ⟨last, hlast, hend⟩ := h
    exact ⟨last, hr.trans hlast, hend⟩
  | cut =>
    obtain ⟨n, last, hn, hrun, hlast⟩ := h
    exact ⟨k + n, last, by omega, (runFor_add hk).trans hrun, hlast⟩

theorem of_reaches (hr : Reaches w program s s') (h : Meets w program fuel site s' o) :
    Meets w program fuel site s o := by
  obtain ⟨k, hk⟩ := hr
  exact (of_runFor hk h).mono (Nat.le_add_right ..)

theorem of_passes (hp : Passes w program s s') (h : Meets w program fuel site s' o) :
    Meets w program (fuel + 1) site s o := by
  obtain ⟨k, hk⟩ := hp
  exact (of_runFor hk h).mono (by omega)

/-- One thing after the other. -/
theorem before {first second : Act Ending} (h₁ : Meets w program fuel { site with rest } s (first h))
    (h₂ : ∀ h, Meets w program fuel site (site.state rest h) (second h)) :
    Meets w program fuel site s (first.before second h) := by
  simp only [Act.before, Act.bind_apply]
  generalize first h = o at h₁ ⊢
  obtain ⟨e, h'⟩ := o
  cases e with
  | done => exact of_reaches h₁ (h₂ h')
  | _ => exact h₁

/-- What comes behind leads on. -/
theorem through (h : Meets w program fuel { site with rest } s o)
    (hr : ∀ h, Reaches w program (site.state rest h) (site.state site.rest h)) :
    Meets w program fuel site s o := by
  obtain ⟨e, h'⟩ := o
  cases e with
  | done => exact Reaches.trans h (hr h')
  | _ => exact h

end Meets

/-! ### Loops -/

section Loops

variable {σ : Type}

/-- A round of a loop leads to the place of the next one, in a way that is asked for, or ends the loop. -/
def Turns (way : Machine → Machine → Prop) (w : World) (program : Listing) (fuel : Nat) (site : Site)
    (head : σ → History → Machine) (s : Machine) : (σ ⊕ Ending) × History → Prop
  | (.inl x, h) => way s (head x h)
  | (.inr e, h) => Meets w program fuel site s (e, h)

variable {fuel : Nat} {site : Site} {head : σ → History → Machine} {s s' : Machine}
  {r : (σ ⊕ Ending) × History}

theorem Turns.of_reaches (hr : Reaches w program s s')
    (h : Turns (Passes w program) w program fuel site head s' r) :
    Turns (Passes w program) w program fuel site head s r := by
  obtain ⟨x | e, h'⟩ := r
  · exact hr.passes h
  · exact Meets.of_reaches hr h

theorem Turns.of_passes (hp : Passes w program s s')
    (h : Turns (Reaches w program) w program fuel site head s' r) :
    Turns (Passes w program) w program fuel site head s r := by
  obtain ⟨x | e, h'⟩ := r
  · exact hp.trans h
  · exact Meets.of_reaches hp.reaches h

/-- **A loop is simulated** if each of its rounds is, and takes at least one step. -/
theorem Meets.rounds (head : σ → History → Machine) {round : σ → Act (σ ⊕ Ending)}
    (hhead : ∀ x h, (head x h).history = h)
    (hround : ∀ x h, Turns (Passes w program) w program fuel site head (head x h) (round x h))
    (x : σ) (h : History) :
    Meets w program fuel site (head x h) (Act.rounds round fuel x h) := by
  suffices hle : ∀ n ≤ fuel, ∀ x h,
      Meets w program n site (head x h) (Act.rounds round n x h) from hle fuel (Nat.le_refl _) x h
  intro n
  induction n with
  | zero => exact fun _ x h => ⟨0, head x h, Nat.le_refl _, rfl, hhead x h⟩
  | succ n ih =>
    intro hn x h
    have hturn := hround x h
    simp only [Act.rounds, Act.bind_apply]
    generalize round x h = r at hturn ⊢
    obtain ⟨y | e, h'⟩ := r
    · exact Meets.of_passes hturn (ih (Nat.le_of_succ_le hn) y h')
    · exact Meets.mono hn hturn

variable {next stop : LineId} {held : List Item} {behind target : Listing} {body : Act Ending}

/-- In a loop there are exits to its end and to its next round. -/
theorem offers_inLoop {found : Listing} (hnext : program.after next = some target)
    (hstop : program.after stop = some found) (behind : Listing) :
    Offers program .inLoop (site.inLoop next stop held behind) := by
  intro e _
  cases e with
  | leave => exact ⟨stop, held.length, found, rfl, hstop, by simp [Site.inLoop]⟩
  | next => exact ⟨next, 0, target, rfl, hnext, Nat.zero_le _⟩

/-- Leaving a loop leads to its end. -/
theorem Meets.of_leave (hstop : program.after stop = some site.rest)
    (hexit : Meets w program fuel (site.inLoop next stop held behind) s (.exit .leave, h)) :
    Reaches w program s (site.state site.rest h) := by
  obtain ⟨line, n, found, ⟨hfind, hline, -⟩, hpass⟩ := hexit
  cases Option.some.inj (Command.findExit_loop_leave.symm.trans hfind)
  cases Option.some.inj (hstop.symm.trans hline)
  rw [Site.inLoop, List.drop_left] at hpass
  exact hpass.reaches

theorem Meets.of_next (hnext : program.after next = some target)
    (hexit : Meets w program fuel (site.inLoop next stop held behind) s (.exit .next, h)) :
    Passes w program s ⟨some target, held ++ site.stack, [], h⟩ := by
  obtain ⟨line, n, found, ⟨hfind, hline, -⟩, hpass⟩ := hexit
  cases Option.some.inj (Command.findExit_loop_next.symm.trans hfind)
  cases Option.some.inj (hnext.symm.trans hline)
  exact hpass

/-- After the body of a loop control is where the round goes on, or the loop has been left. -/
theorem Meets.afterBody {e : Ending}
    (hbody : Meets w program fuel (site.inLoop next stop held behind) s (e, h))
    (hnext : program.after next = some target) (hstop : program.after stop = some site.rest)
    (hbehind : ∀ h, Passes w program ⟨some behind, held ++ site.stack, [], h⟩
      ⟨some target, held ++ site.stack, [], h⟩) :
    match e.afterBody with
    | none   => Passes w program s ⟨some target, held ++ site.stack, [], h⟩
    | some e => Meets w program fuel site s (e, h) := by
  cases e with
  | done => exact Reaches.passes hbody (hbehind h)
  | exit e =>
    cases e with
    | leave => exact Meets.of_leave hstop hbody
    | next => exact Meets.of_next hnext hbody
  | returned | cut => exact hbody

theorem Turns.inRound {rest : Act (σ ⊕ Ending)}
    (hbody : Meets w program fuel (site.inLoop next stop held behind) s (body h))
    (hnext : program.after next = some target) (hstop : program.after stop = some site.rest)
    (hbehind : ∀ h, Passes w program ⟨some behind, held ++ site.stack, [], h⟩
      ⟨some target, held ++ site.stack, [], h⟩)
    (hrest : ∀ h, Turns (Reaches w program) w program fuel site head
      ⟨some target, held ++ site.stack, [], h⟩ (rest h)) :
    Turns (Passes w program) w program fuel site head s (Act.inRound body rest h) := by
  have hafter := Meets.afterBody hbody hnext hstop hbehind
  simp only [Act.inRound, Act.bind_apply]
  generalize (body h).1.afterBody = e at hafter ⊢
  cases e with
  | none => exact Turns.of_passes hafter (hrest _)
  | some e => exact hafter

/-- A loop with the condition in front. -/
theorem Meets.preLoop (htop : program.after next = some first)
    (hstop : program.after stop = some site.rest) (htest : ∀ h, Passes w program (site.state first h)
      (site.state (if (test h).1 then second else site.rest) (test h).2))
    (hbody : ∀ h, Meets w program fuel (site.inLoop next stop [] behind) (site.state second h) (body h))
    (hbehind : ∀ h, Passes w program (site.state behind h) (site.state first h)) (h : History) :
    Meets w program fuel site (site.state first h) (Act.preLoop fuel test body h) := by
  refine Meets.rounds (fun _ h => site.state first h) (fun _ _ => rfl) (fun _ h => ?_) () h
  have hpass := htest h
  simp only [Act.bind_apply]
  by_cases hc : (test h).1 = true
  · rw [if_pos hc] at hpass ⊢
    refine Turns.of_reaches hpass.reaches ?_
    exact Turns.inRound (hbody _) htop hstop hbehind fun _ => .refl _
  · rw [if_neg hc] at hpass ⊢
    exact hpass.reaches

section NextBehind

variable (hnext : program.after next = some second) (hstop : program.after stop = some site.rest)
  (hbody : ∀ h, Meets w program fuel (site.inLoop next stop [] behind) (site.state first h) (body h))
  (hbehind : ∀ h, Passes w program (site.state behind h) (site.state second h))

include hnext hstop hbody hbehind

/-- A loop with the condition behind. -/
theorem Meets.postLoop (htest : ∀ h, Reaches w program (site.state second h)
      (site.state (if (test h).1 then first else site.rest) (test h).2)) (h : History) :
    Meets w program fuel site (site.state first h) (Act.postLoop fuel body test h) := by
  refine Meets.rounds (fun _ h => site.state first h) (fun _ _ => rfl) (fun _ h => ?_) () h
  refine Turns.inRound (hbody h) hnext hstop hbehind fun h => ?_
  have hreach := htest h
  simp only [Act.bind_apply, Act.pure_apply]
  by_cases hc : (test h).1 = true
  · rw [if_pos hc] at hreach ⊢
    exact hreach
  · rw [if_neg hc] at hreach ⊢
    exact hreach

theorem Meets.forever (hagain : ∀ h, Reaches w program (site.state second h) (site.state first h))
    (h : History) :
    Meets w program fuel site (site.state first h) (Act.forever fuel body h) := by
  refine Meets.rounds (fun _ h => site.state first h) (fun _ _ => rfl) (fun _ h => ?_) () h
  exact Turns.inRound (hbody h) hnext hstop hbehind hagain

end NextBehind

/-- A loop over a range, which holds four numbers. -/
theorem Meets.rangeLoop (htop : program.after top = some first)
    (hnext : program.after next = some (.branch .repeatLoop top :: second))
    (hstop : program.after stop = some site.rest)
    (hbody : ∀ a h, Meets w program fuel (site.inLoop next stop (left a 4) behind)
      ⟨some first, left a 4 ++ site.stack, [], h⟩ (body h))
    (hbehind : ∀ a h, Passes w program ⟨some behind, left a 4 ++ site.stack, [], h⟩
      ⟨some (.branch .repeatLoop top :: second), left a 4 ++ site.stack, [], h⟩)
    (hsecond : ∀ h, Reaches w program (site.state second h) (site.state site.rest h)) (a : Nat → Long)
    (h : History) :
    Meets w program fuel site ⟨some first, left a 4 ++ site.stack, [], h⟩
      (Act.rangeLoop w fuel body a h) := by
  refine Meets.rounds (fun a h => ⟨some first, left a 4 ++ site.stack, [], h⟩) (fun _ _ => rfl)
    (fun a h => ?_) a h
  refine Turns.inRound (hbody a h) hnext hstop (hbehind a) fun h => ?_
  simp only [Act.bind_apply, Act.pure_apply]
  by_cases hend : (w.perform (.advance [a 0, a 1, a 2, a 3]) h).1 0 = 0
  · rw [if_pos hend]
    exact Reaches.step (step_repeatLoop_last hend) (hsecond _)
  · rw [if_neg hend]
    exact .single (step_repeatLoop htop rfl hend)

/-- A loop that is repeated a number of times, which it holds. -/
theorem Meets.times (htop : program.after top = some first)
    (hnext : program.after next = some (.branch .djnz top :: second))
    (hstop : program.after stop = some site.rest)
    (hbody : ∀ v h, Meets w program fuel (site.inLoop next stop [.long v] behind)
      ⟨some first, .long v :: site.stack, [], h⟩ (body h))
    (hbehind : ∀ v h, Passes w program ⟨some behind, .long v :: site.stack, [], h⟩
      ⟨some (.branch .djnz top :: second), .long v :: site.stack, [], h⟩)
    (hsecond : ∀ h, Reaches w program (site.state second h) (site.state site.rest h)) {n : Nat}
    {v : Long} (hv : v.toNat = n + 1) (h : History) :
    Meets w program fuel site ⟨some first, .long v :: site.stack, [], h⟩
      (Act.times body (n + 1) h) := by
  induction n generalizing v h with
  | zero =>
    have hafter := Meets.afterBody (hbody v h) hnext hstop (hbehind v)
    have hzero : v - 1 = 0 := by bv_omega
    simp only [Act.times, Act.bind_apply]
    generalize (body h).1.afterBody = e at hafter ⊢
    cases e with
    | none => exact hafter.reaches.trans (Reaches.step (step_djnz_zero hzero) (hsecond _))
    | some e => exact hafter
  | succ n ih =>
    have hafter := Meets.afterBody (hbody v h) hnext hstop (hbehind v)
    have hless : (v - 1).toNat = n + 1 := by bv_omega
    have hgo : v - 1 ≠ 0 := by
      intro hzero
      rw [hzero] at hless
      nomatch hless
    rw [Act.times]
    simp only [Act.bind_apply]
    generalize (body h).1.afterBody = e at hafter ⊢
    cases e with
    | none =>
      exact Meets.of_reaches (hafter.reaches.trans (.single (step_djnz htop hgo)))
        (ih hless _)
    | some e => exact hafter

/-- A loop with a step between rounds. -/
theorem Meets.forLoop {step body : Act Ending} {back : Listing}
    (hnext : program.after next = some target) (hstop : program.after stop = some site.rest)
    (htest : ∀ h, Reaches w program (site.state first h)
      (site.state (if (test h).1 then second else site.rest) (test h).2))
    (hbody : ∀ h, Meets w program fuel (site.inLoop next stop [] behind) (site.state second h) (body h))
    (hbehind : ∀ h, Passes w program (site.state behind h) (site.state target h))
    (hstep : ∀ h, Meets w program fuel (site.inLoop next stop [] back) (site.state target h) (step h))
    (hback : ∀ h, Reaches w program (site.state back h) (site.state first h)) (h : History) :
    Meets w program fuel site (site.state first h) (Act.forLoop fuel test step body h) := by
  let place (again : Bool) (h : History) := site.state (if again then target else first) h
  have hchecked : ∀ h, Turns (Passes w program) w program fuel site place (site.state first h)
      ((do if ← test then Act.inRound body (return .inl true) else return .inr .done) h) := by
    intro h
    have hreach := htest h
    simp only [Act.bind_apply]
    by_cases hc : (test h).1 = true
    · rw [if_pos hc] at hreach ⊢
      refine Turns.of_reaches hreach ?_
      exact Turns.inRound (hbody _) hnext hstop hbehind fun _ => .refl _
    · rw [if_neg hc] at hreach ⊢
      exact hreach
  refine Meets.rounds place (fun _ _ => rfl) (fun again h => ?_) false h
  cases again with
  | false => exact hchecked h
  | true =>
    have hafter := hstep h
    rw [if_pos rfl]
    simp only [Act.bind_apply]
    generalize step h = o at hafter ⊢
    obtain ⟨e, h'⟩ := o
    cases e with
    | done => exact Turns.of_reaches (hafter.trans (hback h')) (hchecked h')
    | exit e =>
      cases e with
      | leave => exact Meets.of_leave hstop hafter
      | next => exact Meets.of_next hnext hafter
    | returned | cut => exact hafter

end Loops

/-! ### Selections -/

section Selections

variable {fuel : Nat} {site : Site} {exits : Exits} {breakable : Bool} {stop : LineId} {v : Long}
  {behind : Listing}

/-- In a switch the exits of the constructs around are left, and its end if it can be left. -/
theorem offers_inSwitch (ho : Offers program exits site) (hstop : program.after stop = some site.rest)
    (behind : Listing) :
    Offers program (Command.switchExits exits breakable) (site.inSwitch breakable stop v behind) := by
  intro e he
  by_cases hleave : e = .leave ∧ breakable = true
  · obtain ⟨rfl, rfl⟩ := hleave
    exact ⟨stop, 2, site.rest, Command.findExit_selection_leave, hstop, by simp [Site.inSwitch]⟩
  · have hpass : e = .leave → breakable = false := fun he => by simpa [he] using hleave
    have hhas : exits.has e = true := by
      cases e with
      | leave => simpa [Exits.has, Command.switchExits, hpass] using he
      | next => exact he
    obtain ⟨line, n, target, hfind, hline, hle⟩ := ho e hhas
    refine ⟨line, 2 + n, target, ?_, hline, ?_⟩
    · rw [Site.inSwitch, Command.findExit_selection hpass, hfind]
      rfl
    · rw [Nat.add_comm]
      exact Nat.succ_le_succ (Nat.succ_le_succ hle)

/-- After a choice of a switch control is behind the switch, or goes where the choice goes. -/
theorem Meets.afterChoice {s : Machine} {o : Ending × History}
    (h : Meets w program fuel (site.inSwitch breakable stop v behind) s o)
    (hstop : program.after stop = some site.rest)
    (hbehind : ∀ h, Reaches w program ⟨some behind, .long v :: .exit stop :: site.stack, [], h⟩
      (site.state site.rest h)) :
    Meets w program fuel site s (o.1.afterChoice breakable, o.2) := by
  obtain ⟨e, h'⟩ := o
  cases e with
  | done => exact Reaches.trans h (hbehind h')
  | exit e =>
    obtain ⟨line, n, found, ⟨hfind, hline, hle⟩, hpass⟩ := h
    by_cases hleave : e = .leave ∧ breakable = true
    · obtain ⟨rfl, rfl⟩ := hleave
      cases Option.some.inj (Command.findExit_selection_leave.symm.trans hfind)
      cases Option.some.inj (hstop.symm.trans hline)
      exact hpass.reaches
    · have hthrough : e = .leave → breakable = false := fun he => by simpa [he] using hleave
      have hend : (Ending.exit e).afterChoice breakable = .exit e := by
        cases e with
        | leave => simp [Ending.afterChoice, hthrough]
        | next => rfl
      rw [Site.inSwitch, Command.findExit_selection hthrough] at hfind
      obtain ⟨⟨line', n'⟩, hout, ⟨⟩⟩ := Option.map_eq_some_iff.mp hfind
      rw [hend]
      rw [Nat.add_comm] at hle hpass
      exact ⟨_, n', found, ⟨hout, hline, Nat.le_of_add_le_add_right hle⟩, hpass⟩
  | returned | cut => exact h

end Selections

end Propeller
