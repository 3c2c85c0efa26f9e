import Propeller.Proofs.Semantics.Simulation

/-!
# Semantics — the interpreter does what commands do

The code of a command is followed by the interpreter just as the command says: each construct is met if
its parts are, and the operations of the others are carried out in the same order
(`Command.meets_exec`).
-/

namespace Propeller

open Machine
open Listing (marks after_of_suffix)

variable {w : World} {program : Listing}
variable {c : Term} {negate : Bool} {base line : LineId} {rest target behind : Listing}
  {stack : List Item} {h : History} {cs : List Command} {exits : Exits} {site : Site}

/-! ### Conditions -/

/-- A condition and the branch that skips something unless it holds. -/
theorem passes_test (hn : (marks program).Nodup) (hc : c.Saturated)
    (hsuffix : (c.code base ++ .branch (Command.skipUnless negate) line :: rest) <:+ program)
    (hl : program.after line = some target) :
    Passes w program
      ⟨some (c.code base ++ .branch (Command.skipUnless negate) line :: rest), stack, [], h⟩
      ⟨some (if (c.test w negate h).1 then rest else target), stack, [], (c.test w negate h).2⟩ := by
  refine (c.reaches_code hn _ _ _ _ _ hc hsuffix).passes (.single ?_)
  cases negate with
  | true =>
    refine (step_jnz hl _).trans ?_
    simp [Term.test, Long.holds]
  | false =>
    refine (step_jz hl _).trans ?_
    simp [Term.test, Long.holds]

/-- A condition that may be missing. -/
theorem reaches_testOpt (hn : (marks program).Nodup) {c : Option Term} (hc : Term.SaturatedOpt c)
    (hsuffix : (Term.codeOpt base c ++
      ((if c.isSome then [.branch .jz line] else []) ++ rest)) <:+ program)
    (hl : program.after line = some target) :
    Reaches w program
      ⟨some (Term.codeOpt base c ++ ((if c.isSome then [.branch .jz line] else []) ++ rest)), stack,
        [], h⟩
      ⟨some (if (Term.testOpt w c h).1 then rest else target), stack, [], (Term.testOpt w c h).2⟩ := by
  cases c with
  | none => exact .refl _
  | some c =>
    have hcode : (c.code base ++ .branch (Command.skipUnless false) line :: rest) <:+ program :=
      hsuffix
    exact (passes_test hn hc hcode hl).reaches

/-- A condition and the branch that goes back if it holds. -/
theorem passes_again (hn : (marks program).Nodup) (hc : c.Saturated)
    (hsuffix : (c.code base ++ .branch (Command.skipUnless !negate) line :: rest) <:+ program)
    (hl : program.after line = some target) :
    Passes w program
      ⟨some (c.code base ++ .branch (Command.skipUnless !negate) line :: rest), stack, [], h⟩
      ⟨some (if (c.test w negate h).1 then target else rest), stack, [], (c.test w negate h).2⟩ := by
  have hpass : Passes w program ⟨some _, stack, [], h⟩ _ := passes_test hn hc hsuffix hl
  have hnot : c.test w (!negate) h = (!(c.test w negate h).1, (c.test w negate h).2) := by
    cases negate <;> simp [Term.test, Long.holds]
  rw [hnot] at hpass
  cases hb : (c.test w negate h).1 <;> simpa [hb] using hpass

/-- An instruction with a variable, whose index is evaluated right before it. -/
theorem reaches_access (hn : (marks program).Nodup) {v : Variable} {index : Option Term}
    (hindex : Term.SaturatedOpt index) {o : Op} (operands : List Long) {count : Nat}
    (harity : (v.instruction index.isSome o).arity =
      some (index.isSome.toNat + operands.length, count))
    (hs : (Term.codeOpt base index ++ v.access index.isSome o :: rest) <:+ program) :
    Reaches w program
      ⟨some (Term.codeOpt base index ++ v.access index.isSome o :: rest), operands.map .long ++ stack,
        [], h⟩
      (let i := Term.evalOpt w index h
      let a := w.operate (v.instruction index.isSome o) (i.1 ++ operands) i.2
      ⟨some rest, left a.1 count ++ stack, [], a.2⟩) := by
  refine (Term.reaches_codeOpt hn hindex hs).trans ?_
  rw [← List.append_assoc, ← List.map_append]
  refine .single (step_plain ?_)
  rw [List.length_append, Term.length_evalOpt]
  exact harity

namespace Command

variable {fuel : Nat}

/-- The interpreter does what the command does. -/
def Simulated (w : World) (program : Listing) (fuel : Nat) (c : Command) : Prop :=
  ∀ exits site base h, c.WellFormed exits → Offers program exits site →
    (c.code site.outer base ++ site.rest) <:+ program →
    Meets w program fuel site (site.state (c.code site.outer base ++ site.rest) h) (c.exec w fuel h)

theorem Simulated.all (hc : ∀ c ∈ cs, c.Simulated w program fuel) (hw : WellFormedAll exits cs)
    (ho : Offers program exits site) (hs : (codeAll site.outer base cs ++ site.rest) <:+ program)
    (h : History) :
    Meets w program fuel site (site.state (codeAll site.outer base cs ++ site.rest) h)
      (execAll w fuel cs h) := by
  induction cs generalizing base h with
  | nil => exact .refl _
  | cons c cs ih =>
    simp only [codeAll, List.append_assoc] at hs ⊢
    have hfirst := hc c (.head _) exits
      { site with rest := codeAll site.outer (base + c.lines) cs ++ site.rest } base h hw.1 ho hs
    exact Meets.before hfirst
      (ih (fun x hx => hc x (.tail _ hx)) hw.2 (suffix_of_append hs))

/-- Commands with something else behind them. -/
theorem Simulated.before (hc : ∀ c ∈ cs, c.Simulated w program fuel) (hw : WellFormedAll exits cs)
    (ho : Offers program exits site) (hs : (codeAll site.outer base cs ++ behind) <:+ program)
    (h : History) :
    Meets w program fuel { site with rest := behind }
      (site.state (codeAll site.outer base cs ++ behind) h) (execAll w fuel cs h) := by
  have ho' : Offers program exits { site with rest := behind } := ho
  exact Simulated.all hc hw ho' hs h

/-- Commands in a loop. -/
theorem Simulated.inLoop (hc : ∀ c ∈ cs, c.Simulated w program fuel) {next stop : LineId}
    {held : List Item} {found : Listing} (hw : WellFormedAll .inLoop cs)
    (hnext : program.after next = some target) (hstop : program.after stop = some found)
    (hs : (codeAll (loop next stop held.length :: site.outer) base cs ++ behind) <:+ program)
    (h : History) :
    Meets w program fuel (site.inLoop next stop held behind)
      ⟨some (codeAll (loop next stop held.length :: site.outer) base cs ++ behind), held ++ site.stack,
        [], h⟩
      (execAll w fuel cs h) := by
  have ho : Offers program .inLoop (site.inLoop next stop held behind) :=
    offers_inLoop hnext hstop behind
  exact Simulated.all hc hw ho hs h

section Switch

variable {site : Site} {exits : Exits} {breakable : Bool} {stop : LineId}

/-- Commands in a switch, with what leads to its end. -/
theorem Simulated.inSwitch (hc : ∀ c ∈ cs, c.Simulated w program fuel)
    (hw : WellFormedAll (switchExits exits breakable) cs) (ho : Offers program exits site)
    (hstop : program.after stop = some site.rest)
    (hs : (codeAll (selection breakable stop :: site.outer) base cs ++
      .mark line :: .op .caseDone :: behind) <:+ program) (v : Long) (h : History) :
    Meets w program fuel site
      ⟨some (codeAll (selection breakable stop :: site.outer) base cs ++
        .mark line :: .op .caseDone :: behind), .long v :: .exit stop :: site.stack, [], h⟩
      ((execAll w fuel cs h).1.afterChoice breakable, (execAll w fuel cs h).2) := by
  have ho' : Offers program (switchExits exits breakable)
      (site.inSwitch breakable stop v (.mark line :: .op .caseDone :: behind)) :=
    offers_inSwitch ho hstop _
  refine Meets.afterChoice (Simulated.all hc hw ho' hs h) hstop fun h => ?_
  exact Reaches.step step_mark (.single (step_caseDone hstop v))

/-- The commands of a choice of a switch. -/
theorem Simulated.choice {bs : List (List Command)} (hb : ∀ b ∈ bs, ∀ c ∈ b, c.Simulated w program fuel)
    (hn : (marks program).Nodup) {choices ends : LineId}
    (hw : WellFormedBodies (switchExits exits breakable) bs) (ho : Offers program exits site)
    (hstop : program.after stop = some site.rest)
    (hs : (codeBodies (selection breakable stop :: site.outer) base choices ends bs ++ behind) <:+
      program) (i : Nat) (hi : i < bs.length) :
    ∃ found, program.after (choices + i) = some found ∧ ∀ v h,
      Meets w program fuel site ⟨some found, .long v :: .exit stop :: site.stack, [], h⟩
        ((execChoice w fuel bs i h).1.afterChoice breakable, (execChoice w fuel bs i h).2) := by
  induction bs generalizing base choices ends i with
  | nil => nomatch hi
  | cons b bs ih =>
    simp only [codeBodies, List.append_assoc, List.cons_append, List.nil_append] at hs
    have hfirst := suffix_of_cons hs
    cases i with
    | zero =>
      exact ⟨_, after_of_suffix hn hs,
        Simulated.inSwitch (hb b (.head _)) hw.1 ho hstop hfirst⟩
    | succ i =>
      have hlater := ih (fun x hx => hb x (.tail _ hx)) hw.2
        (suffix_of_cons (suffix_of_cons (suffix_of_append hfirst))) i (Nat.lt_of_succ_lt_succ hi)
      rw [Nat.add_assoc, Nat.add_comm 1 i] at hlater
      exact hlater

end Switch

/-- **Commands are simulated** by their code. -/
theorem meets_exec (hn : (marks program).Nodup) (c : Command) :
    c.Simulated w program fuel := by
  induction c using Command.induct with
    (intro exits site base h hw ho hs
     simp only [code, List.append_assoc, List.cons_append, List.nil_append] at hs ⊢)
  | ifThen negate c yes hy =>
    have htest := suffix_of_cons hs
    have hyes := suffix_of_cons (suffix_of_append htest)
    have hstop := after_of_suffix hn (suffix_of_append hyes)
    refine Meets.of_reaches (Reaches.step step_mark (passes_test hn hw.1 htest hstop).reaches) ?_
    simp only [exec, Act.bind_apply]
    by_cases hc : (c.test w negate h).1 = true
    · simp only [if_pos hc]
      refine (Simulated.before hy hw.2 ho hyes _).through fun _ => ?_
      exact .single step_mark
    · simp only [if_neg hc]
      exact .refl _
  | ifElse negate c yes no hy hno =>
    have htest := suffix_of_cons hs
    have hyes := suffix_of_cons (suffix_of_append htest)
    have halt := suffix_of_cons (suffix_of_cons (suffix_of_append hyes))
    have hstop := after_of_suffix hn (suffix_of_append (suffix_of_cons halt))
    refine Meets.of_reaches (Reaches.step step_mark
      (passes_test hn hw.1 htest (after_of_suffix hn halt)).reaches) ?_
    simp only [exec, Act.bind_apply]
    by_cases hc : (c.test w negate h).1 = true
    · simp only [if_pos hc]
      refine (Simulated.before hy hw.2.1 ho hyes _).through fun _ => ?_
      exact Reaches.step step_mark (.single (step_jmp hstop))
    · simp only [if_neg hc]
      refine (Simulated.before hno hw.2.2 ho (suffix_of_cons halt) _).through fun _ => ?_
      exact .single step_mark
  | preLoop isUntil c body hb =>
    have htop := after_of_suffix hn hs
    have htest := suffix_of_cons hs
    have hbody := suffix_of_cons (suffix_of_append htest)
    have hstop := after_of_suffix hn
      (suffix_of_cons (suffix_of_cons (suffix_of_append hbody)))
    refine Meets.of_reaches (.single step_mark) ?_
    refine Meets.preLoop htop hstop (fun h => passes_test hn hw.1 htest hstop)
      (fun h => Simulated.inLoop hb hw.2 htop hstop hbody h) (fun h => ?_) h
    exact Passes.step step_mark (.single (step_jmp htop))
  | postLoop isUntil c body hb =>
    have htop := after_of_suffix hn hs
    have hbody := suffix_of_cons hs
    have hmark := suffix_of_append hbody
    have hnext := after_of_suffix hn hmark
    have htest := suffix_of_cons hmark
    have hstop := suffix_of_cons (suffix_of_append htest)
    refine Meets.of_reaches (.single step_mark) ?_
    refine Meets.postLoop hnext (after_of_suffix hn hstop)
      (fun h => Simulated.inLoop hb hw.2 hnext (after_of_suffix hn hstop) hbody h)
      (fun h => .single step_mark) (fun h => ?_) h
    have hback : Passes w program (site.state _ h) _ := passes_again hn hw.1 htest htop
    by_cases hc : (c.test w isUntil h).1 = true
    · rw [if_pos hc] at hback ⊢
      exact hback.reaches
    · rw [if_neg hc] at hback ⊢
      exact hback.reaches.trans (.single step_mark)
  | forever body hb =>
    have htop := after_of_suffix hn hs
    have hbody := suffix_of_cons hs
    have hmark := suffix_of_append hbody
    have hnext := after_of_suffix hn hmark
    have hstop := after_of_suffix hn (suffix_of_cons (suffix_of_cons hmark))
    refine Meets.of_reaches (.single step_mark) ?_
    exact Meets.forever hnext hstop (fun h => Simulated.inLoop hb hw hnext hstop hbody h)
      (fun h => .single step_mark) (fun h => .single (step_jmp htop)) h
  | countLoop count body hb =>
    have hcount := suffix_of_cons hs
    have hmark := suffix_of_cons (suffix_of_append hcount)
    have htop := after_of_suffix hn hmark
    have hbody := suffix_of_cons hmark
    have hagain := suffix_of_append hbody
    have hnext := after_of_suffix hn hagain
    have hstop := after_of_suffix hn (suffix_of_cons (suffix_of_cons hagain))
    refine Meets.of_reaches (Reaches.step step_mark (count.reaches_code hn _ _ _ _ _ hw.1 hcount)) ?_
    simp only [exec, Act.bind_apply]
    generalize (count.eval w h).1 = v
    cases hv : v.toNat with
    | zero =>
      obtain rfl : v = 0 := BitVec.eq_of_toNat_eq hv
      exact .single (step_tjz_zero hstop)
    | succ n =>
      have hgo : v ≠ 0 := by
        rintro rfl
        exact Nat.succ_ne_zero n hv.symm
      refine Meets.of_reaches (Reaches.step (step_tjz hgo) (.single step_mark)) ?_
      exact Meets.times htop hnext hstop (fun _ h => Simulated.inLoop hb hw.2 hnext hstop hbody h)
        (fun _ _ => .single step_mark) (fun _ => .single step_mark) hv _
  | rangeLoop v index first last step body hb =>
    obtain ⟨hfirst, hlast, hstep, hindex, hwb⟩ := hw
    have hs₁ := suffix_of_cons hs
    have hs₂ := suffix_of_append hs₁
    have hs₃ := suffix_of_append hs₂
    have hs₄ := suffix_of_append hs₃
    have hmark := suffix_of_cons (suffix_of_append hs₄)
    have htop := after_of_suffix hn hmark
    have hbody := suffix_of_cons hmark
    have hagain := suffix_of_append hbody
    have hnext := after_of_suffix hn hagain
    have hstop := after_of_suffix hn (suffix_of_cons (suffix_of_cons hagain))
    refine Meets.of_reaches (Reaches.step step_mark (first.reaches_code hn _ _ _ _ _ hfirst hs₁)) ?_
    refine Meets.of_reaches (last.reaches_code hn _ _ _ _ _ hlast hs₂) ?_
    refine Meets.of_reaches (step.reaches_code hn _ _ _ _ _ hstep hs₃) ?_
    refine Meets.of_reaches (reaches_access hn hindex [_, _, _] rfl hs₄) ?_
    refine Meets.of_reaches (.single step_mark) ?_
    exact Meets.rangeLoop htop hnext hstop (fun _ h => Simulated.inLoop hb hwb hnext hstop hbody h)
      (fun _ _ => .single step_mark) (fun _ => .single step_mark) _ _
  | forLoop init c step body hi hst hb =>
    obtain ⟨hwi, hwc, hwb, hws⟩ := hw
    have hmark := suffix_of_append hs
    have htop := after_of_suffix hn hmark
    have htest := suffix_of_cons hmark
    have hbody := suffix_of_append (suffix_of_append htest)
    have hagain := suffix_of_append hbody
    have hnext := after_of_suffix hn hagain
    have hstep := suffix_of_cons hagain
    have hstop := after_of_suffix hn
      (suffix_of_cons (suffix_of_cons (suffix_of_append hstep)))
    refine Meets.before (Simulated.before hi hwi ho hs h) fun h => ?_
    refine Meets.of_reaches (.single step_mark) ?_
    exact Meets.forLoop hnext hstop (fun _ => reaches_testOpt hn hwc htest hstop)
      (fun h => Simulated.inLoop hb hwb hnext hstop hbody h)
      (fun _ => .single step_mark)
      (fun h => Simulated.inLoop hst hws hnext hstop hstep h)
      (fun _ => Reaches.step step_mark (.single (step_jmp htop))) h
  | switch breakable value labels bodies otherwise hb hot =>
    obtain ⟨hvalue, hlabels, hlength, hwo, hwb⟩ := hw
    have hs₁ := suffix_of_cons (suffix_of_cons hs)
    have hs₂ := suffix_of_append hs₁
    have hs₃ := suffix_of_append hs₂
    have hs₄ := suffix_of_cons (suffix_of_cons (suffix_of_append hs₃))
    have hstop := after_of_suffix hn (suffix_of_append hs₄)
    have hchoice := Simulated.choice hb hn hwb ho hstop hs₄
    choose! found hfound using hchoice
    refine Meets.of_reaches (Reaches.step step_mark (Reaches.step (b := ⟨_, .exit _ :: _, [], h⟩) rfl
      (value.reaches_code hn _ _ _ _ _ hvalue hs₁))) ?_
    refine Meets.of_reaches (Label.reaches_codeChoices hn hlabels
      (fun i hi => (hfound i (hlength ▸ hi)).1) hs₂) ?_
    simp only [exec, Act.switch, Act.bind_apply]
    have hless := Label.choose_lt w (value.eval w h).1 labels (value.eval w h).2
    generalize Label.choose w (value.eval w h).1 labels (value.eval w h).2 = chosen at hless ⊢
    obtain ⟨i, h'⟩ := chosen
    cases i with
    | none => exact Simulated.inSwitch hot hwo ho hstop hs₃ _ h'
    | some i => exact (hfound i (hlength ▸ hless i rfl)).2 _ h'
  | exit e =>
    have hhas : exits.has e = true := by cases e <;> exact hw
    obtain ⟨line, n, target, hout⟩ := ho e hhas
    refine ⟨line, n, target, hout, Passes.step step_mark ?_⟩
    obtain ⟨hfind, hline, hle⟩ := hout
    simp only [exitCode, hfind]
    cases n with
    | zero => exact .single (step_jmp hline)
    | succ n => exact Reaches.step (step_pop hle) (.single (step_jmp hline))
  | ret | abort => exact ⟨_, Reaches.step step_mark (.single rfl), rfl, rfl⟩
  | retValue t | abortValue t =>
    refine ⟨_, Reaches.step step_mark
      ((t.reaches_code hn _ _ _ _ _ hw (suffix_of_cons hs)).trans (.single rfl)), rfl, rfl⟩
  | assign v index value =>
    have hs₁ := suffix_of_cons hs
    refine Reaches.step step_mark ((value.reaches_code hn _ _ _ _ _ hw.2 hs₁).trans ?_)
    exact reaches_access hn hw.1 [_] rfl (suffix_of_append hs₁)
  | update v index op value =>
    have hs₁ := suffix_of_cons hs
    have hs₂ := suffix_of_cons (suffix_of_append hs₁)
    have hs₃ := suffix_of_cons (suffix_of_append hs₂)
    refine Reaches.step step_mark ((Term.reaches_codeOpt hn hw.1 hs₁).trans ?_)
    refine Reaches.step (step_plain (by rw [Term.length_evalOpt]; rfl)) ?_
    refine (value.reaches_code hn _ _ _ _ _ hw.2 hs₂).trans (Reaches.step step_binary ?_)
    exact reaches_access hn hw.1 [_] rfl hs₃
  | invoke m arguments index =>
    obtain ⟨hlength, harguments, hindex⟩ := hw
    have hs₁ := suffix_of_cons (suffix_of_cons hs)
    refine Reaches.step step_mark (Reaches.step (b := ⟨_, _, [false], h⟩) rfl ?_)
    refine (Term.reaches_codeAll hn harguments hs₁).trans ?_
    refine (Term.reaches_codeOpt hn hindex (suffix_of_append hs₁)).trans ?_
    rw [← List.append_assoc, ← List.map_append]
    refine .single (step_call ?_)
    rw [List.length_append, Term.length_evalOpt, Term.length_evalAll, hlength]
  | discard t =>
    refine Reaches.step step_mark ((t.reaches_code hn _ _ _ _ _ hw (suffix_of_cons hs)).trans ?_)
    exact .single (step_pop (n := 1) (Nat.succ_pos _))
  | assembly origin block =>
    refine Reaches.step step_mark ?_
    have harity : (Code.inline origin block).arity = some (([] : List Long).length, 0) := rfl
    exact .single (step_plain harity)
  | debug values record =>
    refine Reaches.step step_mark ((Term.reaches_codeAll hn hw.2 (suffix_of_cons hs)).trans ?_)
    rw [Nat.min_eq_left hw.1]
    exact Reaches.step (step_plain (by rw [Term.length_evalAll]; rfl)) (.refl _)

end Command

end Propeller
