import Propeller.Proofs.Compile.Translation
import Propeller.Proofs.Semantics.Statement

/-!
# Semantics — statements and their commands

The commands that a statement becomes do what the statement does (`Statement.exec_eq`), in every world in
which the texts of the statement are found by their numbers (`World.Finds`).
-/

namespace Propeller

/-- A text is found in a world by a number. -/
def World.Finds (w : World) : Text → Nat → Prop
  | .assembly lines, block   => w.assemblies.getD block [] = lines
  | .debug arguments, record => w.debugs.getD record [] = arguments

namespace Statement

variable {w : World} {N : Names → Prop} {n : Names} {debugging : Bool} {library : Library} {d : Draft}
  {cs : List Command}

/-- The commands that a statement becomes do what it does. -/
def Executed (w : World) (N : Names → Prop) (n : Names) (debugging : Bool) (library : Library) (d : Draft)
    (s : Statement) : Prop :=
  ∀ cs, s.Becomes N debugging (Text.RunBy library d N w.Finds) cs →
    ∀ fuel, Command.execAll w fuel cs = s.exec w fuel debugging n

theorem execAll_eq {ss : List Statement} (h : ∀ s ∈ ss, s.Executed w N n debugging library d)
    (hcs : BecomesAll N debugging (Text.RunBy library d N w.Finds) ss cs) (fuel : Nat) :
    Command.execAll w fuel cs = execAll w fuel debugging n ss := by
  induction ss generalizing cs with
  | nil =>
    cases hcs
    rfl
  | cons s ss ih =>
    obtain ⟨first, rest, hfirst, hrest, rfl⟩ := hcs
    rw [Command.execAll_append, h s (.head _) _ hfirst, ih (fun x hx => h x (.tail _ hx)) hrest]
    rfl

theorem execChoice_eq {choices : List Choice} {bs : List (List Command)}
    (h : ∀ labels body, Choice.mk labels body ∈ choices → ∀ s ∈ body, s.Executed w N n debugging library d)
    (hbs : BecomesChoices N debugging (Text.RunBy library d N w.Finds) choices bs) (fuel : Nat) :
    Command.execChoice w fuel bs = execChoice w fuel debugging n choices := by
  induction choices generalizing bs with
  | nil =>
    cases hbs
    funext i
    cases i <;> rfl
  | cons c choices ih =>
    obtain ⟨labels, body⟩ := c
    obtain ⟨first, rest, hfirst, hrest, rfl⟩ := hbs
    funext i
    cases i with
    | zero => exact execAll_eq (h labels body (.head _)) hfirst fuel
    | succ i => exact congrFun (ih (fun l b hb => h l b (.tail _ hb)) hrest) i

variable (hN : ∀ n', N n' → n'.Alike n)

include hN

theorem execGuarded_eq {otherwise : Option (List Statement)}
    (ho : ∀ s ∈ otherwise.getD [], s.Executed w N n debugging library d) {branches : List Guarded}
    (h : ∀ c negate body, Guarded.mk c negate body ∈ branches →
      ∀ s ∈ body, s.Executed w N n debugging library d)
    (hcs : BecomesGuarded N debugging (Text.RunBy library d N w.Finds) otherwise.isSome
      (BecomesOpt N debugging (Text.RunBy library d N w.Finds) otherwise) branches cs) (fuel : Nat) :
    Command.execAll w fuel cs =
      execGuarded w fuel debugging n (execOpt w fuel debugging n otherwise) branches := by
  induction branches generalizing cs with
  | nil =>
    rw [execGuarded, execOpt_eq]
    exact execAll_eq ho (becomesOpt_iff.mp hcs) fuel
  | cons g rest ih =>
    obtain ⟨c, negate, body⟩ := g
    obtain ⟨t, yes, ht, hyes, hcs⟩ := hcs
    have hyes := execAll_eq (h c negate body (.head _)) hyes fuel
    split at hcs
    · next hlast =>
      obtain ⟨rfl, rfl⟩ : rest = [] ∧ otherwise = none := by simpa using hlast
      rw [hcs, Command.execAll_singleton]
      simp only [Command.exec, execGuarded, ht.eq hN, hyes]
      rfl
    · obtain ⟨no, hno, rfl⟩ := hcs
      rw [Command.execAll_singleton]
      simp only [Command.exec, execGuarded, ht.eq hN, hyes, ih (fun c n b hb => h c n b (.tail _ hb)) hno]

/-- **The commands of a statement do what the statement does.** -/
theorem exec_eq (s : Statement) : s.Executed w N n debugging library d := by
  induction s using Statement.induct with
  | conditional branches otherwise hb ho => exact fun cs hcs => execGuarded_eq hN ho hb hcs
  | preLoop c isUntil body hb | postLoop c isUntil body hb | countLoop c body hb =>
    rintro cs ⟨t, b, ht, hbody, rfl⟩ fuel
    rw [Command.execAll_singleton]
    simp only [Command.exec, exec, ht.eq hN, execAll_eq hb hbody]
  | forever body hb =>
    rintro cs ⟨b, hbody, rfl⟩ fuel
    rw [Command.execAll_singleton]
    simp only [Command.exec, exec, execAll_eq hb hbody]
  | rangeLoop target first last step body hb =>
    rintro cs ⟨v, i, x, y, z, b, hx, hy, hz, htarget, hbody, rfl⟩ fuel
    obtain ⟨hv, hi⟩ := htarget.eq hN
    rw [Command.execAll_singleton]
    simp only [Command.exec, exec, hv, hi, hx.eq hN, hy.eq hN, hz.eq hN, execAll_eq hb hbody,
      Option.isSome_map]
  | forLoop init c step body hi hs hb =>
    rintro cs ⟨x, t, b, y, hinit, ht, hbody, hstep, rfl⟩ fuel
    rw [Command.execAll_singleton]
    simp only [Command.exec, exec, ht.eq hN, execAll_eq hi hinit, execAll_eq hs hstep, execAll_eq hb hbody]
  | switch value choices otherwise breakable hc ho =>
    rintro cs ⟨t, ls, o, bs, ht, hls, hotherwise, hbs, rfl⟩ fuel
    rw [Command.execAll_singleton]
    simp only [Command.exec, exec, ht.eq hN, labels_eq hN hls, execChoice_eq hc hbs, execOpt_eq,
      execAll_eq ho (becomesOpt_iff.mp hotherwise)]
  | leave l | next l =>
    rintro cs rfl fuel
    exact Command.execAll_singleton w fuel _
  | ret value | abort value =>
    rintro cs ⟨t, ht, rfl⟩ fuel
    rw [Command.execAll_singleton, ht.eq hN, exec]
  | assign target op value =>
    rintro cs ⟨v, i, t, htarget, ht, rfl⟩ fuel
    obtain ⟨hv, hi⟩ := htarget.eq hN
    rw [Command.execAll_singleton, exec, Names.assignment, hv, hi, ht.eq hN]
  | expression l e =>
    rintro cs ⟨c, hc, rfl⟩ fuel
    rw [Command.execAll_singleton, exec, hc.eq hN]
  | assembly l lines =>
    rintro cs ⟨origin, block, ⟨hfinds, -⟩, rfl⟩ fuel
    have htext : w.assemblies.getD block [] = lines := hfinds
    rw [Command.execAll_singleton]
    simp only [Command.exec, exec, World.operate, World.event, htext]
  | debug l arguments =>
    intro cs hcs fuel
    cases debugging with
    | false =>
      obtain rfl : cs = [] := hcs
      rfl
    | true =>
      obtain ⟨ts, record, hts, ⟨hfinds, -⟩, rfl⟩ := hcs
      have htext : w.debugs.getD record [] = arguments := hfinds
      rw [Command.execAll_singleton]
      simp only [Command.exec, exec, World.operate, World.event, htext, hts.eq hN]
      rfl

end Statement

end Propeller
