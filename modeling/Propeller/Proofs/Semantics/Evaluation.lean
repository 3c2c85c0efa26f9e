import Propeller.Proofs.Semantics.Command
import Propeller.Proofs.Semantics.Machine

/-!
# Semantics — evaluation by the interpreter

Where the code of a term stands in a program, the interpreter carries out the operations of the term, and
leaves its value on the stack (`Term.reaches_code`).  Comparing a value with labels leads to the line of
the first choice that has a matching label, or past the comparisons (`Label.reaches_codeChoices`).
-/

namespace Propeller

open Machine

variable {w : World} {program : Listing}
variable {rest : Listing} {ts : List Term} {base : LineId} {stack : List Item} {anchors : List Bool}
  {h : History} {t : Option Term}

theorem suffix_of_cons {e : Entry} (h : (e :: rest) <:+ program) : rest <:+ program :=
  (List.suffix_cons e rest).trans h

theorem suffix_of_append {front : Listing} (h : (front ++ rest) <:+ program) : rest <:+ program :=
  (List.suffix_append front rest).trans h

namespace Term

theorem length_evalAll (w : World) (ts : List Term) (h : History) :
    (evalAll w ts h).1.length = ts.length := by
  induction ts generalizing h with
  | nil => rfl
  | cons t ts ih => simp [evalAll, ih]

theorem length_evalOpt (w : World) (t : Option Term) (h : History) :
    (evalOpt w t h).1.length = t.isSome.toNat := by
  cases t with
  | none | some => rfl

/-- The code of a term leaves its value on the stack. -/
def Computed (w : World) (program : Listing) (t : Term) : Prop :=
  ∀ base rest stack anchors h, t.Saturated → (t.code base ++ rest) <:+ program →
    Reaches w program ⟨some (t.code base ++ rest), stack, anchors, h⟩
      ⟨some rest, .long (t.eval w h).1 :: stack, anchors, (t.eval w h).2⟩

theorem Computed.all (ht : ∀ t ∈ ts, t.Computed w program) (hs : SaturatedAll ts)
    (hsuffix : (codeAll base ts ++ rest) <:+ program) :
    Reaches w program ⟨some (codeAll base ts ++ rest), stack, anchors, h⟩
      ⟨some rest, (evalAll w ts h).1.map .long ++ stack, anchors, (evalAll w ts h).2⟩ := by
  induction ts generalizing base stack h with
  | nil => exact .refl _
  | cons t ts ih =>
    simp only [codeAll, List.append_assoc] at hsuffix ⊢
    refine (ht t (.head _) _ _ _ _ _ hs.1 hsuffix).trans ?_
    refine (ih (fun x hx => ht x (.tail _ hx)) hs.2 (suffix_of_append hsuffix)).trans ?_
    simp only [evalAll, Act.bind_apply, Act.pure_apply, List.map_append, List.map_cons, List.map_nil,
      List.append_assoc, List.cons_append, List.nil_append]
    exact .refl _

theorem Computed.opt (ht : ∀ x ∈ t.toList, x.Computed w program) (hs : SaturatedOpt t)
    (hsuffix : (codeOpt base t ++ rest) <:+ program) :
    Reaches w program ⟨some (codeOpt base t ++ rest), stack, anchors, h⟩
      ⟨some rest, (evalOpt w t h).1.map .long ++ stack, anchors, (evalOpt w t h).2⟩ := by
  cases t with
  | none => exact .refl _
  | some t => exact ht t (.head _) _ _ _ _ _ hs hsuffix

/-- **The code of a term leaves its value on the stack.** -/
theorem reaches_code (hn : (Listing.marks program).Nodup) (t : Term) : t.Computed w program := by
  induction t using Term.induct with
  | constant value =>
    intro base rest stack anchors h _ _
    have harity : (Code.constant value).arity = some (([] : List Long).length, 1) := rfl
    exact .single (step_plain harity)
  | read v index hi | address v index hi =>
    intro base rest stack anchors h hs hsuffix
    simp only [code, List.append_assoc] at hsuffix ⊢
    refine (Computed.opt hi hs hsuffix).trans ?_
    exact Reaches.step (step_plain (by rw [length_evalOpt]; rfl)) (.refl _)
  | unary op operand ih =>
    intro base rest stack anchors h hs hsuffix
    simp only [code, List.append_assoc] at hsuffix ⊢
    refine (ih _ _ _ _ _ hs hsuffix).trans ?_
    have harity : (Code.op (.unary op)).arity = some ([(operand.eval w h).1].length, 1) := rfl
    exact .single (step_plain harity)
  | binary op left right ihl ihr =>
    intro base rest stack anchors h hs hsuffix
    simp only [code, List.append_assoc] at hsuffix ⊢
    refine (ihl _ _ _ _ _ hs.1 hsuffix).trans ?_
    refine (ihr _ _ _ _ _ hs.2 (suffix_of_append hsuffix)).trans ?_
    exact .single step_binary
  | ternary c yes no ihc ihy ihn =>
    intro base rest stack anchors h hs hsuffix
    simp only [code, List.append_assoc, List.cons_append, List.nil_append] at hsuffix ⊢
    have hbranch := suffix_of_append hsuffix
    have hyes := suffix_of_cons hbranch
    have halt := suffix_of_cons (suffix_of_append hyes)
    have hno := suffix_of_cons halt
    have hstop := suffix_of_append hno
    refine (ihc _ _ _ _ _ hs.1 hsuffix).trans ?_
    refine Reaches.step (step_jz (Listing.after_of_suffix hn halt) _) ?_
    simp only [eval, Act.bind_apply]
    by_cases hc : (c.eval w h).1 = 0
    · simp only [if_pos hc]
      refine (ihn _ _ _ _ _ hs.2.2 hno).trans ?_
      exact .single step_mark
    · simp only [if_neg hc]
      refine (ihy _ _ _ _ _ hs.2.1 hyes).trans ?_
      exact .single (step_jmp (Listing.after_of_suffix hn hstop))
  | call m arguments index ha hi =>
    intro base rest stack anchors h hs hsuffix
    obtain ⟨hlength, -, hsa, hsi⟩ := hs
    simp only [code, List.append_assoc, List.cons_append, List.nil_append] at hsuffix ⊢
    have hargs := suffix_of_cons hsuffix
    have hindex := suffix_of_append hargs
    refine Reaches.step (b := ⟨_, stack, true :: anchors, h⟩) rfl ?_
    refine (Computed.all ha hsa hargs).trans ?_
    refine (Computed.opt hi hsi hindex).trans ?_
    rw [← List.append_assoc, ← List.map_append]
    refine .single (step_call ?_)
    rw [List.length_append, length_evalOpt, length_evalAll, hlength]

theorem reaches_codeAll (hn : (Listing.marks program).Nodup) (hs : SaturatedAll ts)
    (hsuffix : (codeAll base ts ++ rest) <:+ program) :
    Reaches w program ⟨some (codeAll base ts ++ rest), stack, anchors, h⟩
      ⟨some rest, (evalAll w ts h).1.map .long ++ stack, anchors, (evalAll w ts h).2⟩ :=
  Computed.all (fun t _ => t.reaches_code hn) hs hsuffix

theorem reaches_codeOpt (hn : (Listing.marks program).Nodup) (hs : SaturatedOpt t)
    (hsuffix : (codeOpt base t ++ rest) <:+ program) :
    Reaches w program ⟨some (codeOpt base t ++ rest), stack, anchors, h⟩
      ⟨some rest, (evalOpt w t h).1.map .long ++ stack, anchors, (evalOpt w t h).2⟩ :=
  Computed.opt (fun t _ => t.reaches_code hn) hs hsuffix

end Term

namespace Label

variable {base target : LineId} {rest found : Listing} {stack : List Item} {h : History} {v : Long}

/-- A matching label leads to the line of its choice. -/
theorem reaches_code (hn : (Listing.marks program).Nodup) {l : Label} (hs : l.Saturated)
    (ht : program.after target = some found) (hsuffix : (l.code base target ++ rest) <:+ program) :
    Reaches w program ⟨some (l.code base target ++ rest), .long v :: stack, [], h⟩
      ⟨some (if (l.accepts w v h).1 then found else rest), .long v :: stack, [],
        (l.accepts w v h).2⟩ := by
  cases l with
  | value t =>
    simp only [code, List.append_assoc] at hsuffix ⊢
    refine (t.reaches_code hn _ _ _ _ _ hs hsuffix).trans ?_
    refine Reaches.step (step_caseValue ht _ _) ?_
    simp only [accepts, Act.bind_apply, Act.pure_apply, decide_eq_true_eq]
    exact .refl _
  | range low high =>
    simp only [code, List.append_assoc] at hsuffix ⊢
    refine (low.reaches_code hn _ _ _ _ _ hs.1 hsuffix).trans ?_
    refine (high.reaches_code hn _ _ _ _ _ hs.2 (suffix_of_append hsuffix)).trans ?_
    exact .single (step_caseRange ht _ _ _)

theorem reaches_codeAll (hn : (Listing.marks program).Nodup) {ls : List Label}
    (hs : ∀ l ∈ ls, l.Saturated) (ht : program.after target = some found)
    (hsuffix : (codeAll base target ls ++ rest) <:+ program) :
    Reaches w program ⟨some (codeAll base target ls ++ rest), .long v :: stack, [], h⟩
      ⟨some (if (anyAccepts w v ls h).1 then found else rest), .long v :: stack, [],
        (anyAccepts w v ls h).2⟩ := by
  induction ls generalizing base h with
  | nil => exact .refl _
  | cons l ls ih =>
    simp only [codeAll, List.append_assoc] at hsuffix ⊢
    refine (reaches_code hn (hs l (.head _)) ht hsuffix).trans ?_
    simp only [anyAccepts, Act.bind_apply]
    by_cases hl : (l.accepts w v h).1 = true
    · simp only [if_pos hl, Act.pure_apply]
      exact .refl _
    · simp only [if_neg hl]
      exact ih (fun x hx => hs x (.tail _ hx)) (suffix_of_append hsuffix)

/-- A choice that is chosen is one of the choices. -/
theorem choose_lt (w : World) (v : Long) (cs : List (List Label)) (h : History) :
    ∀ i, (choose w v cs h).1 = some i → i < cs.length := by
  induction cs generalizing h with
  | nil => exact fun _ hi => nomatch hi
  | cons c cs ih =>
    intro i hi
    simp only [choose, Act.bind_apply] at hi
    by_cases hc : (anyAccepts w v c h).1 = true
    · rw [if_pos hc] at hi
      cases hi
      exact Nat.succ_pos _
    · rw [if_neg hc] at hi
      obtain ⟨j, hj, rfl⟩ := Option.map_eq_some_iff.mp hi
      exact Nat.succ_lt_succ (ih _ j hj)

/-- The first choice that has a matching label is found. -/
theorem reaches_codeChoices (hn : (Listing.marks program).Nodup) {cs : List (List Label)}
    (hs : ∀ ls ∈ cs, ∀ l ∈ ls, l.Saturated) {choices : Nat → Listing}
    (ht : ∀ i < cs.length, program.after (target + i) = some (choices i))
    (hsuffix : (codeChoices base target cs ++ rest) <:+ program) :
    Reaches w program ⟨some (codeChoices base target cs ++ rest), .long v :: stack, [], h⟩
      ⟨some (((choose w v cs h).1.map choices).getD rest), .long v :: stack, [],
        (choose w v cs h).2⟩ := by
  induction cs generalizing base target choices h with
  | nil => exact .refl _
  | cons c cs ih =>
    simp only [codeChoices, List.append_assoc] at hsuffix ⊢
    have hfirst : program.after target = some (choices 0) := ht 0 (Nat.succ_pos _)
    refine (reaches_codeAll hn (hs c (.head _)) hfirst hsuffix).trans ?_
    simp only [choose, Act.bind_apply]
    by_cases hc : (anyAccepts w v c h).1 = true
    · simp only [if_pos hc, Act.pure_apply]
      exact .refl _
    · have hlater : ∀ i < cs.length, program.after (target + 1 + i) = some (choices (i + 1)) := by
        intro i hi
        rw [Nat.add_assoc, Nat.add_comm 1 i]
        exact ht (i + 1) (Nat.succ_lt_succ hi)
      simp only [if_neg hc, Act.bind_apply, Act.pure_apply, Option.map_map]
      exact ih (fun x hx => hs x (.tail _ hx)) hlater (suffix_of_append hsuffix)

end Label

end Propeller
