import Propeller.Proofs.Bytecode.StackEffect
import Propeller.Proofs.Compile.Marks

/-!
# Compile — terms and the depth of the stack

Each line in the code of a term is given the shape that the stack has where it begins: what was there
before, and the values that have been computed for the term so far (`Term.entries`).  The code is
consistent with these shapes and puts one long on the stack (`Term.flow_code`); and no shapes make it do
anything else (`Term.push_of_flow`).
-/

namespace Propeller

open Listing (flow_trans flow marks flow_plain_eq_some)

variable {s : Shape} {ts : List Term} {base : LineId} {t : Option Term}

/-- The shapes of some lines are the given ones. -/
def Fits (E : LineId → Option Shape) (entries : List (LineId × Shape)) : Prop :=
  ∀ p ∈ entries, E p.1 = some p.2

section Fits

variable {E : LineId → Option Shape}

theorem fits_append {a b : List (LineId × Shape)} : Fits E (a ++ b) ↔ Fits E a ∧ Fits E b :=
  List.forall_mem_append

theorem fits_cons {line : LineId} {rest : List (LineId × Shape)} :
    Fits E ((line, s) :: rest) ↔ E line = some s ∧ Fits E rest :=
  List.forall_mem_cons

@[simp]
theorem fits_nil : Fits E [] := fun _ h => nomatch h

/-- Lines that are listed once can be given the shapes that they are listed with. -/
theorem fits_lookup {entries : List (LineId × Shape)} (h : (entries.map Prod.fst).Nodup) :
    Fits (fun line => entries.lookup line) entries := by
  induction entries with
  | nil => exact fits_nil
  | cons p rest ih =>
    obtain ⟨line, s⟩ := p
    obtain ⟨hp, hrest⟩ := List.nodup_cons.mp h
    refine fits_cons.mpr ⟨List.lookup_cons_self, fun q hq => ?_⟩
    have hne : q.1 ≠ line := fun heq => hp (List.mem_map.mpr ⟨q, hq, heq⟩)
    have hlookup : ((line, s) :: rest).lookup q.1 = rest.lookup q.1 := by
      rw [List.lookup_cons, beq_eq_false_iff_ne.mpr hne]
    exact hlookup.trans (ih hrest q hq)

end Fits

attribute [local simp] Entry.op Entry.branch Variable.access

namespace Term

mutual

/-- The shapes that the lines in the code of a term begin with. -/
def entries (base : LineId) (s : Shape) : Term → List (LineId × Shape)
  | constant _          => []
  | read _ index        => entriesOpt base s index
  | address _ index     => entriesOpt base s index
  | unary _ operand     => operand.entries base s
  | binary _ left right => left.entries base s ++ right.entries (base + left.lines) (s.push 1)
  | ternary c yes no    =>
    c.entries (base + 2) s ++ yes.entries (base + 2 + c.lines) s ++ [(base, s)] ++
      no.entries (base + 2 + c.lines + yes.lines) s ++ [(base + 1, s.push 1)]
  | call _ arguments index =>
    entriesAll base (s.anchor true) arguments ++
      entriesOpt (base + linesAll arguments) ((s.anchor true).push arguments.length) index

/-- The shapes that the lines in the code of several terms begin with. -/
def entriesAll (base : LineId) (s : Shape) : List Term → List (LineId × Shape)
  | []      => []
  | t :: ts => t.entries base s ++ entriesAll (base + t.lines) (s.push 1) ts

/-- The shapes that the lines in the code of a term that may be missing begin with. -/
def entriesOpt (base : LineId) (s : Shape) : Option Term → List (LineId × Shape)
  | none   => []
  | some t => t.entries base s

end

theorem entriesOpt_eq : entriesOpt base s t = entriesAll base s t.toList := by
  cases t <;> simp [entriesOpt, entriesAll]

section

variable {E : LineId → Option Shape}

/-- The code of a term puts one long on the stack. -/
def PutsOne (E : LineId → Option Shape) (t : Term) : Prop :=
  ∀ base s, t.Saturated → Fits E (t.entries base s) →
    flow E (some s) (t.code base) = some (some (s.push 1))

theorem PutsOne.all (h : ∀ t ∈ ts, t.PutsOne E) (hs : SaturatedAll ts)
    (hf : Fits E (entriesAll base s ts)) :
    flow E (some s) (codeAll base ts) = some (some (s.push ts.length)) := by
  induction ts generalizing base s with
  | nil => rfl
  | cons t ts ih =>
    obtain ⟨hft, hfts⟩ := fits_append.mp hf
    rw [codeAll, flow_trans (h t (.head _) _ _ hs.1 hft),
      ih (fun x hx => h x (.tail _ hx)) hs.2 hfts, Shape.push_push]
    rfl

theorem PutsOne.opt (h : ∀ x ∈ t.toList, x.PutsOne E) (hs : SaturatedOpt t) (hf : Fits E (entriesOpt base s t)) :
    flow E (some s) (codeOpt base t) = some (some (s.push t.isSome.toNat)) := by
  cases t with
  | none => rfl
  | some t => exact h t (.head _) _ _ hs hf

/-- **A term puts one long on the stack.** -/
theorem flow_code (t : Term) : t.PutsOne E := by
  induction t using Term.induct with
  | constant value =>
    intro base s _ _
    exact Listing.flow_plain (c := .constant value) rfl s []
  | read v index hi | address v index hi =>
    intro base s hs hf
    rw [code, flow_trans (PutsOne.opt hi hs hf)]
    exact Listing.flow_plain rfl s []
  | unary op operand ih =>
    intro base s hs hf
    rw [code, flow_trans (ih _ _ hs hf)]
    exact Listing.flow_plain rfl s []
  | binary op left right ihl ihr =>
    intro base s hs hf
    obtain ⟨hfl, hfr⟩ := fits_append.mp hf
    rw [code, List.append_assoc, flow_trans (ihl _ _ hs.1 hfl),
      flow_trans (ihr _ _ hs.2 hfr), Shape.push_push]
    exact Listing.flow_plain rfl s []
  | ternary c yes no ihc ihy ihn =>
    intro base s hs hf
    simp only [entries, fits_append, fits_cons] at hf
    obtain ⟨⟨⟨⟨hfc, hfy⟩, halt, -⟩, hfn⟩, hstop, -⟩ := hf
    simp only [code, Entry.branch, List.append_assoc, List.cons_append, List.nil_append]
    rw [flow_trans (ihc _ _ hs.1 hfc), Listing.flow_jz halt,
      flow_trans (ihy _ _ hs.2.1 hfy), Listing.flow_jmp hstop,
      Listing.flow_mark (.inl rfl) halt, flow_trans (ihn _ _ hs.2.2 hfn),
      Listing.flow_mark (.inr rfl) hstop, Listing.flow_nil]
  | call m arguments index ha hi =>
    intro base s hs hf
    obtain ⟨hlength, hreturns, hsa, hsi⟩ := hs
    obtain ⟨hfa, hfi⟩ := fits_append.mp hf
    simp only [code, Entry.op, List.append_assoc, List.cons_append, List.nil_append]
    rw [Listing.flow_anchorPush, flow_trans (PutsOne.all ha hsa hfa),
      flow_trans (PutsOne.opt hi hsi hfi), Shape.push_push, hlength,
      Listing.flow_call fun _ => hreturns, Listing.flow_nil]
    rfl

theorem flow_codeAll (hs : SaturatedAll ts) (hf : Fits E (entriesAll base s ts)) :
    flow E (some s) (codeAll base ts) = some (some (s.push ts.length)) :=
  PutsOne.all (fun t _ => t.flow_code) hs hf

theorem flow_codeOpt (hs : SaturatedOpt t) (hf : Fits E (entriesOpt base s t)) :
    flow E (some s) (codeOpt base t) = some (some (s.push t.isSome.toNat)) :=
  PutsOne.opt (fun t _ => t.flow_code) hs hf

theorem fst_entriesAll
    (h : ∀ t ∈ ts, ∀ base s, (t.entries base s).map Prod.fst = marks (t.code base))
    (base : LineId) (s : Shape) :
    (entriesAll base s ts).map Prod.fst = marks (codeAll base ts) := by
  induction ts generalizing base s with
  | nil => rfl
  | cons t ts ih =>
    simp [entriesAll, codeAll, h t (.head _),
      ih fun x hx => h x (.tail _ hx)]

/-- The lines that are given shapes are those of the code, in the same order. -/
theorem fst_entries (t : Term) (base : LineId) (s : Shape) :
    (t.entries base s).map Prod.fst = marks (t.code base) := by
  induction t using Term.induct generalizing base s with
  | constant value => rfl
  | read v index hi | address v index hi => simp [entries, code, entriesOpt_eq, codeOpt_eq, fst_entriesAll hi]
  | unary op operand ih => simp [entries, code, ih]
  | binary op left right ihl ihr => simp [entries, code, ihl, ihr]
  | ternary c yes no ihc ihy ihn => simp [entries, code, ihc, ihy, ihn]
  | call m arguments index ha hi =>
    simp [entries, code, entriesOpt_eq, codeOpt_eq, fst_entriesAll ha, fst_entriesAll hi]

theorem fst_all (ts : List Term) (base : LineId) (s : Shape) :
    (entriesAll base s ts).map Prod.fst = marks (codeAll base ts) :=
  fst_entriesAll (fun t _ => t.fst_entries) base s

theorem fst_opt (t : Option Term) (base : LineId) (s : Shape) :
    (entriesOpt base s t).map Prod.fst = marks (codeOpt base t) := by
  rw [entriesOpt_eq, codeOpt_eq, fst_all]

/-! Conversely, wherever the code of a term stands in a consistent listing, it puts one long on the
stack. -/

/-- The code of a term can only be consistent by putting one long on the stack. -/
def TakesOne (E : LineId → Option Shape) (t : Term) : Prop :=
  ∀ base s r, t.Saturated → flow E s (t.code base) = some r →
    ∃ x : Shape, s = some x ∧ r = some (x.push 1)

theorem TakesOne.all (h : ∀ t ∈ ts, t.TakesOne E) {x : Shape} {r : Option Shape} (hs : SaturatedAll ts)
    (hf : flow E (some x) (codeAll base ts) = some r) : r = some (x.push ts.length) := by
  induction ts generalizing base x with
  | nil => exact (Option.some.inj hf).symm
  | cons t ts ih =>
    obtain ⟨u, hfirst, hrest⟩ := Listing.flow_append_eq_some.mp hf
    obtain ⟨y, hy, rfl⟩ := h t (.head _) _ _ _ hs.1 hfirst
    cases hy
    rw [ih (fun x hx => h x (.tail _ hx)) hs.2 hrest, Shape.push_push]
    rfl

theorem TakesOne.opt (h : ∀ x ∈ t.toList, x.TakesOne E) {s : Option Shape} {y : Shape} (hs : SaturatedOpt t)
    (hf : flow E s (codeOpt base t) = some (some y)) :
    ∃ x : Shape, s = some x ∧ y = x.push t.isSome.toNat := by
  cases t with
  | none => exact ⟨y, Option.some.inj hf, rfl⟩
  | some t =>
    obtain ⟨x, rfl, hy⟩ := h t (.head _) _ _ _ hs hf
    exact ⟨x, rfl, Option.some.inj hy⟩

/-- **Wherever the code of a term is consistent, it puts one long on the stack.** -/
theorem push_of_flow (t : Term) : t.TakesOne E := by
  induction t using Term.induct with
  | constant value =>
    intro base s r _ h
    obtain ⟨x, rfl, hx⟩ := flow_plain_eq_some (c := .constant value) rfl h
    exact ⟨x, rfl, (Option.some.inj hx).symm⟩
  | read v index hi | address v index hi =>
    intro base s r hs h
    obtain ⟨u, hindex, haccess⟩ := Listing.flow_append_eq_some.mp h
    obtain ⟨y, rfl, hr⟩ := flow_plain_eq_some rfl haccess
    obtain ⟨x, rfl, hxy⟩ := TakesOne.opt hi hs hindex
    cases Shape.push_inj hxy
    exact ⟨y, rfl, (Option.some.inj hr).symm⟩
  | unary op operand ih =>
    intro base s r hs h
    obtain ⟨u, hoperand, hop⟩ := Listing.flow_append_eq_some.mp h
    obtain ⟨x, rfl, rfl⟩ := ih _ _ _ hs hoperand
    obtain ⟨y, hy, hr⟩ := flow_plain_eq_some rfl hop
    cases Shape.push_inj (Option.some.inj hy)
    exact ⟨x, rfl, (Option.some.inj hr).symm⟩
  | binary op left right ihl ihr =>
    intro base s r hs h
    obtain ⟨u, hoperands, hop⟩ := Listing.flow_append_eq_some.mp h
    obtain ⟨v, hleft, hright⟩ := Listing.flow_append_eq_some.mp hoperands
    obtain ⟨x, rfl, rfl⟩ := ihl _ _ _ hs.1 hleft
    obtain ⟨_, ⟨⟩, rfl⟩ := ihr _ _ _ hs.2 hright
    obtain ⟨y, hy, hr⟩ := flow_plain_eq_some rfl hop
    rw [Shape.push_push] at hy
    cases Shape.push_inj (Option.some.inj hy)
    exact ⟨x, rfl, (Option.some.inj hr).symm⟩
  | ternary c yes no ihc ihy ihn =>
    intro base s r hs h
    simp only [code, List.append_assoc, List.cons_append, List.nil_append] at h
    obtain ⟨_, hc, h⟩ := Listing.flow_append_eq_some.mp h
    obtain ⟨x, rfl, rfl⟩ := ihc _ _ _ hs.1 hc
    obtain ⟨y, hy, halt, h⟩ := Listing.flow_branch_eq_some (b := .jz) rfl h
    cases Shape.push_inj (Option.some.inj hy)
    obtain ⟨_, hyes, h⟩ := Listing.flow_append_eq_some.mp h
    obtain ⟨_, ⟨⟩, rfl⟩ := ihy _ _ _ hs.2.1 hyes
    obtain ⟨z, hz, hstop, h⟩ := Listing.flow_branch_eq_some (b := .jmp) rfl h
    obtain ⟨w, hw, -, h⟩ := Listing.flow_mark_eq_some h
    cases halt.symm.trans hw
    obtain ⟨_, hno, h⟩ := Listing.flow_append_eq_some.mp h
    obtain ⟨_, ⟨⟩, rfl⟩ := ihn _ _ _ hs.2.2 hno
    obtain ⟨v, -, hv, h⟩ := Listing.flow_mark_eq_some h
    rcases hv with hv | hv
    · cases hv
    · cases hv
      exact ⟨x, rfl, (Option.some.inj h).symm⟩
  | call m arguments index ha hi =>
    intro base s r hs h
    obtain ⟨hlength, -, hsa, hsi⟩ := hs
    simp only [code, List.append_assoc, List.cons_append, List.nil_append] at h
    obtain ⟨x, rfl, h⟩ := Listing.flow_anchorPush_eq_some h
    obtain ⟨_, hargs, h⟩ := Listing.flow_append_eq_some.mp h
    cases TakesOne.all ha hsa hargs
    obtain ⟨_, hindex, h⟩ := Listing.flow_append_eq_some.mp h
    obtain ⟨y, keep, rfl, hr⟩ := Listing.flow_call_eq_some h
    obtain ⟨_, ⟨⟩, hy⟩ := TakesOne.opt hi hsi hindex
    rw [Shape.push_push, hlength] at hy
    obtain ⟨rfl, rfl⟩ := Shape.anchor_inj (Shape.push_inj hy)
    exact ⟨y, rfl, (Option.some.inj hr).symm⟩

end

end Term

namespace Label

/-- The shapes that the lines in the comparison with a label begin with. -/
def entries (base : LineId) (s : Shape) : Label → List (LineId × Shape)
  | value t        => t.entries base s
  | range low high => low.entries base s ++ high.entries (base + low.lines) (s.push 1)

/-- The shapes that the lines in the comparison with several labels begin with. -/
def entriesAll (base : LineId) (s : Shape) : List Label → List (LineId × Shape)
  | []      => []
  | l :: ls => l.entries base s ++ entriesAll (base + l.lines) s ls

/-- The shapes that the lines in the comparison with the labels of several choices begin with. -/
def entriesChoices (base : LineId) (s : Shape) : List (List Label) → List (LineId × Shape)
  | []      => []
  | c :: cs => entriesAll base s c ++ entriesChoices (base + linesAll c) s cs

theorem fst_entries (l : Label) (base target : LineId) (s : Shape) :
    (l.entries base s).map Prod.fst = marks (l.code base target) := by
  cases l with
  | value t => simp [entries, code, t.fst_entries]
  | range low high => simp [entries, code, low.fst_entries, high.fst_entries]

theorem fst_entriesAll (ls : List Label) (base target : LineId) (s : Shape) :
    (entriesAll base s ls).map Prod.fst = marks (codeAll base target ls) := by
  induction ls generalizing base with
  | nil => rfl
  | cons l ls ih => simp [entriesAll, codeAll, l.fst_entries base target, ih]

theorem fst_entriesChoices (cs : List (List Label)) (base target : LineId) (s : Shape) :
    (entriesChoices base s cs).map Prod.fst = marks (codeChoices base target cs) := by
  induction cs generalizing base target with
  | nil => rfl
  | cons c cs ih => simp [entriesChoices, codeChoices, fst_entriesAll c base target, ih _ (target + 1)]

variable {E : LineId → Option Shape} {s : Shape} {base target : LineId}

/-- A comparison leaves the value where it is, for the choice and for the next comparison. -/
theorem flow_code {l : Label} (hl : l.Saturated) (ht : E target = some (s.push 1))
    (hf : Fits E (l.entries base (s.push 1))) :
    flow E (some (s.push 1)) (l.code base target) = some (some (s.push 1)) := by
  cases l with
  | value t =>
    simp only [code, Entry.branch]
    rw [flow_trans (t.flow_code _ _ hl hf), Shape.push_push, Listing.flow_caseValue ht,
      Listing.flow_nil]
  | range low high =>
    obtain ⟨hlow, hhigh⟩ := fits_append.mp hf
    simp only [code, Entry.branch, List.append_assoc]
    rw [flow_trans (low.flow_code _ _ hl.1 hlow),
      flow_trans (high.flow_code _ _ hl.2 hhigh), Shape.push_push, Shape.push_push,
      Listing.flow_caseRange ht, Listing.flow_nil]

theorem flow_codeAll {ls : List Label} (hl : ∀ l ∈ ls, l.Saturated)
    (ht : E target = some (s.push 1)) (hf : Fits E (entriesAll base (s.push 1) ls)) :
    flow E (some (s.push 1)) (codeAll base target ls) = some (some (s.push 1)) := by
  induction ls generalizing base with
  | nil => rfl
  | cons l ls ih =>
    obtain ⟨hfl, hfls⟩ := fits_append.mp hf
    rw [codeAll, flow_trans (flow_code (hl l (.head _)) ht hfl)]
    exact ih (fun x hx => hl x (.tail _ hx)) hfls

theorem flow_codeChoices {cs : List (List Label)} (hc : ∀ ls ∈ cs, ∀ l ∈ ls, l.Saturated)
    (ht : ∀ i < cs.length, E (target + i) = some (s.push 1))
    (hf : Fits E (entriesChoices base (s.push 1) cs)) :
    flow E (some (s.push 1)) (codeChoices base target cs) = some (some (s.push 1)) := by
  induction cs generalizing base target with
  | nil => rfl
  | cons c cs ih =>
    obtain ⟨hfc, hfcs⟩ := fits_append.mp hf
    have htarget : E target = some (s.push 1) := ht 0 (Nat.succ_pos _)
    rw [codeChoices,
      flow_trans (flow_codeAll (hc c (.head _)) htarget hfc)]
    refine ih (fun x hx => hc x (.tail _ hx)) (fun i hi => ?_) hfcs
    rw [Nat.add_assoc, Nat.add_comm 1 i]
    exact ht (i + 1) (Nat.succ_lt_succ hi)

end Label

end Propeller
