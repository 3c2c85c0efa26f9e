import Propeller.Proofs.Bytecode.StackEffect
import Propeller.Proofs.Compile.Marks
import Propeller.Proofs.Semantics.World

/-!
# Semantics — the interpreter

The interpreter goes through a listing from its beginning, and a jump goes on behind the mark of a line
(`Machine.step`).  On the stack are numbers, and addresses of lines where selections end.  It is
deterministic, and how far it has got after a number of steps is given by `Machine.runFor`.
-/

namespace Propeller

namespace Listing

/-- What stands behind the mark of a line. -/
def after (line : LineId) : Listing → Option Listing
  | []              => none
  | .mark l :: rest => if l = line then some rest else after line rest
  | .code _ :: rest => after line rest

theorem after_append {front rest : Listing} {line : LineId} (h : line ∉ marks front) :
    after line (front ++ rest) = after line rest := by
  induction front with
  | nil => rfl
  | cons e front ih =>
    cases e with
    | mark l =>
      rw [marks_mark, List.mem_cons, not_or] at h
      exact (if_neg (Ne.symm h.1)).trans (ih h.2)
    | code c => exact ih h

/-- In a listing in which no line begins twice, a line is found where it begins. -/
theorem after_of_suffix {program rest : Listing} {line : LineId} (hn : (marks program).Nodup)
    (h : (.mark line :: rest) <:+ program) : after line program = some rest := by
  obtain ⟨front, rfl⟩ := h
  rw [marks_append, marks_mark, List.nodup_append] at hn
  have hfront : line ∉ marks front := fun hm => hn.2.2 line hm line (.head _) rfl
  rw [after_append hfront]
  exact if_pos rfl

end Listing

/-- What is on the stack. -/
inductive Item
  | long (v : Long)
  /-- The address of a line, where a selection ends. -/
  | exit (line : LineId)

/-- A state of the interpreter. -/
structure Machine where
  /-- What is still to be carried out, unless control has been handed back. -/
  rest : Option Listing
  stack : List Item := []
  /-- The calls that have begun, the last one first, with whether their result is kept. -/
  anchors : List Bool := []
  history : History := []

namespace Machine

/-- Take numbers from the stack, if they are there. -/
def take : (count : Nat) → List Item → Option (List Long × List Item)
  | 0,         stack            => some ([], stack)
  | count + 1, .long v :: stack => (take count stack).map fun (vs, rest) => (v :: vs, rest)
  | _ + 1,     _                => none

/-- The first numbers of an answer, as they are left on the stack. -/
def left (answer : Nat → Long) (count : Nat) : List Item :=
  (List.range count).map fun i => .long (answer i)

variable (w : World) (program : Listing)

/-- Go on behind the mark of a line. -/
def jump (s : Machine) (line : LineId) (stack : List Item) : Option Machine :=
  (program.after line).map fun rest => { s with rest := some rest, stack }

/-- Carry out an instruction that stands before `rest`. -/
def execute (s : Machine) (rest : Listing) : Code → Option Machine
  | .branch .jmp line        => s.jump program line s.stack
  | .branch .jz line         =>
    match s.stack with
    | .long v :: stack =>
      if v = 0 then s.jump program line stack else some { s with rest, stack }
    | _ => none
  | .branch .jnz line        =>
    match s.stack with
    | .long v :: stack =>
      if v = 0 then some { s with rest, stack } else s.jump program line stack
    | _ => none
  | .branch .tjz line        =>
    match s.stack with
    | .long v :: stack =>
      if v = 0 then s.jump program line stack else some { s with rest }
    | _ => none
  | .branch .djnz line       =>
    match s.stack with
    | .long v :: stack =>
      if v - 1 = 0 then some { s with rest, stack }
      else s.jump program line (.long (v - 1) :: stack)
    | _ => none
  | .branch .repeatLoop line => do
    let (longs, stack) ← take 4 s.stack
    let (a, history) := w.perform (.advance longs) s.history
    if a 0 = 0 then some { s with rest, stack, history }
    else Machine.jump program { s with history } line (left (fun i => a (i + 1)) 4 ++ stack)
  | .branch .pushTarget line => some { s with rest, stack := .exit line :: s.stack }
  | .branch .caseValue line  =>
    match s.stack with
    | .long label :: .long v :: stack =>
      if label = v then s.jump program line (.long v :: stack)
      else some { s with rest, stack := .long v :: stack }
    | _ => none
  | .branch .caseRange line  =>
    match s.stack with
    | .long high :: .long low :: .long v :: stack =>
      if w.inRange low high v then s.jump program line (.long v :: stack)
      else some { s with rest, stack := .long v :: stack }
    | _ => none
  | .op .caseDone            =>
    match s.stack with
    | .long _ :: .exit line :: stack => s.jump program line stack
    | _ => none
  | .op .anchor              => some { s with rest, anchors := false :: s.anchors }
  | .op .anchorPush          => some { s with rest, anchors := true :: s.anchors }
  | .call m indexed          =>
    match s.anchors with
    | []              => none
    | keep :: anchors => do
      let (operands, stack) ← take (indexed.toNat + m.parameters) s.stack
      let (a, history) := w.operate (.call m indexed) operands s.history
      some { rest, stack := left a keep.toNat ++ stack, anchors, history }
  | .pop bytes               =>
    if bytes / 4 ≤ s.stack.length then some { s with rest, stack := s.stack.drop (bytes / 4) }
    else none
  | .op .returnResults       =>
    some { s with rest := none, history := (w.operate (.op .returnResults) [] s.history).2 }
  | .op .abort               =>
    some { s with rest := none, history := (w.operate (.op .abort) [] s.history).2 }
  | .op .returnArgs          => do
    let (operands, stack) ← take 1 s.stack
    some { s with rest := none, stack, history := (w.operate (.op .returnArgs) operands s.history).2 }
  | .op .abortArg            => do
    let (operands, stack) ← take 1 s.stack
    some { s with rest := none, stack, history := (w.operate (.op .abortArg) operands s.history).2 }
  | c                        => do
    let (taken, count) ← c.arity
    let (operands, stack) ← take taken s.stack
    let (a, history) := w.operate c operands s.history
    some { s with rest, stack := left a count ++ stack, history }

/-- One step, unless control has been handed back or there is nothing to go on with. -/
def step (s : Machine) : Option Machine :=
  match s.rest with
  | some (.mark _ :: rest) => some { s with rest }
  | some (.code c :: rest) => s.execute w program rest c
  | some []                => none
  | none                   => none

/-- What a number of steps lead to. -/
def runFor : (steps : Nat) → Machine → Option Machine
  | 0,         s => some s
  | steps + 1, s => (s.step w program).bind (runFor steps)

variable {w program} {a b c : Machine}

theorem runFor_add {m n : Nat} (h : a.runFor w program m = some b) :
    a.runFor w program (m + n) = b.runFor w program n := by
  induction m generalizing a with
  | zero =>
    cases h
    rw [Nat.zero_add]
  | succ m ih =>
    obtain ⟨a', ha, h⟩ := Option.bind_eq_some_iff.mp h
    rw [Nat.add_right_comm, runFor, ha]
    exact ih h

/-- A state is reached from another one. -/
def Reaches (w : World) (program : Listing) (a b : Machine) : Prop :=
  ∃ n, a.runFor w program n = some b

/-- A state is reached from another one by at least one step. -/
def Passes (w : World) (program : Listing) (a b : Machine) : Prop :=
  ∃ n, a.runFor w program (n + 1) = some b

theorem Reaches.refl (a : Machine) : Reaches w program a a := ⟨0, rfl⟩

theorem Reaches.trans (h : Reaches w program a b) (h' : Reaches w program b c) :
    Reaches w program a c := by
  obtain ⟨m, h⟩ := h
  obtain ⟨n, h'⟩ := h'
  exact ⟨m + n, (runFor_add h).trans h'⟩

theorem Passes.reaches (h : Passes w program a b) : Reaches w program a b := by
  obtain ⟨n, h⟩ := h
  exact ⟨n + 1, h⟩

/-- A step, and what is reached after it. -/
theorem Passes.step (h : a.step w program = some b) (h' : Reaches w program b c) :
    Passes w program a c := by
  obtain ⟨n, h'⟩ := h'
  refine ⟨n, ?_⟩
  rw [runFor, h]
  exact h'

theorem Passes.trans (h : Passes w program a b) (h' : Reaches w program b c) :
    Passes w program a c := by
  obtain ⟨m, h⟩ := h
  obtain ⟨n, h'⟩ := h'
  refine ⟨m + n, ?_⟩
  rw [Nat.add_right_comm]
  exact (runFor_add h).trans h'

theorem Reaches.passes (h : Reaches w program a b) (h' : Passes w program b c) :
    Passes w program a c := by
  obtain ⟨m, h⟩ := h
  obtain ⟨n, h'⟩ := h'
  exact ⟨m + n, (runFor_add h).trans h'⟩

theorem Reaches.step (h : a.step w program = some b) (h' : Reaches w program b c) :
    Reaches w program a c :=
  (Passes.step h h').reaches

theorem Passes.single (h : a.step w program = some b) : Passes w program a b := .step h (.refl b)

theorem Reaches.single (h : a.step w program = some b) : Reaches w program a b := .step h (.refl b)

/-! ### Single instructions -/

variable {rest : Listing} {stack : List Item} {anchors : List Bool} {h : History} {line : LineId}

@[simp]
theorem take_longs (vs : List Long) (stack : List Item) :
    take vs.length (vs.map .long ++ stack) = some (vs, stack) := by
  induction vs with
  | nil => rfl
  | cons v vs ih =>
    rw [List.length_cons, List.map_cons, List.cons_append, take, ih]
    rfl

theorem step_mark :
    step w program ⟨some (.mark line :: rest), stack, anchors, h⟩ = some ⟨some rest, stack, anchors, h⟩ :=
  rfl

/-- An instruction that does not jump takes its operands and leaves its answer. -/
theorem step_plain {c : Code} {count : Nat} {operands : List Long}
    (hc : c.arity = some (operands.length, count)) :
    step w program ⟨some (.code c :: rest), operands.map .long ++ stack, anchors, h⟩ =
      some ⟨some rest, left (w.operate c operands h).1 count ++ stack, anchors,
        (w.operate c operands h).2⟩ := by
  have hplain : execute w program ⟨some (.code c :: rest), operands.map .long ++ stack, anchors, h⟩
      rest c = (take operands.length (operands.map .long ++ stack)).bind fun (operands, stack) =>
        some ⟨some rest, left (w.operate c operands h).1 count ++ stack, anchors,
          (w.operate c operands h).2⟩ := by
    cases c with
    | op o =>
      cases o with
      | unary | binary =>
        obtain ⟨hlength, rfl⟩ := Prod.mk.inj (Option.some.inj hc)
        rw [← hlength]
        rfl
      | _ => nomatch hc
    | constant value | inline origin block =>
      obtain ⟨hlength, rfl⟩ := Prod.mk.inj (Option.some.inj hc)
      rw [← hlength]
      rfl
    | debug values record =>
      obtain ⟨rfl, rfl⟩ := Prod.mk.inj (Option.some.inj hc)
      rfl
    | access setup o => exact congrArg (Option.bind · _) hc
    | _ => nomatch hc
  rw [take_longs] at hplain
  exact hplain

theorem step_binary {op : BinaryOp} {x y : Long} :
    step w program ⟨some (.code (.op (.binary op)) :: rest), .long y :: .long x :: stack, anchors, h⟩ =
      some ⟨some rest, .long ((w.operate (.op (.binary op)) [y, x] h).1 0) :: stack, anchors,
        (w.operate (.op (.binary op)) [y, x] h).2⟩ := by
  have harity : (Code.op (.binary op)).arity = some ([y, x].length, 1) := rfl
  exact step_plain harity

theorem step_call {m : Method} {indexed keep : Bool} {operands : List Long}
    (hlength : operands.length = indexed.toNat + m.parameters) :
    step w program ⟨some (.code (.call m indexed) :: rest), operands.map .long ++ stack,
        keep :: anchors, h⟩ =
      some ⟨some rest, left (w.operate (.call m indexed) operands h).1 keep.toNat ++ stack, anchors,
        (w.operate (.call m indexed) operands h).2⟩ := by
  have htake := take_longs operands stack
  rw [hlength] at htake
  exact congrArg (Option.bind · _) htake

theorem step_pop {n : Nat} (hn : n ≤ stack.length) :
    step w program ⟨some (.code (.pop (4 * n)) :: rest), stack, anchors, h⟩ =
      some ⟨some rest, stack.drop n, anchors, h⟩ := by
  have hdiv : 4 * n / 4 = n := Nat.mul_div_cancel_left n (Nat.succ_pos 3)
  refine (if_pos (hdiv.symm ▸ hn)).trans ?_
  rw [hdiv]

section Jumps

variable {target : Listing} (hl : program.after line = some target)

include hl

theorem jump_eq (s : Machine) (stack : List Item) :
    s.jump program line stack = some { s with rest := some target, stack } := by
  rw [jump, hl]
  rfl

theorem step_jmp :
    step w program ⟨some (.code (.branch .jmp line) :: rest), stack, anchors, h⟩ =
      some ⟨some target, stack, anchors, h⟩ :=
  jump_eq hl _ stack

theorem step_jz (v : Long) :
    step w program ⟨some (.code (.branch .jz line) :: rest), .long v :: stack, anchors, h⟩ =
      some ⟨some (if v = 0 then target else rest), stack, anchors, h⟩ := by
  by_cases hv : v = 0
  · rw [if_pos hv]
    exact (if_pos hv).trans (jump_eq hl _ stack)
  · rw [if_neg hv]
    exact if_neg hv

theorem step_jnz (v : Long) :
    step w program ⟨some (.code (.branch .jnz line) :: rest), .long v :: stack, anchors, h⟩ =
      some ⟨some (if v = 0 then rest else target), stack, anchors, h⟩ := by
  by_cases hv : v = 0
  · rw [if_pos hv]
    exact if_pos hv
  · rw [if_neg hv]
    exact (if_neg hv).trans (jump_eq hl _ stack)

theorem step_tjz_zero :
    step w program ⟨some (.code (.branch .tjz line) :: rest), .long 0 :: stack, anchors, h⟩ =
      some ⟨some target, stack, anchors, h⟩ :=
  jump_eq hl _ stack

theorem step_djnz {v : Long} (hv : v - 1 ≠ 0) :
    step w program ⟨some (.code (.branch .djnz line) :: rest), .long v :: stack, anchors, h⟩ =
      some ⟨some target, .long (v - 1) :: stack, anchors, h⟩ :=
  (if_neg hv).trans (jump_eq hl _ _)

theorem step_caseValue (label v : Long) :
    step w program ⟨some (.code (.branch .caseValue line) :: rest),
        .long label :: .long v :: stack, anchors, h⟩ =
      some ⟨some (if label = v then target else rest), .long v :: stack, anchors, h⟩ := by
  by_cases hv : label = v
  · rw [if_pos hv]
    exact (if_pos hv).trans (jump_eq hl _ _)
  · rw [if_neg hv]
    exact if_neg hv

theorem step_caseRange (low high v : Long) :
    step w program ⟨some (.code (.branch .caseRange line) :: rest),
        .long high :: .long low :: .long v :: stack, anchors, h⟩ =
      some ⟨some (if w.inRange low high v then target else rest), .long v :: stack, anchors, h⟩ := by
  by_cases hv : w.inRange low high v = true
  · rw [if_pos hv]
    exact (if_pos hv).trans (jump_eq hl _ _)
  · rw [if_neg hv]
    exact if_neg hv

theorem step_caseDone (v : Long) :
    step w program ⟨some (.code (.op .caseDone) :: rest), .long v :: .exit line :: stack, anchors, h⟩ =
      some ⟨some target, stack, anchors, h⟩ :=
  jump_eq hl _ stack

end Jumps

/-- A loop over a range goes to its next value. -/
theorem step_repeatLoop {target : Listing} (hl : program.after line = some target) {a b : Nat → Long}
    (hb : (w.perform (.advance [a 0, a 1, a 2, a 3]) h).1 = b) (hgo : b 0 ≠ 0) :
    step w program ⟨some (.code (.branch .repeatLoop line) :: rest), left a 4 ++ stack, anchors, h⟩ =
      some ⟨some target, left (fun i => b (i + 1)) 4 ++ stack, anchors,
        (w.perform (.advance [a 0, a 1, a 2, a 3]) h).2⟩ := by
  subst hb
  refine (if_neg hgo).trans ?_
  exact jump_eq hl _ _

theorem step_repeatLoop_last {a : Nat → Long}
    (hend : (w.perform (.advance [a 0, a 1, a 2, a 3]) h).1 0 = 0) :
    step w program ⟨some (.code (.branch .repeatLoop line) :: rest), left a 4 ++ stack, anchors, h⟩ =
      some ⟨some rest, stack, anchors, (w.perform (.advance [a 0, a 1, a 2, a 3]) h).2⟩ :=
  if_pos hend

theorem step_tjz {v : Long} (hv : v ≠ 0) :
    step w program ⟨some (.code (.branch .tjz line) :: rest), .long v :: stack, anchors, h⟩ =
      some ⟨some rest, .long v :: stack, anchors, h⟩ :=
  if_neg hv

theorem step_djnz_zero {v : Long} (hv : v - 1 = 0) :
    step w program ⟨some (.code (.branch .djnz line) :: rest), .long v :: stack, anchors, h⟩ =
      some ⟨some rest, stack, anchors, h⟩ :=
  if_pos hv

end Machine

end Propeller
