import Propeller.Bytecode.LineTree

/-!
# Bytecode — what instructions do to the stack

The interpreter keeps longs on a stack.  As far as control flow is concerned a long is a number or the
address of a line, which `pushTarget` leaves for the end of a selection, and calls that have begun are
remembered apart from it.  `Shape` says what is on the stack in these terms, and `Code.effect` what an
instruction makes of it: the shape with which the next instruction goes on, and the line that may be
jumped to with its shape.

A listing is consistent with shapes for the beginnings of its lines when every instruction finds what
it takes, and every way to a line leads there with the shape of the line (`Listing.flow`).  The size of
a shape is the depth of the stack, so that each line has one, and none is ever below zero.
-/

namespace Propeller

variable {count taken left jump : Nat} {keep indexed : Bool} {c : Code} {b : Branch} {next : Option Nat}
  {a rest : Listing} {r : Shape} {line : LineId} {m : Method}

/-- What a long of the stack is for. -/
inductive Cell
  | long
  /-- The address of a line, where a selection ends. -/
  | exit (line : LineId)
deriving DecidableEq

/-- What is on the stack, the top first, and the calls that have begun, the last one first, with
whether their result is kept. -/
structure Shape where
  cells : List Cell := []
  anchors : List Bool := []
deriving DecidableEq

namespace Shape

/-- How many longs are on the stack. -/
def depth (s : Shape) : Nat := s.cells.length

/-- Longs are put on the stack. -/
def push (count : Nat) (s : Shape) : Shape := { s with cells := List.replicate count .long ++ s.cells }

/-- Longs are taken from the stack, if they are there. -/
def pop : (count : Nat) → Shape → Option Shape
  | 0,         s                        => some s
  | count + 1, ⟨.long :: cells, anchors⟩ => pop count ⟨cells, anchors⟩
  | _ + 1,     _                        => none

/-- A call begins. -/
def anchor (keep : Bool) (s : Shape) : Shape := { s with anchors := keep :: s.anchors }

/-- A call ends: its operands are taken, and its result is left if it is kept. -/
def call (operands : Nat) (s : Shape) : Option Shape :=
  match s.anchors with
  | []              => none
  | keep :: anchors => do
    let rest ← s.pop operands
    return { rest with anchors }.push keep.toNat

@[simp]
theorem pop_push (s : Shape) (count : Nat) : (s.push count).pop count = some s := by
  induction count with
  | zero => rfl
  | succ count ih => exact ih

/-- What longs have been taken from had them on top. -/
theorem eq_push_of_pop {s rest : Shape} (h : s.pop count = some rest) : s = rest.push count := by
  induction count generalizing s with
  | zero => exact Option.some.inj h
  | succ count ih =>
    obtain ⟨cells, anchors⟩ := s
    cases cells with
    | nil => nomatch h
    | cons cell cells =>
      cases cell with
      | long =>
        have hrest : (⟨cells, anchors⟩ : Shape) = rest.push count := ih h
        have hcells : cells = (rest.push count).cells := congrArg Shape.cells hrest
        have hanchors : anchors = rest.anchors := congrArg Shape.anchors hrest
        rw [hcells, hanchors]
        rfl
      | exit line => nomatch h

theorem push_inj {s t : Shape} (h : s.push count = t.push count) : s = t := by
  have hpop := congrArg (pop count) h
  rw [pop_push, pop_push] at hpop
  exact Option.some.inj hpop

theorem anchor_inj {s t : Shape} {keep' : Bool} (h : s.anchor keep = t.anchor keep') :
    s = t ∧ keep = keep' := by
  cases s
  cases t
  simpa [anchor, and_comm, and_assoc] using h

@[simp]
theorem push_zero (s : Shape) : s.push 0 = s := rfl

@[simp]
theorem push_push (s : Shape) (m n : Nat) : (s.push m).push n = s.push (n + m) := by
  simp [push, ← List.append_assoc]

@[simp]
theorem depth_push (s : Shape) (count : Nat) : (s.push count).depth = s.depth + count := by
  simp [depth, push, Nat.add_comm]

@[simp]
theorem call_push_anchor (s : Shape) (keep : Bool) (operands : Nat) :
    ((s.anchor keep).push operands).call operands = some (s.push keep.toNat) := by
  have hpop := pop_push (s.anchor keep) operands
  simp only [call]
  simp only [push, anchor] at hpop ⊢
  rw [hpop]
  rfl

/-- A call that ends has begun, with its operands on top. -/
theorem eq_anchor_of_call {s t : Shape} {operands : Nat} (h : s.call operands = some t) :
    ∃ (r : Shape) (keep : Bool), s = (r.anchor keep).push operands ∧ t = r.push keep.toNat := by
  obtain ⟨cells, anchors⟩ := s
  cases anchors with
  | nil => nomatch h
  | cons keep anchors =>
    obtain ⟨rest, hrest, ht⟩ := Option.bind_eq_some_iff.mp h
    have hs := eq_push_of_pop hrest
    have hanchors : keep :: anchors = rest.anchors := congrArg Shape.anchors hs
    refine ⟨{ rest with anchors }, keep, ?_, (Option.some.inj ht).symm⟩
    rw [hs, anchor, hanchors]

end Shape

/-- What an instruction does: the shape that the next one finds, unless control never gets there, and a
line that may be jumped to, with the shape that it is reached with. -/
structure Effect where
  next : Option Shape
  jump : Option (LineId × Shape) := none
deriving DecidableEq

/-- How many longs an instruction that does not jump takes, and how many it leaves. -/
def Code.arity : Code → Option (Nat × Nat)
  | .constant _     => some (0, 1)
  | .op (.unary _)  => some (1, 1)
  | .op (.binary _) => some (2, 1)
  | .access setup o =>
    match o with
    | .read       => some (setup.indexed.toNat, 1)
    | .address    => some (setup.indexed.toNat, 1)
    | .write      => some (setup.indexed.toNat + 1, 0)
    | .repeatInit => some (setup.indexed.toNat + 3, 4)
    | _           => none
  | .inline _ _     => some (0, 0)
  | .debug values _ => some (values, 0)
  | _               => none

/-- How many longs a branch takes, how many it leaves when it goes on to the next instruction, unless it
never does, and how many when it jumps. -/
def Branch.arity : Branch → Option (Nat × Option Nat × Nat)
  | .jmp        => some (0, none, 0)
  | .jz         => some (1, some 0, 0)
  | .jnz        => some (1, some 0, 0)
  -- the count stays on the stack while the loop runs
  | .tjz        => some (1, some 1, 0)
  | .djnz       => some (1, some 0, 1)
  | .repeatLoop => some (4, some 0, 4)
  -- and so does the value that labels are compared with
  | .caseValue  => some (2, some 1, 1)
  | .caseRange  => some (3, some 1, 1)
  | .pushTarget => none

/-- What an instruction does to a stack of a shape, if it finds what it takes. -/
def Code.effect (s : Shape) : Code → Option Effect
  | .branch .pushTarget line => some { next := some { s with cells := .exit line :: s.cells } }
  | .branch b line           =>
    b.arity.bind fun (taken, next, jump) => (s.pop taken).map fun rest =>
      { next := next.map rest.push, jump := (line, rest.push jump) }
  | .op .caseDone            =>
    match s.cells with
    | .long :: .exit line :: cells => some { next := none, jump := (line, { s with cells }) }
    | _                            => none
  | .op .anchor              => some { next := s.anchor false }
  | .op .anchorPush          => some { next := s.anchor true }
  | .call m indexed          => do
    let next ← s.call (indexed.toNat + m.parameters)
    -- a result that is kept has to be there
    if s.anchors.head? = some true ∧ m.returns = 0 then none else return { next }
  | .pop bytes               =>
    if 4 ∣ bytes ∧ bytes / 4 ≤ s.depth then
      some { next := some { s with cells := s.cells.drop (bytes / 4) } }
    else none
  | .op .returnResults       => some { next := none }
  | .op .abort               => some { next := none }
  | .op .returnArgs          => do
    let _ ← s.pop 1
    return { next := none }
  | .op .abortArg            => do
    let _ ← s.pop 1
    return { next := none }
  | c                        =>
    c.arity.bind fun (taken, left) => (s.pop taken).map fun rest => { next := some (rest.push left) }

/-- An instruction that does not jump replaces what it takes by what it leaves. -/
theorem Code.effect_plain (h : c.arity = some (taken, left)) (s : Shape) :
    c.effect s = (s.pop taken).map fun r => { next := some (r.push left) } := by
  cases c with
  | op o =>
    cases o with
    | unary | binary => cases h; rfl
    | _ => nomatch h
  | constant value => cases h; rfl
  | access setup o =>
    simp only [effect, h]
    rfl
  | inline | debug => cases h; rfl
  | _ => nomatch h

/-- A branch replaces what it takes by what it leaves for the way that it goes. -/
theorem Code.effect_branch (h : b.arity = some (taken, next, jump)) (line : LineId) (s : Shape) :
    (Code.branch b line).effect s = (s.pop taken).map fun r =>
      { next := next.map r.push, jump := some (line, r.push jump) } := by
  cases b with
  | pushTarget => nomatch h
  | _ => cases h; rfl

/-! ### Consistent listings -/

/-- One piece of a listing, with the shapes that its lines begin with: what comes behind it, or nothing
if the piece is not consistent.  Where control never gets there is no shape.  A line gives the place
its own one, and an instruction may not stand there. -/
def Entry.flow (E : LineId → Option Shape) : Entry → Option Shape → Option (Option Shape)
  | .mark line, none   => (E line).map some
  | .mark line, some s => if E line = some s then some (some s) else none
  | .code _,    none   => none
  | .code c,    some s => do
    let effect ← c.effect s
    if ∀ target ∈ effect.jump, E target.1 = some target.2 then return effect.next else none

namespace Listing

variable {E : LineId → Option Shape} {s t : Option Shape}

/-- A listing, with the shapes that its lines begin with: what comes behind it, or nothing if the
listing is not consistent. -/
def flow (E : LineId → Option Shape) (s : Option Shape) (l : Listing) : Option (Option Shape) :=
  l.foldlM (fun s e => e.flow E s) s

@[simp]
theorem flow_nil : flow E s [] = some s := rfl

theorem flow_cons (e : Entry) (rest : Listing) :
    flow E s (e :: rest) = (e.flow E s).bind fun t => flow E t rest := List.foldlM_cons

theorem flow_append (a b : Listing) :
    flow E s (a ++ b) = (flow E s a).bind fun t => flow E t b := List.foldlM_append

/-- What follows goes on with what comes behind. -/
theorem flow_trans {b : Listing} (h : flow E s a = some t) : flow E s (a ++ b) = flow E t b := by
  rw [flow_append, h]
  rfl

/-- A consistent listing consists of consistent ones. -/
theorem flow_append_eq_some {b : Listing} :
    flow E s (a ++ b) = some t ↔ ∃ r, flow E s a = some r ∧ flow E r b = some t := by
  rw [flow_append]
  exact Option.bind_eq_some_iff

/-- A line begins with its shape, which is the shape before it unless control never gets there. -/
theorem flow_mark (hs : s = none ∨ s = some r) (hl : E line = some r) (rest : Listing) :
    flow E s (.mark line :: rest) = flow E (some r) rest := by
  rw [flow_cons]
  rcases hs with rfl | rfl
  · simp [Entry.flow, hl]
  · simp [Entry.flow, hl]

theorem flow_code {effect : Effect} (he : c.effect r = some effect)
    (hj : ∀ target ∈ effect.jump, E target.1 = some target.2) (rest : Listing) :
    flow E (some r) (.code c :: rest) = flow E effect.next rest := by
  rw [flow_cons]
  simp only [Entry.flow, he]
  exact congrArg (Option.bind · _) (if_pos hj)

/-- An instruction that does not jump. -/
theorem flow_plain (h : c.arity = some (taken, left)) (r : Shape) (rest : Listing) :
    flow E (some (r.push taken)) (.code c :: rest) = flow E (some (r.push left)) rest := by
  have he : c.effect (r.push taken) = some { next := some (r.push left) } := by
    rw [Code.effect_plain h, Shape.pop_push]
    rfl
  exact flow_code he (by simp) rest

section Control

variable {r : Shape} {line : LineId}

theorem flow_branch (hb : b.arity = some (taken, next, jump)) (h : E line = some (r.push jump))
    (rest : Listing) :
    flow E (some (r.push taken)) (.code (.branch b line) :: rest) =
      flow E (next.map r.push) rest := by
  have he : (Code.branch b line).effect (r.push taken) =
      some { next := next.map r.push, jump := (line, r.push jump) } := by
    rw [Code.effect_branch hb, Shape.pop_push]
    rfl
  exact flow_code he (by simpa using h) rest

theorem flow_jmp (h : E line = some r) (rest : Listing) :
    flow E (some r) (.code (.branch .jmp line) :: rest) = flow E none rest :=
  flow_branch (b := .jmp) rfl h rest

theorem flow_jz (h : E line = some r) (rest : Listing) :
    flow E (some (r.push 1)) (.code (.branch .jz line) :: rest) = flow E (some r) rest :=
  flow_branch (b := .jz) rfl h rest

theorem flow_jnz (h : E line = some r) (rest : Listing) :
    flow E (some (r.push 1)) (.code (.branch .jnz line) :: rest) = flow E (some r) rest :=
  flow_branch (b := .jnz) rfl h rest

theorem flow_tjz (h : E line = some r) (rest : Listing) :
    flow E (some (r.push 1)) (.code (.branch .tjz line) :: rest) = flow E (some (r.push 1)) rest :=
  flow_branch (b := .tjz) rfl h rest

theorem flow_djnz (h : E line = some (r.push 1)) (rest : Listing) :
    flow E (some (r.push 1)) (.code (.branch .djnz line) :: rest) = flow E (some r) rest :=
  flow_branch (b := .djnz) rfl h rest

theorem flow_repeatLoop (h : E line = some (r.push 4)) (rest : Listing) :
    flow E (some (r.push 4)) (.code (.branch .repeatLoop line) :: rest) = flow E (some r) rest :=
  flow_branch (b := .repeatLoop) rfl h rest

theorem flow_caseValue (h : E line = some (r.push 1)) (rest : Listing) :
    flow E (some (r.push 2)) (.code (.branch .caseValue line) :: rest) =
      flow E (some (r.push 1)) rest :=
  flow_branch (b := .caseValue) rfl h rest

theorem flow_caseRange (h : E line = some (r.push 1)) (rest : Listing) :
    flow E (some (r.push 3)) (.code (.branch .caseRange line) :: rest) =
      flow E (some (r.push 1)) rest :=
  flow_branch (b := .caseRange) rfl h rest

theorem flow_pushTarget (rest : Listing) :
    flow E (some r) (.code (.branch .pushTarget line) :: rest) =
      flow E (some { r with cells := .exit line :: r.cells }) rest := by
  have he : (Code.branch .pushTarget line).effect r =
    some { next := some { r with cells := .exit line :: r.cells } } := rfl
  exact flow_code he (by simp) rest

theorem flow_caseDone (h : E line = some r) (rest : Listing) :
    flow E (some { r with cells := .long :: .exit line :: r.cells }) (.code (.op .caseDone) :: rest) =
      flow E none rest := by
  have he : (Code.op .caseDone).effect { r with cells := .long :: .exit line :: r.cells } =
    some { next := none, jump := (line, r) } := rfl
  exact flow_code he (by simpa using h) rest

theorem flow_anchor (rest : Listing) :
    flow E (some r) (.code (.op .anchor) :: rest) = flow E (some (r.anchor false)) rest := by
  have he : (Code.op .anchor).effect r = some { next := r.anchor false } := rfl
  exact flow_code he (by simp) rest

theorem flow_anchorPush (rest : Listing) :
    flow E (some r) (.code (.op .anchorPush) :: rest) = flow E (some (r.anchor true)) rest := by
  have he : (Code.op .anchorPush).effect r = some { next := r.anchor true } := rfl
  exact flow_code he (by simp) rest

/-- A call takes its operands, and leaves a result if one is kept, which the method has to have. -/
theorem flow_call (hm : keep = true → m.returns ≠ 0) (rest : Listing) :
    flow E (some ((r.anchor keep).push (indexed.toNat + m.parameters)))
        (.code (.call m indexed) :: rest) = flow E (some (r.push keep.toNat)) rest := by
  have he : (Code.call m indexed).effect ((r.anchor keep).push (indexed.toNat + m.parameters)) =
      some { next := r.push keep.toNat } := by
    simp only [Code.effect, Shape.call_push_anchor, Option.bind_eq_bind, Option.bind_some]
    exact if_neg fun h => hm (by simpa [Shape.push, Shape.anchor] using h.1) h.2
  exact flow_code he (by simp) rest

/-- What is dropped may also be the address of a line. -/
theorem flow_pop (h : count ≤ r.depth) (rest : Listing) :
    flow E (some r) (.code (.pop (4 * count)) :: rest) =
      flow E (some { r with cells := r.cells.drop count }) rest := by
  have he : (Code.pop (4 * count)).effect r =
      some { next := some { r with cells := r.cells.drop count } } := by
    simp [Code.effect, h, Nat.dvd_mul_right]
  exact flow_code he (by simp) rest

end Control

/-! ### What a consistent listing is reached with -/

theorem flow_mark_eq_some (h : flow E s (.mark line :: rest) = some t) :
    ∃ r, E line = some r ∧ (s = none ∨ s = some r) ∧ flow E (some r) rest = some t := by
  rw [flow_cons] at h
  obtain ⟨u, hmark, hrest⟩ := Option.bind_eq_some_iff.mp h
  cases s with
  | none =>
    obtain ⟨r, hr, rfl⟩ := Option.map_eq_some_iff.mp hmark
    exact ⟨r, hr, .inl rfl, hrest⟩
  | some r =>
    obtain ⟨hr, rfl⟩ : E line = some r ∧ some r = u := by simpa [Entry.flow] using hmark
    exact ⟨r, hr, .inr rfl, hrest⟩

theorem flow_code_eq_some (h : flow E s (.code c :: rest) = some t) :
    ∃ r effect, s = some r ∧ c.effect r = some effect ∧
      (∀ target ∈ effect.jump, E target.1 = some target.2) ∧ flow E effect.next rest = some t := by
  rw [flow_cons] at h
  obtain ⟨u, hcode, hrest⟩ := Option.bind_eq_some_iff.mp h
  cases s with
  | none => nomatch hcode
  | some r =>
    obtain ⟨effect, he, hjump⟩ := Option.bind_eq_some_iff.mp hcode
    obtain ⟨hj, hnext⟩ := Option.ite_none_right_eq_some.mp hjump
    exact ⟨r, effect, rfl, he, hj, Option.some.inj hnext ▸ hrest⟩

theorem flow_plain_eq_some (hc : c.arity = some (taken, left)) (h : flow E s (.code c :: rest) = some t) :
    ∃ r : Shape, s = some (r.push taken) ∧ flow E (some (r.push left)) rest = some t := by
  obtain ⟨q, effect, rfl, he, -, hrest⟩ := flow_code_eq_some h
  rw [Code.effect_plain hc] at he
  obtain ⟨r, hpop, rfl⟩ := Option.map_eq_some_iff.mp he
  exact ⟨r, congrArg some (Shape.eq_push_of_pop hpop), hrest⟩

theorem flow_branch_eq_some (hb : b.arity = some (taken, next, jump))
    (h : flow E s (.code (.branch b line) :: rest) = some t) :
    ∃ r : Shape, s = some (r.push taken) ∧ E line = some (r.push jump) ∧
      flow E (next.map r.push) rest = some t := by
  obtain ⟨q, effect, rfl, he, hjump, hrest⟩ := flow_code_eq_some h
  rw [Code.effect_branch hb] at he
  obtain ⟨r, hpop, rfl⟩ := Option.map_eq_some_iff.mp he
  exact ⟨r, congrArg some (Shape.eq_push_of_pop hpop), hjump _ rfl, hrest⟩

theorem flow_anchorPush_eq_some (h : flow E s (.code (.op .anchorPush) :: rest) = some t) :
    ∃ r : Shape, s = some r ∧ flow E (some (r.anchor true)) rest = some t := by
  obtain ⟨r, effect, rfl, he, -, hrest⟩ := flow_code_eq_some h
  cases Option.some.inj he
  exact ⟨r, rfl, hrest⟩

theorem flow_call_eq_some (h : flow E s (.code (.call m indexed) :: rest) = some t) :
    ∃ (r : Shape) (keep : Bool), s = some ((r.anchor keep).push (indexed.toNat + m.parameters)) ∧
      flow E (some (r.push keep.toNat)) rest = some t := by
  obtain ⟨q, effect, rfl, he, -, hrest⟩ := flow_code_eq_some h
  obtain ⟨next, hcall, he⟩ := Option.bind_eq_some_iff.mp he
  obtain ⟨-, he⟩ := Option.ite_none_left_eq_some.mp he
  cases Option.some.inj he
  obtain ⟨r, keep, rfl, rfl⟩ := Shape.eq_anchor_of_call hcall
  exact ⟨r, keep, rfl, hrest⟩

end Listing

end Propeller
