import Propeller.Proofs.Case.Assembly
import Propeller.Proofs.Compile.Induction

/-!
# Case — bytecode in capitals

The code of a term or of a command refers to variables, methods and constants.  With all names in capitals
it refers to the same ones, by their numbers, offsets and values, so that it is the same code with its
names in capitals (`Command.body_upper`), takes the same room and has the same bytes (`layoutMethods_upper`,
`emitListing_upper`).
-/

namespace Propeller

variable {ts : List Term} {t : Option Term} {cs : List Command} {bs : List (List Command)}

/-! ### Instructions -/

/-- A slot with all names in capitals. -/
def Slot.upper : Slot → Slot
  | register address => register address.upper
  | objectVar v      => objectVar v.upper
  | localVar v       => localVar v.upper
  | dat offset       => dat offset.upper

/-- An access with all names in capitals. -/
def Setup.upper (s : Setup) : Setup := { s with slot := s.slot.upper }

/-- An instruction with all names in capitals. -/
def Code.upper : Code → Code
  | op o                => op o
  | constant value      => constant value.upper
  | branch b line       => branch b line
  | pop bytes           => pop bytes
  | access setup o      => access setup.upper o
  | call m indexed      => call m.upper indexed
  | inline origin block => inline origin block
  | debug values record => debug values record

/-- A piece of a listing with all names in capitals. -/
def Entry.upper : Entry → Entry
  | mark line => mark line
  | code c    => code c.upper

/-- A listing with all names in capitals. -/
def Body.upper (b : Body) : Body := { b with listing := b.listing.map Entry.upper }

/-- What has been decided, with all names in capitals. -/
def Resolution.upper (r : Resolution) : Resolution :=
  { r with environment := r.environment.upper }

section Encode

variable {r : Resolution} (hm : ∀ m : Method, r.methodIndex m.upper = r.methodIndex m)

theorem Slot.toOption_word_upper (env : Environment) (e : Expression) :
    (word env.upper e.upper).toOption = (word env e).toOption := by
  simp [word]

theorem Slot.toOption_place_upper (s : Slot) :
    (s.upper.place r.upper).toOption = (s.place r).toOption := by
  cases s with
  | register address => simp [place, upper, Resolution.upper, toOption_word_upper]
  | objectVar | localVar => rfl
  | dat offset => simp [place, upper, Resolution.upper, toOption_word_upper]

namespace Code

include hm

/-- The bytes of an instruction do not depend on the case of names. -/
theorem toOption_encode_upper (here : Int) (lines : Array Int) (c : Code) :
    (c.upper.encode r.upper here lines).toOption = (c.encode r here lines).toOption := by
  cases c with
  | constant value => simp [encode, upper, Resolution.upper]
  | access setup o =>
    have hplace := setup.slot.toOption_place_upper (r := r)
    simp [encode, upper, Setup.upper, hplace]
  | call m indexed =>
    have hindex : r.upper.methodIndex m.upper = r.methodIndex m := hm m
    simp only [encode, upper, hindex]
    rfl
  | _ => rfl

theorem size_upper (here : Int) (lines : Array Int) (c : Code) :
    c.upper.size r.upper here lines = c.size r here lines := by
  simp only [size]
  obtain ⟨bytes, h, h'⟩ | ⟨e, e', h, h'⟩ :=
    ok_or_error_of_toOption (toOption_encode_upper hm here lines c)
  · rw [h, h']
  · rw [h, h']
    cases c <;> rfl

end Code

/-! ### Layout -/

include hm

theorem sweep_upper (listing : Listing) (here : Int) (lines : Array Int) :
    sweep r.upper (listing.map Entry.upper) here lines = sweep r listing here lines := by
  induction listing generalizing here lines with
  | nil => rfl
  | cons entry rest ih =>
    cases entry with
    | mark line => simp only [List.map_cons, Entry.upper, sweep, ih]
    | code c => simp only [List.map_cons, Entry.upper, sweep, Code.size_upper hm, ih]

theorem layoutRound_upper (here : Int) (methods : List (Body × MethodLayout)) :
    layoutRound r.upper here (methods.map (Prod.map Body.upper id)) =
      (layoutRound r here methods).map (List.map (Prod.map Body.upper id)) id := by
  induction methods generalizing here with
  | nil => rfl
  | cons m rest ih =>
    obtain ⟨body, layout⟩ := m
    simp only [List.map_cons, Prod.map, id, layoutRound, Body.upper, sweep_upper hm, ih]

theorem layoutWithin_upper (start : Int) (rounds : Nat) (methods : List (Body × MethodLayout)) :
    layoutWithin r.upper start rounds (methods.map (Prod.map Body.upper id)) =
      (layoutWithin r start rounds methods).map (List.map (Prod.map Body.upper id)) := by
  induction rounds generalizing methods with
  | zero => rfl
  | succ rounds ih =>
    simp only [layoutWithin, layoutRound_upper hm]
    obtain ⟨next, moved⟩ := layoutRound r start methods
    cases moved with
    | false => rfl
    | true => exact ih next

/-- **Where methods are** does not depend on the case of names. -/
theorem layoutMethods_upper (start : Int) (limit : Nat) (bodies : List Body) :
    (layoutMethods r.upper start limit (bodies.map Body.upper)).toOption =
      (layoutMethods r start limit bodies).toOption := by
  have hblank : ((bodies.map Body.upper).map fun b =>
      (b, { lines := Array.replicate b.lineCount 0 : MethodLayout })) =
      (bodies.map fun b => (b, { lines := Array.replicate b.lineCount 0 : MethodLayout })).map
        (Prod.map Body.upper id) := by
    simp [Function.comp_def, Prod.map, Body.upper]
  simp only [layoutMethods, hblank, layoutWithin_upper hm]
  cases layoutWithin r start limit _ with
  | none => rfl
  | some methods => simp [Function.comp_def]

theorem emitListing_upper (lines : Array Int) (listing : Listing) (here : Int) :
    (emitListing r.upper lines (listing.map Entry.upper) here).1 =
        (emitListing r lines listing here).1 ∧
      ((emitListing r.upper lines (listing.map Entry.upper) here).2 = none ↔
        (emitListing r lines listing here).2 = none) := by
  induction listing generalizing here with
  | nil => exact ⟨rfl, Iff.rfl⟩
  | cons entry rest ih =>
    cases entry with
    | mark line => exact ih here
    | code c =>
      simp only [List.map_cons, Entry.upper, emitListing]
      obtain ⟨bytes, h, h'⟩ | ⟨e, e', h, h'⟩ :=
        ok_or_error_of_toOption (Code.toOption_encode_upper hm here lines c)
      · rw [h, h']
        obtain ⟨hbytes, hproblem⟩ := ih (here + bytes.length)
        exact ⟨congrArg (bytes ++ ·) hbytes, hproblem⟩
      · rw [h, h']
        exact ⟨rfl, by simp⟩

end Encode

/-! ### Terms -/

/-- A variable with all names in capitals. -/
def Variable.upper (v : Variable) : Variable := { v with slot := v.slot.upper }

@[simp]
theorem Variable.access_upper (v : Variable) (indexed : Bool) (o : Op) :
    v.upper.access indexed o = (v.access indexed o).upper := rfl

@[simp]
theorem Entry.upper_op (o : Op) : (Entry.op o).upper = .op o := rfl

@[simp]
theorem Entry.upper_branch (b : Branch) (line : LineId) :
    (Entry.branch b line).upper = .branch b line := rfl

@[simp]
theorem Entry.upper_code (c : Code) : (Entry.code c).upper = .code c.upper := rfl

@[simp]
theorem Entry.upper_mark (line : LineId) : (Entry.mark line).upper = .mark line := rfl

namespace Term

mutual

/-- A term with all names in capitals. -/
def upper : Term → Term
  | constant value         => constant value.upper
  | read v index           => read v.upper (upperOpt index)
  | address v index        => address v.upper (upperOpt index)
  | unary op operand       => unary op operand.upper
  | binary op left right   => binary op left.upper right.upper
  | ternary c yes no       => ternary c.upper yes.upper no.upper
  | call m arguments index => call m.upper (upperAll arguments) (upperOpt index)

/-- Terms with all names in capitals. -/
def upperAll : List Term → List Term
  | []      => []
  | t :: ts => t.upper :: upperAll ts

/-- A term that may be missing, with all names in capitals. -/
def upperOpt : Option Term → Option Term
  | none   => none
  | some t => some t.upper

end

@[simp]
theorem upperAll_eq (ts : List Term) : upperAll ts = ts.map upper := by
  induction ts with
  | nil => rfl
  | cons t ts ih => rw [upperAll, ih, List.map_cons]

@[simp]
theorem upperOpt_eq (t : Option Term) : upperOpt t = t.map upper := by
  cases t <;> rfl

section Lines

theorem linesAll_map_upper (h : ∀ t ∈ ts, t.upper.lines = t.lines) :
    linesAll (ts.map upper) = linesAll ts := by
  induction ts with
  | nil => rfl
  | cons t ts ih =>
    obtain ⟨ht, hts⟩ := List.forall_mem_cons.mp h
    rw [List.map_cons, linesAll, linesAll, ht, ih hts]

@[simp]
theorem lines_upper (t : Term) : t.upper.lines = t.lines := by
  induction t using Term.induct with
  | constant value => rfl
  | read v index hi | address v index hi =>
    simp [upper, lines, linesOpt_eq, Option.toList_map, linesAll_map_upper hi]
  | unary op operand ih => exact ih
  | binary op left right ihl ihr => simp only [upper, lines, ihl, ihr]
  | ternary c yes no ihc ihy ihn => simp only [upper, lines, ihc, ihy, ihn]
  | call m arguments index ha hi =>
    simp [upper, lines, linesOpt_eq, Option.toList_map, linesAll_map_upper ha, linesAll_map_upper hi]

@[simp]
theorem linesAll_upper (ts : List Term) : linesAll (ts.map upper) = linesAll ts :=
  linesAll_map_upper fun t _ => t.lines_upper

@[simp]
theorem linesOpt_upper (t : Option Term) : linesOpt (t.map upper) = linesOpt t := by
  simp [linesOpt_eq, Option.toList_map]

end Lines

section Code

theorem codeAll_map_upper (h : ∀ t ∈ ts, ∀ base, t.upper.code base = (t.code base).map Entry.upper)
    (base : LineId) : codeAll base (ts.map upper) = (codeAll base ts).map Entry.upper := by
  induction ts generalizing base with
  | nil => rfl
  | cons t ts ih =>
    obtain ⟨ht, hts⟩ := List.forall_mem_cons.mp h
    rw [List.map_cons, codeAll, codeAll, ht, lines_upper, ih hts, List.map_append]

/-- The code of a term in capitals. -/
@[simp]
theorem code_upper (t : Term) (base : LineId) :
    t.upper.code base = (t.code base).map Entry.upper := by
  induction t using Term.induct generalizing base with
  | constant value => rfl
  | read v index hi | address v index hi => simp [upper, code, codeOpt_eq, Option.toList_map, codeAll_map_upper hi]
  | unary op operand ih => simp [upper, code, ih]
  | binary op left right ihl ihr => simp [upper, code, ihl, ihr]
  | ternary c yes no ihc ihy ihn => simp [upper, code, ihc, ihy, ihn]
  | call m arguments index ha hi =>
    simp [upper, code, codeOpt_eq, Option.toList_map, codeAll_map_upper ha, codeAll_map_upper hi, Code.upper]

@[simp]
theorem codeAll_upper (ts : List Term) (base : LineId) :
    codeAll base (ts.map upper) = (codeAll base ts).map Entry.upper :=
  codeAll_map_upper (fun t _ => t.code_upper) base

@[simp]
theorem codeOpt_upper (t : Option Term) (base : LineId) :
    codeOpt base (t.map upper) = (codeOpt base t).map Entry.upper := by
  simp [codeOpt_eq, Option.toList_map]

end Code

end Term

/-! ### Commands -/

namespace Label

/-- A label with all names in capitals. -/
def upper : Label → Label
  | value t        => value t.upper
  | range low high => range low.upper high.upper

@[simp]
theorem linesAll_upper (ls : List Label) : linesAll (ls.map upper) = linesAll ls := by
  induction ls with
  | nil => rfl
  | cons l ls ih => cases l <;> simp [upper, linesAll, lines, ih]

@[simp]
theorem linesChoices_upper (cs : List (List Label)) :
    linesChoices (cs.map (List.map upper)) = linesChoices cs := by
  induction cs with
  | nil => rfl
  | cons c cs ih => simp [linesChoices, ih]

@[simp]
theorem codeAll_upper (base target : LineId) (ls : List Label) :
    codeAll base target (ls.map upper) = (codeAll base target ls).map Entry.upper := by
  induction ls generalizing base with
  | nil => rfl
  | cons l ls ih => cases l <;> simp [upper, codeAll, code, lines, ih]

@[simp]
theorem codeChoices_upper (base target : LineId) (cs : List (List Label)) :
    codeChoices base target (cs.map (List.map upper)) =
      (codeChoices base target cs).map Entry.upper := by
  induction cs generalizing base target with
  | nil => rfl
  | cons c cs ih => simp [codeChoices, ih]

end Label

namespace Command

mutual

/-- A command with all names in capitals. -/
def upper : Command → Command
  | ifThen negate c yes      => ifThen negate c.upper (upperAll yes)
  | ifElse negate c yes no   => ifElse negate c.upper (upperAll yes) (upperAll no)
  | preLoop isUntil c body   => preLoop isUntil c.upper (upperAll body)
  | postLoop isUntil c body  => postLoop isUntil c.upper (upperAll body)
  | forever body             => forever (upperAll body)
  | countLoop count body     => countLoop count.upper (upperAll body)
  | rangeLoop v index first last step body =>
    rangeLoop v.upper (index.map Term.upper) first.upper last.upper step.upper (upperAll body)
  | forLoop init c step body =>
    forLoop (upperAll init) (c.map Term.upper) (upperAll step) (upperAll body)
  | switch breakable value labels bodies otherwise =>
    switch breakable value.upper (labels.map (List.map Label.upper)) (upperBodies bodies)
      (upperAll otherwise)
  | exit e                   => exit e
  | ret value                => ret (value.map Term.upper)
  | abort value              => abort (value.map Term.upper)
  | assign v index op value  => assign v.upper (index.map Term.upper) op value.upper
  | invoke m arguments index =>
    invoke m.upper (arguments.map Term.upper) (index.map Term.upper)
  | discard t                => discard t.upper
  | assembly origin block    => assembly origin block
  | debug values record      => debug (values.map Term.upper) record

/-- Commands with all names in capitals. -/
def upperAll : List Command → List Command
  | []      => []
  | c :: cs => c.upper :: upperAll cs

/-- The commands of choices with all names in capitals. -/
def upperBodies : List (List Command) → List (List Command)
  | []      => []
  | b :: bs => upperAll b :: upperBodies bs

end

@[simp]
theorem upperAll_eq (cs : List Command) : upperAll cs = cs.map upper := by
  induction cs with
  | nil => rfl
  | cons c cs ih => rw [upperAll, ih, List.map_cons]

@[simp]
theorem upperBodies_eq (bs : List (List Command)) : upperBodies bs = bs.map (List.map upper) := by
  induction bs with
  | nil => rfl
  | cons b bs ih => rw [upperBodies, upperAll_eq, ih, List.map_cons]

section Lines

theorem linesAll_map_upper (h : ∀ c ∈ cs, c.upper.lines = c.lines) :
    linesAll (cs.map upper) = linesAll cs := by
  induction cs with
  | nil => rfl
  | cons c cs ih =>
    obtain ⟨hc, hcs⟩ := List.forall_mem_cons.mp h
    rw [List.map_cons, linesAll, linesAll, hc, ih hcs]

theorem linesBodies_map_upper (h : ∀ b ∈ bs, ∀ c ∈ b, c.upper.lines = c.lines) :
    linesBodies (bs.map (List.map upper)) = linesBodies bs := by
  induction bs with
  | nil => rfl
  | cons b bs ih =>
    obtain ⟨hb, hbs⟩ := List.forall_mem_cons.mp h
    rw [List.map_cons, linesBodies, linesBodies, linesAll_map_upper hb, ih hbs]

@[simp]
theorem lines_upper (c : Command) : c.upper.lines = c.lines := by
  induction c using Command.induct with
  | ifThen negate c yes hyes => simp [upper, lines, linesAll_map_upper hyes]
  | ifElse negate c yes no hyes hno =>
    simp [upper, lines, linesAll_map_upper hyes, linesAll_map_upper hno]
  | preLoop _ _ body hbody | postLoop _ _ body hbody => simp [upper, lines, linesAll_map_upper hbody]
  | forever body hbody | countLoop _ body hbody => simp [upper, lines, linesAll_map_upper hbody]
  | rangeLoop v index first last step body hbody => simp [upper, lines, linesAll_map_upper hbody]
  | forLoop init c step body hinit hstep hbody =>
    simp [upper, lines, linesAll_map_upper hinit, linesAll_map_upper hstep, linesAll_map_upper hbody]
  | switch breakable value labels bodies otherwise hbodies hotherwise =>
    simp [upper, lines, linesBodies_map_upper hbodies, linesAll_map_upper hotherwise]
  | _ => simp [upper, lines, Term.linesOpt]

@[simp]
theorem linesAll_upper (cs : List Command) : linesAll (cs.map upper) = linesAll cs :=
  linesAll_map_upper fun c _ => c.lines_upper

end Lines

section Code

theorem codeAll_map_upper
    (h : ∀ c ∈ cs, ∀ outer base, c.upper.code outer base = (c.code outer base).map Entry.upper)
    (outer : List Enclosure) (base : LineId) :
    codeAll outer base (cs.map upper) = (codeAll outer base cs).map Entry.upper := by
  induction cs generalizing base with
  | nil => rfl
  | cons c cs ih =>
    obtain ⟨hc, hcs⟩ := List.forall_mem_cons.mp h
    rw [List.map_cons, codeAll, codeAll, hc, lines_upper, ih hcs, List.map_append]

theorem codeBodies_map_upper (h : ∀ b ∈ bs, ∀ c ∈ b, ∀ outer base,
      c.upper.code outer base = (c.code outer base).map Entry.upper) (outer : List Enclosure)
    (base choices ends : LineId) :
    codeBodies outer base choices ends (bs.map (List.map upper)) =
      (codeBodies outer base choices ends bs).map Entry.upper := by
  induction bs generalizing base choices ends with
  | nil => rfl
  | cons b bs ih =>
    obtain ⟨hb, hbs⟩ := List.forall_mem_cons.mp h
    simp [codeBodies, codeAll_map_upper hb, ih hbs]

theorem exitCode_upper (outer : List Enclosure) (e : Exit) :
    (exitCode outer e).map Entry.upper = exitCode outer e := by
  unfold exitCode
  split <;> rfl

/-- The code of a command in capitals. -/
theorem code_upper (c : Command) (outer : List Enclosure) (base : LineId) :
    c.upper.code outer base = (c.code outer base).map Entry.upper := by
  induction c using Command.induct generalizing outer base with
  | ifThen negate c yes hyes => simp [upper, code, codeAll_map_upper hyes]
  | ifElse negate c yes no hyes hno =>
    simp [upper, code, codeAll_map_upper hyes, codeAll_map_upper hno]
  | preLoop _ _ body hbody | postLoop _ _ body hbody => simp [upper, code, codeAll_map_upper hbody]
  | forever body hbody | countLoop _ body hbody => simp [upper, code, codeAll_map_upper hbody]
  | rangeLoop v index first last step body hbody => simp [upper, code, codeAll_map_upper hbody]
  | forLoop init c step body hinit hstep hbody =>
    simp [upper, code, codeAll_map_upper hinit, codeAll_map_upper hstep, codeAll_map_upper hbody,
      apply_ite (List.map Entry.upper)]
  | switch breakable value labels bodies otherwise hbodies hotherwise =>
    simp [upper, code, codeBodies_map_upper hbodies, codeAll_map_upper hotherwise]
  | _ => simp [upper, code, Code.upper, exitCode_upper]

end Code

/-- **The body of a method** in capitals. -/
theorem body_upper (cs : List Command) : body (cs.map upper) = (body cs).upper := by
  simp only [body, Body.upper, linesAll_upper, codeAll_map_upper fun c _ => c.code_upper]

end Command

end Propeller
