import Propeller.Proofs.Compile.Induction

/-!
# Compile — the calls in code

A call stands in terms and commands, and an instruction that calls a method stands in their code.  There
is one instruction for each call (`Term.callees_code`, `Command.callees_code`), and in front of it stand
an anchor, the code of the arguments and that of the index, and nothing else (`Call.Stands`).
-/

namespace Propeller

variable {m : Method} {indexed : Bool} {ts : List Term} {t : Option Term} {cs : List Command}
  {bs : List (List Command)}

/-- A call as it is compiled. -/
structure Call where
  method : Method
  arguments : List Term
  /-- Which one of several instances of a child is meant. -/
  index : Option Term

/-! ### Calls in terms and commands -/

namespace Term

mutual

/-- The calls in a term, in the order of its code. -/
def calls : Term → List Call
  | constant _             => []
  | read _ index           => callsOpt index
  | address _ index        => callsOpt index
  | unary _ operand        => operand.calls
  | binary _ left right    => left.calls ++ right.calls
  | ternary c yes no       => c.calls ++ yes.calls ++ no.calls
  | call m arguments index => callsAll arguments ++ callsOpt index ++ [⟨m, arguments, index⟩]

/-- The calls in several terms. -/
def callsAll : List Term → List Call
  | []      => []
  | t :: ts => t.calls ++ callsAll ts

/-- The calls in a term that may be missing. -/
def callsOpt : Option Term → List Call
  | none   => []
  | some t => t.calls

end

theorem callsOpt_eq (t : Option Term) : callsOpt t = callsAll t.toList := by
  cases t <;> simp [callsOpt, callsAll]

end Term

namespace Label

/-- The calls in a label. -/
def calls : Label → List Call
  | value t        => t.calls
  | range low high => low.calls ++ high.calls

/-- The calls in the labels of several choices. -/
def callsChoices (cs : List (List Label)) : List Call := cs.flatMap fun ls => ls.flatMap calls

end Label

namespace Command

mutual

/-- The calls in a command, in the order of its code. -/
def calls : Command → List Call
  | ifThen _ c yes           => c.calls ++ callsAll yes
  | ifElse _ c yes no        => c.calls ++ callsAll yes ++ callsAll no
  | preLoop _ c body         => c.calls ++ callsAll body
  | postLoop _ c body        => callsAll body ++ c.calls
  | forever body             => callsAll body
  | countLoop n body         => n.calls ++ callsAll body
  | rangeLoop _ index first last step body =>
    first.calls ++ last.calls ++ step.calls ++ Term.callsOpt index ++ callsAll body
  | forLoop init c step body => callsAll init ++ Term.callsOpt c ++ callsAll body ++ callsAll step
  | switch _ value labels bodies otherwise =>
    value.calls ++ Label.callsChoices labels ++ callsAll otherwise ++ callsBodies bodies
  | exit _                   => []
  | ret value                => Term.callsOpt value
  | abort value              => Term.callsOpt value
  | assign _ index none value     => value.calls ++ Term.callsOpt index
  -- the index is computed again for the second access
  | assign _ index (some _) value => Term.callsOpt index ++ value.calls ++ Term.callsOpt index
  | invoke m arguments index =>
    Term.callsAll arguments ++ Term.callsOpt index ++ [⟨m, arguments, index⟩]
  | discard t                => t.calls
  | assembly _ _             => []
  | debug values _           => Term.callsAll values

/-- The calls in several commands. -/
def callsAll : List Command → List Call
  | []      => []
  | c :: cs => c.calls ++ callsAll cs

/-- The calls in the commands of several choices. -/
def callsBodies : List (List Command) → List Call
  | []      => []
  | b :: bs => callsAll b ++ callsBodies bs

end

theorem callsAll_append (cs cs' : List Command) :
    callsAll (cs ++ cs') = callsAll cs ++ callsAll cs' := by
  induction cs with
  | nil => rfl
  | cons c cs ih => rw [List.cons_append, callsAll, callsAll, ih, List.append_assoc]

end Command

/-! ### One instruction for each call -/

/-- What the instruction of a call says: the method, and whether there is an index. -/
def Call.instruction (c : Call) : Method × Bool := (c.method, c.index.isSome)

/-- The calling instructions of a listing, in order. -/
def Listing.callees : Listing → List (Method × Bool)
  | []                              => []
  | .code (.call m indexed) :: rest => (m, indexed) :: callees rest
  | _ :: rest                       => callees rest

namespace Listing

@[simp]
theorem callees_append (a b : Listing) : callees (a ++ b) = callees a ++ callees b := by
  fun_induction callees a with
  | case1 => rfl
  | case2 m indexed rest ih => exact congrArg ((m, indexed) :: ·) ih
  | case3 e rest hcall ih =>
    rw [List.cons_append, callees.eq_3 _ _ hcall, ih]

end Listing

attribute [local simp] Listing.callees Entry.op Entry.branch Variable.access

namespace Term

theorem callees_codeAll
    (h : ∀ t ∈ ts, ∀ base, Listing.callees (t.code base) = t.calls.map Call.instruction) (base : LineId) :
    Listing.callees (codeAll base ts) = (callsAll ts).map Call.instruction := by
  induction ts generalizing base with
  | nil => rfl
  | cons t ts ih =>
    rw [codeAll, callsAll, Listing.callees_append, List.map_append, h t (.head _),
      ih fun x hx => h x (.tail _ hx)]

/-- **The calls of a term** are those in its code. -/
@[simp]
theorem callees_code (t : Term) (base : LineId) :
    Listing.callees (t.code base) = t.calls.map Call.instruction := by
  induction t using Term.induct generalizing base with
  | constant value => rfl
  | read v index hi | address v index hi => simp [code, calls, codeOpt_eq, callsOpt_eq, callees_codeAll hi]
  | unary op operand ih => simp [code, calls, ih]
  | binary op left right ihl ihr => simp [code, calls, ihl, ihr]
  | ternary c yes no ihc ihy ihn => simp [code, calls, ihc, ihy, ihn]
  | call m arguments index ha hi =>
    simp [code, calls, codeOpt_eq, callsOpt_eq, callees_codeAll ha, callees_codeAll hi, Call.instruction]

@[simp]
theorem callees_all (ts : List Term) (base : LineId) :
    Listing.callees (codeAll base ts) = (callsAll ts).map Call.instruction :=
  callees_codeAll (fun t _ => t.callees_code) base

@[simp]
theorem callees_opt (t : Option Term) (base : LineId) :
    Listing.callees (codeOpt base t) = (callsOpt t).map Call.instruction := by
  rw [codeOpt_eq, callsOpt_eq, callees_all]

end Term

namespace Label

theorem callees_code (l : Label) (base target : LineId) :
    Listing.callees (l.code base target) = l.calls.map Call.instruction := by
  cases l with
  | value t => simp [code, calls, t.callees_code]
  | range low high => simp [code, calls, low.callees_code, high.callees_code]

theorem callees_codeAll (ls : List Label) (base target : LineId) :
    Listing.callees (codeAll base target ls) = (ls.flatMap calls).map Call.instruction := by
  induction ls generalizing base with
  | nil => rfl
  | cons l ls ih =>
    rw [codeAll, Listing.callees_append, l.callees_code, ih, List.flatMap_cons, List.map_append]

@[simp]
theorem callees_codeChoices (cs : List (List Label)) (base target : LineId) :
    Listing.callees (codeChoices base target cs) = (callsChoices cs).map Call.instruction := by
  induction cs generalizing base target with
  | nil => rfl
  | cons c cs ih =>
    rw [codeChoices, Listing.callees_append, callees_codeAll, ih, callsChoices, callsChoices,
      List.flatMap_cons, List.map_append]

end Label

namespace Command

@[simp]
theorem callees_exitCode (outer : List Enclosure) (e : Exit) :
    Listing.callees (exitCode outer e) = [] := by
  unfold exitCode
  split
  · rfl
  · rfl
  · rfl

theorem callees_codeAll
    (h : ∀ c ∈ cs, ∀ outer base, Listing.callees (c.code outer base) = c.calls.map Call.instruction)
    (outer : List Enclosure) (base : LineId) :
    Listing.callees (codeAll outer base cs) = (callsAll cs).map Call.instruction := by
  induction cs generalizing base with
  | nil => rfl
  | cons c cs ih =>
    rw [codeAll, callsAll, Listing.callees_append, List.map_append, h c (.head _),
      ih fun x hx => h x (.tail _ hx)]

theorem callees_codeBodies (h : ∀ b ∈ bs, ∀ c ∈ b, ∀ outer base,
      Listing.callees (c.code outer base) = c.calls.map Call.instruction) (outer : List Enclosure)
    (base choices ends : LineId) :
    Listing.callees (codeBodies outer base choices ends bs) =
      (callsBodies bs).map Call.instruction := by
  induction bs generalizing base choices ends with
  | nil => rfl
  | cons b bs ih =>
    simp [codeBodies, callsBodies, callees_codeAll (h b (.head _)),
      ih fun x hx => h x (.tail _ hx)]

/-- **The calls of a command** are those in its code. -/
theorem callees_code (c : Command) (outer : List Enclosure) (base : LineId) :
    Listing.callees (c.code outer base) = c.calls.map Call.instruction := by
  induction c using Command.induct generalizing outer base with
  | ifThen negate c yes hy => simp [code, calls, callees_codeAll hy]
  | ifElse negate c yes no hy hn => simp [code, calls, callees_codeAll hy, callees_codeAll hn]
  | preLoop isUntil c body hb | postLoop isUntil c body hb => simp [code, calls, callees_codeAll hb]
  | forever body hb | countLoop count body hb => simp [code, calls, callees_codeAll hb]
  | rangeLoop v index first last step body hb => simp [code, calls, callees_codeAll hb]
  | forLoop init c step body hi hs hb =>
    cases c <;> simp [code, calls, callees_codeAll hi, callees_codeAll hs, callees_codeAll hb]
  | switch breakable value labels bodies otherwise hb ho =>
    simp [code, calls, callees_codeAll ho, callees_codeBodies hb]
  | invoke m arguments index => simp [code, calls, Call.instruction]
  | _ => simp [code, calls, Term.callsOpt]

end Command

/-! ### What stands in front of a call -/

/-- What stands in front of the instruction of a call: an anchor, the code of the arguments and that of
the index. -/
def Call.setup (c : Call) (start : Op) (base : LineId) : Listing :=
  [.op start] ++ Term.codeAll base c.arguments ++
    Term.codeOpt (base + Term.linesAll c.arguments) c.index

/-- The code of a call. -/
def Call.code (c : Call) (start : Op) (base : LineId) : Listing :=
  c.setup start base ++ [.code (.call c.method c.index.isSome)]

/-- A call stands in a listing. -/
def Call.Stands (c : Call) (l : Listing) : Prop :=
  ∃ (start : Op) (base : LineId), (start = .anchorPush ∨ start = .anchor) ∧ c.code start base <:+: l

namespace Call.Stands

variable {c : Call} {a b : Listing}

@[grind ←]
theorem left (h : c.Stands a) : c.Stands (a ++ b) := by
  obtain ⟨start, base, hstart, hin⟩ := h
  exact ⟨start, base, hstart, hin.trans (List.prefix_append a b).isInfix⟩

@[grind ←]
theorem right (h : c.Stands b) : c.Stands (a ++ b) := by
  obtain ⟨start, base, hstart, hin⟩ := h
  exact ⟨start, base, hstart, hin.trans (List.suffix_append a b).isInfix⟩

end Call.Stands

namespace Term

variable {c : Call}

theorem stands_codeAll (h : ∀ t ∈ ts, ∀ base, c ∈ t.calls → c.Stands (t.code base)) (base : LineId)
    (hc : c ∈ callsAll ts) : c.Stands (codeAll base ts) := by
  induction ts generalizing base with
  | nil => cases hc
  | cons t ts ih =>
    rcases List.mem_append.mp hc with hc | hc
    · exact (h t (.head _) base hc).left
    · exact (ih (fun x hx => h x (.tail _ hx)) _ hc).right

/-- **A call of a term** stands in its code. -/
theorem stands_code (t : Term) (base : LineId) (hc : c ∈ t.calls) : c.Stands (t.code base) := by
  induction t using Term.induct generalizing base with
  | constant value => cases hc
  | read v index hi | address v index hi =>
    rw [calls, callsOpt_eq] at hc
    exact (codeOpt_eq index base ▸ stands_codeAll hi base hc).left
  | unary op operand ih => exact (ih base hc).left
  | binary | ternary => grind [calls, code]
  | call m arguments index ha hi =>
    simp only [calls, callsOpt_eq, List.mem_append, List.mem_singleton] at hc
    rcases hc with (hc | hc) | rfl
    · exact (stands_codeAll ha base hc).right.left.left
    · exact (codeOpt_eq index _ ▸ stands_codeAll hi _ hc).right.left
    · exact ⟨.anchorPush, base, .inl rfl, List.infix_refl _⟩

theorem stands_all (base : LineId) (hc : c ∈ callsAll ts) : c.Stands (codeAll base ts) :=
  stands_codeAll (fun t _ => t.stands_code) base hc

theorem stands_opt (base : LineId) (hc : c ∈ callsOpt t) : c.Stands (codeOpt base t) :=
  codeOpt_eq t base ▸ stands_all base (callsOpt_eq t ▸ hc)

end Term

namespace Label

variable {c : Call}

theorem stands_code (l : Label) (base target : LineId) (hc : c ∈ l.calls) :
    c.Stands (l.code base target) := by
  cases l with
  | value t => exact (t.stands_code base hc).left
  | range low high =>
    rcases List.mem_append.mp hc with hc | hc
    · exact (low.stands_code base hc).left.left
    · exact (high.stands_code _ hc).right.left

theorem stands_codeAll {ls : List Label} (base target : LineId) (hc : c ∈ ls.flatMap calls) :
    c.Stands (codeAll base target ls) := by
  induction ls generalizing base with
  | nil => cases hc
  | cons l ls ih =>
    rw [List.flatMap_cons] at hc
    rcases List.mem_append.mp hc with hc | hc
    · exact (l.stands_code base target hc).left
    · exact (ih _ hc).right

theorem stands_codeChoices {cs : List (List Label)} (base target : LineId)
    (hc : c ∈ callsChoices cs) : c.Stands (codeChoices base target cs) := by
  induction cs generalizing base target with
  | nil => cases hc
  | cons ls cs ih =>
    rw [callsChoices, List.flatMap_cons] at hc
    rcases List.mem_append.mp hc with hc | hc
    · exact (stands_codeAll base target hc).left
    · exact (ih _ _ hc).right

end Label

namespace Command

variable {k : Call}

theorem stands_codeAll (h : ∀ c ∈ cs, ∀ outer base, k ∈ c.calls → k.Stands (c.code outer base))
    (outer : List Enclosure) (base : LineId) (hk : k ∈ callsAll cs) :
    k.Stands (codeAll outer base cs) := by
  induction cs generalizing base with
  | nil => cases hk
  | cons c cs ih =>
    rcases List.mem_append.mp hk with hk | hk
    · exact (h c (.head _) outer base hk).left
    · exact (ih (fun x hx => h x (.tail _ hx)) _ hk).right

theorem stands_codeBodies
    (h : ∀ b ∈ bs, ∀ c ∈ b, ∀ outer base, k ∈ c.calls → k.Stands (c.code outer base))
    (outer : List Enclosure) (base choices ends : LineId) (hk : k ∈ callsBodies bs) :
    k.Stands (codeBodies outer base choices ends bs) := by
  induction bs generalizing base choices ends with
  | nil => cases hk
  | cons b bs ih =>
    rcases List.mem_append.mp hk with hk | hk
    · exact (stands_codeAll (h b (.head _)) outer base hk).right.left.left
    · exact (ih (fun x hx => h x (.tail _ hx)) _ _ _ hk).right

/-- **A call of a command** stands in its code. -/
theorem stands_code (c : Command) (outer : List Enclosure) (base : LineId) (hk : k ∈ c.calls) :
    k.Stands (c.code outer base) := by
  induction c using Command.induct generalizing outer base with
  | ifThen | ifElse | preLoop | postLoop | countLoop => grind [calls, code, Term.stands_code, stands_codeAll]
  | forever body hb => grind [calls, code, stands_codeAll]
  | rangeLoop v index first last step body hb =>
    grind [calls, code, Term.stands_code, Term.stands_opt, stands_codeAll]
  | forLoop init c step body hi hs hb =>
    grind [calls, code, Term.stands_opt, stands_codeAll]
  | switch breakable value labels bodies otherwise hb ho =>
    grind [calls, code, Term.stands_code, Label.stands_codeChoices, stands_codeAll, stands_codeBodies]
  | assign | update => grind [calls, code, Term.stands_code, Term.stands_opt]
  | invoke m arguments index =>
    simp only [calls, List.mem_append, List.mem_singleton] at hk
    rcases hk with (hk | hk) | rfl
    · exact (Term.stands_all _ hk).right.left.left
    · exact (Term.stands_opt _ hk).right.left
    · exact ⟨.anchor, base + 1, .inr rfl, ⟨[.mark base], [], by simp [code, Call.code, Call.setup]⟩⟩
  | retValue t | abortValue t | discard t => exact (t.stands_code _ hk).right.left
  | debug values record => exact (Term.stands_all _ hk).right.left
  | _ => cases hk

/-- A call of commands stands in the body that they make. -/
theorem stands_body (hk : k ∈ callsAll cs) : k.Stands (body cs).listing :=
  stands_codeAll (fun c _ => c.stands_code) [] 0 hk

end Command

end Propeller
