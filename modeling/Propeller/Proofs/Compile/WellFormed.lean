import Propeller.Proofs.Compile.Failures

/-!
# Compile — well-formed commands

What is compiled has been checked: a call has as many arguments as its method has parameters, a call in
an expression has a result, a switch has labels for each of its choices, and a jump out of a construct
has somewhere to go.  Commands with these properties are well-formed, and everything that is said
about code is said about the code of well-formed commands.

* `Term.Saturated`, `Command.WellFormed`: the properties.
* `Names.exists_callee`: what is checked where a method is called.
* `Expr.dynamicTerm`: how the term of an expression is made that is not constant.
* `Statement.ShowsFew`: what is not checked, that debug statements show values that can be counted in one
  byte.
-/

namespace Propeller

/-! ### Terms -/

namespace Term

mutual

/-- Every call in the term has as many arguments as its method has parameters, and a result. -/
def Saturated : Term → Prop
  | constant _             => True
  | read _ index           => SaturatedOpt index
  | address _ index        => SaturatedOpt index
  | unary _ operand        => operand.Saturated
  | binary _ left right    => left.Saturated ∧ right.Saturated
  | ternary c yes no       => c.Saturated ∧ yes.Saturated ∧ no.Saturated
  | call m arguments index =>
    arguments.length = m.parameters ∧ m.returns ≠ 0 ∧ SaturatedAll arguments ∧ SaturatedOpt index

/-- Several terms are saturated. -/
def SaturatedAll : List Term → Prop
  | []      => True
  | t :: ts => t.Saturated ∧ SaturatedAll ts

/-- A term that may be missing is saturated. -/
def SaturatedOpt : Option Term → Prop
  | none   => True
  | some t => t.Saturated

end

theorem saturatedAll_iff {ts : List Term} : SaturatedAll ts ↔ ∀ t ∈ ts, t.Saturated := by
  induction ts with
  | nil => simp [SaturatedAll]
  | cons t ts ih => simp [SaturatedAll, ih]

theorem saturatedOpt_iff {t : Option Term} : SaturatedOpt t ↔ ∀ x ∈ t, x.Saturated := by
  cases t <;> simp [SaturatedOpt]

end Term

/-- The terms of a label are saturated. -/
def Label.Saturated : Label → Prop
  | value t        => t.Saturated
  | range low high => low.Saturated ∧ high.Saturated

namespace Command

/-! ### Commands -/

/-- The exits in a switch, which can be left if it is breakable. -/
def switchExits (exits : Exits) (breakable : Bool) : Exits :=
  { exits with leave := exits.leave || breakable }

mutual

/-- A command is as the checks of the compiler leave it, with these exits around it. -/
def WellFormed (exits : Exits) : Command → Prop
  | ifThen _ c yes           => c.Saturated ∧ WellFormedAll exits yes
  | ifElse _ c yes no        => c.Saturated ∧ WellFormedAll exits yes ∧ WellFormedAll exits no
  | preLoop _ c body         => c.Saturated ∧ WellFormedAll .inLoop body
  | postLoop _ c body        => c.Saturated ∧ WellFormedAll .inLoop body
  | forever body             => WellFormedAll .inLoop body
  | countLoop n body         => n.Saturated ∧ WellFormedAll .inLoop body
  | rangeLoop _ index first last step body =>
    first.Saturated ∧ last.Saturated ∧ step.Saturated ∧ Term.SaturatedOpt index ∧
      WellFormedAll .inLoop body
  | forLoop init c step body =>
    WellFormedAll exits init ∧ Term.SaturatedOpt c ∧ WellFormedAll .inLoop body ∧
      WellFormedAll .inLoop step
  | switch breakable value labels bodies otherwise =>
    value.Saturated ∧ (∀ ls ∈ labels, ∀ l ∈ ls, Label.Saturated l) ∧
      labels.length = bodies.length ∧ WellFormedAll (switchExits exits breakable) otherwise ∧
      WellFormedBodies (switchExits exits breakable) bodies
  | exit .leave              => exits.leave = true
  | exit .next               => exits.next = true
  | ret value                => Term.SaturatedOpt value
  | abort value              => Term.SaturatedOpt value
  | assign _ index _ value   => Term.SaturatedOpt index ∧ value.Saturated
  | invoke m arguments index =>
    arguments.length = m.parameters ∧ Term.SaturatedAll arguments ∧ Term.SaturatedOpt index
  | discard t                => t.Saturated
  | assembly _ _             => True
  | debug values _           => values.length ≤ 255 ∧ Term.SaturatedAll values

/-- Several commands are well-formed. -/
def WellFormedAll (exits : Exits) : List Command → Prop
  | []      => True
  | c :: cs => c.WellFormed exits ∧ WellFormedAll exits cs

/-- The commands of several choices are well-formed. -/
def WellFormedBodies (exits : Exits) : List (List Command) → Prop
  | []      => True
  | b :: bs => WellFormedAll exits b ∧ WellFormedBodies exits bs

end

theorem wellFormedAll_iff {exits : Exits} {cs : List Command} :
    WellFormedAll exits cs ↔ ∀ c ∈ cs, c.WellFormed exits := by
  induction cs with
  | nil => simp [WellFormedAll]
  | cons c cs ih => simp [WellFormedAll, ih]

theorem wellFormedBodies_iff {exits : Exits} {bs : List (List Command)} :
    WellFormedBodies exits bs ↔ ∀ b ∈ bs, ∀ c ∈ b, c.WellFormed exits := by
  induction bs with
  | nil => simp [WellFormedBodies]
  | cons b bs ih => simp [WellFormedBodies, wellFormedAll_iff, ih]

end Command

/-! ### Calls -/

namespace Names

variable (n : Names) (object : Option (Located Identifier)) (method : Located Identifier) (given : Nat)
  (wanted : Bool) (location : Location)

/-- The method of a name, if it takes what is given and has a result if one is wanted. -/
def methodOf (n : Names) (name : Identifier) (method : Located Identifier) (given : Nat)
    (wanted : Bool) (location : Location) : Tracked Method :=
  match n.symbol? name with
  | some (.method m) =>
    if given ≠ m.parameters then throw ⟨.argumentCount name m.parameters given, location⟩
    else if wanted ∧ m.returns = 0 then throw ⟨.noResult name, location⟩
    else return m
  | some _ => throw ⟨.notAMethod name, method.location⟩
  | none   => throw ⟨.undefined name, method.location⟩

theorem callee_eq : n.callee object method given wanted location = match object with
    | none   => n.methodOf method.value method given wanted location
    | some o =>
      if (n.links.get? o.value).isNone then throw ⟨.notAnObject o.value, o.location⟩
      else n.methodOf (o.value.qualified method.value) method given wanted location := by
  cases object with
  | none => rfl
  | some o =>
    unfold callee methodOf
    simp only
    split
    · rfl
    · rfl

/-- A method may be called by a name: the name stands for it, it takes what is given, it has a result if one
is wanted, and if it is one of a child, then there is such a child. -/
structure MayCall (n : Names) (object : Option (Located Identifier)) (method : Located Identifier)
    (given : Nat) (wanted : Bool) (m : Method) : Prop where
  symbol_eq : n.symbol? (match object with
    | none   => method.value
    | some o => o.value.qualified method.value) = some (.method m)
  parameters_eq : given = m.parameters
  returns_ne : wanted = true → m.returns ≠ 0
  known : ∀ o, object = some o → ∃ c, n.links.get? o.value = some c

/-- **Looking up a method** notes nothing, gives one that may be called, and fails with nothing that is about
an exit. -/
theorem exists_callee :
    ∃ r : Except (Located CompileError) Method, n.callee object method given wanted location = liftExcept r ∧
      OtherError r ∧ ∀ m, r = .ok m → n.MayCall object method given wanted m := by
  have failed : ∀ {P : Method → Prop} (e : Located CompileError), e.value.exit? = none →
      ∃ r, (throw e : Tracked Method) = liftExcept r ∧ OtherError r ∧ ∀ m, r = .ok m → P m :=
    fun e he => ⟨.error e, rfl, otherError_error he, by simp⟩
  have hmethod : ∀ name, ∃ r : Except (Located CompileError) Method,
      n.methodOf name method given wanted location = liftExcept r ∧ OtherError r ∧ ∀ m, r = .ok m →
        n.symbol? name = some (.method m) ∧ given = m.parameters ∧ (wanted = true → m.returns ≠ 0) := by
    intro name
    unfold methodOf
    split
    · next m hm =>
      split
      · exact failed _ rfl
      · next hgiven =>
        split
        · exact failed _ rfl
        · next hwanted =>
          refine ⟨.ok m, rfl, otherError_ok m, ?_⟩
          rintro _ ⟨⟩
          exact ⟨hm, Decidable.not_not.mp hgiven, fun hw hr => hwanted ⟨hw, hr⟩⟩
    · exact failed _ rfl
    · exact failed _ rfl
  rw [callee_eq]
  cases object with
  | none =>
    obtain ⟨r, hr, hother, hok⟩ := hmethod method.value
    exact ⟨r, hr, hother, fun m hm => ⟨(hok m hm).1, (hok m hm).2.1, (hok m hm).2.2, by simp⟩⟩
  | some o =>
    dsimp only
    split
    · exact failed _ rfl
    · next hchild =>
      obtain ⟨r, hr, hother, hok⟩ := hmethod (o.value.qualified method.value)
      refine ⟨r, hr, hother, fun m hm => ⟨(hok m hm).1, (hok m hm).2.1, (hok m hm).2.2, ?_⟩⟩
      rintro _ ⟨⟩
      exact Option.ne_none_iff_exists'.mp fun hnone => hchild (by rw [hnone]; rfl)

theorem yields_callee :
    Yields (n.callee object method given wanted location) (n.MayCall object method given wanted) := by
  obtain ⟨r, hr, -, hok⟩ := n.exists_callee object method given wanted location
  rw [hr]
  exact yields_liftExcept hok

end Names

/-! ### The terms of expressions -/

namespace Expr

variable (n : Names)

/-- The term of an expression that is not constant. -/
def dynamicTerm (e : Expr) : Tracked Term :=
  match e with
  | name l x =>
    match n.symbol? x with
    | some (.method _) => do
      let m ← n.callee none ⟨x, l⟩ 0 true l
      Tracked.use (.method m.id)
      return .call m [] none
    | _ => do return .read (← n.variableOf x false l) none
  | member l object i x => do
    let m ← n.callee (some object) x 0 true l
    let i ← termOpt n i
    Tracked.use (.method m.id)
    return .call m [] i
  | index _ base i => do
    let i ← i.term n
    return .read (← n.variableOf base.value true base.location) (some i)
  | unary _ op operand => do return .unary op (← operand.term n)
  | binary _ op left right => do
    let l ← left.term n
    let r ← right.term n
    return .binary op l r
  | ternary _ condition yes no => do
    let c ← condition.term n
    let y ← yes.term n
    let o ← no.term n
    return .ternary c y o
  | addressOf _ (name l x) => do return .address (← n.variableOf x false l) none
  | addressOf _ (index _ base i) => do
    let i ← i.term n
    return .address (← n.variableOf base.value true base.location) (some i)
  | call l object i method arguments => do
    let m ← n.callee object method arguments.length true l
    let arguments ← termAll n arguments
    let i ← termOpt n i
    Tracked.use (.method m.id)
    return .call m arguments i
  | e => throw e.notConstant

/-- An expression is constant or it is not. -/
theorem term_eq (e : Expr) :
    e.term n = if e.isStatic n then liftExcept (e.staticTerm n) else e.dynamicTerm n := by
  rw [term.eq_def]
  rfl

/-- The term of a constant expression is a constant. -/
theorem staticTerm_eq_ok {e : Expr} {t : Term} (h : e.staticTerm n = .ok t) :
    ∃ value, t = .constant value := by
  obtain ⟨value, -, h⟩ := bind_eq_ok h
  split at h
  · cases h
    exact ⟨value, rfl⟩
  · cases h
    exact ⟨value, rfl⟩
  · cases h

end Expr

/-! ### Debug statements -/

namespace Statement

mutual

/-- Every debug statement in the statement shows values that can be counted in one byte. -/
def ShowsFew : Statement → Prop
  | conditional branches otherwise => ShowsFewGuarded branches ∧ ShowsFewOpt otherwise
  | whileLoop _ _ _ body           => ShowsFewAll body
  | repeatLoop _ body              => ShowsFewAll body
  | rangeLoop _ _ _ _ body         => ShowsFewAll body
  | forLoop init _ step body       => ShowsFewAll init ∧ ShowsFewAll step ∧ ShowsFewAll body
  | switch _ choices otherwise _   => ShowsFewChoices choices ∧ ShowsFewOpt otherwise
  | debug _ arguments              => (MethodContext.debugValues arguments).length ≤ 255
  | leave _ | next _ | ret _ | abort _ | assign _ _ _ | expression _ _ | assembly _ _ => True

def ShowsFewAll : List Statement → Prop
  | []      => True
  | s :: ss => s.ShowsFew ∧ ShowsFewAll ss

def ShowsFewOpt : Option (List Statement) → Prop
  | none    => True
  | some ss => ShowsFewAll ss

def ShowsFewGuarded : List Guarded → Prop
  | []                 => True
  | .mk _ _ body :: gs => ShowsFewAll body ∧ ShowsFewGuarded gs

def ShowsFewChoices : List Choice → Prop
  | []               => True
  | .mk _ body :: cs => ShowsFewAll body ∧ ShowsFewChoices cs

end

end Statement

end Propeller
