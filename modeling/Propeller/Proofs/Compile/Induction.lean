import Propeller.Compile.Statement

/-!
# Compile — induction over trees

Expressions, terms, statements and commands hold lists and options of each other.  The principles here
give the parts of such a list as members of it, so that what is shown of every part is at hand for the
whole list.
-/

namespace Propeller

/-- Induction over a written expression. -/
@[elab_as_elim]
theorem Expr.induct {P : Expr → Prop}
    (literal : ∀ l value, P (.literal l value))
    (text : ∀ l value, P (.text l value))
    (name : ∀ l x, P (.name l x))
    (member : ∀ l object index x, (∀ i ∈ index, P i) → P (.member l object index x))
    (index : ∀ l base i, P i → P (.index l base i))
    (unary : ∀ l op operand, P operand → P (.unary l op operand))
    (binary : ∀ l op left right, P left → P right → P (.binary l op left right))
    (ternary : ∀ l c yes no, P c → P yes → P no → P (.ternary l c yes no))
    (addressOf : ∀ l operand, P operand → (∀ l' base i, operand = .index l' base i → P i) →
      P (.addressOf l operand))
    (call : ∀ l object index method arguments, (∀ i ∈ index, P i) → (∀ a ∈ arguments, P a) →
      P (.call l object index method arguments)) (e : Expr) : P e := by
  -- the operand of an address is looked into, so that the index of an element is carried along
  suffices h : P e ∧ ∀ l base i, e = .index l base i → P i from h.1
  refine @Expr.rec (fun e => P e ∧ ∀ l base i, e = .index l base i → P i) (fun i => ∀ e ∈ i, P e)
    (fun es => ∀ e ∈ es, P e) ?_ ?_ ?_ ?_ ?_ ?_ ?_ ?_ ?_ ?_ ?_ ?_ ?_ ?_ e
  · exact fun l value => ⟨literal l value, by simp⟩
  · exact fun l value => ⟨text l value, by simp⟩
  · exact fun l x => ⟨name l x, by simp⟩
  · exact fun l object i x hi => ⟨member l object i x hi, by simp⟩
  · refine fun l base i hi => ⟨index l base i hi.1, ?_⟩
    rintro _ _ _ ⟨⟩
    exact hi.1
  · exact fun l op operand h => ⟨unary l op operand h.1, by simp⟩
  · exact fun l op left right hl hr => ⟨binary l op left right hl.1 hr.1, by simp⟩
  · exact fun l c yes no hc hy hn => ⟨ternary l c yes no hc.1 hy.1 hn.1, by simp⟩
  · exact fun l operand h => ⟨addressOf l operand h.1 h.2, by simp⟩
  · exact fun l object i method arguments hi ha => ⟨call l object i method arguments hi ha, by simp⟩
  · simp
  · intro e he
    simpa using he.1
  · simp
  · intro e es he hes x hx
    rcases List.mem_cons.mp hx with rfl | hx
    · exact he.1
    · exact hes x hx

/-- Induction over a term. -/
@[elab_as_elim]
theorem Term.induct {P : Term → Prop}
    (constant : ∀ value, P (.constant value))
    (read : ∀ v index, (∀ i ∈ index.toList, P i) → P (.read v index))
    (address : ∀ v index, (∀ i ∈ index.toList, P i) → P (.address v index))
    (unary : ∀ op operand, P operand → P (.unary op operand))
    (binary : ∀ op left right, P left → P right → P (.binary op left right))
    (ternary : ∀ c yes no, P c → P yes → P no → P (.ternary c yes no))
    (call : ∀ m arguments index, (∀ a ∈ arguments, P a) → (∀ i ∈ index.toList, P i) →
      P (.call m arguments index)) (t : Term) : P t := by
  refine @Term.rec P (fun i => ∀ t ∈ i.toList, P t) (fun ts => ∀ t ∈ ts, P t) constant read address
    unary binary ternary call ?_ ?_ ?_ ?_ t
  · simp
  · simp
  · simp
  · simp +contextual

namespace Term

theorem linesOpt_eq (t : Option Term) : linesOpt t = linesAll t.toList := by
  cases t <;> simp [linesOpt, linesAll]

theorem codeOpt_eq (t : Option Term) (base : LineId) : codeOpt base t = codeAll base t.toList := by
  cases t <;> simp [codeOpt, codeAll]

end Term

/-- Induction over a statement. -/
@[elab_as_elim]
theorem Statement.induct {P : Statement → Prop}
    (conditional : ∀ branches otherwise,
      (∀ c negate body, Guarded.mk c negate body ∈ branches → ∀ s ∈ body, P s) →
      (∀ s ∈ otherwise.getD [], P s) → P (.conditional branches otherwise))
    (preLoop : ∀ c isUntil body, (∀ s ∈ body, P s) → P (.whileLoop c isUntil false body))
    (postLoop : ∀ c isUntil body, (∀ s ∈ body, P s) → P (.whileLoop c isUntil true body))
    (forever : ∀ body, (∀ s ∈ body, P s) → P (.repeatLoop none body))
    (countLoop : ∀ count body, (∀ s ∈ body, P s) → P (.repeatLoop (some count) body))
    (rangeLoop : ∀ target first last step body, (∀ s ∈ body, P s) →
      P (.rangeLoop target first last step body))
    (forLoop : ∀ init c step body, (∀ s ∈ init, P s) → (∀ s ∈ step, P s) → (∀ s ∈ body, P s) →
      P (.forLoop init c step body))
    (switch : ∀ value choices otherwise breakable,
      (∀ labels body, Choice.mk labels body ∈ choices → ∀ s ∈ body, P s) →
      (∀ s ∈ otherwise.getD [], P s) → P (.switch value choices otherwise breakable))
    (leave : ∀ l, P (.leave l)) (next : ∀ l, P (.next l))
    (ret : ∀ value, P (.ret value)) (abort : ∀ value, P (.abort value))
    (assign : ∀ target op value, P (.assign target op value))
    (expression : ∀ l value, P (.expression l value))
    (assembly : ∀ l lines, P (.assembly l lines))
    (debug : ∀ l arguments, P (.debug l arguments)) (s : Statement) : P s := by
  refine @Statement.rec P
    (fun g => ∀ c negate body, g = .mk c negate body → ∀ s ∈ body, P s)
    (fun g => ∀ labels body, g = .mk labels body → ∀ s ∈ body, P s)
    (fun gs => ∀ c negate body, Guarded.mk c negate body ∈ gs → ∀ s ∈ body, P s)
    (fun o => ∀ s ∈ o.getD [], P s) (fun ss => ∀ s ∈ ss, P s)
    (fun gs => ∀ labels body, Choice.mk labels body ∈ gs → ∀ s ∈ body, P s)
    conditional ?_ ?_ rangeLoop forLoop switch leave next ret abort assign expression
    assembly debug ?_ ?_ ?_ ?_ ?_ ?_ ?_ ?_ ?_ ?_ s
  · exact fun c isUntil isPost => isPost.casesOn (preLoop c isUntil) (postLoop c isUntil)
  · exact fun count => count.casesOn forever countLoop
  · rintro c negate body ih _ _ _ ⟨⟩
    exact ih
  · rintro labels body ih _ _ ⟨⟩
    exact ih
  · simp
  · intro g gs hg hgs c negate body hm
    rcases List.mem_cons.mp hm with rfl | hm
    · exact hg c negate body rfl
    · exact hgs c negate body hm
  · simp
  · exact fun body ih => ih
  · simp
  · simp +contextual
  · simp
  · intro g gs hg hgs labels body hm
    rcases List.mem_cons.mp hm with rfl | hm
    · exact hg labels body rfl
    · exact hgs labels body hm

/-- Statements that are missing are compiled as no statements. -/
theorem Statement.blockOpt_eq (m : MethodContext) (exits : Exits) (ss : Option (List Statement)) :
    blockOpt m exits ss = block m exits (ss.getD []) := by
  cases ss <;> rfl

/-- Induction over a command. -/
@[elab_as_elim]
theorem Command.induct {P : Command → Prop}
    (ifThen : ∀ negate c yes, (∀ x ∈ yes, P x) → P (.ifThen negate c yes))
    (ifElse : ∀ negate c yes no, (∀ x ∈ yes, P x) → (∀ x ∈ no, P x) → P (.ifElse negate c yes no))
    (preLoop : ∀ isUntil c body, (∀ x ∈ body, P x) → P (.preLoop isUntil c body))
    (postLoop : ∀ isUntil c body, (∀ x ∈ body, P x) → P (.postLoop isUntil c body))
    (forever : ∀ body, (∀ x ∈ body, P x) → P (.forever body))
    (countLoop : ∀ count body, (∀ x ∈ body, P x) → P (.countLoop count body))
    (rangeLoop : ∀ v index first last step body, (∀ x ∈ body, P x) →
      P (.rangeLoop v index first last step body))
    (forLoop : ∀ init c step body, (∀ x ∈ init, P x) → (∀ x ∈ step, P x) → (∀ x ∈ body, P x) →
      P (.forLoop init c step body))
    (switch : ∀ breakable value labels bodies otherwise, (∀ b ∈ bodies, ∀ x ∈ b, P x) →
      (∀ x ∈ otherwise, P x) → P (.switch breakable value labels bodies otherwise))
    (exit : ∀ e, P (.exit e)) (ret : P (.ret none)) (retValue : ∀ t, P (.ret (some t)))
    (abort : P (.abort none)) (abortValue : ∀ t, P (.abort (some t)))
    (assign : ∀ v index value, P (.assign v index none value))
    (update : ∀ v index op value, P (.assign v index (some op) value))
    (invoke : ∀ m arguments index, P (.invoke m arguments index))
    (discard : ∀ t, P (.discard t)) (assembly : ∀ origin block, P (.assembly origin block))
    (debug : ∀ values record, P (.debug values record)) (c : Command) : P c := by
  refine @Command.rec P (fun cs => ∀ x ∈ cs, P x) (fun bs => ∀ b ∈ bs, ∀ x ∈ b, P x) ifThen ifElse
    preLoop postLoop forever countLoop rangeLoop forLoop switch exit ?_ ?_ ?_ invoke discard assembly debug
    ?_ ?_ ?_ ?_ c
  · exact fun value => value.casesOn ret retValue
  · exact fun value => value.casesOn abort abortValue
  · exact fun v index op value => op.casesOn (assign v index value) fun op => update v index op value
  · simp
  · simp +contextual
  · simp
  · intro b bs hb hbs c hc
    rcases List.mem_cons.mp hc with rfl | hc
    · exact hb
    · exact hbs c hc

end Propeller
