import Propeller.Expression.Scopes

/-!
# Expressions — frames and what they see

Frames are opened one after the other, each inside one that is there already, and from then on only what
they bind changes.  So a parent comes before its children (`Scopes.ParentsFirst`), and the way outwards
from a frame comes to an end.

A frame *sees* itself, its parent, the parent of that, and so on (`Scopes.Sees`).  Three things are looked
up along this way, and each of them is what the nearest frame has (`Scopes.nearest?`): what a name stands
for, its definition, and whether the user has a symbol of that name.

* `ParentsFirst.nearest?_eq`: the frame itself is asked first, and then its parent.
* `ParentsFirst.nearest?_eq_some_iff`: what is found is what the nearest frame has.
* `ParentsFirst.nearest?_congr`: the outcome depends only on the frames that are seen.
* `Scopes.Change`, `Scopes.Reached`: what can be done with frames, and the frames that come about by it.
* `Reached.lexical`: what holds of them, whatever was done.
-/

namespace Propeller

variable {i j : ScopeId} {f : Frame} {x : Identifier}

namespace Scopes

variable {s s' : Scopes} {β : Type} {has : Frame → Option β}

/-- Parents come before their children. -/
def ParentsFirst (s : Scopes) : Prop :=
  ∀ (i : ScopeId) (f : Frame), s.frames[i]? = some f → ∀ p, f.parent = some p → p < i

/-- A frame sees itself and what its parent sees. -/
inductive Sees (s : Scopes) : ScopeId → ScopeId → Prop where
  | self (i : ScopeId) : Sees s i i
  | outward {i p j : ScopeId} (parent : s.parent? i = some p) (rest : Sees s p j) : Sees s i j

/-- The first thing that one of the frames from a frame outwards has. -/
def nearest? (s : Scopes) (has : Frame → Option β) (i : ScopeId) : Option β :=
  (s.chain i).findSome? has

theorem parent?_eq (hf : s.frames[i]? = some f) : s.parent? i = f.parent := by
  rw [parent?, hf, Option.bind_some]

/-! ### Lookup from frame to frame -/

namespace ParentsFirst

/-- The chain of a frame is as long as it can be. -/
theorem outward_eq_chain (h : s.ParentsFirst) {steps : Nat} (hi : i < steps) :
    s.outward steps i = s.chain i := by
  induction i using Nat.strongRecOn generalizing steps with
  | ind i ih =>
    obtain ⟨k, rfl⟩ : ∃ k, steps = k + 1 := Nat.exists_eq_succ_of_ne_zero (Nat.ne_zero_of_lt hi)
    rw [chain, Scopes.outward, Scopes.outward]
    cases hf : s.frames[i]? with
    | none => rfl
    | some f =>
      cases hp : f.parent with
      | none => simp only [hp]
      | some p =>
        have hlt : p < i := h i f hf p hp
        have hle : p < k := Nat.lt_of_lt_of_le hlt (Nat.le_of_lt_succ hi)
        simp only [hp, ih p hlt hle, ih p hlt hlt]

theorem chain_eq (h : s.ParentsFirst) (hf : s.frames[i]? = some f) :
    s.chain i = f :: (f.parent.map s.chain).getD [] := by
  rw [chain, Scopes.outward, hf]
  cases hp : f.parent with
  | none => simp only [hp, Option.map_none, Option.getD_none]
  | some p => simp only [hp, h.outward_eq_chain (h i f hf p hp), Option.map_some, Option.getD_some]

/-- **The frame itself is asked first**, and then its parent. -/
theorem nearest?_eq (h : s.ParentsFirst) (has : Frame → Option β) (hf : s.frames[i]? = some f) :
    s.nearest? has i = (has f).or (f.parent.bind (s.nearest? has)) := by
  rw [nearest?, h.chain_eq hf, List.findSome?_cons]
  cases has f with
  | some b => rfl
  | none => cases f.parent <;> rfl

end ParentsFirst

theorem chain_of_none (hf : s.frames[i]? = none) : s.chain i = [] := by
  rw [chain, outward, hf]

theorem Sees.eq_of_none (h : s.Sees i j) (hf : s.frames[i]? = none) : j = i := by
  cases h with
  | self => rfl
  | outward parent _ =>
    rw [parent?, hf] at parent
    cases parent

/-- What a frame sees is itself or seen by its parent. -/
theorem Sees.cases_frame (h : s.Sees i j) (hf : s.frames[i]? = some f) :
    j = i ∨ ∃ p, f.parent = some p ∧ s.Sees p j := by
  cases h with
  | self => exact .inl rfl
  | outward parent rest =>
    rw [parent?_eq hf] at parent
    exact .inr ⟨_, parent, rest⟩

namespace ParentsFirst

variable (h : s.ParentsFirst)

include h

/-- No way outwards goes on for ever. -/
theorem wellFounded : WellFounded fun p i => s.parent? i = some p := by
  refine Subrelation.wf (fun {p i} hp => ?_) Nat.lt_wfRel.wf
  obtain ⟨f, hf, hparent⟩ := Option.bind_eq_some_iff.mp hp
  exact h i f hf p hparent

theorem le_of_sees (hij : s.Sees i j) : j ≤ i := by
  induction hij with
  | self => exact Nat.le_refl _
  | outward parent _ ih =>
    obtain ⟨f, hf, hparent⟩ := Option.bind_eq_some_iff.mp parent
    exact Nat.le_trans ih (Nat.le_of_lt (h _ f hf _ hparent))

/-- Two frames that see each other are one. -/
theorem eq_of_sees (hij : s.Sees i j) (hji : s.Sees j i) : i = j :=
  Nat.le_antisymm (h.le_of_sees hji) (h.le_of_sees hij)

/-- The frames that are asked are those that are seen. -/
theorem mem_chain : f ∈ s.chain i ↔ ∃ j, s.Sees i j ∧ s.frames[j]? = some f := by
  -- a parent comes first, so that the way outwards from it is known
  induction i using Nat.strongRecOn with
  | ind i ih =>
    cases hi : s.frames[i]? with
    | none =>
      rw [chain_of_none hi]
      constructor
      · rintro ⟨⟩
      · rintro ⟨j, hij, hf⟩
        rw [hij.eq_of_none hi, hi] at hf
        cases hf
    | some own =>
      rw [h.chain_eq hi, List.mem_cons]
      constructor
      · rintro (rfl | hf)
        · exact ⟨i, .self i, hi⟩
        · cases hp : own.parent with
          | none =>
            rw [hp] at hf
            cases hf
          | some p =>
            rw [hp] at hf
            obtain ⟨j, hpj, hj⟩ := (ih p (h i own hi p hp)).mp hf
            exact ⟨j, .outward ((parent?_eq hi).trans hp) hpj, hj⟩
      · rintro ⟨j, hij, hj⟩
        rcases hij.cases_frame hi with rfl | ⟨p, hp, hpj⟩
        · rw [hi] at hj
          exact .inl (Option.some.inj hj).symm
        · refine .inr ?_
          rw [hp]
          exact (ih p (h i own hi p hp)).mpr ⟨j, hpj, hj⟩

/-- Nothing is found if no frame that is seen has it. -/
theorem nearest?_eq_none_iff :
    s.nearest? has i = none ↔ ∀ j f, s.Sees i j → s.frames[j]? = some f → has f = none := by
  rw [nearest?, List.findSome?_eq_none_iff]
  constructor
  · exact fun hnone j f hij hf => hnone f (h.mem_chain.mpr ⟨j, hij, hf⟩)
  · intro hnone f hf
    obtain ⟨j, hij, hj⟩ := h.mem_chain.mp hf
    exact hnone j f hij hj

theorem nearest?_isSome_iff : (s.nearest? has i).isSome = true ↔
      ∃ j f, s.Sees i j ∧ s.frames[j]? = some f ∧ (has f).isSome = true := by
  rw [nearest?, List.findSome?_isSome_iff]
  constructor
  · rintro ⟨f, hf, hhas⟩
    obtain ⟨j, hij, hj⟩ := h.mem_chain.mp hf
    exact ⟨j, f, hij, hj, hhas⟩
  · rintro ⟨j, f, hij, hj, hhas⟩
    exact ⟨f, h.mem_chain.mpr ⟨j, hij, hj⟩, hhas⟩

/-- **What is found is what the nearest frame has.** -/
theorem nearest?_eq_some_iff {b : β} : s.nearest? has i = some b ↔
      ∃ j f, s.Sees i j ∧ s.frames[j]? = some f ∧ has f = some b ∧
        ∀ k f', s.Sees i k → s.Sees k j → k ≠ j → s.frames[k]? = some f' → has f' = none := by
  constructor
  · intro hb
    induction i using Nat.strongRecOn with
    | ind i ih =>
      cases hi : s.frames[i]? with
      | none =>
        rw [nearest?, chain_of_none hi] at hb
        cases hb
      | some own =>
        rw [h.nearest?_eq has hi] at hb
        cases hown : has own with
        | some b' =>
          rw [hown, Option.some_or] at hb
          refine ⟨i, own, .self i, hi, hown.trans hb, fun k f' hik hki hne _ => ?_⟩
          exact absurd (h.eq_of_sees hki hik) hne
        | none =>
          rw [hown, Option.none_or] at hb
          obtain ⟨p, hp, hb⟩ := Option.bind_eq_some_iff.mp hb
          obtain ⟨j, f, hpj, hf, hb, hnone⟩ := ih p (h i own hi p hp) hb
          have hparent : s.parent? i = some p := (parent?_eq hi).trans hp
          refine ⟨j, f, .outward hparent hpj, hf, hb, fun k f' hik hkj hne hf' => ?_⟩
          rcases hik.cases_frame hi with rfl | ⟨p', hp', hpk⟩
          · rw [hi] at hf'
            cases hf'
            exact hown
          · rw [hp] at hp'
            cases hp'
            exact hnone k f' hpk hkj hne hf'
  · rintro ⟨j, f, hij, hf, hb, hnone⟩
    induction hij with
    | self i => rw [h.nearest?_eq has hf, hb, Option.some_or]
    | @outward i p j hparent hpj ih =>
      obtain ⟨own, hi, hp⟩ := Option.bind_eq_some_iff.mp hparent
      have hlt : j < i := Nat.lt_of_le_of_lt (h.le_of_sees hpj) (h i own hi p hp)
      have hown : has own = none :=
        hnone i own (.self i) (.outward hparent hpj) (Nat.ne_of_gt hlt) hi
      rw [h.nearest?_eq has hi, hown, Option.none_or, hp, Option.bind_some]
      exact ih hf fun k f' hpk => hnone k f' (.outward hparent hpk)

/-- **Only the frames that are seen matter**, and of them only what is asked for. -/
theorem nearest?_congr (hi : i < s.frames.size)
    (hsame : ∀ j f, s.frames[j]? = some f → ∃ f', s'.frames[j]? = some f' ∧ f'.parent = f.parent ∧
      (s.Sees i j → has f' = has f)) : s'.nearest? has i = s.nearest? has i := by
  suffices houtward : ∀ steps, (s'.outward steps i).findSome? has = (s.outward steps i).findSome? has
    from houtward (i + 1)
  intro steps
  induction steps generalizing i with
  | zero => rfl
  | succ steps ih =>
    have hf := Array.getElem?_eq_getElem hi
    generalize s.frames[i] = f at hf
    obtain ⟨f', hf', hparent, hhas⟩ := hsame i f hf
    rw [Scopes.outward, Scopes.outward, hf', hf]
    simp only [List.findSome?_cons, hparent, hhas (.self i)]
    cases hp : f.parent with
    | none => rfl
    | some p =>
      have hrest := ih (Nat.lt_trans (h i f hf p hp) hi) fun j g hg => by
        obtain ⟨g', hg', hgparent, hghas⟩ := hsame j g hg
        refine ⟨g', hg', hgparent, fun hpj => hghas (.outward ?_ hpj)⟩
        exact (parent?_eq hf).trans hp
      simp only [hrest]

end ParentsFirst

end Scopes

/-! ### What a frame binds -/

theorem Frame.symbol?_or (f : Frame) (x : Identifier) :
    f.symbol? x = (f.builtins.lookup x).or
      ((f.symbols.lookup x).or ((f.definitions.lookup x).bind Definition.expression)) := by
  simp only [Frame.symbol?, Option.orElse_eq_orElse, Option.orElse_eq_or]

/-- What a frame binds a name to: a predefined symbol comes first, then a symbol of the user, and last a
definition of one token. -/
inductive Frame.Binds (f : Frame) (x : Identifier) : Expression → Prop where
  | builtin {e : Expression} (found : f.builtins.lookup x = some e) : Binds f x e
  | symbol {e : Expression} (builtin : f.builtins.lookup x = none)
      (found : f.symbols.lookup x = some e) : Binds f x e
  | definition {e : Expression} {d : Definition} {token : String}
      (builtin : f.builtins.lookup x = none) (symbol : f.symbols.lookup x = none)
      (found : f.definitions.lookup x = some d) (single : d.tokens = [token])
      (stands : d.expression = some e) : Binds f x e

/-- Just the definitions of one token stand for something. -/
def Frame.SingleTokens (f : Frame) : Prop :=
  ∀ x d, f.definitions.lookup x = some d → (d.expression.isSome = true ↔ ∃ token, d.tokens = [token])

theorem Frame.binds_iff (hf : f.SingleTokens) {e : Expression} : f.Binds x e ↔ f.symbol? x = some e := by
  rw [f.symbol?_or]
  constructor
  · intro h
    cases h with
    | builtin found => rw [found, Option.some_or]
    | symbol builtin found => rw [builtin, found, Option.none_or, Option.some_or]
    | definition builtin symbol found _ stands =>
      rw [builtin, symbol, found, Option.none_or, Option.none_or, Option.bind_some, stands]
  · intro h
    cases hb : f.builtins.lookup x with
    | some v =>
      rw [hb, Option.some_or] at h
      exact .builtin (hb.trans h)
    | none =>
      rw [hb, Option.none_or] at h
      cases hs : f.symbols.lookup x with
      | some v =>
        rw [hs, Option.some_or] at h
        exact .symbol hb (hs.trans h)
      | none =>
        rw [hs, Option.none_or] at h
        obtain ⟨d, hd, he⟩ := Option.bind_eq_some_iff.mp h
        obtain ⟨token, htoken⟩ := (hf x d hd).mp (by rw [he, Option.isSome_some])
        exact .definition hb hs hd htoken he

namespace Scopes

variable {s : Scopes}

theorem definitionOf_isSome (scope : ScopeId) (tokens : List String) :
    (definitionOf scope tokens).expression.isSome = true ↔
      ∃ token, (definitionOf scope tokens).tokens = [token] := by
  cases tokens with
  | nil => simp [definitionOf]
  | cons token rest =>
    cases rest with
    | nil => exact ⟨fun _ => ⟨token, rfl⟩, fun _ => rfl⟩
    | cons next rest => simp [definitionOf]

/-! ### Changes -/

/-- What can be done with frames. -/
inductive Change
  /-- Open a frame inside another. -/
  | push (parent : ScopeId)
  | symbol (scope : ScopeId) (name : Identifier) (value : Expression)
  | builtin (scope : ScopeId) (name : Identifier) (value : Expression)
  | definition (scope : ScopeId) (name : Identifier) (tokens : List String)
  | release (scope : ScopeId)

namespace Change

/-- The frame that a change is about. -/
def scope : Change → ScopeId
  | push parent           => parent
  | symbol scope _ _      => scope
  | builtin scope _ _     => scope
  | definition scope _ _  => scope
  | release scope         => scope

/-- Make a change. -/
def apply (s : Scopes) : Change → Scopes
  | push parent                  => s.push parent
  | symbol scope name value      => s.addSymbol scope name value
  | builtin scope name value     => s.addBuiltin scope name value
  | definition scope name tokens => s.addDefinition scope name tokens
  | release scope                => s.release scope

/-- A change says something about a name: it has that name, or forgets all names.  Opening a frame says
nothing about any. -/
def Concerns (x : Identifier) : Change → Prop
  | push _              => False
  | symbol _ name _     => (x == name) = true
  | builtin _ name _    => (x == name) = true
  | definition _ name _ => (x == name) = true
  | release _           => True

/-- What becomes of the frame. -/
def update : Change → Frame → Frame
  | push _, f                     => f
  | symbol _ name value, f        => { f with symbols := (name, value) :: f.symbols }
  | builtin _ name value, f       => { f with builtins := (name, value) :: f.builtins }
  | definition scope name tokens, f =>
    { f with definitions := (name, definitionOf scope tokens) :: f.definitions }
  | release _, f                  => { parent := f.parent }

variable {c : Change}

theorem getElem?_modifyFrame (k : ScopeId) (u : Frame → Frame) : (s.modifyFrame k u).frames[i]? =
    s.frames[i]?.map fun f => if k = i then u f else f := by
  rw [modifyFrame, Array.getElem?_modify]
  split <;> simp

/-- A change leaves all frames but one as they are. -/
theorem getElem?_apply (hi : i < s.frames.size) :
    (c.apply s).frames[i]? = s.frames[i]?.map fun f => if c.scope = i then c.update f else f := by
  cases c with
  | push parent => simp [apply, Scopes.push, Array.getElem?_push, Nat.ne_of_lt hi, update]
  | _ => exact getElem?_modifyFrame _ _

/-- A frame behind a change was there before it, or is the one that was opened. -/
theorem frame_of_apply (hf : (c.apply s).frames[i]? = some f) :
    (∃ g, s.frames[i]? = some g ∧ f = if c.scope = i then c.update g else g) ∨
      i = s.frames.size ∧ f = { parent := some c.scope } := by
  cases c with
  | push parent =>
    rw [apply, Scopes.push, Array.getElem?_push] at hf
    split at hf
    · next hlast => exact .inr ⟨hlast, (Option.some.inj hf).symm⟩
    · exact .inl ⟨f, hf, (ite_self f).symm⟩
  | _ =>
    obtain ⟨g, hg, rfl⟩ := Option.map_eq_some_iff.mp ((getElem?_modifyFrame _ _).symm.trans hf)
    exact .inl ⟨g, hg, rfl⟩

theorem update_parent (f : Frame) : (c.update f).parent = f.parent := by
  cases c <;> rfl

/-- A frame says the same about a name that a change does not concern. -/
theorem update_symbol? (hx : ¬ c.Concerns x) (f : Frame) : (c.update f).symbol? x = f.symbol? x := by
  cases c with
  | push parent => rfl
  | symbol scope name value | builtin scope name value | definition scope name tokens =>
    have hne : (x == name) = false := Bool.eq_false_iff.mpr hx
    simp only [update, Frame.symbol?, List.lookup_cons, hne]
  | release scope => exact absurd trivial hx

theorem update_singleTokens (hf : f.SingleTokens) : (c.update f).SingleTokens := by
  cases c with
  | push | symbol | builtin => exact hf
  | definition scope name tokens =>
    intro x d hd
    rw [update, List.lookup_cons] at hd
    split at hd
    · cases hd
      exact definitionOf_isSome scope tokens
    · exact hf x d hd
  | release scope =>
    intro x d hd
    cases hd

end Change

/-- A frame is opened behind all others. -/
theorem ParentsFirst.change (h : s.ParentsFirst) {c : Change} (there : c.scope < s.frames.size) :
    (c.apply s).ParentsFirst := by
  intro i f hf p hp
  rcases Change.frame_of_apply hf with ⟨g, hg, rfl⟩ | ⟨rfl, rfl⟩
  · refine h i g hg p ?_
    split at hp
    · rwa [Change.update_parent] at hp
    · exact hp
  · cases hp
    exact there

/-- Frames that come about by changing the outermost one alone. -/
inductive Reached : Scopes → Prop where
  | initial : Reached Scopes.initial
  | change {s : Scopes} (reached : Reached s) (c : Change) (there : c.scope < s.frames.size) :
      Reached (c.apply s)

namespace Reached

/-- **Parents come before their children.** -/
theorem parentsFirst (h : s.Reached) : s.ParentsFirst := by
  induction h with
  | initial =>
    intro i f hf p hp
    cases i with
    | zero =>
      cases hf
      cases hp
    | succ i => cases hf
  | change reached c there ih => exact ih.change there

theorem singleTokens (h : s.Reached) (hf : s.frames[i]? = some f) : f.SingleTokens := by
  induction h generalizing i f with
  | initial =>
    cases i with
    | zero =>
      cases hf
      intro x d hd
      cases hd
    | succ i => cases hf
  | change reached c there ih =>
    rcases Change.frame_of_apply hf with ⟨g, hg, rfl⟩ | ⟨-, rfl⟩
    · split
      · exact Change.update_singleTokens (ih hg)
      · exact ih hg
    · intro x d hd
      cases hd

end Reached

/-! ### Lookup in frames that were reached -/

/-- A frame that is seen has a symbol of the user for the name. -/
def HasSymbol (s : Scopes) (i : ScopeId) (x : Identifier) : Prop :=
  ∃ j f, s.Sees i j ∧ s.frames[j]? = some f ∧ (f.symbols.lookup x).isSome = true

/-- A frame that is seen has a definition of the name. -/
def HasDefinition (s : Scopes) (i : ScopeId) (x : Identifier) : Prop :=
  ∃ j f, s.Sees i j ∧ s.frames[j]? = some f ∧ (f.definitions.lookup x).isSome = true

/-- **How names are looked up in frames**, what changes the outcome, and what is said about a new
symbol. -/
structure Lexical (s : Scopes) : Prop where
  /-- A parent comes before its children, -/
  parent_lt : ∀ i p, s.parent? i = some p → p < i
  /-- so that no way outwards goes on for ever. -/
  wellFounded : WellFounded fun p i => s.parent? i = some p
  /-- A name stands for what the nearest frame that binds it binds it to, -/
  symbol_iff : ∀ i x e, s.symbol? i x = some e ↔
    ∃ j f, s.Sees i j ∧ s.frames[j]? = some f ∧ f.Binds x e ∧
      ∀ k g e', s.Sees i k → s.Sees k j → k ≠ j → s.frames[k]? = some g → ¬ g.Binds x e'
  /-- and for nothing if no frame does. -/
  none_iff : ∀ i x, s.symbol? i x = none ↔
    ∀ j f e, s.Sees i j → s.frames[j]? = some f → ¬ f.Binds x e
  /-- What a change alters is seen from the frame and has the name of the change. -/
  change_of_ne : ∀ (c : Change), ∀ i < s.frames.size, ∀ x,
    (c.apply s).symbol? i x ≠ s.symbol? i x → s.Sees i c.scope ∧ c.Concerns x
  /-- A new symbol is stored in any case. -/
  stored : ∀ i < s.frames.size, ∀ x e, ∃ f, (s.addSymbol i x e).frames[i]? = some f ∧
    ∀ y, (y == x) = true → f.symbols.lookup y = some e
  /-- It is a duplicate if the user had one of that name, -/
  duplicate_iff : ∀ i x, s.warningFor i x = some (.duplicate x) ↔ s.HasSymbol i x
  /-- it hides a definition if there was only that, -/
  definition_iff : ∀ i x, s.warningFor i x = some (.definition x) ↔
    ¬ s.HasSymbol i x ∧ s.HasDefinition i x
  /-- and nothing is said about it otherwise. -/
  silent_iff : ∀ i x, s.warningFor i x = none ↔ ¬ s.HasSymbol i x ∧ ¬ s.HasDefinition i x

namespace ParentsFirst

/-- What is said about a new symbol: a symbol of the user counts before a definition. -/
theorem warningFor_cases (h : s.ParentsFirst) (i : ScopeId) (x : Identifier) :
    s.HasSymbol i x ∧ s.warningFor i x = some (.duplicate x) ∨
      ¬ s.HasSymbol i x ∧ s.HasDefinition i x ∧ s.warningFor i x = some (.definition x) ∨
      ¬ s.HasSymbol i x ∧ ¬ s.HasDefinition i x ∧ s.warningFor i x = none := by
  have hsymbol : ((s.chain i).findSome? (·.symbols.lookup x)).isSome = true ↔ s.HasSymbol i x :=
    h.nearest?_isSome_iff
  have hdefinition : s.isDefined i x = true ↔ s.HasDefinition i x := h.nearest?_isSome_iff
  rw [warningFor, ← hsymbol, ← hdefinition]
  split
  · next hs => exact .inl ⟨hs, rfl⟩
  · next hs =>
    split
    · next hd => exact .inr (.inl ⟨hs, hd, rfl⟩)
    · next hd => exact .inr (.inr ⟨hs, hd, rfl⟩)

end ParentsFirst

namespace Reached

variable (h : s.Reached)

include h

/-- **A change alters what is seen from its frame**, and of that what it says something about. -/
theorem change_of_ne {c : Change} (hi : i < s.frames.size)
    (hne : (c.apply s).symbol? i x ≠ s.symbol? i x) : s.Sees i c.scope ∧ c.Concerns x := by
  refine Classical.byContradiction fun hnot => hne ?_
  refine h.parentsFirst.nearest?_congr hi fun j f hf => ?_
  have hj := (Array.getElem?_eq_some_iff.mp hf).1
  refine ⟨if c.scope = j then c.update f else f, ?_, ?_, fun hij => ?_⟩
  · rw [Change.getElem?_apply hj, hf, Option.map_some]
  · split
    · exact Change.update_parent f
    · rfl
  · split
    · next hscope => exact Change.update_symbol? (fun hx => hnot ⟨hscope ▸ hij, hx⟩) f
    · rfl

/-- **Lookup in frames.**  Whatever frames were opened, whatever was bound and forgotten in them, names are
looked up as `Scopes.Lexical` says. -/
theorem lexical : s.Lexical where
  parent_lt i p hp := by
    obtain ⟨f, hf, hparent⟩ := Option.bind_eq_some_iff.mp hp
    exact h.parentsFirst i f hf p hparent
  wellFounded := h.parentsFirst.wellFounded
  symbol_iff i x e := by
    refine h.parentsFirst.nearest?_eq_some_iff.trans (exists_congr fun j => exists_congr fun f => ?_)
    refine and_congr_right fun _ => and_congr_right fun hf => ?_
    rw [Frame.binds_iff (h.singleTokens hf)]
    refine and_congr_right fun _ => forall_congr' fun k => forall_congr' fun g => ?_
    constructor
    · intro hnone e' hik hkj hne hg hbinds
      rw [Frame.binds_iff (h.singleTokens hg), hnone hik hkj hne hg] at hbinds
      cases hbinds
    · intro hnot hik hkj hne hg
      refine Option.eq_none_iff_forall_ne_some.mpr fun e' he' => ?_
      exact hnot e' hik hkj hne hg ((Frame.binds_iff (h.singleTokens hg)).mpr he')
  none_iff i x := by
    refine h.parentsFirst.nearest?_eq_none_iff.trans (forall_congr' fun j => forall_congr' fun f => ?_)
    constructor
    · intro hnone e hij hf hbinds
      rw [Frame.binds_iff (h.singleTokens hf), hnone hij hf] at hbinds
      cases hbinds
    · intro hnot hij hf
      refine Option.eq_none_iff_forall_ne_some.mpr fun e he => ?_
      exact hnot e hij hf ((Frame.binds_iff (h.singleTokens hf)).mpr he)
  change_of_ne c i hi x := h.change_of_ne hi
  stored i hi x e := by
    have hf := Change.getElem?_apply (c := .symbol i x e) hi
    rw [Array.getElem?_eq_getElem hi, Option.map_some] at hf
    refine ⟨_, hf, fun y hy => ?_⟩
    simp only [Change.scope, Change.update, if_true, List.lookup_cons, hy]
  duplicate_iff i x := by
    rcases h.parentsFirst.warningFor_cases i x with ⟨hs, hw⟩ | ⟨hs, hd, hw⟩ | ⟨hs, hd, hw⟩ <;>
      simp [hs, hw]
  definition_iff i x := by
    rcases h.parentsFirst.warningFor_cases i x with ⟨hs, hw⟩ | ⟨hs, hd, hw⟩ | ⟨hs, hd, hw⟩ <;>
      simp [*]
  silent_iff i x := by
    rcases h.parentsFirst.warningFor_cases i x with ⟨hs, hw⟩ | ⟨hs, hd, hw⟩ | ⟨hs, hd, hw⟩ <;>
      simp [*]

end Reached

/-- Two frames in the outermost one, of which the first binds a name anew and the second has been
emptied. -/
theorem lexical_shadowing :
    ∃ s : Scopes, s.Reached ∧ s.symbol? 1 ⟨"x"⟩ = some (.int 2) ∧ s.symbol? 2 ⟨"X"⟩ = some (.int 1) ∧
      s.symbol? 2 ⟨"y"⟩ = none ∧ s.warningFor 2 ⟨"X"⟩ = some (.duplicate ⟨"X"⟩) ∧
      s.warningFor 1 ⟨"led"⟩ = some (.definition ⟨"led"⟩) ∧ s.Lexical := by
  have defined := Reached.initial.change (.definition 0 ⟨"LED"⟩ ["$38"]) (by decide)
  have outer := defined.change (.symbol 0 ⟨"x"⟩ (.int 1)) (by decide)
  have first := (outer.change (.push 0) (by decide)).change (.symbol 1 ⟨"X"⟩ (.int 2)) (by decide)
  have second := (first.change (.push 0) (by decide)).change (.symbol 2 ⟨"y"⟩ (.int 3)) (by decide)
  have emptied := second.change (.release 2) (by decide)
  exact ⟨_, emptied, rfl, rfl, rfl, rfl, rfl, emptied.lexical⟩

end Scopes

end Propeller
