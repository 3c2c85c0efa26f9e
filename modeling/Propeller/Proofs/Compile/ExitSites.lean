import Propeller.Proofs.Compile.ClosedBody

/-!
# Compile — where loops and switches are left

A statement that leaves a construct, or goes on with its next round, is an *exit site*.  It goes to the
nearest construct around it that can be left in this way, and drops what is held on the stack by the
constructs on the way there.

* `ExitSite.depth?`, `ExitSite.dropped`: where an exit site goes, and what it drops.
* `Statement.exitSites`: the exit sites of a statement, with the constructs around them.
* `PlacedConstruct.Encloses`, `NestedIn`: how constructs are nested in a listing.
* `Statement.laid`: the exit sites of a statement stand in its code one after the other, each of them in the
  constructs that are around it, and so do its texts.
-/

namespace Propeller

variable {sites last : List ExitSite} {ss : List Statement} {branches : List Guarded}
  {c : PlacedConstruct} {block : Listing} {s : ExitSite} {depth : Nat} {outer : List Enclosure}
  {cs : List Command}

/-! ### Constructs -/

/-- What can be around a statement and matters to its exits. -/
inductive Construct
  /-- A loop that holds nothing on the stack. -/
  | loop
  /-- A loop that holds how many rounds are left. -/
  | countLoop
  /-- A loop that holds a range, a step and the address of its variable. -/
  | rangeLoop
  /-- A switch, which holds where it ends and its value. -/
  | switch (breakable : Bool)
deriving DecidableEq

namespace Construct

/-- How many longs it holds on the stack. -/
def held : Construct → Nat
  | loop      => 0
  | countLoop => 1
  | rangeLoop => 4
  | switch _  => 2

/-- There is somewhere to go for an exit: a loop has an end and a next round, a switch at most an end. -/
def offers : Construct → Exit → Bool
  | switch breakable, .leave => breakable
  | switch _, .next          => false
  | _, _                     => true

end Construct

/-! ### Exit sites -/

/-- A statement that leaves a construct or goes on with its next round. -/
structure ExitSite where
  exit : Exit
  location : Location
  /-- The constructs around it, from the inside. -/
  around : List Construct := []

namespace ExitSite

/-- The site, with one more construct around it. -/
def within (c : Construct) (s : ExitSite) : ExitSite := { s with around := s.around ++ [c] }

/-- How many constructs there are between the site and the one that it goes to, if there is one. -/
def depth? (s : ExitSite) : Option Nat := s.around.findIdx? (·.offers s.exit)

/-- How many longs are held by the constructs that are left on the way to the one at a depth.  That one
itself is left too, unless its next round is wanted. -/
def dropped (s : ExitSite) (depth : Nat) : Nat :=
  match s.exit with
  | .leave => ((s.around.take (depth + 1)).map Construct.held).sum
  | .next  => ((s.around.take depth).map Construct.held).sum

end ExitSite

/-! ### The exit sites of statements -/

/-- Which expressions are in order, as values and as what is written to. -/
structure Checks where
  value : Expr → Bool
  target : Expr → Bool

namespace Checks

/-- All expressions are in order. -/
def all : Checks := { value := fun _ => true, target := fun _ => true }

variable (ok : Checks)

/-- An expression that may be missing is in order. -/
def valueOpt (e : Option Expr) : Bool := e.all ok.value

/-- A label of a choice is in order. -/
def label : CaseLabel → Bool
  | .value e        => ok.value e
  | .range low high => ok.value low && ok.value high

/-- The labels of all choices are in order. -/
def labels (choices : List Choice) : Bool := choices.all fun c => c.labels.all ok.label

theorem valueOpt_all (e : Option Expr) : all.valueOpt e = true := by
  cases e <;> rfl

theorem labels_all (choices : List Choice) : all.labels choices = true := by
  have hlabel : ∀ l, all.label l = true := by
    intro l
    cases l <;> rfl
  simp only [labels, hlabel, List.all_eq_true, implies_true]

end Checks

namespace Statement

variable (ok : Checks)

mutual

/-- The exit sites of a statement, in the order of its code.  A statement is looked at no further than to an
expression that is not in order. -/
def exitSites : Statement → List ExitSite
  | conditional branches otherwise => exitSitesGuarded (exitSitesOpt otherwise) branches
  | whileLoop _ _ true body => (exitSitesAll body).map (.within .loop)
  | whileLoop condition _ false body =>
    if ok.value condition then (exitSitesAll body).map (.within .loop) else []
  | repeatLoop none body => (exitSitesAll body).map (.within .loop)
  | repeatLoop (some count) body =>
    if ok.value count then (exitSitesAll body).map (.within .countLoop) else []
  | rangeLoop target first last step body =>
    if ok.value first && ok.value last && ok.valueOpt step && ok.target target then
      (exitSitesAll body).map (.within .rangeLoop)
    else []
  | forLoop init condition step body =>
    exitSitesAll init ++
      if ok.valueOpt condition then
        (exitSitesAll body ++ exitSitesAll step).map (.within .loop)
      else []
  | switch value choices otherwise breakable =>
    if ok.value value && ok.labels choices then
      (exitSitesOpt otherwise ++ exitSitesChoices choices).map (.within (.switch breakable))
    else []
  | leave location => [{ exit := .leave, location }]
  | next location => [{ exit := .next, location }]
  | ret _ => []
  | abort _ => []
  | assign _ _ _ => []
  | expression _ _ => []
  | assembly _ _ => []
  | debug _ _ => []

/-- The exit sites of statements one after the other. -/
def exitSitesAll : List Statement → List ExitSite
  | []      => []
  | s :: ss => s.exitSites ++ exitSitesAll ss

/-- The exit sites of statements that may be missing. -/
def exitSitesOpt : Option (List Statement) → List ExitSite
  | none    => []
  | some ss => exitSitesAll ss

/-- The exit sites of a chain of conditions, with those of what is done if none of them holds. -/
def exitSitesGuarded (otherwise : List ExitSite) : List Guarded → List ExitSite
  | [] => otherwise
  | .mk condition _ body :: rest =>
    if ok.value condition then exitSitesAll body ++ exitSitesGuarded otherwise rest else []

/-- The exit sites of the statements of choices. -/
def exitSitesChoices : List Choice → List ExitSite
  | []              => []
  | .mk _ b :: rest => exitSitesAll b ++ exitSitesChoices rest

end

variable {ok}

theorem exitSitesOpt_eq (ok : Checks) (ss : Option (List Statement)) :
    exitSitesOpt ok ss = exitSitesAll ok (ss.getD []) := by
  cases ss <;> rfl

/-- What stands behind an expression may be looked at or not. -/
theorem ite_sublist {b : Bool} {sites' : List ExitSite} (h : sites.Sublist sites') :
    (if b then sites else []).Sublist sites' := by
  split
  · exact h
  · exact List.nil_sublist _

theorem exitSitesAll_sublist (h : ∀ s ∈ ss, (exitSites ok s).Sublist (exitSites .all s)) :
    (exitSitesAll ok ss).Sublist (exitSitesAll .all ss) := by
  induction ss with
  | nil => exact .slnil
  | cons s ss ih =>
    exact (h s (.head _)).append (ih fun x hx => h x (.tail _ hx))

theorem exitSitesGuarded_sublist {last' : List ExitSite} (hlast : last.Sublist last')
    (h : ∀ c negate body, Guarded.mk c negate body ∈ branches →
      ∀ s ∈ body, (exitSites ok s).Sublist (exitSites .all s)) :
    (exitSitesGuarded ok last branches).Sublist (exitSitesGuarded .all last' branches) := by
  induction branches with
  | nil => exact hlast
  | cons g rest ih =>
    obtain ⟨c, negate, body⟩ := g
    exact ite_sublist ((exitSitesAll_sublist (h c negate body (.head _))).append
      (ih fun c n b hb => h c n b (.tail _ hb)))

theorem exitSitesChoices_sublist {choices : List Choice}
    (h : ∀ labels body, Choice.mk labels body ∈ choices →
      ∀ s ∈ body, (exitSites ok s).Sublist (exitSites .all s)) :
    (exitSitesChoices ok choices).Sublist (exitSitesChoices .all choices) := by
  induction choices with
  | nil => exact .slnil
  | cons c rest ih =>
    obtain ⟨labels, body⟩ := c
    exact (exitSitesAll_sublist (h labels body (.head _))).append
      (ih fun l b hb => h l b (.tail _ hb))

/-- The exit sites that are reached are some of all of them. -/
theorem exitSites_sublist (ok : Checks) (s : Statement) : (exitSites ok s).Sublist (exitSites .all s) := by
  induction s using Statement.induct with
  | conditional branches otherwise hb ho =>
    simp only [exitSites, exitSitesOpt_eq]
    exact exitSitesGuarded_sublist (exitSitesAll_sublist ho) hb
  | preLoop _ _ body hb | countLoop _ body hb => exact ite_sublist ((exitSitesAll_sublist hb).map _)
  | postLoop _ _ body hb | forever body hb => exact (exitSitesAll_sublist hb).map _
  | rangeLoop target first last step body hb =>
    rw [exitSites, exitSites, Checks.valueOpt_all]
    exact ite_sublist ((exitSitesAll_sublist hb).map _)
  | forLoop init c step body hi hs hb =>
    rw [exitSites, exitSites, Checks.valueOpt_all]
    exact (exitSitesAll_sublist hi).append
      (ite_sublist (((exitSitesAll_sublist hb).append (exitSitesAll_sublist hs)).map _))
  | switch value choices otherwise breakable hc ho =>
    rw [exitSites, exitSites, Checks.labels_all, exitSitesOpt_eq, exitSitesOpt_eq]
    exact ite_sublist (((exitSitesAll_sublist ho).append (exitSitesChoices_sublist hc)).map _)
  | leave | next => exact .refl _
  | _ => exact .slnil

end Statement

/-! ### Constructs in a listing -/

/-- A construct in a listing, with the lines that begin behind it and with its next round.  For a switch,
which has no rounds, the second does not matter. -/
structure PlacedConstruct where
  kind : Construct
  stop : LineId
  again : LineId

namespace PlacedConstruct

/-- The line that an exit goes to. -/
def line (c : PlacedConstruct) : Exit → LineId
  | .leave => c.stop
  | .next  => c.again

/-- What the construct offers its commands. -/
def enclosure (c : PlacedConstruct) : Enclosure :=
  { targets := ([.leave, .next].filter c.kind.offers).map fun e => (e, c.line e), held := c.kind.held }

/-- A block of code is what is inside of a construct, in the code of the construct. -/
inductive Encloses : PlacedConstruct → (block code : Listing) → Prop
  /-- The condition stands in front: the next round begins with it. -/
  | preLoop (top again stop : LineId) (b : Branch) (test block : Listing) :
      Encloses ⟨.loop, stop, top⟩ block
        ([Entry.mark top] ++ test ++ [Entry.branch b stop] ++ block ++
          [Entry.mark again, .branch .jmp top, .mark stop])
  /-- The condition stands behind: the next round begins where it is tested. -/
  | postLoop (top next stop : LineId) (b : Branch) (test block : Listing) :
      Encloses ⟨.loop, stop, next⟩ block
        ([Entry.mark top] ++ block ++ [Entry.mark next] ++ test ++ [Entry.branch b top, .mark stop])
  /-- There is no condition: the next round begins with the jump back, -/
  | forever (top next stop : LineId) (block : Listing) :
      Encloses ⟨.loop, stop, next⟩ block
        ([Entry.mark top] ++ block ++ [Entry.mark next, .branch .jmp top, .mark stop])
  /-- or where the rounds that are left are counted down, -/
  | countLoop (start top next stop : LineId) (count block : Listing) :
      Encloses ⟨.countLoop, stop, next⟩ block
        ([Entry.mark start] ++ count ++ [Entry.branch .tjz stop, .mark top] ++ block ++
          [Entry.mark next, .branch .djnz top, .mark stop])
  /-- or where the variable is advanced, -/
  | rangeLoop (top next stop : LineId) (setup block : Listing) (init : Entry) :
      Encloses ⟨.rangeLoop, stop, next⟩ block
        (setup ++ [init, .mark top] ++ block ++ [Entry.mark next, .branch .repeatLoop top, .mark stop])
  /-- or with the step, which is itself inside of the loop. -/
  | forLoop (top next again stop : LineId) (test body step : Listing) :
      Encloses ⟨.loop, stop, next⟩ (body ++ [Entry.mark next] ++ step)
        ([Entry.mark top] ++ test ++ (body ++ [Entry.mark next] ++ step) ++
          [Entry.mark again, .branch .jmp top, .mark stop])
  | switch (breakable : Bool) (start stop : LineId) (choose block : Listing) :
      Encloses ⟨.switch breakable, stop, stop⟩ block
        ([Entry.mark start, .branch .pushTarget stop] ++ choose ++ block ++ [Entry.mark stop])

theorem Encloses.isInfix {code : Listing} (h : c.Encloses block code) : block <:+: code := by
  cases h with
  | preLoop top again stop b test => exact ⟨_, _, rfl⟩
  | postLoop top next stop b test =>
    exact ⟨[.mark top], [.mark next] ++ test ++ [.branch b top, .mark stop], by simp⟩
  | _ => exact ⟨_, _, rfl⟩

end PlacedConstruct

/-- A piece of code stands in a listing inside of constructs that are nested, given from the inside. -/
def NestedIn : List PlacedConstruct → (piece whole : Listing) → Prop
  | [], piece, whole          => piece <:+: whole
  | c :: around, piece, whole =>
    ∃ block code, piece <:+: block ∧ c.Encloses block code ∧ NestedIn around code whole

/-- Where an exit site stands in a listing: the line that begins there, and the constructs around it. -/
structure ExitPlace where
  line : LineId
  around : List PlacedConstruct

/-- Drop some longs, unless there are none, and go to a line. -/
def dropAndJump (longs : Nat) (line : LineId) : Listing :=
  (if longs = 0 then [] else [.code (.pop (4 * longs))]) ++ [.branch .jmp line]

/-- At a place in a listing, in the constructs that are around an exit site, what is held by the constructs
that are left is dropped, and the nearest construct that offers the exit is where the jump goes. -/
def ExitSite.JumpsFrom (listing : Listing) (s : ExitSite) (p : ExitPlace) : Prop :=
  p.around.map PlacedConstruct.kind = s.around ∧
    ∃ depth c, s.depth? = some depth ∧ p.around[depth]? = some c ∧
      NestedIn p.around (.mark p.line :: dropAndJump (s.dropped depth) (c.line s.exit)) listing

namespace NestedIn

variable {around : List PlacedConstruct} {piece code whole : Listing}

theorem mono (h : NestedIn around piece code) (hcode : code <:+: whole) :
    NestedIn around piece whole := by
  induction around generalizing piece with
  | nil => exact List.IsInfix.trans h hcode
  | cons c around ih =>
    obtain ⟨block, own, hpiece, hown, hnested⟩ := h
    exact ⟨block, own, hpiece, hown, ih hnested⟩

theorem enclose (h : NestedIn around piece block) (hc : c.Encloses block code) :
    NestedIn (around ++ [c]) piece code := by
  induction around generalizing piece with
  | nil => exact ⟨block, code, h, hc, List.infix_refl _⟩
  | cons c' around ih =>
    obtain ⟨block', own, hpiece, hown, hnested⟩ := h
    exact ⟨block', own, hpiece, hown, ih hnested⟩

end NestedIn

/-! ### The nearest construct -/

theorem PlacedConstruct.lookup_targets (c : PlacedConstruct) (e : Exit) :
    c.enclosure.targets.lookup e = if c.kind.offers e then some (c.line e) else none := by
  obtain ⟨kind, stop, again⟩ := c
  cases kind with
  | switch breakable => cases breakable <;> cases e <;> rfl
  | _ => cases e <;> rfl

/-- **The nearest construct that offers an exit** is the one that is found, and what is dropped on the way is
what the constructs that are left hold. -/
theorem findExit_placed {cs : List PlacedConstruct} (hcs : cs.map PlacedConstruct.kind = s.around)
    (h : s.depth? = some depth) :
    ∃ c, cs[depth]? = some c ∧
      findExit s.exit (cs.map PlacedConstruct.enclosure) = some (c.line s.exit, s.dropped depth) := by
  obtain ⟨e, location, around⟩ := s
  induction cs generalizing around depth with
  | nil =>
    obtain rfl : [] = around := hcs
    cases h
  | cons c cs ih =>
    obtain rfl : c.kind :: cs.map PlacedConstruct.kind = around := hcs
    simp only [ExitSite.depth?, List.findIdx?_cons] at h
    rw [List.map_cons, findExit, c.lookup_targets]
    cases hoffers : c.kind.offers e with
    | true =>
      rw [if_pos hoffers] at h
      obtain rfl : 0 = depth := Option.some.inj h
      refine ⟨c, rfl, ?_⟩
      cases e <;> rfl
    | false =>
      rw [if_neg (Bool.eq_false_iff.mp hoffers)] at h
      obtain ⟨depth, hdepth, rfl⟩ := Option.map_eq_some_iff.mp h
      obtain ⟨c', hc', hfind⟩ := ih _ rfl hdepth
      refine ⟨c', hc', ?_⟩
      rw [if_neg Bool.false_ne_true, hfind]
      cases e <;> rfl

theorem Command.codeAll_singleton (outer : List Enclosure) (base : LineId) (c : Command) :
    codeAll outer base [c] = c.code outer base := by
  rw [codeAll, codeAll, List.append_nil]

theorem Command.exitCode_of_findExit {e : Exit} {line : LineId} {longs : Nat}
    (h : findExit e outer = some (line, longs)) : exitCode outer e = dropAndJump longs line := by
  rw [exitCode, h]
  cases longs <;> rfl

/-! ### Sites in a listing -/

/-- The code of an exit site stands at a place in a listing that is itself inside of constructs. -/
def ExitSite.StandsAt (outer : List Enclosure) (listing : Listing) (s : ExitSite) (p : ExitPlace) : Prop :=
  p.around.map PlacedConstruct.kind = s.around ∧
    NestedIn p.around
      (.mark p.line :: Command.exitCode (p.around.map PlacedConstruct.enclosure ++ outer) s.exit) listing

/-- The code of a site with somewhere to go is a jump. -/
theorem ExitSite.StandsAt.jumpsFrom {listing : Listing} {p : ExitPlace} (h : s.StandsAt [] listing p)
    (hdepth : s.depth? = some depth) : s.JumpsFrom listing p := by
  obtain ⟨haround, hnested⟩ := h
  obtain ⟨c, hc, hfind⟩ := findExit_placed haround hdepth
  rw [List.append_nil, Command.exitCode_of_findExit hfind] at hnested
  exact ⟨haround, depth, c, hdepth, hc, hnested⟩

/-- Exit sites stand in a listing one after the other. -/
def Listing.Places (outer : List Enclosure) (listing : Listing) (sites : List ExitSite) : Prop :=
  ∃ places, List.Forall₂ (ExitSite.StandsAt outer listing) sites places ∧
    (places.map ExitPlace.line).Sublist (marks listing)

namespace Listing.Places

variable {outer : List Enclosure} {a b : Listing} {sites sites' : List ExitSite}

theorem none (outer : List Enclosure) (listing : Listing) : Places outer listing [] :=
  ⟨[], .nil, List.nil_sublist _⟩

theorem mono (h : Places outer a sites) (hab : a <:+: b) : Places outer b sites := by
  obtain ⟨places, hplaces, hlines⟩ := h
  obtain ⟨front, back, rfl⟩ := hab
  refine ⟨places, hplaces.imp fun s p hp => ⟨hp.1, hp.2.mono ⟨front, back, rfl⟩⟩, ?_⟩
  rw [marks_append, marks_append, List.append_assoc]
  exact (hlines.trans (List.sublist_append_left ..)).trans (List.sublist_append_right ..)

theorem append (h : Places outer a sites) (h' : Places outer b sites') :
    Places outer (a ++ b) (sites ++ sites') := by
  obtain ⟨places, hplaces, hlines⟩ := h
  obtain ⟨places', hplaces', hlines'⟩ := h'
  refine ⟨places ++ places', List.rel_append ?_ ?_, ?_⟩
  · exact hplaces.imp fun s p hp => ⟨hp.1, hp.2.mono (List.prefix_append ..).isInfix⟩
  · exact hplaces'.imp fun s p hp => ⟨hp.1, hp.2.mono (List.suffix_append ..).isInfix⟩
  · rw [List.map_append, marks_append]
    exact hlines.append hlines'

/-- What is around a piece of code does not matter. -/
theorem between (front back : Listing) (h : Places outer a sites) :
    Places outer (front ++ a ++ back) sites :=
  h.mono ⟨front, back, rfl⟩

/-- The sites in a construct have it around them. -/
theorem enclose {code : Listing} (hc : c.Encloses block code)
    (h : Places (c.enclosure :: outer) block sites) :
    Places outer code (sites.map (.within c.kind)) := by
  obtain ⟨places, hplaces, hlines⟩ := h
  refine ⟨places.map fun p => { p with around := p.around ++ [c] }, ?_, ?_⟩
  · rw [List.forall₂_map_left_iff, List.forall₂_map_right_iff]
    refine hplaces.imp fun s p hp => ⟨?_, ?_⟩
    · rw [ExitSite.within, List.map_append, hp.1]
      rfl
    · have hnested := hp.2.enclose hc
      rw [List.map_append, List.append_assoc]
      exact hnested
  · obtain ⟨front, back, rfl⟩ := hc.isInfix
    rw [List.map_map, marks_append, marks_append, List.append_assoc]
    exact (hlines.trans (List.sublist_append_left ..)).trans (List.sublist_append_right ..)

end Listing.Places

/-! ### The code of statements -/

/-- What a statement has become stands in a listing: its exit sites, and what it carries out as it is
written. -/
structure Listing.Lays (Runs : Text → Command → Prop) (outer : List Enclosure) (l : Listing)
    (sites : List ExitSite) (texts : List Text) : Prop where
  places : Places outer l sites
  performs : l.Performs Runs texts

namespace Listing.Lays

variable {Runs : Text → Command → Prop} {a b : Listing} {sites' : List ExitSite} {texts more : List Text}

theorem none (outer : List Enclosure) (h : a.performed = []) : Lays Runs outer a [] [] :=
  ⟨.none .., .none h⟩

theorem append (h : Lays Runs outer a sites texts) (h' : Lays Runs outer b sites' more) :
    Lays Runs outer (a ++ b) (sites ++ sites') (texts ++ more) :=
  ⟨h.places.append h'.places, h.performs.append h'.performs⟩

/-- What is around a piece of code does not matter, if it carries out nothing. -/
theorem between (front back : Listing) (h : Lays Runs outer a sites texts) (hfront : front.performed = [])
    (hback : back.performed = []) : Lays Runs outer (front ++ a ++ back) sites texts :=
  ⟨h.places.between front back, h.performs.mono ⟨front, back, rfl⟩ (by simp [hfront, hback])⟩

/-- The sites in a construct have it around them. -/
theorem enclose {code : Listing} (hc : c.Encloses block code)
    (h : Lays Runs (c.enclosure :: outer) block sites texts) (heq : code.performed = block.performed) :
    Lays Runs outer code (sites.map (.within c.kind)) texts :=
  ⟨h.places.enclose hc, h.performs.mono hc.isInfix heq⟩

end Listing.Lays

namespace Statement

open Listing (Lays)

attribute [local simp] Entry.op Entry.branch Variable.access Command.code

variable {N : Names → Prop} {debugging : Bool} {Runs : Text → Command → Prop} {texts : List Text}

/-- What a statement becomes has its exit sites and its texts. -/
def Laid (N : Names → Prop) (debugging : Bool) (Runs : Text → Command → Prop) (s : Statement) : Prop :=
  ∀ cs, s.Becomes N debugging Runs cs → ∀ outer base,
    Lays Runs outer (Command.codeAll outer base cs) (s.exitSites .all) (s.texts debugging)

theorem BecomesAll.lays (h : ∀ s ∈ ss, s.Laid N debugging Runs) (hcs : BecomesAll N debugging Runs ss cs)
    (outer : List Enclosure) (base : LineId) :
    Lays Runs outer (Command.codeAll outer base cs) (exitSitesAll .all ss) (textsAll debugging ss) := by
  induction ss generalizing cs base with
  | nil =>
    cases hcs
    exact .none outer rfl
  | cons s ss ih =>
    obtain ⟨first, rest, hfirst, hrest, rfl⟩ := hcs
    rw [Command.codeAll_append]
    exact (h s (.head _) first hfirst outer base).append
      (ih (fun x hx => h x (.tail _ hx)) hrest _)

theorem BecomesChoices.lays {choices : List Choice}
    (h : ∀ labels body, Choice.mk labels body ∈ choices → ∀ s ∈ body, s.Laid N debugging Runs)
    {bs : List (List Command)} (hbs : BecomesChoices N debugging Runs choices bs) (outer : List Enclosure)
    (base starts ends : LineId) :
    Lays Runs outer (Command.codeBodies outer base starts ends bs) (exitSitesChoices .all choices)
      (textsChoices debugging choices) := by
  induction choices generalizing bs base starts ends with
  | nil =>
    cases hbs
    exact .none outer rfl
  | cons c choices ih =>
    obtain ⟨labels, body⟩ := c
    obtain ⟨first, more, hfirst, hmore, rfl⟩ := hbs
    have hown := BecomesAll.lays (h labels body (.head _)) hfirst outer base
    exact (hown.between _ _ (by simp) (by simp)).append (ih (fun l b hb => h l b (.tail _ hb)) hmore ..)

theorem BecomesGuarded.lays {hasElse : Bool} {Last : List Command → Prop}
    (hlast : ∀ cs, Last cs → ∀ outer base, Lays Runs outer (Command.codeAll outer base cs) last texts)
    (hnone : hasElse = false → last = [] ∧ texts = [])
    (h : ∀ c negate body, Guarded.mk c negate body ∈ branches → ∀ s ∈ body, s.Laid N debugging Runs)
    (hcs : BecomesGuarded N debugging Runs hasElse Last branches cs) (outer : List Enclosure)
    (base : LineId) :
    Lays Runs outer (Command.codeAll outer base cs) (exitSitesGuarded .all last branches)
      (textsGuarded debugging branches ++ texts) := by
  induction branches generalizing cs base with
  | nil => exact hlast cs hcs outer base
  | cons g rest ih =>
    obtain ⟨c, negate, body⟩ := g
    obtain ⟨t, yes, -, hyes, hcs⟩ := hcs
    have hown := BecomesAll.lays (h c negate body (.head _)) hyes outer
    have hsites : exitSitesGuarded .all last (.mk c negate body :: rest) =
        exitSitesAll .all body ++ exitSitesGuarded .all last rest := rfl
    rw [hsites, textsGuarded]
    split at hcs
    · next hend =>
      obtain rfl := hcs
      simp only [Bool.and_eq_true, List.isEmpty_iff, Bool.not_eq_true'] at hend
      obtain ⟨hnoSites, hnoTexts⟩ := hnone hend.2
      rw [hend.1, exitSitesGuarded, textsGuarded, hnoSites, hnoTexts, List.append_nil, List.append_nil,
        List.append_nil, Command.codeAll_singleton]
      exact (hown _).between _ _ (by simp) (by simp)
    · obtain ⟨no, hno, rfl⟩ := hcs
      have hrest := ih (fun c n b hb => h c n b (.tail _ hb)) hno
      rw [Command.codeAll_singleton, Command.code, List.append_assoc _ _ [_], List.append_assoc _ _ texts]
      exact ((hown _).between _ _ (by simp) (by simp)).append ((hrest _).between [] _ rfl (by simp))

/-- What is in a construct that is a command of its own. -/
theorem lays_enclosed {command : Command} {base : LineId}
    (hc : c.Encloses block (command.code outer base)) (h : Lays Runs (c.enclosure :: outer) block sites texts)
    (heq : (command.code outer base).performed = block.performed) :
    Lays Runs outer (Command.codeAll outer base [command]) (sites.map (.within c.kind)) texts := by
  rw [Command.codeAll_singleton]
  exact h.enclose hc heq

/-- A command that stands for an expression carries out no text. -/
theorem performed_of_standsFor {e : Expr} {l : Location} {command : Command} (h : e.StandsFor N l command)
    (base : LineId) :
    (command.code outer base).performed = [] := by
  cases e with
  | call l object i method arguments =>
    obtain ⟨_, _, _, -, -, -, rfl⟩ := h
    simp
  | name l x =>
    rcases h with ⟨-, _, _, _, -, -, -, rfl⟩ | ⟨-, _, -, rfl⟩ <;> simp
  | _ =>
    obtain ⟨_, -, rfl⟩ := h
    simp

/-- **The exit sites and the texts of a statement** stand in its code, in order. -/
theorem laid (s : Statement) : s.Laid N debugging Runs := by
  have hexit : ∀ e l outer base, Lays Runs outer (Command.codeAll outer base [.exit e])
      [{ exit := e, location := l }] [] := by
    intro e l outer base
    rw [Command.codeAll_singleton]
    refine ⟨⟨[⟨base, []⟩], .cons ⟨rfl, List.infix_refl _⟩ .nil, ?_⟩, .none ?_⟩
    · rw [Command.code, Listing.marks_mark, Command.marks_exitCode]
      exact List.Sublist.refl _
    · simp only [Command.code, Command.exitCode]
      split <;> simp
  have hplain : ∀ {command : Command} {outer base}, (command.code outer base).performed = [] →
      Lays Runs outer (Command.codeAll outer base [command]) [] [] := by
    intro command outer base h
    rw [Command.codeAll_singleton]
    exact .none outer h
  have hone : ∀ {t command outer base} (x : Code), Runs t command →
      command.code outer base = command.code [] base → (command.code outer base).performed = [x] →
      Lays Runs outer (Command.codeAll outer base [command]) [] [t] := by
    intro t command outer base x hruns hsame hperformed
    rw [Command.codeAll_singleton]
    refine ⟨.none .., ?_⟩
    rw [Listing.Performs, hperformed]
    exact .cons ⟨command, base, hruns, hsame ▸ List.infix_refl _, hsame ▸ hperformed⟩ .nil
  induction s using Statement.induct with
  | conditional branches otherwise hb ho =>
    intro cs hcs outer base
    refine BecomesGuarded.lays (fun _ h => ?_) (fun hnone => ?_) hb hcs outer base
    · cases otherwise <;> exact BecomesAll.lays ho h
    · cases otherwise with
      | none => exact ⟨rfl, rfl⟩
      | some body => cases hnone
  | preLoop c isUntil body hb =>
    rintro cs ⟨t, b, -, hbody, rfl⟩ outer base
    have hbody := BecomesAll.lays hb hbody (Command.loop base (base + 2) 0 :: outer) (base + 3 + t.lines)
    exact lays_enclosed (c := ⟨.loop, base + 2, base⟩)
      (.preLoop base (base + 1) (base + 2) _ _ _) hbody (by simp)
  | postLoop c isUntil body hb =>
    rintro cs ⟨t, b, -, hbody, rfl⟩ outer base
    have hbody := BecomesAll.lays hb hbody (Command.loop (base + 1) (base + 2) 0 :: outer)
      (base + 3 + t.lines)
    exact lays_enclosed (c := ⟨.loop, base + 2, base + 1⟩)
      (.postLoop base (base + 1) (base + 2) _ _ _) hbody (by simp)
  | forever body hb =>
    rintro cs ⟨b, hbody, rfl⟩ outer base
    have hbody := BecomesAll.lays hb hbody (Command.loop (base + 1) (base + 2) 0 :: outer) (base + 3)
    exact lays_enclosed (c := ⟨.loop, base + 2, base + 1⟩)
      (.forever base (base + 1) (base + 2) _) hbody (by simp)
  | countLoop count body hb =>
    rintro cs ⟨t, b, -, hbody, rfl⟩ outer base
    have hbody := BecomesAll.lays hb hbody (Command.loop (base + 2) (base + 3) 1 :: outer)
      (base + 4 + t.lines)
    exact lays_enclosed (c := ⟨.countLoop, base + 3, base + 2⟩)
      (.countLoop base (base + 1) (base + 2) (base + 3) _ _) hbody (by simp)
  | rangeLoop target first last step body hb =>
    rintro cs ⟨v, i, x, y, z, b, -, -, -, -, hbody, rfl⟩ outer base
    have hsites : exitSites .all (rangeLoop target first last step body) =
        (exitSitesAll .all body).map (.within .rangeLoop) := by
      cases step <;> rfl
    rw [hsites]
    have hbody := BecomesAll.lays hb hbody (Command.loop (base + 2) (base + 3) 4 :: outer)
      (base + 4 + x.lines + y.lines + (z.getD (.constant (.int 1))).lines + Term.linesOpt i)
    exact lays_enclosed (c := ⟨.rangeLoop, base + 3, base + 2⟩)
      (.rangeLoop (base + 1) (base + 2) (base + 3) _ _ _) hbody (by simp)
  | forLoop init c step body hi hs hb =>
    rintro cs ⟨x, t, b, y, hinit, -, hbody, hstep, rfl⟩ outer base
    have hsites : exitSites .all (forLoop init c step body) = exitSitesAll .all init ++
        (exitSitesAll .all body ++ exitSitesAll .all step).map (.within .loop) := by
      cases c <;> rfl
    have hbody := BecomesAll.lays hb hbody (Command.loop (base + 1) (base + 3) 0 :: outer)
      (base + 4 + Command.linesAll x + Term.linesOpt t)
    have hstep := BecomesAll.lays hs hstep (Command.loop (base + 1) (base + 3) 0 :: outer)
      (base + 4 + Command.linesAll x + Term.linesOpt t + Command.linesAll b)
    have hloop := Lays.enclose (.forLoop base (base + 1) (base + 2) (base + 3)
      (Term.codeOpt (base + 4 + Command.linesAll x) t ++
        if t.isSome then [.branch .jz (base + 3)] else []) _ _)
      ((hbody.between [] [.mark (base + 1)] rfl rfl).append hstep)
      (by cases t <;> simp)
    have hcode := (BecomesAll.lays hi hinit outer (base + 4)).append hloop
    rw [hsites, Command.codeAll_singleton, Command.code, Statement.texts]
    simpa only [List.append_assoc, List.nil_append] using hcode
  | switch value choices otherwise breakable hc ho =>
    rintro cs ⟨t, ls, o, bs, -, -, hother, hchoices, rfl⟩ outer base
    have hsites : exitSites .all (switch value choices otherwise breakable) =
        (exitSitesAll .all (otherwise.getD []) ++ exitSitesChoices .all choices).map
          (.within (.switch breakable)) := by
      rw [exitSites, Checks.labels_all, exitSitesOpt_eq]
      rfl
    let place : PlacedConstruct := ⟨.switch breakable, base + 2, base + 2⟩
    have hinner : { targets := if breakable then [(.leave, base + 2)] else [], held := 2 } =
        place.enclosure := by
      cases breakable <;> rfl
    let third := base + 3 + ls.length + bs.length + t.lines + Label.linesChoices ls
    have hother := BecomesAll.lays ho (becomesOpt_iff.mp hother) (place.enclosure :: outer) third
    have hbodies := BecomesChoices.lays hc hchoices (place.enclosure :: outer)
      (third + Command.linesAll o) (base + 3) (base + 3 + ls.length)
    have hcode := Lays.enclose (.switch breakable base (base + 2)
      (t.code (base + 3 + ls.length + bs.length) ++
        Label.codeChoices (base + 3 + ls.length + bs.length + t.lines) (base + 3) ls) _)
      ((hother.between [] [.mark (base + 1), .op .caseDone] rfl rfl).append hbodies)
      (by simp)
    rw [hsites, Command.codeAll_singleton, Command.code, hinner, Statement.texts, textsOpt_eq]
    simpa only [List.append_assoc, List.nil_append] using hcode
  | leave l | next l =>
    rintro cs rfl outer base
    exact hexit ..
  | ret value | abort value =>
    rintro cs ⟨t, -, rfl⟩ outer base
    cases t <;> exact hplain (by simp)
  | assign target op value =>
    rintro cs ⟨_, _, _, -, -, rfl⟩ outer base
    cases op <;> exact hplain (by simp)
  | expression l e =>
    rintro cs ⟨c, hc, rfl⟩ outer base
    exact hplain (performed_of_standsFor hc base)
  | assembly l lines =>
    rintro cs ⟨origin, block, hruns, rfl⟩ outer base
    exact hone (.inline origin block) hruns rfl rfl
  | debug l arguments =>
    intro cs hcs outer base
    cases debugging with
    | false =>
      obtain rfl : cs = [] := hcs
      exact .none outer rfl
    | true =>
      obtain ⟨ts, record, -, hruns, rfl⟩ := hcs
      exact hone (.debug (min ts.length 255) record) hruns rfl (by simp)

end Statement

end Propeller
