import Propeller.Bytecode.LineTree

/-!
# Bytecode — where methods and their lines are

A round of the layout measures code against a table that it changes on the way: the addresses of the
lines it has passed are new, those of the others are from the round before.  The round that ends the
layout changes nothing, so that all of it has worked with one table, and that is the table which the
code is emitted with.

`Listing.extent` is how many bytes a listing takes with a table of line addresses, and a listing is
*settled* when each of its lines is where the table says (`Listing.Settled`).

* `sweep_stable`: going over a listing without moving a line leaves the table as it is, finds the
  listing settled, and ends behind its extent.
* `Consecutive`: methods one behind the other, each settled with its own table.  The last round of
  the layout gives this (`layoutRound_stable`), so the layout does (`layoutMethods_consecutive`).
* `length_emitListing`, `emitListing_append`: the bytes of a listing are as many as its extent, and
  those of a line begin behind those of the code in front of it.
* `layoutMethods_emit`: the three together, for every method of a layout.
-/

namespace Propeller

variable {line : LineId} {here start : Int} {lines : Array Int} {r : Resolution} {listing : Listing}
  {methods methods' : List (Body × MethodLayout)} {i : Nat}

/-! ### Settled listings -/

namespace Listing

/-- How many bytes a listing takes from an address on, with the lines where the table says. -/
def extent (r : Resolution) (lines : Array Int) : Listing → Int → Nat
  | [],              _    => 0
  | .mark _ :: rest, here => extent r lines rest here
  | .code c :: rest, here =>
    c.size r here lines + extent r lines rest (here + c.size r here lines)

/-- The lines of a listing that begins at an address are where the table says. -/
def Settled (r : Resolution) (lines : Array Int) : Listing → Int → Prop
  | [],                 _    => True
  | .mark line :: rest, here => lines.getD line 0 = here ∧ Settled r lines rest here
  | .code c :: rest,    here => Settled r lines rest (here + c.size r here lines)

variable {r : Resolution} {lines : Array Int}

/-- **A line of a settled listing** is at the address of the listing and the sizes of all code in
front of it. -/
theorem Settled.address_eq {before after : Listing}
    (h : Settled r lines (before ++ .mark line :: after) here) :
    lines.getD line 0 = here + extent r lines before here := by
  induction before generalizing here with
  | nil => simpa [extent] using h.1
  | cons e before ih =>
    cases e with
    | mark l => exact ih h.2
    | code c =>
      rw [ih h, extent]
      omega

end Listing

/-- Setting a line to the address that it has changes nothing. -/
theorem setIfInBounds_getD (h : lines.getD line 0 = here) : lines.setIfInBounds line here = lines := by
  by_cases hl : line < lines.size
  · have hline : lines[line] = here := by simpa [Array.getD, hl] using h
    rw [Array.setIfInBounds, dif_pos hl, ← hline, Array.set_getElem_self]
  · rw [Array.setIfInBounds, dif_neg hl]

/-- **A stable pass.**  Going over a listing without moving a line has used one table throughout. -/
theorem sweep_stable {stop : Int} {lines' : Array Int}
    (h : sweep r listing here lines = (stop, lines', false)) :
    lines' = lines ∧ stop = here + listing.extent r lines here ∧
      listing.Settled r lines here := by
  induction listing generalizing here lines with
  | nil =>
    simp only [sweep, Prod.mk.injEq] at h
    obtain ⟨rfl, rfl, -⟩ := h
    exact ⟨rfl, by simp [Listing.extent], trivial⟩
  | cons e rest ih =>
    cases e with
    | mark line =>
      simp only [sweep, Prod.mk.injEq, Bool.or_eq_false_iff, decide_eq_false_iff_not,
        Decidable.not_not] at h
      obtain ⟨hstop, hlines, hline, hothers⟩ := h
      -- the line was there before, so that the rest was measured with the same table
      rw [setIfInBounds_getD hline] at hstop hlines hothers
      obtain ⟨h₁, h₂, h₃⟩ := ih (Prod.ext hstop (Prod.ext hlines hothers))
      exact ⟨h₁, h₂, hline, h₃⟩
    | code c =>
      obtain ⟨h₁, h₂, h₃⟩ := ih (show sweep r rest (here + c.size r here lines) lines = _ from h)
      refine ⟨h₁, ?_, h₃⟩
      rw [h₂, Listing.extent]
      omega

/-! ### Methods one behind the other -/

/-- A method whose lines are where its table says, and that is as long as its code. -/
structure MethodLayout.Fits (r : Resolution) (body : Body) (layout : MethodLayout) : Prop where
  size_eq : layout.size = body.listing.extent r layout.lines layout.address
  settled : body.listing.Settled r layout.lines layout.address
  lines_size : layout.lines.size = body.lineCount

/-- Methods that are stored one behind the other from an address on. -/
inductive Consecutive (r : Resolution) : Int → List (Body × MethodLayout) → Prop where
  | nil (here : Int) : Consecutive r here []
  | cons {here : Int} {body : Body} {layout : MethodLayout} {rest : List (Body × MethodLayout)}
      (address_eq : layout.address = here) (fits : layout.Fits r body)
      (next : Consecutive r (here + layout.size) rest) :
      Consecutive r here ((body, layout) :: rest)

/-- Every table has a place for every line. -/
def Tabulated (methods : List (Body × MethodLayout)) : Prop :=
  ∀ m ∈ methods, m.2.lines.size = m.1.lineCount

theorem size_sweep (r : Resolution) (listing : Listing) (here : Int) (lines : Array Int) :
    (sweep r listing here lines).2.1.size = lines.size := by
  induction listing generalizing here lines with
  | nil => rfl
  | cons e rest ih =>
    cases e with
    | mark | code => simp [sweep, ih]

/-- A round keeps the bodies and the sizes of their tables. -/
theorem layoutRound_keeps (r : Resolution) (here : Int) (methods : List (Body × MethodLayout)) :
    (layoutRound r here methods).1.map (·.1) = methods.map (·.1) ∧
      (Tabulated methods → Tabulated (layoutRound r here methods).1) := by
  induction methods generalizing here with
  | nil => exact ⟨rfl, fun h => h⟩
  | cons m rest ih =>
    obtain ⟨body, layout⟩ := m
    simp only [layoutRound, List.map_cons]
    obtain ⟨h₁, h₂⟩ := ih (sweep r body.listing here layout.lines).1
    refine ⟨by rw [h₁], fun h m hm => ?_⟩
    rcases List.mem_cons.mp hm with rfl | hm
    · exact (size_sweep ..).trans (h (body, layout) (.head _))
    · exact h₂ (fun m hm => h m (.tail _ hm)) m hm

/-- **A stable round.**  A round that moves nothing leaves methods one behind the other. -/
theorem layoutRound_stable (h : layoutRound r here methods = (methods', false)) (ht : Tabulated methods) :
    Consecutive r here methods' := by
  induction methods generalizing here methods' with
  | nil =>
    cases h
    exact .nil here
  | cons m rest ih =>
    obtain ⟨body, layout⟩ := m
    rcases hs : sweep r body.listing here layout.lines with ⟨stop, lines, moved⟩
    rcases hl : layoutRound r stop rest with ⟨later, others⟩
    simp only [layoutRound, hs, hl, Prod.mk.injEq, Bool.or_eq_false_iff] at h
    obtain ⟨rfl, ⟨-, rfl⟩, rfl⟩ := h
    obtain ⟨rfl, rfl, hsettled⟩ := sweep_stable hs
    -- the size was taken as the difference of two addresses
    have hsize : (here + (body.listing.extent r layout.lines here : Int) - here).toNat =
        body.listing.extent r layout.lines here := by omega
    refine .cons rfl ⟨hsize, hsettled, ht (body, layout) (.head _)⟩ ?_
    rw [hsize]
    exact ih hl fun m hm => ht m (.tail _ hm)

theorem layoutWithin_consecutive {rounds : Nat} (ht : Tabulated methods)
    (h : layoutWithin r start rounds methods = some methods') :
    Consecutive r start methods' ∧ methods'.map (·.1) = methods.map (·.1) := by
  induction rounds generalizing methods with
  | zero => cases h
  | succ rounds ih =>
    obtain ⟨hbodies, htable⟩ := layoutRound_keeps r start methods
    simp only [layoutWithin] at h
    split at h
    · next hr =>
      cases h
      rw [hr] at hbodies
      exact ⟨layoutRound_stable hr ht, hbodies⟩
    · next hr =>
      rw [hr] at hbodies htable
      obtain ⟨h₁, h₂⟩ := ih (htable ht) h
      exact ⟨h₁, h₂.trans hbodies⟩

/-- **The layout of methods** puts them one behind the other, in their order. -/
theorem layoutMethods_consecutive {limit : Nat} {bodies : List Body} {layouts : List MethodLayout}
    (h : layoutMethods r start limit bodies = .ok layouts) :
    layouts.length = bodies.length ∧ Consecutive r start (bodies.zip layouts) := by
  simp only [layoutMethods] at h
  split at h
  · next methods hw =>
    cases h
    have ht : Tabulated (bodies.map fun b =>
        (b, { lines := Array.replicate b.lineCount 0 : MethodLayout })) := by
      intro m hm
      obtain ⟨b, -, rfl⟩ := List.mem_map.mp hm
      exact Array.size_replicate
    obtain ⟨hc, hb⟩ := layoutWithin_consecutive ht hw
    have hbodies : methods.map (·.1) = bodies := by
      rw [hb, List.map_map]
      exact List.map_id bodies
    have hzip : bodies.zip (methods.map (·.2)) = methods := by
      rw [← hbodies, List.zip_map']
      exact List.map_id methods
    rw [hzip]
    exact ⟨by rw [← hbodies, List.length_map, List.length_map], hc⟩
  · cases h

/-- The methods of a row begin where the one before them ends, the first one at the start. -/
theorem Consecutive.address_eq (h : Consecutive r here methods) {m : Body × MethodLayout}
    (hi : methods[i]? = some m) :
    m.2.address = here + ((methods.take i).map (·.2.size)).sum ∧ m.2.Fits r m.1 := by
  induction h generalizing i with
  | nil here => simp at hi
  | cons hadd hfits _ ih =>
    cases i with
    | zero =>
      obtain rfl : _ = m := Option.some.inj hi
      exact ⟨by simpa using hadd, hfits⟩
    | succ i =>
      obtain ⟨h₁, h₂⟩ := ih (i := i) hi
      refine ⟨?_, h₂⟩
      rw [h₁, List.take_succ_cons, List.map_cons, List.sum_cons, Int.natCast_add,
        ← Int.add_assoc]

/-- A method of a row begins where the one before it ends. -/
theorem Consecutive.next_address (h : Consecutive r here methods) {a b : Body × MethodLayout}
    (ha : methods[i]? = some a) (hb : methods[i + 1]? = some b) :
    b.2.address = a.2.address + a.2.size := by
  rw [(h.address_eq ha).1, (h.address_eq hb).1, List.take_add_one, ha]
  simp [Int.add_assoc]

/-! ### The bytes of a listing -/

variable {bytes : Bytes}

theorem Code.size_of_encode {c : Code} (h : c.encode r here lines = .ok bytes) :
    c.size r here lines = bytes.length := by
  unfold Code.size
  rw [h]

/-- The bytes of an instruction stand before those of what follows it. -/
theorem emitListing_code {c : Code} {rest : Listing}
    (h : emitListing r lines (.code c :: rest) here = (bytes, none)) :
    ∃ own later, c.encode r here lines = .ok own ∧
      emitListing r lines rest (here + own.length) = (later, none) ∧ bytes = own ++ later := by
  simp only [emitListing] at h
  split at h
  · simp at h
  · next own he =>
    rcases hl : emitListing r lines rest (here + own.length) with ⟨later, problem⟩
    rw [hl] at h
    simp only [Prod.mk.injEq] at h
    obtain ⟨rfl, rfl⟩ := h
    exact ⟨own, later, he, hl, rfl⟩

/-- **The bytes of a listing** are those of a first part, and those of the rest at the address behind
them. -/
theorem emitListing_append {a b : Listing} (h : emitListing r lines (a ++ b) here = (bytes, none)) :
    ∃ x y, emitListing r lines a here = (x, none) ∧
      emitListing r lines b (here + x.length) = (y, none) ∧ bytes = x ++ y := by
  induction a generalizing here bytes with
  | nil => exact ⟨[], bytes, rfl, by simpa using h, rfl⟩
  | cons e a ih =>
    cases e with
    | mark line => exact ih h
    | code c =>
      obtain ⟨own, later, he, hl, rfl⟩ := emitListing_code h
      obtain ⟨x, y, hx, hy, rfl⟩ := ih hl
      refine ⟨own ++ x, y, ?_, ?_, (List.append_assoc ..).symm⟩
      · simp only [emitListing, he, hx]
      · rw [List.length_append, Int.natCast_add, ← Int.add_assoc]
        exact hy

/-- The bytes of a listing are as many as its extent. -/
theorem length_emitListing (h : emitListing r lines listing here = (bytes, none)) :
    bytes.length = listing.extent r lines here := by
  induction listing generalizing here bytes with
  | nil =>
    cases h
    rfl
  | cons e rest ih =>
    cases e with
    | mark line => exact ih h
    | code c =>
      obtain ⟨own, later, he, hl, rfl⟩ := emitListing_code h
      rw [Listing.extent, Code.size_of_encode he, List.length_append, ih hl]

/-- **A method that fits can be emitted as it was measured.**  It has as many bytes as its layout
says, and what stands behind a line begins at the byte where the line is. -/
theorem MethodLayout.Fits.emit_eq {body : Body} {layout : MethodLayout} (h : layout.Fits r body)
    (he : layout.emit r body = (bytes, none)) :
    bytes.length = layout.size ∧
      ∀ (before after : Listing) (line : LineId), body.listing = before ++ .mark line :: after →
        ∃ n : Nat, (n : Int) = layout.lines.getD line 0 - layout.address ∧
          emitListing r layout.lines before layout.address = (bytes.take n, none) ∧
          emitListing r layout.lines after (layout.lines.getD line 0) = (bytes.drop n, none) := by
  refine ⟨(length_emitListing he).trans h.size_eq.symm, fun before after line hb => ?_⟩
  have hline : layout.lines.getD line 0 =
      layout.address + before.extent r layout.lines layout.address :=
    Listing.Settled.address_eq (hb ▸ h.settled)
  obtain ⟨x, y, hx, hy, rfl⟩ := emitListing_append (by rw [← hb]; exact he)
  have hlen : x.length = before.extent r layout.lines layout.address := length_emitListing hx
  refine ⟨x.length, by omega, ?_, ?_⟩
  · rw [List.take_left]
    exact hx
  · rw [List.drop_left, hline, ← hlen]
    exact hy

/-! ### What the layout promises -/

/-- **Layout and emission agree.**  Methods that have been laid out follow each other from the start
on.  In each of them every line is at the address of the method and the sizes of all code in front of
it.  A method that can be emitted has as many bytes as its layout says, and what stands behind a line
begins at the byte where the line is. -/
theorem layoutMethods_emit {r : Resolution} {start : Int} {limit : Nat} {bodies : List Body}
    {layouts : List MethodLayout} (h : layoutMethods r start limit bodies = .ok layouts) :
    layouts.length = bodies.length ∧
    (∀ a : MethodLayout, layouts[0]? = some a → a.address = start) ∧
    (∀ (i : Nat) (a b : MethodLayout), layouts[i]? = some a → layouts[i + 1]? = some b →
      b.address = a.address + a.size) ∧
    ∀ (i : Nat) (body : Body) (layout : MethodLayout),
      bodies[i]? = some body → layouts[i]? = some layout →
      layout.lines.size = body.lineCount ∧
      (∀ (before after : Listing) (line : LineId), body.listing = before ++ .mark line :: after →
        layout.lines.getD line 0 =
          layout.address + before.extent r layout.lines layout.address) ∧
      ∀ bytes, layout.emit r body = (bytes, none) →
        bytes.length = layout.size ∧
        ∀ (before after : Listing) (line : LineId), body.listing = before ++ .mark line :: after →
          ∃ n : Nat, (n : Int) = layout.lines.getD line 0 - layout.address ∧
            emitListing r layout.lines before layout.address = (bytes.take n, none) ∧
            emitListing r layout.lines after (layout.lines.getD line 0) = (bytes.drop n, none) := by
  obtain ⟨hlen, hc⟩ := layoutMethods_consecutive h
  -- a layout stands in the row beside its body
  have pair : ∀ (i : Nat) (a : MethodLayout), layouts[i]? = some a →
      ∃ body, (bodies.zip layouts)[i]? = some (body, a) := by
    intro i a ha
    obtain ⟨hi, -⟩ := List.getElem?_eq_some_iff.mp ha
    rw [hlen] at hi
    exact ⟨bodies[i], List.getElem?_zip_eq_some.mpr ⟨List.getElem?_eq_getElem hi, ha⟩⟩
  refine ⟨hlen, fun a ha => ?_, fun i a b ha hb => ?_, fun i body layout hb hl => ?_⟩
  · obtain ⟨body, hp⟩ := pair 0 a ha
    simpa using (hc.address_eq hp).1
  · obtain ⟨_, hpa⟩ := pair i a ha
    obtain ⟨_, hpb⟩ := pair (i + 1) b hb
    exact hc.next_address hpa hpb
  · have hp : (bodies.zip layouts)[i]? = some (body, layout) :=
      List.getElem?_zip_eq_some.mpr ⟨hb, hl⟩
    have hfits := (hc.address_eq hp).2
    exact ⟨hfits.lines_size,
      fun before after line hs => Listing.Settled.address_eq (hs ▸ hfits.settled),
      fun bytes he => hfits.emit_eq he⟩

/-- A line that jumps to the next one, where the method returns. -/
def jumpToNext : LineTree :=
  ((LineTree.add {} 0).push 0 (.branch .jmp 1)).push 1 (.op .returnResults)

/-- Two such methods from address 8 on: the second follows the three bytes of the first, and the line
that is jumped to begins at the third byte. -/
theorem layoutMethods_emit_jumpToNext :
    ∃ a b : MethodLayout,
      layoutMethods { environment := ⟨.initial, {}⟩ } 8 16 [jumpToNext.body, jumpToNext.body] =
        .ok [a, b] ∧
      a.address = 8 ∧ b.address = a.address + a.size ∧
      (a.emit { environment := ⟨.initial, {}⟩ } jumpToNext.body).1.length = a.size ∧
      a.lines.getD 1 0 - a.address = 2 := by
  have hl : layoutMethods { environment := ⟨.initial, {}⟩ } 8 16 [jumpToNext.body, jumpToNext.body] =
      .ok [⟨8, 3, #[8, 10]⟩, ⟨11, 3, #[11, 13]⟩] := rfl
  obtain ⟨-, hfirst, hnext, hmethod⟩ := layoutMethods_emit hl
  obtain ⟨-, -, hbytes⟩ := hmethod 0 _ _ rfl rfl
  obtain ⟨hlen, -⟩ := hbytes [0x12, 0, 4] rfl
  exact ⟨_, _, hl, hfirst _ rfl, hnext 0 _ _ rfl rfl, hlen, rfl⟩

end Propeller
