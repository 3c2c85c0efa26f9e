import Propeller.Proofs.Assembly.Placement

/-!
# Assembly — the bytes of placed lines

`emit` writes lines one behind the other and fills up to the offset of each.  Since a line never
begins before the end of the one in front of it, and has as many bytes as its placement says, each
line ends up at its offset, and only what no line covers is filled.

* `AsmLine.stored`: what a line puts into the image, its bytes or as many zeros.
* `Emitted`: bytes that hold every line at its offset, and zeros elsewhere.
* `emitFrom_emitted`: placed lines are emitted so, by induction on the placement.
* `emit_converge`: so are lines that have converged.
-/

namespace Propeller

variable {line : AsmLine} {env : Environment} {c : Cursor} {p : Placement} {lines : List AsmLine}
  {ps : List Placement}

/-- What a line puts into the image: its bytes, or zeros in their place when it has none. -/
def AsmLine.stored (line : AsmLine) (env : Environment) (p : Placement) : Bytes :=
  match line.bytes env p with
  | .ok bytes => bytes
  | .error _  => zeros p.size

theorem AsmLine.length_stored {next : Cursor} (hp : line.content.place env c = .ok (p, next)) :
    (line.stored env p).length = p.size := by
  unfold AsmLine.stored
  split
  · next h => exact AsmLine.length_bytes hp h
  · exact length_zeros _

/-- The offset behind placed lines that begin at `base`. -/
def endOffset (base : Int) (ps : List Placement) : Int :=
  match ps.getLast? with
  | none   => base
  | some p => p.object + p.size

/-- The byte at an offset belongs to a line. -/
def Covered (ps : List Placement) (offset : Int) : Prop :=
  ∃ p ∈ ps, p.object ≤ offset ∧ offset < p.object + p.size

/-- Bytes from the offset `base` on that hold every line at its own offset, and zeros elsewhere. -/
structure Emitted (env : Environment) (base : Int) (lines : List AsmLine) (ps : List Placement)
    (bytes : Bytes) : Prop where
  length_eq : (bytes.length : Int) = endOffset base ps - base
  line_eq : ∀ (i : Nat) (line : AsmLine) (p : Placement), lines[i]? = some line → ps[i]? = some p →
    base ≤ p.object ∧
      (bytes.drop (p.object - base).toNat).take p.size = line.stored env p
  zero_of_not_covered : ∀ k < bytes.length, ¬ Covered ps (base + k) → bytes[k]? = some 0

theorem endOffset_cons (base : Int) (p : Placement) (ps : List Placement) :
    endOffset base (p :: ps) = endOffset (p.object + p.size) ps := by
  unfold endOffset
  rw [List.getLast?_cons]
  cases ps.getLast? <;> rfl

/-- One line in front of emitted lines. -/
theorem Emitted.cons {base : Int} {bytes : Bytes} (hb : base ≤ p.object)
    (hl : (line.stored env p).length = p.size) (h : Emitted env (p.object + p.size) lines ps bytes) :
    Emitted env base (line :: lines) (p :: ps)
      (zeros (p.object - base).toNat ++ line.stored env p ++ bytes) := by
  have hfront : (zeros (p.object - base).toNat ++ line.stored env p).length =
      (p.object - base).toNat + p.size := by
    rw [List.length_append, length_zeros, hl]
  refine ⟨?_, fun i l q hi hq => ?_, fun k hk hn => ?_⟩
  · rw [List.length_append, hfront, endOffset_cons]
    have := h.length_eq
    omega
  · cases i with
    | zero =>
      obtain rfl : line = l := Option.some.inj hi
      obtain rfl : p = q := Option.some.inj hq
      refine ⟨hb, ?_⟩
      rw [List.append_assoc, List.drop_left' (length_zeros _), List.take_left' hl]
    | succ i =>
      obtain ⟨hq', hs⟩ := h.line_eq i l q hi hq
      refine ⟨by omega, ?_⟩
      have hoff : (q.object - base).toNat =
          (zeros (p.object - base).toNat ++ line.stored env p).length +
            (q.object - (p.object + p.size)).toNat := by
        rw [hfront]
        omega
      rw [hoff, List.drop_length_add_append, hs]
  · -- the byte is in the gap, in the line, or behind it
    by_cases hgap : k < (p.object - base).toNat
    · rw [List.append_assoc, List.getElem?_append_left (by rw [length_zeros]; exact hgap)]
      simp [zeros, hgap]
    · by_cases hline : k < (p.object - base).toNat + p.size
      · exact absurd ⟨p, List.mem_cons_self .., by omega, by omega⟩ hn
      · rw [List.getElem?_append_right (by rw [hfront]; omega), hfront]
        rw [List.length_append, hfront] at hk
        refine h.zero_of_not_covered _ (by omega) fun ⟨q, hq, h₁, h₂⟩ => hn ?_
        exact ⟨q, List.mem_cons_of_mem _ hq, by omega, by omega⟩

theorem emitFrom_cons (env : Environment) (start : Int) (written : Nat) (line : AsmLine)
    (p : Placement) (rest : List (AsmLine × Placement)) :
    (emitFrom env start written ((line, p) :: rest)).1 =
      zeros ((p.object - start).toNat - written) ++ line.stored env p ++
        (emitFrom env start (written + ((p.object - start).toNat - written) +
          (line.stored env p).length) rest).1 := by
  simp only [emitFrom, AsmLine.stored]
  cases line.bytes env p <;> rfl

/-- **Placed lines, emitted.**  `written` is how far behind `start` the first line is placed from. -/
theorem emitFrom_emitted (h : Placed env c lines ps) (ha : ∀ line ∈ lines, line.content ≠ .align 0)
    {start : Int} {written : Nat} (hw : (written : Int) = c.object - start) :
    Emitted env c.object lines ps (emitFrom env start written (lines.zip ps)).1 := by
  induction h generalizing written with
  | nil c => exact ⟨by simp [emitFrom, endOffset], by simp, by simp [emitFrom]⟩
  | @cons c next line p lines ps hp hr later ih =>
    obtain ⟨hobj, hnext⟩ := Content.place_object (ha line (.head _)) hp
    have hlen := AsmLine.length_stored hp
    -- what has been written reaches up to the offset that the line is placed from
    have hgap : (p.object - start).toNat - written = (p.object - c.object).toNat := by omega
    have hw' : ((written + (p.object - c.object).toNat + p.size : Nat) : Int) =
        next.object - start := by omega
    have rest := ih (fun l hl => ha l (.tail _ hl)) hw'
    rw [List.zip_cons_cons, emitFrom_cons, hgap, hlen]
    rw [hnext] at rest
    exact rest.cons hobj hlen

theorem Cursor.object_ofStart (start : Start) : (Cursor.ofStart start).object = start.object := by
  cases start <;> rfl

/-- **The bytes of assembled lines.**  Let lines converge, none of them aligned to zero.  There are as
many bytes as the last line ends behind the start.  At the offset of each line stand its bytes, which
are as many as its placement says, or as many zeros if it cannot be encoded; and every byte that no
line covers is zero. -/
theorem emit_converge {scopes : Scopes} {start : Start} {lines : List AsmLine} {limit : Nat}
    {initial table : Addresses} {placements : List Placement}
    (h : converge scopes start lines limit initial = (table, .ok placements))
    (ha : ∀ line ∈ lines, line.content ≠ .align 0) :
    ∃ bytes problems, emit ⟨scopes, table⟩ start lines placements = (bytes, problems) ∧
      placements.length = lines.length ∧
      (bytes.length : Int) = (match placements.getLast? with
        | none   => 0
        | some p => p.object + p.size - start.object) ∧
      (∀ (i : Nat) (line : AsmLine) (p : Placement),
        lines[i]? = some line → placements[i]? = some p →
        start.object ≤ p.object ∧
        (∀ code, line.bytes ⟨scopes, table⟩ p = .ok code → code.length = p.size ∧
          (bytes.drop (p.object - start.object).toNat).take p.size = code) ∧
        (∀ errors, line.bytes ⟨scopes, table⟩ p = .error errors →
          (bytes.drop (p.object - start.object).toNat).take p.size = zeros p.size)) ∧
      ∀ k < bytes.length,
        (∀ p ∈ placements, ¬ (p.object ≤ start.object + k ∧ start.object + k < p.object + p.size)) →
        bytes[k]? = some 0 := by
  have hp := converge_placed h
  have he : Emitted ⟨scopes, table⟩ start.object lines placements
      (emit ⟨scopes, table⟩ start lines placements).1 := by
    rw [← Cursor.object_ofStart]
    exact emitFrom_emitted hp ha (by rw [Cursor.object_ofStart, Int.sub_self]; rfl)
  rcases hemit : emit ⟨scopes, table⟩ start lines placements with ⟨bytes, problems⟩
  rw [hemit] at he
  refine ⟨bytes, problems, rfl, hp.length_eq, ?_, fun i line p hl hpl => ?_, fun k hk hn => ?_⟩
  · rw [he.length_eq, endOffset]
    cases placements.getLast? with
    | none => exact Int.sub_self _
    | some p => rfl
  · obtain ⟨hobj, hslice⟩ := he.line_eq i line p hl hpl
    obtain ⟨before, after, hplace⟩ := hp.place_eq hl hpl
    refine ⟨hobj, fun code hc => ?_, fun errors hc => ?_⟩
    · rw [AsmLine.stored, hc] at hslice
      exact ⟨AsmLine.length_bytes hplace hc, hslice⟩
    · rw [AsmLine.stored, hc] at hslice
      exact hslice
  · exact he.zero_of_not_covered k hk fun ⟨p, hm, hc⟩ => hn p hm hc

/-- A byte, a gap up to the next long, a byte that is out of range, and a word. -/
def mixedData : List AsmLine :=
  let data (kind : DataType) (v : Int64) : AsmLine :=
    { content := .data { kind, values := [⟨{ value := .int v }, {}⟩] } }
  [data .byte 1, { content := .align 4 }, data .byte 300, data .word 0x1234]

/-- Behind an offset of eight these lines take seven bytes: the gap and the byte that is out of range
are zero. -/
theorem emit_converge_mixedData :
    ∃ bytes problems,
      converge .initial (.hub 8) mixedData 1 {} = ({}, .ok
        [⟨8, 8, true, 1⟩, ⟨12, 12, true, 0⟩, ⟨12, 12, true, 1⟩, ⟨13, 13, true, 2⟩]) ∧
      emit ⟨.initial, {}⟩ (.hub 8) mixedData
        [⟨8, 8, true, 1⟩, ⟨12, 12, true, 0⟩, ⟨12, 12, true, 1⟩, ⟨13, 13, true, 2⟩] =
          (bytes, problems) ∧
      bytes.length = 7 ∧ (bytes.drop 4).take 1 = zeros 1 ∧ (bytes.drop 5).take 2 = [0x34, 0x12] ∧
      bytes[2]? = some 0 := by
  have hc : converge .initial (.hub 8) mixedData 1 {} = ({}, .ok
      [⟨8, 8, true, 1⟩, ⟨12, 12, true, 0⟩, ⟨12, 12, true, 1⟩, ⟨13, 13, true, 2⟩]) := rfl
  have ha : ∀ line ∈ mixedData, line.content ≠ .align 0 := by simp [mixedData]
  obtain ⟨bytes, problems, he, -, hlen, hline, hzero⟩ := emit_converge hc ha
  have hlen : (bytes.length : Int) = 7 := hlen
  obtain ⟨-, -, hfail⟩ := hline 2 _ _ rfl rfl
  obtain ⟨-, hok, -⟩ := hline 3 _ _ rfl rfl
  refine ⟨bytes, problems, hc, he, by omega, hfail _ rfl, (hok _ rfl).2, hzero 2 (by omega) ?_⟩
  decide

end Propeller
