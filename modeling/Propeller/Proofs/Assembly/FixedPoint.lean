import Propeller.Proofs.Assembly.Placement

/-!
# Assembly — the fixed point of placement

A pass reads the addresses of labels while it writes them, so that a line may have been measured with
an address that the same pass changes later.  A pass that moves no label writes only what it reads.
From the table that such a pass leaves, every further pass does the same thing again.

* `Placed.place`: lines that are placed in one environment are placed there by a pass, which moves
  nothing.  This is the converse of `place_stable`.
* `Placed.label_eq`: the label of a placed line has the address of its placement.
* `convergeWithin_more`: more rounds than are needed change nothing.
* `converge_fixed`: the three together, for lines that have converged.
-/

namespace Propeller

/-- A label that is recorded without moving has the address of its line: the same offset, the same
memory, and as a logical address the byte in the hub and the long in a cog. -/
theorem AsmLine.record_get {line : AsmLine} {p : Placement} {t t' : Addresses} {label : LabelId}
    (hl : line.label = some label) (h : line.record p t = .ok (t', false)) :
    ∃ a, t.get? label = some a ∧ p.address = (if p.hub then 1 else 4) * a.address ∧
      a.object = p.object ∧ a.hub = p.hub := by
  simp only [AsmLine.record, hl] at h
  split at h
  · cases h
  · next haligned =>
    simp only [Except.ok.injEq, Prod.mk.injEq] at h
    obtain ⟨-, hmoves⟩ := h
    have hget : t.get? label = some p.label := by simpa [Addresses.moves] using hmoves
    refine ⟨p.label, hget, ?_, rfl, rfl⟩
    cases hhub : p.hub with
    | true => simp [Placement.label, hhub]
    | false =>
      -- cog code has its labels at longs, so that nothing is cut off
      have hdvd : (4 : Int) ∣ p.address := by
        apply Int.dvd_of_emod_eq_zero
        simpa [hhub] using haligned
      simp only [Placement.label, longAddress, hhub, Bool.false_eq_true, if_false]
      exact (Int.mul_tdiv_cancel' hdvd).symm

namespace Placed

variable {scopes : Scopes} {t : Addresses} {c : Cursor} {lines : List AsmLine} {ps : List Placement}

/-- **A further pass.**  Lines that are placed in an environment are placed just so by a pass in it,
and no label moves. -/
theorem place (h : Placed ⟨scopes, t⟩ c lines ps) :
    place scopes c lines t = ⟨t, .ok (ps, false)⟩ := by
  induction h with
  | nil c => rfl
  | cons here label _ ih => simp [Propeller.place, here, label, ih, Except.map]

/-- The label of a placed line has the address of its placement. -/
theorem label_eq {env : Environment} (h : Placed env c lines ps) {i : Nat} {line : AsmLine}
    {p : Placement} {label : LabelId} (hi : lines[i]? = some line) (hp : ps[i]? = some p)
    (hl : line.label = some label) :
    ∃ a, env.addresses.get? label = some a ∧ p.address = (if p.hub then 1 else 4) * a.address ∧
      a.object = p.object ∧ a.hub = p.hub := by
  induction h generalizing i with
  | nil => simp at hi
  | cons _ hr _ ih =>
    cases i with
    | zero =>
      cases hi
      cases hp
      exact AsmLine.record_get hl hr
    | succ i => exact ih hi hp

end Placed

/-- Rounds that are left over change nothing, and neither does the limit that a failure would name. -/
theorem convergeWithin_more {scopes : Scopes} {start : Start} {lines : List AsmLine}
    {limit limit' rounds rounds' : Nat} {t t' : Addresses} {ps : List Placement}
    (h : convergeWithin scopes start lines limit rounds t = (t', .ok ps)) (hr : rounds ≤ rounds') :
    convergeWithin scopes start lines limit' rounds' t = (t', .ok ps) := by
  induction rounds generalizing rounds' t with
  | zero => simp [convergeWithin] at h
  | succ rounds ih =>
    obtain ⟨more, rfl⟩ := Nat.exists_eq_add_of_lt (Nat.lt_of_succ_le hr)
    simp only [convergeWithin] at h ⊢
    split at h
    · simp at h
    · exact h
    · exact ih h (by omega)

/-- **The fixed point of placement.**  Let lines converge within a number of rounds.  Every line has a
placement, and the label of a line has the address, the offset and the memory of it in the table that
is left.  A further pass from that table gives the same placements, moves no label and leaves the table
as it is.  Any larger number of rounds gives the same placements and the same table. -/
theorem converge_fixed {scopes : Scopes} {start : Start} {lines : List AsmLine} {limit : Nat}
    {initial table : Addresses} {placements : List Placement}
    (h : converge scopes start lines limit initial = (table, .ok placements)) :
    placements.length = lines.length ∧
      (∀ (i : Nat) (line : AsmLine) (p : Placement) (label : LabelId),
        lines[i]? = some line → placements[i]? = some p → line.label = some label →
        ∃ a, table.get? label = some a ∧ p.address = (if p.hub then 1 else 4) * a.address ∧
          a.object = p.object ∧ a.hub = p.hub) ∧
      place scopes (.ofStart start) lines table = ⟨table, .ok (placements, false)⟩ ∧
      ∀ more ≥ limit, converge scopes start lines more initial = (table, .ok placements) := by
  have hp := converge_placed h
  refine ⟨hp.length_eq, ?_, hp.place, ?_⟩
  · intro i line p label hi hip hl
    exact hp.label_eq hi hip hl
  · intro more hmore
    exact convergeWithin_more h hmore

/-- An instruction with a label as its immediate source, room that pushes the label out of the nine
bits of a field, and the label. -/
def farLabel : List AsmLine :=
  let far : Operand := { kind := .immediate, value := .label 0 }
  let move : Instruction :=
    { condition := .always, mnemonic := default, operands := [{ value := .int 0 }, far],
      arguments := .source (.int 0) far, effects := .none }
  let room : DataDirective :=
    { kind := .byte, values := [⟨{ value := .int 0, count := some (.int 0x200) }, {}⟩] }
  [{ content := .instruction move }, { content := .data room },
    { label := some 0, content := .empty }]

/-- The first round takes the label to fit, the second one moves it by an augmenting word, and the
third one finds everything in its place. -/
theorem converge_fixed_farLabel :
    converge .initial (.hub 0) farLabel 3 ⟨#[none]⟩ = (⟨#[some ⟨520, 520, true⟩]⟩,
        .ok [⟨0, 0, true, 8⟩, ⟨8, 8, true, 512⟩, ⟨520, 520, true, 0⟩]) ∧
      place .initial (.ofStart (.hub 0)) farLabel ⟨#[some ⟨520, 520, true⟩]⟩ =
        ⟨⟨#[some ⟨520, 520, true⟩]⟩,
          .ok ([⟨0, 0, true, 8⟩, ⟨8, 8, true, 512⟩, ⟨520, 520, true, 0⟩], false)⟩ ∧
      converge .initial (.hub 0) farLabel 100 ⟨#[none]⟩ = (⟨#[some ⟨520, 520, true⟩]⟩,
        .ok [⟨0, 0, true, 8⟩, ⟨8, 8, true, 512⟩, ⟨520, 520, true, 0⟩]) := by
  have hc : converge .initial (.hub 0) farLabel 3 ⟨#[none]⟩ = (⟨#[some ⟨520, 520, true⟩]⟩,
      .ok [⟨0, 0, true, 8⟩, ⟨8, 8, true, 512⟩, ⟨520, 520, true, 0⟩]) := rfl
  obtain ⟨-, -, hagain, hmore⟩ := converge_fixed hc
  exact ⟨hc, hagain, hmore 100 (by decide)⟩

end Propeller
