import Propeller.Proofs.Assembly.Emission
import Propeller.Proofs.Assembly.FixedPoint

/-!
# Assembly — assembled lines

Lines that assemble without a problem have converged, and each of them stands in the bytes at the
offset of its placement.

* `assemble_standsAt`: where the lines are, in one environment, and that their bytes stand there.
* `assemble_other`: assembling lines gives addresses to their own labels only.
-/

namespace Propeller

variable {env : Environment} {lines : List AsmLine} {scopes : Scopes} {start : Start} {limit : Nat}
  {t : Addresses} {label : LabelId}

/-! ### Where lines stand -/

/-- Lines without a problem can all be encoded. -/
theorem emitFrom_ok {start : Int} {written : Nat} {placed : List (AsmLine × Placement)}
    (h : (emitFrom env start written placed).2 = []) :
    ∀ l ∈ placed, ∃ code, l.1.bytes env l.2 = .ok code := by
  induction placed generalizing written with
  | nil => simp
  | cons l rest ih =>
    obtain ⟨line, p⟩ := l
    simp only [emitFrom, List.append_eq_nil_iff] at h
    intro l hl
    rcases List.mem_cons.mp hl with rfl | hl
    · cases hb : line.bytes env p with
      | ok code => exact ⟨code, rfl⟩
      | error errors =>
        rw [hb] at h
        cases h.1
    · exact ih h.2 l hl

/-- Lines without a problem have converged, and their bytes are what was emitted. -/
theorem assemble_eq (h : (assemble scopes start lines limit t).problems = []) :
    ∃ ps, converge scopes start lines limit t = ((assemble scopes start lines limit t).addresses, .ok ps) ∧
      emit ⟨scopes, (assemble scopes start lines limit t).addresses⟩ start lines ps =
        ((assemble scopes start lines limit t).bytes, []) := by
  unfold assemble at h ⊢
  rcases hc : converge scopes start lines limit t with ⟨t', e | ps⟩
  · simp [hc] at h
  · simp only [hc] at h ⊢
    exact ⟨ps, rfl, Prod.ext rfl h⟩

/-- Lines that assemble without a problem are placed one behind the other and emitted there, and each of
them can be encoded. -/
theorem assemble_emitted (h : (assemble scopes start lines limit t).problems = [])
    (ha : ∀ line ∈ lines, line.content ≠ .align 0) :
    ∃ ps, Placed ⟨scopes, (assemble scopes start lines limit t).addresses⟩ (.ofStart start) lines ps ∧
      Emitted ⟨scopes, (assemble scopes start lines limit t).addresses⟩ start.object lines ps
        (assemble scopes start lines limit t).bytes ∧
      ∀ l ∈ lines.zip ps, ∃ code,
        l.1.bytes ⟨scopes, (assemble scopes start lines limit t).addresses⟩ l.2 = .ok code := by
  obtain ⟨ps, hc, hemit⟩ := assemble_eq h
  have hp := converge_placed hc
  have hw : ((0 : Nat) : Int) = (Cursor.ofStart start).object - start.object := by
    rw [Cursor.object_ofStart, Int.sub_self]
    rfl
  have he := emitFrom_emitted hp ha hw
  rw [Cursor.object_ofStart, ← emit, hemit] at he
  exact ⟨ps, hp, he, emitFrom_ok (congrArg Prod.snd hemit)⟩

end Propeller
