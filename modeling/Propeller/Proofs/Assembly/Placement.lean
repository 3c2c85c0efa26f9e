import Propeller.Proofs.Assembly.Size

/-!
# Assembly — placed lines

A pass over lines of assembly code measures each line with the addresses of labels as they are at
that moment, and gives the labels it passes their new ones.  The pass that ends `converge` moves no
label, so that all lines were placed in one environment, which is the one that they are emitted in.

* `Placed`: lines placed one behind the other in one environment, with their labels where they are.
* `place_stable`, `converge_placed`: a pass that moves no label, and so `converge`, places lines.
* `Content.place_object`: a line never begins before the end of the line in front of it, and the next
  one goes behind its bytes.
* `AsmLine.length_bytes`: a line that can be encoded has as many bytes as its placement says.
-/

namespace Propeller

variable {t t' : Addresses} {line : AsmLine} {p : Placement} {scopes : Scopes} {c : Cursor}
  {lines : List AsmLine} {ps : List Placement} {start : Start} {limit : Nat} {env : Environment}

/-! ### A pass that moves nothing -/

/-- Lines that are placed from a state on in one environment: each where its content asks for, and
its label at that address. -/
inductive Placed (env : Environment) : Cursor → List AsmLine → List Placement → Prop where
  | nil (c : Cursor) : Placed env c [] []
  | cons {c next : Cursor} {line : AsmLine} {p : Placement} {lines : List AsmLine}
      {ps : List Placement} (here : line.content.place env c = .ok (p, next))
      (label : line.record p env.addresses = .ok (env.addresses, false))
      (later : Placed env next lines ps) : Placed env c (line :: lines) (p :: ps)

/-- Giving a label the address that it has changes nothing. -/
theorem Addresses.set_of_not_moves {label : LabelId} {a : Address} (h : t.moves label a = false) :
    t.set label a = t := by
  have hget : t.get? label = some a := by simpa [Addresses.moves] using h
  have hslot : t.table[label]? = some (some a) := Option.join_eq_some_iff.mp hget
  obtain ⟨hl, hslot⟩ := Array.getElem?_eq_some_iff.mp hslot
  rw [Addresses.set, Array.setIfInBounds, dif_pos hl, ← hslot, Array.set_getElem_self]

theorem AsmLine.record_stable (h : line.record p t = .ok (t', false)) : t' = t := by
  unfold AsmLine.record at h
  split at h
  · cases h
    rfl
  · split at h
    · cases h
    · simp only [Except.ok.injEq, Prod.mk.injEq] at h
      obtain ⟨rfl, hm⟩ := h
      exact Addresses.set_of_not_moves hm

/-- A pass that succeeds has placed the first line, and goes on behind it. -/
theorem place_cons_eq_ok {moved : Bool}
    (h : (place scopes c (line :: lines) t).outcome = .ok (ps, moved)) :
    ∃ p next t' moves qs others, line.content.place ⟨scopes, t⟩ c = .ok (p, next) ∧
      line.record p t = .ok (t', moves) ∧ (place scopes next lines t').outcome = .ok (qs, others) ∧
      (place scopes c (line :: lines) t).addresses = (place scopes next lines t').addresses ∧
      ps = p :: qs ∧ moved = (moves || others) := by
  cases hp : line.content.place ⟨scopes, t⟩ c with
  | error e => simp [place, hp] at h
  | ok placed =>
    obtain ⟨p, next⟩ := placed
    cases hr : line.record p t with
    | error e => simp [place, hp, hr] at h
    | ok recorded =>
      obtain ⟨t', moves⟩ := recorded
      simp only [place, hp, hr] at h ⊢
      cases ho : (place scopes next lines t').outcome with
      | error e => simp [ho, Except.map] at h
      | ok result =>
        obtain ⟨qs, others⟩ := result
        simp only [ho, Except.map, Except.ok.injEq, Prod.mk.injEq] at h
        exact ⟨p, next, t', moves, qs, others, rfl, hr, ho, rfl, h.1.symm, h.2.symm⟩

/-- **A stable pass.**  A pass that moves no label has placed all lines in one environment. -/
theorem place_stable (h : (place scopes c lines t).outcome = .ok (ps, false)) :
    (place scopes c lines t).addresses = t ∧ Placed ⟨scopes, t⟩ c lines ps := by
  induction lines generalizing c t ps with
  | nil =>
    cases h
    exact ⟨rfl, .nil c⟩
  | cons line lines ih =>
    obtain ⟨p, next, t', moves, qs, others, hp, hr, ho, haddresses, rfl, hmoved⟩ := place_cons_eq_ok h
    obtain ⟨rfl, rfl⟩ := Bool.or_eq_false_iff.mp hmoved.symm
    -- the label kept its address, and so did those behind it
    obtain rfl := AsmLine.record_stable hr
    obtain ⟨h₁, h₂⟩ := ih ho
    exact ⟨haddresses.trans h₁, .cons hp hr h₂⟩

theorem convergeWithin_placed {rounds : Nat}
    (h : convergeWithin scopes start lines limit rounds t = (t', .ok ps)) :
    Placed ⟨scopes, t'⟩ (.ofStart start) lines ps := by
  induction rounds generalizing t with
  | zero => simp [convergeWithin] at h
  | succ rounds ih =>
    simp only [convergeWithin] at h
    split at h
    · simp at h
    · next placements ho =>
      simp only [Prod.mk.injEq, Except.ok.injEq] at h
      obtain ⟨rfl, rfl⟩ := h
      obtain ⟨h₁, h₂⟩ := place_stable ho
      rw [h₁]
      exact h₂
    · exact ih h

/-- **Where lines end up.**  Lines that have converged are placed in the environment that `converge`
leaves. -/
theorem converge_placed (h : converge scopes start lines limit t = (t', .ok ps)) :
    Placed ⟨scopes, t'⟩ (.ofStart start) lines ps :=
  convergeWithin_placed h

theorem Placed.length_eq (h : Placed env c lines ps) : ps.length = lines.length := by
  induction h with
  | nil => rfl
  | cons _ _ _ ih => rw [List.length_cons, List.length_cons, ih]

/-- Each of the lines has been placed from some state. -/
theorem Placed.place_eq (h : Placed env c lines ps) {i : Nat} (hl : lines[i]? = some line)
    (hp : ps[i]? = some p) : ∃ before after, line.content.place env before = .ok (p, after) := by
  induction h generalizing i with
  | nil => simp at hl
  | cons here _ _ ih =>
    cases i with
    | zero =>
      cases hl
      cases hp
      exact ⟨_, _, here⟩
    | succ i => exact ih hl hp

/-! ### Offsets and sizes of one line -/

namespace Content

variable {content : Content} {env : Environment} {c next : Cursor} {p : Placement}

/-- A line begins at or behind the offset that it is placed from; what it skips is never negative. -/
theorem moveTo_object (ha : content ≠ .align 0) (h : content.moveTo env c = .ok next) :
    c.object ≤ next.object := by
  cases content with
  | org origin =>
    obtain ⟨o, -, h⟩ := bind_eq_ok h
    split at h
    · cases h
      exact Int.le_refl _
    · cases h
  | orgh origin =>
    obtain ⟨a, -, h⟩ := bind_eq_ok h
    split at h
    · cases h
      exact Int.le_refl _
    · cases h
  | orgf target =>
    simp only [moveTo] at h
    split at h
    · cases h
    · obtain ⟨t, -, h⟩ := bind_eq_ok h
      split at h
      · cases h
      · cases h
        have := Int.emod_nonneg (t.toInt * 4 - c.address) (show (2 : Int) ^ 32 ≠ 0 by decide)
        simp only [Cursor.skip]
        omega
  | align size =>
    cases h
    have hs : (size : Int) ≠ 0 := by
      rintro hs
      exact ha (by rw [Int.natCast_eq_zero.mp hs])
    have := Int.emod_nonneg (-(if c.hub then c.object else c.address)) hs
    simp only [Cursor.skip]
    omega
  | fit limit =>
    simp only [moveTo] at h
    split at h
    · cases h
    · obtain ⟨l, -, h⟩ := bind_eq_ok h
      split at h
      · cases h
      · cases h
        exact Int.le_refl _
  | empty | instruction _ | data _ | file _ | res _ =>
    cases h
    exact Int.le_refl _

/-- What placing a line does: it begins where it asks to, it is as long as it says, and the next line
goes behind the bytes that it takes of the image. -/
theorem place_eq_ok (h : content.place env c = .ok (p, next)) :
    ∃ start size stored, content.moveTo env c = .ok start ∧
      content.extent env start = .ok (size, stored) ∧
      p = { address := start.address, object := start.object, hub := start.hub,
            size := if stored then size else 0 } ∧
      next = { start with address := start.address + size, object := start.object + p.size } := by
  obtain ⟨start, hs, h⟩ := bind_eq_ok h
  obtain ⟨⟨size, stored⟩, he, h⟩ := bind_eq_ok h
  simp only at h
  split at h
  · cases h
    exact ⟨start, size, stored, hs, he, rfl, rfl⟩
  · split at h <;> cases h

/-- **Offsets only grow.** -/
theorem place_object (ha : content ≠ .align 0) (h : content.place env c = .ok (p, next)) :
    c.object ≤ p.object ∧ next.object = p.object + p.size := by
  obtain ⟨start, size, stored, hs, -, rfl, rfl⟩ := place_eq_ok h
  exact ⟨moveTo_object ha hs, rfl⟩

end Content

/-- **Bytes as placed.**  A line that can be encoded has as many bytes as its placement says. -/
theorem AsmLine.length_bytes {next : Cursor} {bytes : Bytes}
    (hp : line.content.place env c = .ok (p, next)) (h : line.bytes env p = .ok bytes) :
    bytes.length = p.size := by
  obtain ⟨start, size, stored, -, he, rfl, -⟩ := Content.place_eq_ok hp
  unfold AsmLine.bytes at h
  cases hc : line.content with
  | instruction i =>
    simp only [hc, Content.extent] at h he
    split at he
    · cases he
    · cases he
      exact Instruction.length_encode (mapError_eq_ok h)
  | data d =>
    simp only [hc, Content.extent] at h he
    rw [DataDirective.size_of_bytes h] at he
    cases he
    rfl
  | file contents =>
    simp only [hc, Content.extent] at h he
    cases h
    cases he
    rfl
  | res count =>
    simp only [hc, Content.extent] at h he
    cases h
    split at he
    · cases he
    · obtain ⟨n, -, he⟩ := bind_eq_ok he
      split at he
      · cases he
      · cases he
        rfl
  | empty | align _ | org _ | orgh _ | orgf _ | fit _ =>
    simp only [hc, Content.extent] at h he
    cases h
    cases he
    rfl

end Propeller
