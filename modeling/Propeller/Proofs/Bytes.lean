import Propeller.Bytes

/-!
# Bytes — rows of bytes in others

`StandsAt part bytes offset` says that a row of bytes is found in another one at an offset.  A row that
is made of one part for each element of a list has the parts at the lengths of those before them
(`StandsAt.flatMap`), and if they are all of one length, at multiples of it
(`length_flatMap_of_forall`).
-/

namespace Propeller

/-- Parts of one length. -/
theorem length_flatMap_of_forall {α : Type} {f : α → Bytes} {xs : List α} {n : Nat}
    (h : ∀ x ∈ xs, (f x).length = n) : (xs.flatMap f).length = n * xs.length := by
  induction xs with
  | nil => rfl
  | cons x xs ih =>
    rw [List.flatMap_cons, List.length_append, h x (.head _),
      ih fun y hy => h y (.tail _ hy), List.length_cons, Nat.mul_succ,
      Nat.add_comm]

/-- A row of bytes stands in another one, `offset` bytes behind its start. -/
def StandsAt (part bytes : Bytes) (offset : Nat) : Prop :=
  ∃ front back, bytes = front ++ part ++ back ∧ front.length = offset

namespace StandsAt

variable {part bytes : Bytes} {offset : Nat}

theorem append_left (h : StandsAt part bytes offset) (before : Bytes) :
    StandsAt part (before ++ bytes) (before.length + offset) := by
  obtain ⟨front, back, rfl, rfl⟩ := h
  exact ⟨before ++ front, back, by simp, by simp⟩

theorem append_right (h : StandsAt part bytes offset) (after : Bytes) :
    StandsAt part (bytes ++ after) offset := by
  obtain ⟨front, back, rfl, rfl⟩ := h
  exact ⟨front, back ++ after, by simp, rfl⟩

/-- The first of two parts of what stands somewhere, -/
theorem left {more : Bytes} (h : StandsAt (part ++ more) bytes offset) :
    StandsAt part bytes offset := by
  obtain ⟨front, back, rfl, rfl⟩ := h
  exact ⟨front, more ++ back, by simp, rfl⟩

/-- and the second one, which stands behind it. -/
theorem right {more : Bytes} (h : StandsAt (more ++ part) bytes offset) :
    StandsAt part bytes (offset + more.length) := by
  obtain ⟨front, back, rfl, rfl⟩ := h
  exact ⟨front ++ more, back, by simp, by simp⟩

/-- What stands at an offset is read there. -/
theorem take_drop (h : StandsAt part bytes offset) :
    (bytes.drop offset).take part.length = part := by
  obtain ⟨front, back, rfl, rfl⟩ := h
  rw [List.append_assoc, List.drop_left, List.take_left]

/-- What stands in a row that stands in another one. -/
theorem trans {whole : Bytes} {start : Nat} (h : StandsAt part bytes offset)
    (h' : StandsAt bytes whole start) : StandsAt part whole (start + offset) := by
  obtain ⟨front, back, rfl, rfl⟩ := h'
  exact (h.append_left front).append_right back

/-- In a row that is made of one part for each element of a list, the part of an element stands
behind those of the elements before it. -/
theorem flatMap {α : Type} {f : α → Bytes} {xs : List α} {i : Nat} {x : α}
    (hx : xs[i]? = some x) : StandsAt (f x) (xs.flatMap f) ((xs.take i).flatMap f).length := by
  obtain ⟨hi, rfl⟩ := List.getElem?_eq_some_iff.mp hx
  refine ⟨(xs.take i).flatMap f, (xs.drop (i + 1)).flatMap f, ?_, rfl⟩
  calc xs.flatMap f
      = (xs.take i ++ xs.drop i).flatMap f := by rw [List.take_append_drop]
    _ = (xs.take i ++ (xs[i] :: xs.drop (i + 1))).flatMap f := by
        rw [List.drop_eq_getElem_cons hi]
    _ = _ := by rw [List.flatMap_append, List.flatMap_cons, List.append_assoc]

end StandsAt

end Propeller
