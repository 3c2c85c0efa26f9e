import Propeller.Link
import Propeller.Proofs.Bytes

/-!
# Links — an image with its children

The link records stand in front of an image, in the room that was left for them, and the images of
the children behind it (`Links.assemble_bytes`).  There are eight bytes for each instance of a child
(`Links.length_recordsAfter`).

Two cursors run through the children, one over the code and one over the variables.  All instances of
a child have one image, and each of them has its own variables.

* `Links.Follow`: images of children behind a row of bytes, each at the next multiple of four.
* `Links.Built`: children that were added one after the other.  Their records are numbered through
  (`Built.numbered`).
* `Tiles`: blocks that follow each other without gaps.
* `Links.Linked`, `assemble_linked`: what the records of an image say, and where everything is in it.
-/

namespace Propeller

variable {image : Bytes} {object offset count first length : Nat} {c : ChildLink}
  {cs children : List ChildLink}

/-! ### Records -/

/-- A link record as it is read: where the image of an instance is, and where its variables are. -/
structure LinkRecord where
  object : Nat
  vars : Nat

/-- The link record number `i` of an image. -/
def LinkRecord.read (image : Bytes) (i : Nat) : LinkRecord where
  object := ofLittleEndian ((image.drop (8 * i)).take 4)
  vars := ofLittleEndian ((image.drop (8 * i + 4)).take 4)

theorem LinkRecord.read_eq {i vars : Nat}
    (h : StandsAt (littleEndian 4 object ++ littleEndian 4 vars) image (8 * i)) :
    read image i = ⟨object % 2 ^ 32, vars % 2 ^ 32⟩ := by
  have hobject := h.left.take_drop
  have hvars := h.right.take_drop
  simp only [length_littleEndian] at hobject hvars
  rw [read, hobject, hvars, ofLittleEndian_littleEndian, ofLittleEndian_littleEndian]
  rfl

namespace Links

theorem length_recordsOf (object offset varSize count : Nat) :
    (recordsOf object offset varSize count).length = count * 8 := by
  induction count generalizing offset with
  | zero => rfl
  | succ count ih =>
    simp only [recordsOf, List.length_append, length_littleEndian, ih]
    omega

theorem length_recordsAfter (length offset : Nat) (children : List ChildLink) :
    (recordsAfter length offset children).length = (children.map ChildLink.count).sum * 8 := by
  induction children generalizing length offset with
  | nil => simp [recordsAfter]
  | cons c cs ih =>
    simp only [recordsAfter, List.length_append, length_recordsOf, ih, List.map_cons,
      List.sum_cons, Nat.add_mul]

/-- The link records take the place of the room for them, and the children follow. -/
theorem assemble_bytes (l : Links) (rest : Bytes) (varSize : Nat) :
    (l.assemble (zeros l.headerSize ++ rest) varSize).1 =
      recordsAfter (zeros l.headerSize ++ rest).length (align4 varSize) l.children ++ (rest ++
        imagesAfter (zeros l.headerSize ++ rest).length l.children) := by
  simp only [assemble, List.append_assoc]
  rw [List.drop_left' (length_zeros _)]

/-- The records of the instances of one child: they share the image, and each has its own variables. -/
theorem recordsOf_standsAt {varSize k : Nat}
    (h : StandsAt (recordsOf object offset varSize count) image (8 * first)) (hk : k < count) :
    StandsAt (littleEndian 4 object ++ littleEndian 4 (offset + varSize * k)) image
      (8 * (first + k)) := by
  induction count generalizing offset first k with
  | zero => omega
  | succ count ih =>
    rw [recordsOf] at h
    cases k with
    | zero => simpa using h.left
    | succ k =>
      have hrest := h.right
      rw [List.length_append, length_littleEndian, length_littleEndian,
        show 8 * first + (4 + 4) = 8 * (first + 1) by omega] at hrest
      have hat := ih hrest (Nat.lt_of_succ_lt_succ hk)
      rwa [show offset + varSize + varSize * k = offset + varSize * (k + 1) by
          rw [Nat.mul_succ]; omega,
        show first + 1 + k = first + (k + 1) by omega] at hat

/-- The records of the first child, and behind them those of the others. -/
theorem recordsAfter_cons_standsAt
    (h : StandsAt (recordsAfter length offset (c :: cs)) image (8 * first)) :
    StandsAt (recordsOf (align4 length) offset c.image.varSize c.count) image (8 * first) ∧
      StandsAt (recordsAfter (align4 length + c.image.bytes.length)
        (offset + c.image.varSize * c.count) cs) image (8 * (first + c.count)) := by
  rw [recordsAfter] at h
  refine ⟨h.left, ?_⟩
  have hrest := h.right
  rwa [length_recordsOf, show 8 * first + c.count * 8 = 8 * (first + c.count) by omega] at hrest

/-! ### Images -/

/-- The images of children in a row of bytes, behind its first `length` bytes: each of them begins at the
next multiple of four, there are zeros in front of it, and the row ends with the last of them. -/
inductive Follow (bytes : Bytes) : (length : Nat) → List ChildLink → Prop where
  | nil : Follow bytes bytes.length []
  | cons {length start : Nat} {c : ChildLink} {cs : List ChildLink} (le : length ≤ start)
      (lt : start < length + 4) (aligned : start % 4 = 0)
      (padding : StandsAt (zeros (start - length)) bytes length)
      (image : StandsAt c.image.bytes bytes start)
      (rest : Follow bytes (start + c.image.bytes.length) cs) : Follow bytes length (c :: cs)

theorem imagesAfter_follow (children : List ChildLink) (front : Bytes) :
    Follow (front ++ imagesAfter front.length children) front.length children := by
  induction children generalizing front with
  | nil =>
    rw [imagesAfter, List.append_nil]
    exact .nil
  | cons c cs ih =>
    have hle : front.length ≤ align4 front.length := by
      unfold align4
      omega
    have hlt : align4 front.length < front.length + 4 := by
      unfold align4
      omega
    -- the children behind this one follow the row with this one at its end
    have hlength : (front ++ zeros (align4 front.length - front.length) ++ c.image.bytes).length =
        align4 front.length + c.image.bytes.length := by
      rw [List.length_append, List.length_append, length_zeros, Nat.add_sub_of_le hle]
    have hrest := ih (front ++ zeros (align4 front.length - front.length) ++ c.image.bytes)
    rw [hlength] at hrest
    simp only [imagesAfter, List.append_assoc] at hrest ⊢
    refine .cons hle hlt (Nat.mul_mod_left ..) ⟨front, _, by rw [List.append_assoc], rfl⟩ ?_ hrest
    refine ⟨front ++ zeros (align4 front.length - front.length),
      imagesAfter (align4 front.length + c.image.bytes.length) cs, ?_, ?_⟩
    · simp only [List.append_assoc]
    · rw [List.length_append, length_zeros, Nat.add_sub_of_le hle]

/-- The next multiple of four is the only one that is near enough. -/
theorem eq_align4 {start : Nat} (le : length ≤ start) (lt : start < length + 4) (aligned : start % 4 = 0) :
    start = align4 length := by
  unfold align4
  omega

/-! ### The numbers of the records -/

/-- Links that come about by adding children. -/
inductive Built : Links → Prop where
  | empty : Built {}
  | add {l l' : Links} {name : Identifier} {image : ObjectImage} {count : Nat} (built : Built l)
      (added : l.add name image count = .ok l') : Built l'

/-- Children whose records are numbered one after the other, from `first` on. -/
def Numbered : (first : Nat) → List ChildLink → Prop
  | _,     []      => True
  | first, c :: cs => c.index = first ∧ Numbered (first + c.count) cs

theorem Numbered.append {cs' : List ChildLink} (h : Numbered first cs)
    (h' : Numbered (first + (cs.map ChildLink.count).sum) cs') : Numbered first (cs ++ cs') := by
  induction cs generalizing first with
  | nil => simpa using h'
  | cons c cs ih =>
    refine ⟨h.1, ih h.2 ?_⟩
    rwa [Nat.add_assoc, ← List.sum_cons, ← List.map_cons]

theorem Built.numbered {l : Links} (h : l.Built) : Numbered 0 l.children := by
  induction h with
  | empty => trivial
  | @add l l' name image count built added ih =>
    unfold Links.add at added
    split at added
    · cases added
    · cases added
      exact ih.append ⟨by rw [Nat.zero_add, records], trivial⟩

/-- All instances of children, in the order of their records. -/
def instances (children : List ChildLink) : List (ChildLink × Nat) :=
  children.flatMap fun c => (List.range c.count).map fun k => (c, k)

/-- The number of the record of an instance. -/
def recordNumber (i : ChildLink × Nat) : Nat := i.1.index + i.2

theorem Numbered.recordNumbers (h : Numbered first children) : (instances children).map recordNumber =
      List.range' first (children.map ChildLink.count).sum := by
  induction children generalizing first with
  | nil => rfl
  | cons c cs ih =>
    obtain ⟨hc, hcs⟩ := h
    have hfirst : ((List.range c.count).map fun k => (c, k)).map recordNumber =
        List.range' first c.count := by
      rw [List.map_map, List.range'_eq_map_range, ← hc]
      rfl
    rw [instances, List.flatMap_cons, List.map_append, hfirst, ← instances, ih hcs, List.map_cons,
      List.sum_cons, List.range'_append_1]

/-! ### What the records say -/

/-- **One image for all instances of a child.**  Every record of the child holds the offset of its
image, at least the low four bytes of it. -/
theorem Numbered.image_at (hnumbered : Numbered first children)
    (hrecords : StandsAt (recordsAfter length offset children) image (8 * first))
    (himages : Follow image length children) (hc : c ∈ children) :
    ∃ object, object % 4 = 0 ∧ StandsAt c.image.bytes image object ∧
      ∀ k < c.count, (LinkRecord.read image (c.index + k)).object = object % 2 ^ 32 := by
  induction children generalizing first length offset with
  | nil => cases hc
  | cons child cs ih =>
    obtain ⟨hfirst, hrest⟩ := recordsAfter_cons_standsAt hrecords
    cases himages with
    | @cons _ start _ _ le lt aligned _ stands rest =>
      have hstart := eq_align4 le lt aligned
      rcases List.mem_cons.mp hc with rfl | hc
      · refine ⟨start, aligned, stands, fun k hk => ?_⟩
        have hrecord := recordsOf_standsAt hfirst hk
        rw [← hnumbered.1, ← hstart] at hrecord
        rw [LinkRecord.read_eq hrecord]
      · exact ih hnumbered.2 hrest (hstart ▸ rest) hc

end Links

/-- Blocks, each with its start and its size, that follow each other from `start` to `stop`. -/
inductive Tiles : (start : Nat) → List (Nat × Nat) → (stop : Nat) → Prop where
  | nil (start : Nat) : Tiles start [] start
  | cons {start size stop : Nat} {blocks : List (Nat × Nat)} (rest : Tiles (start + size) blocks stop) :
      Tiles start ((start, size) :: blocks) stop

namespace Tiles

variable {start stop : Nat} {blocks : List (Nat × Nat)}

theorem append {middle : Nat} {more : List (Nat × Nat)} (h : Tiles start blocks middle)
    (h' : Tiles middle more stop) : Tiles start (blocks ++ more) stop := by
  induction h with
  | nil => exact h'
  | cons _ ih => exact .cons (ih h')

theorem start_le (h : Tiles start blocks stop) {b : Nat × Nat} (hb : b ∈ blocks) :
    start ≤ b.1 := by
  induction h with
  | nil => cases hb
  | cons _ ih =>
    rcases List.mem_cons.mp hb with rfl | hb
    · exact Nat.le_refl _
    · exact Nat.le_trans (Nat.le_add_right ..) (ih hb)

/-- Blocks that follow each other do not overlap. -/
theorem apart (h : Tiles start blocks stop) :
    blocks.Pairwise fun b b' => b.1 + b.2 ≤ b'.1 := by
  induction h with
  | nil => exact .nil
  | cons rest ih => exact .cons (fun _ hb => rest.start_le hb) ih

end Tiles

namespace Links

/-- The variables of an instance as its record gives them: where they begin, and how many bytes the child
has. -/
def varBlock (image : Bytes) (i : ChildLink × Nat) : Nat × Nat :=
  ((LinkRecord.read image (recordNumber i)).vars, i.1.image.varSize)

theorem tiles_recordsOf
    (h : StandsAt (recordsOf object offset c.image.varSize count) image (8 * c.index))
    (hfits : offset + c.image.varSize * count < 2 ^ 32) :
    Tiles offset (((List.range count).map fun k => (c, k)).map (varBlock image))
      (offset + c.image.varSize * count) := by
  have hblock : ∀ k < count, varBlock image (c, k) =
      (offset + c.image.varSize * k, c.image.varSize) := by
    intro k hk
    have hle : c.image.varSize * k ≤ c.image.varSize * count := Nat.mul_le_mul_left _ (Nat.le_of_lt hk)
    have hlt : offset + c.image.varSize * k < 2 ^ 32 := by omega
    have hread := congrArg LinkRecord.vars (LinkRecord.read_eq (recordsOf_standsAt h hk))
    rw [varBlock, recordNumber, hread, Nat.mod_eq_of_lt hlt]
  clear h hfits
  induction count with
  | zero => exact .nil _
  | succ count ih =>
    rw [List.range_succ, List.map_append, List.map_append]
    refine (ih fun k hk => hblock k (Nat.lt_succ_of_lt hk)).append ?_
    rw [List.map_singleton, List.map_singleton, hblock count (Nat.lt_succ_self _), Nat.mul_succ,
      ← Nat.add_assoc]
    exact .cons (.nil _)

/-- **The variables of the instances** follow each other. -/
theorem Numbered.tiles (hnumbered : Numbered first children)
    (hrecords : StandsAt (recordsAfter length offset children) image (8 * first))
    (hfits : offset + (children.map fun c => c.image.varSize * c.count).sum < 2 ^ 32) :
    Tiles offset ((instances children).map (varBlock image))
      (offset + (children.map fun c => c.image.varSize * c.count).sum) := by
  induction children generalizing first length offset with
  | nil => exact .nil _
  | cons c cs ih =>
    obtain ⟨hfirst, hrest⟩ := recordsAfter_cons_standsAt hrecords
    rw [← hnumbered.1] at hfirst
    rw [List.map_cons, List.sum_cons, ← Nat.add_assoc] at hfits ⊢
    rw [instances, List.flatMap_cons, List.map_append, ← instances]
    exact (tiles_recordsOf hfirst (by omega)).append (ih hnumbered.2 hrest hfits)

/-! ### The whole image -/

/-- **An image with its children** and the size of all variables, as they come from the bytes of an
object and from the size of its own variables. -/
structure Linked (l : Links) (bytes : Bytes) (own : Nat) (image : Bytes) (total : Nat) : Prop where
  /-- What was behind the room for the records is still there. -/
  own_at : StandsAt (bytes.drop l.headerSize) image l.headerSize
  /-- Every record belongs to just one instance. -/
  recordNumbers : (instances l.children).map recordNumber = List.range l.records
  /-- All records of a child lead to its image, which begins at a multiple of four. -/
  image_at : ∀ c ∈ l.children, ∃ object, object % 4 = 0 ∧ StandsAt c.image.bytes image object ∧
    ∀ k < c.count, (LinkRecord.read image (c.index + k)).object = object
  /-- The variables of the instances follow those of the object, without gaps and up to the end, -/
  tiles : Tiles (align4 own) ((instances l.children).map (varBlock image)) total
  /-- so that no two of them share a byte. -/
  apart : ((instances l.children).map (varBlock image)).Pairwise fun b b' => b.1 + b.2 ≤ b'.1
  total_eq : total = align4 own + l.varSize

/-- The image of an object: the records, what the object has behind them, and its children. -/
theorem assemble_eq (l : Links) {bytes : Bytes} (hroom : l.headerSize ≤ bytes.length) (own : Nat) :
    (l.assemble bytes own).1 = recordsAfter bytes.length (align4 own) l.children ++
      bytes.drop l.headerSize ++ imagesAfter bytes.length l.children := by
  rw [assemble, List.drop_append_of_le_length hroom, List.append_assoc]

section Assemble

variable (l : Links) {bytes : Bytes} (hroom : l.headerSize ≤ bytes.length) (own : Nat)

include hroom

/-- The records stand at the beginning of the image, -/
theorem assemble_records_at :
    StandsAt (recordsAfter bytes.length (align4 own) l.children) (l.assemble bytes own).1 0 :=
  ⟨[], _, by rw [l.assemble_eq hroom, List.nil_append, List.append_assoc], rfl⟩

/-- and the children follow what the object has itself. -/
theorem assemble_follow : Follow (l.assemble bytes own).1 bytes.length l.children := by
  have hlength : (recordsAfter bytes.length (align4 own) l.children).length = l.headerSize :=
    length_recordsAfter ..
  have h := imagesAfter_follow l.children
    (recordsAfter bytes.length (align4 own) l.children ++ bytes.drop l.headerSize)
  rwa [List.length_append, hlength, List.length_drop, Nat.add_sub_of_le hroom,
    ← l.assemble_eq hroom] at h

end Assemble

/-- **Linking.**  Whatever children were added, the image of an object is linked to them, if no number
is too large for its four bytes. -/
theorem assemble_linked {l : Links} (hl : l.Built) {bytes : Bytes} {own : Nat}
    (hroom : l.headerSize ≤ bytes.length) (hbytes : (l.assemble bytes own).1.length < 2 ^ 32)
    (hvars : align4 own + l.varSize < 2 ^ 32) :
    l.Linked bytes own (l.assemble bytes own).1 (l.assemble bytes own).2 := by
  have hrecords := l.assemble_records_at hroom own
  have htiles := hl.numbered.tiles hrecords hvars
  refine ⟨⟨_, _, l.assemble_eq hroom own, length_recordsAfter ..⟩, ?_, ?_, htiles, htiles.apart, rfl⟩
  · rw [hl.numbered.recordNumbers, records, List.range_eq_range']
  · intro c hc
    obtain ⟨object, haligned, hstands, hread⟩ :=
      hl.numbered.image_at hrecords (l.assemble_follow hroom own) hc
    obtain ⟨front, back, heq, hobject⟩ := hstands
    refine ⟨object, haligned, ⟨front, back, heq, hobject⟩, fun k hk => ?_⟩
    have hle : object ≤ (l.assemble bytes own).1.length := by
      rw [heq, List.length_append, List.length_append]
      omega
    rw [hread k hk, Nat.mod_eq_of_lt (Nat.lt_of_le_of_lt hle hbytes)]

/-- Two instances of a child of six bytes and one of a child of three bytes, behind an object of three
bytes that has five bytes of variables. -/
theorem assemble_linked_arrayAndSingle :
    ∃ l : Links, l.Built ∧
      (l.assemble (zeros 24 ++ [1, 2, 3]) 5).1 =
        [28, 0, 0, 0, 8, 0, 0, 0, 28, 0, 0, 0, 20, 0, 0, 0, 36, 0, 0, 0, 32, 0, 0, 0, 1, 2, 3, 0,
          9, 9, 9, 9, 9, 9, 0, 0, 7, 7, 7] ∧
      l.Linked (zeros 24 ++ [1, 2, 3]) 5 (l.assemble (zeros 24 ++ [1, 2, 3]) 5).1 34 := by
  let array : ChildLink := ⟨⟨"a"⟩, { bytes := [9, 9, 9, 9, 9, 9], varSize := 12 }, 2, 0⟩
  let single : ChildLink := ⟨⟨"b"⟩, { bytes := [7, 7, 7], varSize := 2 }, 1, 2⟩
  have harray : Links.add {} array.name array.image 2 = .ok ⟨[array]⟩ := rfl
  have hsingle : Links.add ⟨[array]⟩ single.name single.image 1 = .ok ⟨[array, single]⟩ := rfl
  have hbuilt : Built ⟨[array, single]⟩ := .add (.add .empty harray) hsingle
  exact ⟨_, hbuilt, by decide, assemble_linked hbuilt (by decide) (by decide) (by decide)⟩

end Links

end Propeller
