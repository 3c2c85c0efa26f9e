import Propeller.DebugTable
import Propeller.Proofs.Bytes

/-!
# Debug descriptors — reading the table

The stored form of a table is read by its offsets: the number of records comes first, then where each of them
begins, and a record ends where the next one begins, the last one at the end (`DebugTable.read`).

* `DebugTable.addAll_eq`: which numbers are given out, and what the table then holds.
* `DebugTable.read_stored`: a stored table of at most 65536 bytes is read back.
* `DebugTable.stored_and_read`: both, for every sequence of descriptors.
-/

namespace Propeller.DebugTable

variable {t : DebugTable} {records : List Bytes}

/-! ### Adding descriptors -/

/-- Add descriptors one after the other.  One that does not fit leaves the table as it is. -/
def addAll (t : DebugTable) : List (List DebugItem) → List (Except DebugError Nat) × DebugTable
  | []            => ([], t)
  | items :: rest =>
    match t.add items with
    | .ok (number, next) => (.ok number :: (next.addAll rest).1, (next.addAll rest).2)
    | .error e           => (.error e :: (t.addAll rest).1, (t.addAll rest).2)

/-- The descriptors get the numbers from the first free one on, as long as there is room. -/
theorem addAll_eq (t : DebugTable) (calls : List (List DebugItem)) :
    t.addAll calls =
      (calls.mapIdx fun k _ => if t.records.length + k < capacity then .ok (t.records.length + k)
        else .error (.tooManyRecords capacity),
        ⟨t.records ++ (calls.take (capacity - t.records.length)).map descriptor⟩) := by
  induction calls generalizing t with
  | nil => simp [addAll]
  | cons items calls ih =>
    by_cases hroom : t.records.length < capacity
    · have hsub : capacity - t.records.length = capacity - (t.records.length + 1) + 1 := by omega
      simp [addAll, add, hroom, ih, hsub, Nat.add_assoc, Nat.add_comm 1]
    · have hsub : capacity - t.records.length = 0 := by omega
      have hfull : ∀ k, ¬ t.records.length + k < capacity := by omega
      simp [addAll, add, hroom, ih, hsub, hfull]

/-! ### Reading -/

/-- The number in two bytes at an offset. -/
def wordAt (bytes : Bytes) (offset : Nat) : Nat := ofLittleEndian ((bytes.drop offset).take 2)

/-- The parts of a row of bytes that begin at some offsets, each up to the next one and the last one to the end. -/
def cut (bytes : Bytes) : List Nat → List Bytes
  | []                    => []
  | [start]               => [bytes.drop start]
  | start :: next :: rest => (bytes.drop start).take (next - start) :: cut bytes (next :: rest)

/-- The records of a stored table. -/
def read (bytes : Bytes) : List Bytes :=
  cut bytes ((List.range (wordAt bytes 0)).map fun k => wordAt bytes (2 + 2 * k))

/-- What stands before the records. -/
def header (t : DebugTable) : Bytes :=
  littleEndian 2 t.records.length ++ (offsets t.headerSize t.records).flatMap (littleEndian 2)

theorem length_offsets (start : Nat) (records : List Bytes) : (offsets start records).length = records.length := by
  induction records generalizing start with
  | nil => rfl
  | cons r rest ih => simp [offsets, ih]

theorem length_header (t : DebugTable) : t.header.length = t.headerSize := by
  rw [header, List.length_append, length_littleEndian, length_flatMap_of_forall fun _ _ => length_littleEndian ..,
    length_offsets, headerSize]

/-- Records are cut out at their offsets. -/
theorem cut_offsets (front : Bytes) (records : List Bytes) :
    cut (front ++ records.flatten) (offsets front.length records) = records := by
  induction records generalizing front with
  | nil => rfl
  | cons r rest ih =>
    have hrest := ih (front ++ r)
    rw [List.append_assoc, List.length_append] at hrest
    cases rest with
    | nil => simp [offsets, cut]
    | cons r' rest =>
      rw [offsets, offsets, cut, ← offsets, List.flatten_cons, List.drop_left, Nat.add_sub_cancel_left,
        List.take_left]
      exact congrArg (r :: ·) hrest

/-- A record with something in it begins before the end of the table. -/
theorem offsets_lt {start : Nat} (h : ∀ r ∈ records, r ≠ []) :
    ∀ o ∈ offsets start records, o < start + records.flatten.length := by
  induction records generalizing start with
  | nil => simp [offsets]
  | cons r rest ih =>
    rw [List.forall_mem_cons] at h
    have hr := List.length_pos_iff.mpr h.1
    intro o ho
    rw [List.flatten_cons, List.length_append]
    rcases List.mem_cons.mp ho with rfl | ho
    · omega
    · have := ih h.2 o ho
      omega

/-- Records stand at their offsets. -/
theorem standsAt_offset {r : Bytes} {k : Nat} (h : records[k]? = some r) (start : Nat) :
    ∃ o, (offsets start records)[k]? = some (start + o) ∧ StandsAt r records.flatten o := by
  induction records generalizing start k with
  | nil => simp at h
  | cons first rest ih =>
    cases k with
    | zero =>
      obtain rfl : first = r := by simpa using h
      exact ⟨0, rfl, [], rest.flatten, rfl, rfl⟩
    | succ k =>
      obtain ⟨o, ho, hstands⟩ := ih (by simpa using h) (start + first.length)
      exact ⟨first.length + o, by simpa [offsets, Nat.add_assoc] using ho, hstands.append_left first⟩

/-- Of a number that stands in two bytes, its low bits are read. -/
theorem wordAt_of_standsAt {bytes : Bytes} {offset n : Nat} (h : StandsAt (littleEndian 2 n) bytes offset) :
    wordAt bytes offset = n % 2 ^ 16 := by
  have hread := h.take_drop
  rw [length_littleEndian] at hread
  rw [wordAt, hread, ofLittleEndian_littleEndian]
  rfl

/-- The low bits of every offset are in the table. -/
theorem wordAt_offset {k o : Nat} (h : (offsets t.headerSize t.records)[k]? = some o) :
    wordAt (t.header ++ t.records.flatten) (2 + 2 * k) = o % 2 ^ 16 := by
  have hk := (List.getElem?_eq_some_iff.mp h).1
  refine wordAt_of_standsAt (StandsAt.append_right ?_ _)
  -- the offsets before this one take two bytes each, behind those of the number
  have hstands := (StandsAt.flatMap (f := littleEndian 2) h).append_left (littleEndian 2 t.records.length)
  rwa [length_littleEndian, length_flatMap_of_forall fun _ _ => length_littleEndian ..,
    List.length_take_of_le (Nat.le_of_lt hk)] at hstands

/-- **A stored table is read back**, if two bytes can hold its offsets. -/
theorem read_stored (hrecords : ∀ r ∈ t.records, r ≠ []) (hsize : t.headerSize + t.records.flatten.length ≤ 2 ^ 16) :
    wordAt (t.header ++ t.records.flatten) 0 = t.records.length ∧
      read (t.header ++ t.records.flatten) = t.records := by
  have hlt : ∀ o ∈ offsets t.headerSize t.records, o < 2 ^ 16 := fun o ho =>
    Nat.lt_of_lt_of_le (offsets_lt hrecords o ho) hsize
  have hcount : wordAt (t.header ++ t.records.flatten) 0 = t.records.length := by
    have hstands : StandsAt (littleEndian 2 t.records.length) t.header 0 := ⟨[], _, rfl, rfl⟩
    rw [wordAt_of_standsAt (hstands.append_right _), Nat.mod_eq_of_lt]
    rw [headerSize] at hsize
    omega
  have hwords : (List.range t.records.length).map (fun k => wordAt (t.header ++ t.records.flatten) (2 + 2 * k)) =
      offsets t.headerSize t.records := by
    apply List.ext_getElem
    · simp [length_offsets]
    · intro k hk hk'
      rw [List.getElem_map, List.getElem_range, wordAt_offset (List.getElem?_eq_getElem hk'),
        Nat.mod_eq_of_lt (hlt _ (List.getElem_mem hk'))]
  refine ⟨hcount, ?_⟩
  rw [read, hcount, hwords, ← length_header]
  exact cut_offsets t.header t.records

/-- **Descriptors are stored and read.**  Let descriptors be added to an empty table, one after the other.

* They get the numbers 0, 1, …, 255 in order, and from then on there is no room, and nothing is changed.
* For a limit of at most 65536 bytes, storing the table fails exactly if the number, the offsets and the records
  together are larger than the limit.
* Otherwise what is stored begins with the number of records, and reading it gives each descriptor under its
  number. -/
theorem stored_and_read (calls : List (List DebugItem)) {limit : Nat} (hlimit : limit ≤ 65536) :
    let results := (addAll {} calls).1
    let t := (addAll {} calls).2
    let size := 2 + 2 * t.records.length + (t.records.map List.length).sum
    (results = calls.mapIdx fun k _ => if k < 256 then .ok k else .error (.tooManyRecords 256)) ∧
      t.records = (calls.take 256).map descriptor ∧
      (t.serialize limit = .error (.tooLarge size limit) ↔ limit < size) ∧
      (size ≤ limit → ∃ bytes, t.serialize limit = .ok bytes ∧ wordAt bytes 0 = t.records.length ∧
        read bytes = (calls.take 256).map descriptor) := by
  intro results t size
  have hadd := addAll_eq {} calls
  have hrecords : t.records = (calls.take 256).map descriptor := by
    simp [t, hadd, capacity]
  have hsize : t.headerSize + t.records.flatten.length = size := by
    rw [List.length_flatten]
    rfl
  have hserialize : t.serialize limit =
      if limit < size then .error (.tooLarge size limit) else .ok (t.header ++ t.records.flatten) := by
    rw [← hsize]
    rfl
  refine ⟨by simp [results, hadd, capacity], hrecords, ?_, fun hle => ?_⟩
  · rw [hserialize]
    split <;> simp [*]
  · have hfilled : ∀ r ∈ t.records, r ≠ [] := by
      intro r hr
      rw [hrecords] at hr
      obtain ⟨items, -, rfl⟩ := List.mem_map.mp hr
      simp [descriptor]
    obtain ⟨hcount, hread⟩ := read_stored hfilled (by rw [hsize]; exact Nat.le_trans hle hlimit)
    refine ⟨_, by rw [hserialize, if_neg (Nat.not_lt.mpr hle)], hcount, ?_⟩
    rw [hread, hrecords]

/-- Two descriptors, which take all of the room that there is. -/
theorem stored_and_read_twoRecords :
    15 ≤ 65536 ∧ ∃ bytes, (addAll {} [[.text "hi"], [.value .uhex "x"]]).2.serialize 15 = .ok bytes ∧
      read bytes = [[0x01, 0x68, 0x69, 0x00, 0x00], [0x48, 0x78, 0x00, 0x00]] := by
  obtain ⟨-, -, -, hread⟩ := stored_and_read [[.text "hi"], [.value .uhex "x"]] (show 15 ≤ 65536 by decide)
  obtain ⟨bytes, hbytes, -, hrecords⟩ := hread (by decide +kernel)
  exact ⟨by decide, bytes, hbytes, hrecords.trans (by decide +kernel)⟩

end Propeller.DebugTable
