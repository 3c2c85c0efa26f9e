import Propeller.Proofs.Compile.Emitted
import Propeller.Proofs.Compile.InlineCode
import Propeller.Proofs.DebugTable
import Propeller.Proofs.Semantics.Evaluation

/-!
# Semantics — debug statements

The code of a debug statement pushes the values of the statement, and its instruction says how many they are
and under which number the descriptor of the statement is found in the debug data.  There is one byte for the
number of values, and there are two for the offset of a descriptor.

* `DebugTable.entries_descriptor`: a descriptor is read back, if there is no NUL in its texts.
* `compile_debugStatements`: how the debug statements of an object are shown.  The number of values is right up
  to 255, and the descriptor is found in debug data of at most 65536 bytes.
-/

namespace Propeller

open MethodContext (debugValues)

variable {config : Config} {library : Library} {tree : ObjectTree} {d : Draft} {n : Names} {listing : Listing}
  {arguments : List DebugArgument} {ts : List Term} {base record : Nat} {data : Bytes}

/-! ### Reading a descriptor -/

theorem zero_notMem_utf8Bytes {text : String} (h : '\x00' ∉ text.toList) : 0 ∉ utf8Bytes text := by
  intro hmem
  obtain ⟨c, hc, hzero⟩ := List.mem_flatMap.mp hmem
  have hne : c.toNat ≠ 0 := fun hval => h (Char.toNat_inj.mp (hval.trans rfl : _ = '\x00'.toNat) ▸ hc)
  -- a byte of another character than NUL has a bit that is set
  simp only [String.utf8EncodeChar, Char.toNat_val] at hzero
  split_ifs at hzero <;> simp [← UInt8.toNat_inj] at hzero <;> omega

namespace DebugItem

/-- The kind of an item. -/
def kind : DebugItem → UInt8
  | text _         => 0x01
  | value format _ => UInt8.ofNat (0x40 + 4 * format.code)

def label : DebugItem → String
  | text shown   => shown
  | value _ name => name

/-- An item without the zero behind it. -/
def entry (item : DebugItem) : Bytes := item.kind :: utf8Bytes item.label

theorem zero_notMem_entry {item : DebugItem} (h : '\x00' ∉ item.label.toList) : 0 ∉ item.entry := by
  have hkind : 0 ≠ item.kind := by rcases item with _ | ⟨_ | _ | _ | _, _⟩ <;> simp [kind, DebugFormat.code]
  exact List.not_mem_cons_of_ne_of_not_mem hkind (zero_notMem_utf8Bytes h)

end DebugItem

namespace DebugTable

/-- The entries of a descriptor in front of a row of bytes: each of them ends with a zero, and an empty one ends
the descriptor. -/
def entries (row : Bytes) : List Bytes := (row.splitOn 0).takeWhile (· ≠ [])

/-- What is found in debug data under a number. -/
def find (data : Bytes) (record : Nat) : List Bytes :=
  entries (data.drop (wordAt data (2 + 2 * record)))

/-- **A descriptor is read back**, whatever stands behind it. -/
theorem entries_descriptor {items : List DebugItem} (h : ∀ item ∈ items, '\x00' ∉ item.label.toList)
    (rest : Bytes) : entries (descriptor items ++ rest) = items.map DebugItem.entry := by
  induction items with
  | nil => simp [entries, descriptor, List.splitOn, List.splitOnP_cons_eq_if_modifyHead]
  | cons item items ih =>
    obtain ⟨hitem, hitems⟩ := List.forall_mem_cons.mp h
    have hsplit : descriptor (item :: items) ++ rest = item.entry ++ 0 :: (descriptor items ++ rest) := by
      cases item <;> simp [descriptor, DebugItem.bytes, DebugItem.entry, DebugItem.kind, DebugItem.label]
    have hzero : ∀ b ∈ item.entry, (b == 0) = false := fun b hb =>
      beq_false_of_ne fun hb0 => DebugItem.zero_notMem_entry hitem (hb0 ▸ hb)
    rw [entries, hsplit, List.splitOn, List.splitOnP_append_cons_of_forall_mem hzero 0 rfl]
    exact congrArg (item.entry :: ·) (ih hitems)

/-- What stands at an offset that two bytes can hold is found. -/
theorem find_eq {offset : Nat} (h : StandsAt (descriptor (arguments.map DebugArgument.item)) data offset)
    (hword : wordAt data (2 + 2 * record) = offset % 2 ^ 16) (hsize : data.length ≤ 2 ^ 16)
    (hplain : ∀ a ∈ arguments, '\x00' ∉ a.item.label.toList) :
    find data record = arguments.map fun a => a.item.entry := by
  obtain ⟨before, rest, rfl, rfl⟩ := h
  have hlt : before.length < 2 ^ 16 := by
    simp only [descriptor, List.length_append, List.length_singleton] at hsize
    omega
  rw [find, hword, Nat.mod_eq_of_lt hlt, List.append_assoc, List.drop_left, entries_descriptor, List.map_map]
  · rfl
  · simpa using hplain

end DebugTable

/-- An entry is that of a value. -/
def isValueEntry (entry : Bytes) : Bool := entry.head?.any (0x40 ≤ ·)

theorem countP_isValueEntry (arguments : List DebugArgument) :
    (arguments.map fun a => a.item.entry).countP isValueEntry = (debugValues arguments).length := by
  induction arguments with
  | nil => rfl
  | cons a arguments ih =>
    rw [List.map_cons, List.countP_cons, ih]
    cases a with
    | text => rfl
    | value format => cases format <;> rfl

/-! ### The debug statements of an object -/

/-- An instruction of a listing, in front of which the values of terms are pushed, one after the other. -/
def Listing.Pushes (listing : Listing) (ts : List Term) (c : Code) : Prop :=
  ∃ base rest, (Term.codeAll base ts ++ .code c :: rest) <:+ listing ∧
    ∀ w stack anchors h, (Term.evalAll w ts h).1.length = ts.length ∧
      Machine.Reaches w listing ⟨some (Term.codeAll base ts ++ .code c :: rest), stack, anchors, h⟩
        ⟨some (.code c :: rest), (Term.evalAll w ts h).1.map .long ++ stack, anchors, (Term.evalAll w ts h).2⟩

/-- How a debug statement is shown by an instruction, which says a number of values and the number of a record,
and by debug data. -/
structure Shown (n : Names) (listing : Listing) (data : Bytes) (arguments : List DebugArgument)
    (values record : Nat) : Prop where
  /-- The values of the statement are pushed in front of the instruction. -/
  pushes : listing.Pushes ((debugValues arguments).map (·.termIn n)) (.debug values record)
  /-- Up to 255 of them are counted. -/
  values_eq : values = min (debugValues arguments).length 255
  record_lt : record < 256
  /-- The descriptor of the statement is in the data, and the low bits of its offset are in the table. -/
  stored : ∃ offset, StandsAt (DebugTable.descriptor (arguments.map DebugArgument.item)) data offset ∧
    DebugTable.wordAt data (2 + 2 * record) = offset % 2 ^ 16
  /-- If two bytes can hold all offsets, and there is no NUL in the texts, there is one entry for each argument
  under the number of the record, in the order of the arguments, and as many for values as are pushed. -/
  found : data.length ≤ 2 ^ 16 → (∀ a ∈ arguments, '\x00' ∉ a.item.label.toList) →
    DebugTable.find data record = (arguments.map fun a => a.item.entry) ∧
      (DebugTable.find data record).countP isValueEntry = (debugValues arguments).length

/-- The code of a debug statement shows it. -/
theorem shown_of_infix (hmeans : Expr.MeansAll n.Alike (debugValues arguments) ts)
    (hstored : d.debug.records[record]? = some (DebugTable.descriptor (arguments.map DebugArgument.item)))
    (hin : (Command.debug ts record).code [] base <:+: listing) (hn : (Listing.marks listing).Nodup)
    (hemit : listing.Every Code.Emittable) :
    Shown n listing (d.debug.header ++ d.debug.records.flatten) arguments (min ts.length 255) record := by
  obtain ⟨before, after, hin⟩ := hin
  obtain ⟨hlength, hsaturated⟩ := hmeans.saturated
  have hsuffix : (Term.codeAll (base + 1) ts ++ .code (.debug (min ts.length 255) record) :: after) <:+
      listing := ⟨before ++ [.mark base], by rw [← hin]; simp [Command.code]⟩
  have hrecord := hemit (.debug (min ts.length 255) record) (hsuffix.subset (by simp))
  obtain ⟨o, ho, hstands⟩ := DebugTable.standsAt_offset hstored d.debug.headerSize
  have hat := hstands.append_left d.debug.header
  rw [DebugTable.length_header] at hat
  have hword := DebugTable.wordAt_offset ho
  refine ⟨?_, by rw [hlength], hrecord.2, ⟨_, hat, hword⟩, fun hsize hplain => ?_⟩
  · rw [← hmeans.eq fun _ h => h.symm]
    exact ⟨base + 1, after, hsuffix, fun w stack anchors h => ⟨Term.length_evalAll w ts h,
      Term.reaches_codeAll hn (Term.saturatedAll_iff.mpr hsaturated) hsuffix⟩⟩
  · rw [DebugTable.find_eq hat hword hsize hplain]
    exact ⟨rfl, countP_isValueEntry arguments⟩

/-- The number of values and the number of the record that an instruction says, if it shows a debug
statement. -/
def Code.shows? : Code → Option (Nat × Nat)
  | .debug values record => some (values, record)
  | _                    => none

/-- The instructions of a listing that show debug statements, in order. -/
def Listing.shows (l : Listing) : List (Nat × Nat) := l.performed.filterMap Code.shows?

/-- The debug statements of an object have their instructions, one for one and in order, and are shown as `Shown`
says.  The instructions of the methods in the table stand in the image with both numbers. -/
def ShowsStatements (config : Config) (library : Library) (tree : ObjectTree) : Prop :=
  ∃ (p : Parts) (d : Draft) (image : ObjectImage) (data : Bytes),
    Compile.parts config library tree.nodes (Draft.initial tree.name) = .ok p d ∧
    (compile config library tree).image = some image ∧ (compile config library tree).debug = some data ∧
    List.Forall₂ (fun decl m => List.Forall₂ (fun arguments c =>
          Shown (d.names m.scope) (Command.body m.body).listing data arguments c.1 c.2 ∧
            (m ∈ p.table config → ∃ offset,
              StandsAt [Op.debug.byte, UInt8.ofNat c.1, UInt8.ofNat c.2] image.bytes offset))
        ((Statement.textsAll true decl.body).filterMap Text.debug?) (Command.body m.body).listing.shows)
      tree.methodDecls p.methods

/-- **Debug statements** of an object that is compiled successfully with debugging are shown. -/
theorem compile_debugStatements (hon : config.debug = true)
    (h : (compile config library tree).succeeded = true) : ShowsStatements config library tree := by
  obtain ⟨p, d, image, hparts, hbuilt⟩ := compile_succeeded h
  obtain ⟨-, himage, hdebug⟩ := hbuilt.compile hparts
  obtain ⟨data, hdata⟩ := Parts.exists_debugData hon hbuilt.debug
  obtain ⟨layouts, hlaid⟩ := buildImage_eq_ok hbuilt.image
  obtain ⟨t⟩ := Compile.parts_stages hparts
  have hstored : data = d.debug.header ++ d.debug.records.flatten := by
    simp only [DebugTable.serialize] at hdata
    split at hdata
    · cases hdata
    · exact (Except.ok.inj hdata).symm
  refine ⟨p, d, image, data, hparts, himage, ?_, ?_⟩
  · rw [hdebug, Parts.debugData, if_pos hon, hdata]
    rfl
  · have htexts := parts_texts hparts hbuilt.parts
    rw [hon] at htexts
    refine List.Forall₂.flip (((List.forall₂_and_left _ _).mpr ⟨fun m hm => hm, htexts.flip⟩).imp ?_)
    rintro m decl ⟨hm, hperforms⟩
    have hproper := Compile.methodBodies_proper (fun _ => Code.common_true)
      (fun pair _ d _ => (d.names pair.1.scope).accesses_true) (F := False) False.elim (.refl _) t.bodies_eq m hm
    have hmarks := (Command.marks_perm (Command.pairedAll_of hproper)).nodup_iff.mpr List.nodup_range
    refine forall₂_filterMap hperforms fun x c hx => ?_
    obtain ⟨_, _, _, rfl, rfl, -⟩ | ⟨arguments, ts, record, base, rfl, rfl, hmeans, hrecord, hin⟩ :=
      hx.inline_or_debug
    · exact .inl ⟨rfl, rfl⟩
    · have hshown := shown_of_infix hmeans hrecord hin hmarks (Compile.parts_emit hparts hm)
      refine .inr ⟨arguments, (min ts.length 255, record), rfl, rfl, hstored ▸ hshown, fun htable => ?_⟩
      obtain ⟨_, _, _, offset, hcode, hat⟩ := hlaid.instruction_at htable
        (c := .debug (min ts.length 255) record) (hin.subset (by simp [Command.code]))
      cases hcode
      exact ⟨offset, hat⟩

/-- A number as it is written. -/
def debugValue (format : DebugFormat) (v : Int64) (name : String) : DebugArgument :=
  .value format (.literal {} (Literal.ofInt v)) name

/-- A text and two values are shown. -/
def showTwoValues : ObjectTree :=
  objectWithBody [.debug {} [.text "on", debugValue .uhex 7 "a", debugValue .udec 9 "b"]]

/-- Both values are pushed and counted, and there are three entries under the number 0. -/
theorem compile_debugStatements_showTwoValues :
    let data : Bytes := [1, 0, 4, 0, 0x01, 0x6F, 0x6E, 0, 0x48, 0x61, 0, 0x40, 0x62, 0, 0]
    (compile { debug := true } {} showTwoValues).image.map ObjectImage.bytes =
        some ([8, 0, 0, 0x80, 0, 0, 0, 0] ++ [0xA8, 0xAA] ++ [0x29, 2, 0] ++ [4]) ∧
      (compile { debug := true } {} showTwoValues).debug = some data ∧
      DebugTable.find data 0 = [[0x01, 0x6F, 0x6E], [0x48, 0x61], [0x40, 0x62]] ∧
      ShowsStatements { debug := true } {} showTwoValues :=
  ⟨by decide +kernel, by decide +kernel, by decide +kernel, compile_debugStatements rfl (by decide +kernel)⟩

/-- One value more is shown than can be counted in one byte. -/
def showManyValues : ObjectTree := objectWithBody [.debug {} (List.replicate 256 (debugValue .udec 1 ""))]

/-- **Values that are not counted.**  Too many values are not refused: all of them are pushed, and 255 are
counted. -/
theorem uncounted_showManyValues :
    (compile { debug := true } {} showManyValues).succeeded = true ∧
      (compile { debug := true } {} showManyValues).image.map ObjectImage.bytes =
        some ([8, 0, 0, 0x80, 0, 0, 0, 0] ++ List.replicate 256 0xA2 ++ [0x29, 255, 0] ++ [4]) := by
  decide +kernel

end Propeller
