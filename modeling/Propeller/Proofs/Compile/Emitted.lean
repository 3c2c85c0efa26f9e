import Propeller.Proofs.Compile.Instructions

/-!
# Compile — compiled methods can be decoded

The compiler only emits instructions that can be read back (`Compile.parts_emit`): opcodes that nothing
follows stand alone, a register is a long and has no elements, and a debug statement shows at most 255
values and has the number of one of 256 records.

Together with the reader of instructions this says that compiled code can be decoded
(`decode_encode`).
-/

namespace Propeller

theorem Code.common_emittable : Code.Common Code.Emittable where
  op _ h := h
  constant _ := trivial
  branch _ _ := trivial
  pop _ := trivial
  call _ _ := trivial
  inline _ _ := trivial
  debug hvalues hrecord := ⟨hvalues, hrecord⟩

/-- Only variables that are not registers have elements. -/
theorem Names.accesses_emittable (n : Names) : n.Accesses fun _ => Code.Emittable :=
  fun x indexed l => (n.notes_variableOf x indexed l).weaken fun _ _ _ hv => ⟨hv.1, fun _ => hv.2.1⟩

/-- **The code of every method** of an object is emittable. -/
theorem Compile.parts_emit {config : Config} {library : Library} {nodes : List Node}
    {unitName : String} {p : Parts} {d : Draft}
    (h : parts config library nodes (Draft.initial unitName) = .ok p d) {m : MethodDraft}
    (hm : m ∈ p.methods) : (Command.body m.body).listing.Every Code.Emittable := by
  obtain ⟨t⟩ := parts_stages h
  exact methodBodies_every (fun _ => Code.common_emittable)
    (fun pair _ d _ => (d.names pair.1.scope).accesses_emittable) (.refl t.data) t.bodies_eq m hm

/-- **Code of the interpreter can be decoded.**  The compiler emits nothing but emittable instructions.
The bytes of an emittable instruction whose operands can be stored, followed by any others, are read as
its meaning, and the others are left. -/
theorem decode_encode :
    (∀ (config : Config) (library : Library) (nodes : List Node) (unitName : String) (p : Parts)
        (d : Draft), Compile.parts config library nodes (Draft.initial unitName) = .ok p d →
      ∀ m ∈ p.methods, ∀ c, Entry.code c ∈ (Command.body m.body).listing → c.Emittable) ∧
    ∀ (c : Code) (r : Resolution) (here : Int) (lines : Array Int) (bytes : Bytes),
      c.Emittable → c.encode r here lines = .ok bytes →
      ∃ meaning, c.meaning r here lines = .ok meaning ∧
        (meaning.Fits → ∀ rest, decode (bytes ++ rest) = some (meaning, rest)) := by
  constructor
  · intro config library nodes unitName p d hp m hm c hc
    exact Compile.parts_emit hp hm c hc
  · intro c r here lines bytes hc he
    exact Code.reads_encode hc he

/-- A method that reads a register and drops its value. -/
def readsRegister : List Node :=
  [.method { isPublic := true, name := ⟨⟨"main"⟩, {}⟩, body := [.expression {} (.name {} ⟨"outa"⟩)] }]

/-- The method is compiled to four instructions that can be decoded, and the last long of a frame
that has a form of one byte is told from the byte at the same place. -/
theorem decode_encode_registerAndLocals :
    (∃ (p : Parts) (d : Draft) (m : MethodDraft),
      Compile.parts {} {} readsRegister (Draft.initial "t") = .ok p d ∧ m ∈ p.methods ∧
      (emitListing { environment := ⟨.initial, {}⟩ } #[0, 6] (Command.body m.body).listing 0).1 =
        [0x49, 0xFC, 0x03, 0x80, 0x17, 0x04, 0x04] ∧
      ∀ c, Entry.code c ∈ (Command.body m.body).listing → c.Emittable) ∧
    (∀ rest, decode ([0xDF] ++ rest) =
      some (.access (.memory .frame 60) .long false .read, rest)) ∧
    ∀ rest, decode ([0x50, 0x3C, 0x80] ++ rest) =
      some (.access (.memory .frame 60) .byte false .read, rest) := by
  let slot : Slot := .localVar { id := 0, name := ⟨"x"⟩, kind := .long, offset := 60 }
  have decoded : ∀ (kind : DataType) (bytes : Bytes),
      Setup.bytes kind false (.memory .frame 60) .read = bytes → ∀ rest, decode (bytes ++ rest) =
        some (.access (.memory .frame 60) kind false .read, rest) := by
    rintro kind _ rfl
    obtain ⟨meaning, hmeaning, hread⟩ := decode_encode.2 (.access { slot, kind } .read)
      { environment := ⟨.initial, {}⟩ } 0 #[] _ (by rintro _ ⟨⟩) rfl
    cases hmeaning
    exact hread (show 60 < 2 ^ 29 by decide)
  refine ⟨?_, decoded .long _ (by decide), decoded .byte _ (by decide)⟩
  obtain ⟨p, d, hparts, hcompiled⟩ := exists_of_ok
    (r := Compile.parts {} {} readsRegister (Draft.initial "t"))
    (g := fun p _ => p.methods.map (fun m =>
        (emitListing { environment := ⟨.initial, {}⟩ } #[0, 6] (Command.body m.body).listing 0).1) ==
      [[0x49, 0xFC, 0x03, 0x80, 0x17, 0x04, 0x04]]) (by decide +kernel)
  obtain ⟨m, hm, hbytes⟩ := List.mem_map.mp (beq_iff_eq.mp hcompiled ▸ List.mem_singleton_self _)
  exact ⟨p, d, m, hparts, hm, hbytes, decode_encode.1 _ _ _ _ _ _ hparts m hm⟩

end Propeller
