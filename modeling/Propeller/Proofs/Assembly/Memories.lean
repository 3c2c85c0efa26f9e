import Propeller.Proofs.Assembly.Branches
import Propeller.Proofs.Expression.Derivation

/-!
# Assembly — the memory of a target

An operand that names a line, itself or through other names (`NamesLine`), is looked at twice: for its value,
which is one of the two numbers in the address of the line, and for the line, which is in one of the two memories.

* `NamesLine.value_and_line`: both are found at the end of the same names, but for exactly `maxDepth` of them.
* `relBranch_reaches`: a branch on a register is encoded whenever the number is near enough, whatever memory it is
  a number of.
-/

namespace Propeller

/-! ### Lines and their numbers -/

/-- An expression is the handle of a line, or comes to one through a number of names.  A handle stands for one of
the two numbers in the address of its line. -/
inductive NamesLine (env : Environment) : (names : Nat) → Expression → LabelId → (Address → Int) → Prop where
  | label (line : LabelId) : NamesLine env 0 (.label line) line Address.address
  | hubLabel (line : LabelId) : NamesLine env 0 (.hubLabel line) line Address.object
  | symbol {names : Nat} {scope : ScopeId} {x : Identifier} {e : Expression} {line : LabelId}
      {number : Address → Int} (h : env.scopes.symbol? scope x = some e)
      (rest : NamesLine env names e line number) : NamesLine env (names + 1) (.symbol scope x) line number

namespace Instruction

/-- The address of a jump to a number in one of the memories. -/
def addressField (origin : Origin) (absolute : Bool) (target : Int) (hub : Bool) : Except EncodeError Nat :=
  if !absolute && hub == origin.hub then
    let offset := target - (origin.address + origin.step)
    if -2 ^ 19 ≤ offset ∧ offset < 2 ^ 19 then .ok (2 ^ 20 + (offset % 2 ^ 20).toNat)
    else .error (.addressOutOfRange offset)
  else if 0 ≤ target ∧ target < 2 ^ 20 then .ok target.toNat
  else .error (.addressOutOfRange target)

theorem jumpField_eq {env : Environment} {o : Operand} {v : Int64} (origin : Origin)
    (h : o.value.evalInt env = .ok v) :
    jumpField env origin o = addressField origin o.absolute v.toInt (inHub env o.value v.toInt) := by
  rw [jumpField, h]
  rfl

end Instruction

namespace NamesLine

variable {env : Environment} {names : Nat} {e : Expression} {line : LabelId} {number : Address → Int}
  {a : Address} {depth : Nat}

theorem leadsTo (h : NamesLine env names e line number) (ha : env.addresses.get? line = some a) :
    LeadsTo env names e a := by
  induction h with
  | label => exact .label ha
  | hubLabel => exact .hubLabel ha
  | symbol h _ ih => exact .symbol h (ih ha)

/-- There is one way to a line. -/
theorem of_leadsTo (h : NamesLine env names e line number) {n : Nat} (hl : LeadsTo env n e a) :
    n = names ∧ env.addresses.get? line = some a := by
  induction h generalizing n with
  | label | hubLabel =>
    cases hl
    exact ⟨rfl, ‹_›⟩
  | symbol h _ ih =>
    cases hl with
    | symbol h' rest =>
      cases h.symm.trans h'
      obtain ⟨rfl, ha⟩ := ih rest
      exact ⟨rfl, ha⟩

/-- Within the limit the value is that of the handle. -/
theorem evalAt_eq (h : NamesLine env names e line number) (hle : names ≤ depth) :
    e.evalAt env depth = (env.addresses.get? line).elim (.error .unresolved) fun a =>
      .ok (.int (Int64.ofInt (number a))) := by
  induction h generalizing depth with
  | label line | hubLabel line =>
    cases depth <;> simp only [Expression.evalAt, Expression.evalWith] <;>
      cases env.addresses.get? line <;> rfl
  | symbol h _ ih =>
    obtain ⟨k, rfl⟩ := Nat.exists_eq_succ_of_ne_zero (Nat.ne_zero_of_lt hle)
    rw [Expression.evalAt_symbol_succ, h, Option.elim_some, ih (Nat.le_of_succ_le_succ hle)]

/-- Beyond it there is none. -/
theorem evalAt_recursive (h : NamesLine env names e line number) (hlt : depth < names) :
    ∃ name, e.evalAt env depth = .error (.recursive name) := by
  induction h generalizing depth with
  | label | hubLabel => cases hlt
  | @symbol _ scope x _ _ _ h _ ih =>
    cases depth with
    | zero => exact ⟨x, Expression.evalAt_symbol_zero ..⟩
    | succ depth =>
      rw [Expression.evalAt_symbol_succ, h, Option.elim_some]
      exact ih (Nat.lt_of_succ_lt_succ hlt)

theorem eval_eq_ok_iff (h : NamesLine env names e line number) {v : Number} :
    e.eval env = .ok v ↔ names ≤ maxDepth ∧ ∃ a, env.addresses.get? line = some a ∧
      v = .int (Int64.ofInt (number a)) := by
  constructor
  · intro hv
    have hle : names ≤ maxDepth := by
      by_contra hlt
      obtain ⟨name, hname⟩ := h.evalAt_recursive (Nat.lt_of_not_le hlt)
      cases hv.symm.trans hname
    refine ⟨hle, ?_⟩
    rw [Expression.eval, h.evalAt_eq hle] at hv
    cases ha : env.addresses.get? line with
    | none =>
      rw [ha] at hv
      cases hv
    | some a =>
      rw [ha] at hv
      exact ⟨a, rfl, (Except.ok.inj hv).symm⟩
  · rintro ⟨hle, a, ha, rfl⟩
    rw [Expression.eval, h.evalAt_eq hle, ha, Option.elim_some]

theorem target?_eq_some_iff (h : NamesLine env names e line number) :
    e.target? env = some a ↔ names < maxDepth ∧ env.addresses.get? line = some a := by
  constructor
  · intro ht
    obtain ⟨n, hn, hl⟩ := LeadsTo.of_targetWithin ht
    obtain ⟨rfl, ha⟩ := h.of_leadsTo hl
    exact ⟨hn, ha⟩
  · rintro ⟨hlt, ha⟩
    rw [Expression.target?, (h.leadsTo ha).targetWithin, if_pos hlt]

theorem evalInt_eq (h : NamesLine env names e line number) (hle : names ≤ maxDepth)
    (ha : env.addresses.get? line = some a) : e.evalInt env = .ok (Int64.ofInt (number a)) := by
  rw [Expression.evalInt, h.eval_eq_ok_iff.mpr ⟨hle, a, ha, rfl⟩]
  rfl

/-- **The value and the line of an operand.**  Let an expression come to a line through a number of names.

* It has a value if there are at most `maxDepth` names and the line has an address, and the value is the number
  that the handle at the end stands for.  The line is found if there are fewer names than that.
* So the two agree on whether there is a line, except at the end of exactly `maxDepth` names.
* A jump takes the memory of the line for that of its target, and only there the threshold `$400`. -/
theorem value_and_line (h : NamesLine env names e line number) :
    (∀ v, e.eval env = .ok v ↔ names ≤ maxDepth ∧ ∃ a, env.addresses.get? line = some a ∧
      v = .int (Int64.ofInt (number a))) ∧
    (∀ a, e.target? env = some a ↔ names < maxDepth ∧ env.addresses.get? line = some a) ∧
    (((∃ v, e.eval env = .ok v) ↔ ∃ a, e.target? env = some a) ↔
      ¬ (names = maxDepth ∧ ∃ a, env.addresses.get? line = some a)) ∧
    ∀ (origin : Origin) (o : Operand) (v : Int64), o.value = e → e.eval env = .ok (.int v) →
      ∃ a, env.addresses.get? line = some a ∧
        Instruction.jumpField env origin o = Instruction.addressField origin o.absolute v.toInt
          (if names = maxDepth then decide (0x400 ≤ v.toInt) else a.hub) := by
  refine ⟨fun v => h.eval_eq_ok_iff, fun a => h.target?_eq_some_iff, ?_, ?_⟩
  · simp only [h.eval_eq_ok_iff, h.target?_eq_some_iff]
    constructor
    · rintro hagree ⟨rfl, a, ha⟩
      obtain ⟨b, hlt, -⟩ := hagree.mp ⟨_, Nat.le_refl _, a, ha, rfl⟩
      exact Nat.lt_irrefl _ hlt
    · intro hnot
      constructor
      · rintro ⟨v, hle, a, ha, -⟩
        exact ⟨a, Nat.lt_of_le_of_ne hle fun he => hnot ⟨he, a, ha⟩, ha⟩
      · rintro ⟨a, hlt, ha⟩
        exact ⟨_, Nat.le_of_lt hlt, a, ha, rfl⟩
  · rintro origin o v rfl hv
    obtain ⟨hle, a, ha, hnumber⟩ := h.eval_eq_ok_iff.mp hv
    cases hnumber
    refine ⟨a, ha, ?_⟩
    rw [Instruction.jumpField_eq origin (h.evalInt_eq hle ha)]
    congr 1
    split
    · next hlast => exact Instruction.inHub_of_le (h.leadsTo ha) (Nat.le_of_eq hlast.symm) _
    · next hlast => exact Instruction.inHub_of_leadsTo (h.leadsTo ha) (Nat.lt_of_le_of_ne hle hlast) _

end NamesLine

/-- A value at the end of sixty-four names, whose line is not found: the jump to it, from the hub to the hub, is
absolute, and through one name less it is relative. -/
theorem NamesLine.value_and_line_nested :
    NamesLine nestedNames maxDepth (.symbol 63 ⟨"far"⟩) 0 Address.address ∧
      (Expression.symbol 63 ⟨"far"⟩).eval nestedNames = .ok (.int 0x100) ∧
      (Expression.symbol 63 ⟨"far"⟩).target? nestedNames = none ∧
      Instruction.jumpField nestedNames ⟨0x200, true⟩ ⟨.immediate, false, .symbol 63 ⟨"far"⟩⟩ = .ok 0x100 ∧
      Instruction.jumpField nestedNames ⟨0x200, true⟩ ⟨.immediate, false, .symbol 62 ⟨"far"⟩⟩ = .ok 0x1FFEFC := by
  have hnames : NamesLine nestedNames maxDepth (.symbol 63 ⟨"far"⟩) 0 Address.address := by
    iterate 64 refine .symbol rfl ?_
    exact .label 0
  obtain ⟨hvalue, htarget, -, hjump⟩ := hnames.value_and_line
  have heval := (hvalue (.int 0x100)).mpr ⟨Nat.le_refl _, _, rfl, rfl⟩
  refine ⟨hnames, heval, Option.eq_none_iff_forall_ne_some.mpr fun a ha => ?_, ?_, rfl⟩
  · exact Nat.lt_irrefl _ ((htarget a).mp ha).1
  · obtain ⟨a, -, hfield⟩ := hjump ⟨0x200, true⟩ ⟨.immediate, false, _⟩ 0x100 rfl heval
    exact hfield.trans rfl

/-! ### Branches on a register -/

namespace Expression

/-- The memory of a line is not looked at for a value. -/
theorem evalWith_eq_of_numbers {symbol symbol' : ScopeId → Identifier → Except EvalError Number}
    {address address' : LabelId → Option Address} (hs : ∀ scope x, symbol' scope x = symbol scope x)
    (ha : ∀ line, (address' line).map (fun a => (a.address, a.object)) =
      (address line).map fun a => (a.address, a.object)) (e : Expression) :
    e.evalWith symbol' address' = e.evalWith symbol address := by
  induction e with
  | symbol scope x => exact hs scope x
  | unary op operand ih => simp only [evalWith, ih]
  | binary op left right ihl ihr => simp only [evalWith, ihl, ihr]
  | ternary c yes no ihc ihy ihn => simp only [evalWith, ihc, ihy, ihn]
  | label line | hubLabel line =>
    have hline := ha line
    simp only [evalWith]
    cases h : address line <;> cases h' : address' line <;> simp_all
  | _ => rfl

theorem evalInt_eq_of_numbers {s : Scopes} {t t' : Addresses}
    (ha : ∀ line, (t'.get? line).map (fun a => (a.address, a.object)) =
      (t.get? line).map fun a => (a.address, a.object)) (e : Expression) :
    e.evalInt ⟨s, t'⟩ = e.evalInt ⟨s, t⟩ := by
  have heval (depth : Nat) : ∀ e : Expression, e.evalAt ⟨s, t'⟩ depth = e.evalAt ⟨s, t⟩ depth := by
    induction depth with
    | zero => exact evalWith_eq_of_numbers (fun _ _ => rfl) ha
    | succ depth ih =>
      refine evalWith_eq_of_numbers (fun scope x => ?_) ha
      cases s.symbol? scope x with
      | none => rfl
      | some e => exact ih e
  rw [evalInt, evalInt, eval, eval, heval]

end Expression

namespace Instruction

variable {i : Instruction} {env : Environment} {origin : Origin} {d e : Expression} {o : Operand}

/-- Nine bits hold the distances from -256 to 255 instructions. -/
theorem exists_distanceField_iff {v : Int64} (h : e.evalInt env = .ok v) :
    (∃ n, distanceField env origin e = .ok n) ↔
      ∃ k : Int, -256 ≤ k ∧ k ≤ 255 ∧ v.toInt = origin.address + origin.step + origin.step * k := by
  constructor
  · rintro ⟨n, hn⟩
    obtain ⟨hlt, w, hw, hlands⟩ := distanceField_lands hn
    cases h.symm.trans hw
    refine ⟨Int.bmod n (2 ^ 9), ?_, ?_, hlands.symm⟩
    · exact Int.le_bmod (by decide)
    · exact Int.lt_add_one_iff.mp (Int.bmod_lt (by decide))
  · rintro ⟨k, hlow, hhigh, hv⟩
    have hoffset : v.toInt - (origin.address + origin.step) = origin.step * k := by omega
    have hsteps : origin.step * k / origin.step = k :=
      Int.mul_ediv_cancel_left k (by unfold Origin.step; split <;> decide)
    have haligned : ¬ (origin.hub ∧ origin.step * k % 4 ≠ 0) := by
      rintro ⟨hhub, hne⟩
      rw [Origin.step, if_pos hhub] at hne
      omega
    refine ⟨(k % 2 ^ 9).toNat, ?_⟩
    rw [distanceField, h, mapError_ok, ok_bind]
    simp only [hoffset, if_neg haligned, hsteps, if_pos (And.intro hlow hhigh)]

/-- A branch on a register has one word, made of the register and the distance. -/
theorem words_relBranch (ha : i.arguments = .relBranch d o) (ho : o.isRegister = false) :
    i.words env origin = register env d >>= fun r => distanceField env origin o.value >>= fun n =>
      .ok [i.head + 2 ^ 18 + r * 2 ^ 9 + n] := by
  simp only [words, ha, ho, Bool.false_eq_true, if_false]
  rfl

end Instruction

/-- A line that is taken to another memory keeps its numbers, and other lines stay where they are. -/
theorem Addresses.numbers_set {t : Addresses} {line : LabelId} {a : Address} (h : t.get? line = some a) (hub : Bool)
    (l : LabelId) : ((t.set line { a with hub }).get? l).map (fun a => (a.address, a.object)) =
      (t.get? l).map fun a => (a.address, a.object) := by
  by_cases hl : l = line
  · subst hl
    have hlt : l < t.table.size := by
      by_contra hge
      rw [get?, Array.getElem?_eq_none (Nat.le_of_not_lt hge)] at h
      cases h
    rw [h, get?, set, Array.getElem?_setIfInBounds_self_of_lt hlt]
    rfl
  · rw [get?, set, Array.getElem?_setIfInBounds_ne (Ne.symm hl)]
    rfl

/-- **Branches on a register.**  Let an instruction that was accepted branch on a register to a line, itself or
through names, that has an address.

* It is encoded exactly if there is a register to test, and the number of the line is from -256 to 255
  instructions away from the next one.
* Read at the place of the instruction, the nine bits give that number back.
* The memory of the line has no part in this: in the other one it would be encoded just so, as the difference of
  a number of longs and a number of bytes. -/
theorem relBranch_reaches {i : Instruction} (hi : i.Accepted) {d : Expression} {o : Operand}
    (ha : i.arguments = .relBranch d o) (ho : o.isRegister = false) {env : Environment} {names : Nat}
    {line : LabelId} {number : Address → Int} (hn : NamesLine env names o.value line number)
    (hle : names ≤ maxDepth) {a : Address} (hline : env.addresses.get? line = some a) (origin : Origin) :
    let target := (Int64.ofInt (number a)).toInt
    ((∃ bytes, i.encode env origin = .ok bytes) ↔ (∃ r, Instruction.register env d = .ok r) ∧
      ∃ k : Int, -256 ≤ k ∧ k ≤ 255 ∧ target = origin.address + origin.step + origin.step * k) ∧
    (∀ bytes, i.encode env origin = .ok bytes →
      let w := InstructionWord.ofNat (ofLittleEndian bytes)
      w.immediate = 1 ∧ origin.address + origin.step + origin.step * Int.bmod w.source (2 ^ 9) = target) ∧
    ∀ hub, i.encode { env with addresses := env.addresses.set line { a with hub } } origin =
      i.encode env origin := by
  have hvalue := hn.evalInt_eq hle hline
  refine ⟨?_, fun bytes h => ?_, fun hub => ?_⟩
  · rw [← Instruction.exists_distanceField_iff hvalue, Instruction.encode, Instruction.words_relBranch ha ho]
    constructor
    · rintro ⟨bytes, h⟩
      obtain ⟨ws, hws, -⟩ := bind_eq_ok h
      obtain ⟨r, hr, hws⟩ := bind_eq_ok hws
      obtain ⟨n, hdistance, -⟩ := bind_eq_ok hws
      exact ⟨⟨r, hr⟩, n, hdistance⟩
    · rintro ⟨⟨r, hr⟩, n, hdistance⟩
      rw [hr, hdistance]
      exact ⟨_, rfl⟩
  · obtain ⟨ws, hws, h⟩ := bind_eq_ok h
    obtain ⟨k, r, n, hr, hfield, rfl⟩ := hi.checked.words_of_relBranch ha ho hws
    obtain ⟨hlt, target, htarget, hlands⟩ := Instruction.distanceField_lands hfield
    cases hvalue.symm.trans htarget
    obtain ⟨himmediate, hsource⟩ := InstructionWord.ofNat_fields k hr hlt
    rw [← Except.ok.inj h, List.flatMap_singleton, ofLittleEndian_littleEndian]
    refine ⟨himmediate, ?_⟩
    rw [hsource]
    exact hlands
  · have hsame (e : Expression) :
        e.evalInt { env with addresses := env.addresses.set line { a with hub } } = e.evalInt env :=
      e.evalInt_eq_of_numbers (Addresses.numbers_set hline hub)
    simp only [Instruction.encode, Instruction.words_relBranch ha ho, Instruction.register,
      Instruction.distanceField, hsame]

/-- A branch on register 0 to the line 0. -/
def branchToLine : Instruction :=
  let operands : List Operand := [{ value := .int 0 }, { kind := .immediate, value := .label 0 }]
  { condition := .always, mnemonic := .row "DJNZ" (Mnemonic.opcode9 0b101101101) .relBranch .none, operands,
    arguments := .relBranch (.int 0) { kind := .immediate, value := .label 0 }, effects := .none }

/-- The line is at byte 16 of the hub. -/
def lineInHub : Environment := ⟨.initial, ⟨#[some ⟨16, 16, true⟩]⟩⟩

/-- At long 0 of a cog the branch to it is encoded, as it is to long 16 of the cog. -/
theorem relBranch_reaches_hub :
    branchToLine.Accepted ∧ (∃ bytes, branchToLine.encode lineInHub ⟨0, false⟩ = .ok bytes) ∧
      branchToLine.encode { lineInHub with addresses := lineInHub.addresses.set 0 ⟨16, 16, false⟩ } ⟨0, false⟩ =
        branchToLine.encode lineInHub ⟨0, false⟩ := by
  have haccepted : branchToLine.Accepted :=
    ⟨none, branchToLine.operands, .none, branchToLine.mnemonic, by decide +kernel, by simp, rfl⟩
  have hline : lineInHub.addresses.get? 0 = some ⟨16, 16, true⟩ := rfl
  obtain ⟨hiff, -, hmemory⟩ := relBranch_reaches haccepted rfl rfl (.label 0) (Nat.zero_le _) hline ⟨0, false⟩
  exact ⟨haccepted, hiff.mpr ⟨⟨0, rfl⟩, 15, by decide, by decide, rfl⟩, hmemory false⟩

/-- The lines of a block with the branch in a cog and its target in the hub assemble without a problem. -/
theorem relBranch_leaves_memory :
    assemble .initial (.hub 16) [{ label := some 0, content := .empty }, { content := .org none },
        { content := .instruction branchToLine }] 16 ⟨#[none]⟩ =
      ⟨lineInHub.addresses, [0x0F, 0x00, 0x6C, 0xFB], []⟩ := by
  rfl

end Propeller
