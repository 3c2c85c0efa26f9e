import Propeller.Assembly.Error

/-!
# Assembly — the instruction table

An instruction is one long,

    EEEE OOOOOOO CZI DDDDDDDDD SSSSSSSSS

with the condition `E`, the opcode `O`, the flag effects `C` and `Z`, the mark `I` of an immediate
source, and the fields `D` and `S`.  `Mnemonic.table` gives for every name its fixed bits, the shape
of its operands, and the effects it may have; names are looked up without regard to case.
-/

namespace Propeller

/-! ### Flag effects -/

/-- The flags that an instruction writes. -/
structure Effects where
  carry : Bool
  zero : Bool
deriving DecidableEq, Inhabited

namespace Effects

def none : Effects := ⟨false, false⟩
def wc : Effects := ⟨true, false⟩
def wz : Effects := ⟨false, true⟩
def wcz : Effects := ⟨true, true⟩

/-- The effects as the bits of an instruction. -/
def bits (e : Effects) : Nat := (if e.carry then 2 ^ 20 else 0) + (if e.zero then 2 ^ 19 else 0)

/-- Every flag of `b` is one of `a`. -/
def contains (a b : Effects) : Bool := (!b.carry || a.carry) && (!b.zero || a.zero)

/-- How the effects are written; writing none has no name of its own. -/
def text (e : Effects) : String := if e = wcz then "WCZ" else if e = wc then "WC" else "WZ"

/-- Look an effect up by name. -/
def ofName (name : String) : Except EncodeError Effects :=
  if sameName name "WC" then .ok wc
  else if sameName name "WZ" then .ok wz
  else if sameName name "WCZ" then .ok wcz
  else .error (.unknownEffect name)

end Effects

/-! ### Conditions -/

/-- When an instruction is executed: the four highest bits. -/
structure Condition where
  bits : Nat
deriving DecidableEq, Inhabited

namespace Condition

/-- The condition of an instruction that has none. -/
def always : Condition := ⟨0b1111⟩

/-- The names of the conditions. -/
def names : List (String × Nat) :=
  [ ("_RET_", 0b0000),
    ("IF_NC_AND_NZ", 0b0001),
    ("IF_NZ_AND_NC", 0b0001),
    ("IF_GT", 0b0001),
    ("IF_A", 0b0001),
    ("IF_00", 0b0001),
    ("IF_NC_AND_Z", 0b0010),
    ("IF_Z_AND_NC", 0b0010),
    ("IF_01", 0b0010),
    ("IF_NC", 0b0011),
    ("IF_GE", 0b0011),
    ("IF_AE", 0b0011),
    ("IF_0X", 0b0011),
    ("IF_C_AND_NZ", 0b0100),
    ("IF_NZ_AND_C", 0b0100),
    ("IF_10", 0b0100),
    ("IF_NZ", 0b0101),
    ("IF_NE", 0b0101),
    ("IF_X0", 0b0101),
    ("IF_C_NE_Z", 0b0110),
    ("IF_Z_NE_C", 0b0110),
    ("IF_DIFF", 0b0110),
    ("IF_NC_OR_NZ", 0b0111),
    ("IF_NZ_OR_NC", 0b0111),
    ("IF_NOT_11", 0b0111),
    ("IF_C_AND_Z", 0b1000),
    ("IF_Z_AND_C", 0b1000),
    ("IF_11", 0b1000),
    ("IF_C_EQ_Z", 0b1001),
    ("IF_Z_EQ_C", 0b1001),
    ("IF_SAME", 0b1001),
    ("IF_Z", 0b1010),
    ("IF_E", 0b1010),
    ("IF_X1", 0b1010),
    ("IF_NC_OR_Z", 0b1011),
    ("IF_Z_OR_NC", 0b1011),
    ("IF_NOT_10", 0b1011),
    ("IF_C", 0b1100),
    ("IF_LT", 0b1100),
    ("IF_B", 0b1100),
    ("IF_1X", 0b1100),
    ("IF_C_OR_NZ", 0b1101),
    ("IF_NZ_OR_C", 0b1101),
    ("IF_NOT_01", 0b1101),
    ("IF_C_OR_Z", 0b1110),
    ("IF_Z_OR_C", 0b1110),
    ("IF_LE", 0b1110),
    ("IF_BE", 0b1110),
    ("IF_NOT_00", 0b1110),
    ("IF_ALWAYS", 0b1111) ]

/-- Look a condition up by name. -/
def ofName (name : String) : Except EncodeError Condition :=
  match names.find? fun row => sameName row.1 name with
  | some row => .ok ⟨row.2⟩
  | none     => .error (.unknownCondition name)

end Condition

/-! ### Operand shapes -/

/-- The shape of an instruction's operands. -/
inductive Schema
  /-- A register, and a register or an immediate. -/
  | regSource
  /-- The same, the source being the destination when it is left out. -/
  | regOptSource
  /-- Two registers or immediates; bit 19 marks an immediate destination. -/
  | pair
  /-- One register or immediate; bit 18 marks an immediate. -/
  | dest
  /-- One register. -/
  | reg
  /-- A register, a register or an immediate, and a number of two bits. -/
  | field2
  /-- A register, a register or an immediate, and a number of one bit. -/
  | field1
  /-- A register, and a register or a distance of nine bits. -/
  | relBranch
  /-- An address of twenty bits, or a register where the instruction has a form for one. -/
  | jump
  /-- One of the four pointer registers, and an address of twenty bits. -/
  | pointerJump
  /-- A number whose high bits go to the next immediate. -/
  | augment
  /-- No operands. -/
  | bare
deriving DecidableEq, Inhabited

/-- The shape, as messages show it. -/
def Schema.text : Schema → String
  | .regSource    => "D, \x7b#\x7dS"
  | .regOptSource => "D \x7b, \x7b#\x7dS\x7d"
  | .pair         => "\x7b#\x7dD, \x7b#\x7dS"
  | .dest         => "\x7b#\x7dD"
  | .reg          => "D"
  | .field2       => "D, \x7b#\x7dS, #N"
  | .field1       => "D, \x7b#\x7dS, #N"
  | .relBranch    => "D, \x7b#\x7dS"
  | .jump         => "#\x7b\\\x7dA or D"
  | .pointerJump  => "PA/PB/PTRA/PTRB, #\x7b\\\x7dA"
  | .augment      => "#N"
  | .bare         => "no operands"

/-! ### Mnemonics -/

/-- The name of an instruction with what is fixed about it. -/
structure Mnemonic where
  name : String
  /-- The fixed bits, without the condition. -/
  base : Nat
  schema : Schema
  /-- The effects it may have. -/
  effects : Effects
  /-- The fixed bits of a jump through a register. -/
  registerForm : Option Nat := none
  /-- It reads or writes hub memory, and its immediate source has eight bits only. -/
  hubTransfer : Bool := false
deriving DecidableEq, Inhabited

namespace Mnemonic

/-- The fixed bits of an instruction with an opcode of five bits. -/
def opcode5 (bits : Nat) : Nat := bits * 2 ^ 23

/-- The fixed bits of an instruction with an opcode of seven bits. -/
def opcode7 (bits : Nat) : Nat := bits * 2 ^ 21

/-- The fixed bits of an instruction whose opcode includes the place of the carry effect. -/
def opcode8 (bits : Nat) : Nat := bits * 2 ^ 20

/-- The fixed bits of an instruction whose opcode includes the places of both effects. -/
def opcode9 (bits : Nat) : Nat := bits * 2 ^ 19

/-- The fixed bits of an instruction on `D` alone, whose number stands in the source field. -/
def single (number : Nat) : Nat := opcode7 0b1101011 + number

/-- The fixed bits of a return, which is marked as immediate. -/
def returning (number : Nat) : Nat := single number + 2 ^ 18

/-- A row of the table. -/
def row (name : String) (base : Nat) (schema : Schema) (effects : Effects) : Mnemonic :=
  { name, base, schema, effects }

/-- A row for a hub transfer. -/
def hubRow (name : String) (base : Nat) (schema : Schema) (effects : Effects) : Mnemonic :=
  { row name base schema effects with hubTransfer := true }

/-- A row for a jump that has a form with a register. -/
def jumpRow (name : String) (base registerForm : Nat) : Mnemonic :=
  { row name base .jump .wcz with registerForm := some registerForm }

/-- Shifts, sums, comparisons and conditional sums. -/
def shiftsAndArithmetic : List Mnemonic :=
  [ row "ROR" (opcode7 0b0000000) .regSource .wcz,
    row "ROL" (opcode7 0b0000001) .regSource .wcz,
    row "SHR" (opcode7 0b0000010) .regSource .wcz,
    row "SHL" (opcode7 0b0000011) .regSource .wcz,
    row "RCR" (opcode7 0b0000100) .regSource .wcz,
    row "RCL" (opcode7 0b0000101) .regSource .wcz,
    row "SAR" (opcode7 0b0000110) .regSource .wcz,
    row "SAL" (opcode7 0b0000111) .regSource .wcz,
    row "ADD" (opcode7 0b0001000) .regSource .wcz,
    row "ADDX" (opcode7 0b0001001) .regSource .wcz,
    row "ADDS" (opcode7 0b0001010) .regSource .wcz,
    row "ADDSX" (opcode7 0b0001011) .regSource .wcz,
    row "SUB" (opcode7 0b0001100) .regSource .wcz,
    row "SUBX" (opcode7 0b0001101) .regSource .wcz,
    row "SUBS" (opcode7 0b0001110) .regSource .wcz,
    row "SUBSX" (opcode7 0b0001111) .regSource .wcz,
    row "CMP" (opcode7 0b0010000) .regSource .wcz,
    row "CMPX" (opcode7 0b0010001) .regSource .wcz,
    row "CMPS" (opcode7 0b0010010) .regSource .wcz,
    row "CMPSX" (opcode7 0b0010011) .regSource .wcz,
    row "CMPR" (opcode7 0b0010100) .regSource .wcz,
    row "CMPM" (opcode7 0b0010101) .regSource .wcz,
    row "SUBR" (opcode7 0b0010110) .regSource .wcz,
    row "CMPSUB" (opcode7 0b0010111) .regSource .wcz,
    row "FGE" (opcode7 0b0011000) .regSource .wcz,
    row "FLE" (opcode7 0b0011001) .regSource .wcz,
    row "FGES" (opcode7 0b0011010) .regSource .wcz,
    row "FLES" (opcode7 0b0011011) .regSource .wcz,
    row "SUMC" (opcode7 0b0011100) .regSource .wcz,
    row "SUMNC" (opcode7 0b0011101) .regSource .wcz,
    row "SUMZ" (opcode7 0b0011110) .regSource .wcz,
    row "SUMNZ" (opcode7 0b0011111) .regSource .wcz ]

/-- Bit operations, moves and negations. -/
def bitsAndMoves : List Mnemonic :=
  [ row "BITL" (opcode7 0b0100000) .regSource .wcz,
    row "BITH" (opcode7 0b0100001) .regSource .wcz,
    row "BITC" (opcode7 0b0100010) .regSource .wcz,
    row "BITNC" (opcode7 0b0100011) .regSource .wcz,
    row "BITZ" (opcode7 0b0100100) .regSource .wcz,
    row "BITNZ" (opcode7 0b0100101) .regSource .wcz,
    row "BITRND" (opcode7 0b0100110) .regSource .wcz,
    row "BITNOT" (opcode7 0b0100111) .regSource .wcz,
    row "AND" (opcode7 0b0101000) .regSource .wcz,
    row "ANDN" (opcode7 0b0101001) .regSource .wcz,
    row "OR" (opcode7 0b0101010) .regSource .wcz,
    row "XOR" (opcode7 0b0101011) .regSource .wcz,
    row "MUXC" (opcode7 0b0101100) .regSource .wcz,
    row "MUXNC" (opcode7 0b0101101) .regSource .wcz,
    row "MUXZ" (opcode7 0b0101110) .regSource .wcz,
    row "MUXNZ" (opcode7 0b0101111) .regSource .wcz,
    row "MOV" (opcode7 0b0110000) .regSource .wcz,
    row "NOT" (opcode7 0b0110001) .regOptSource .wcz,
    row "ABS" (opcode7 0b0110010) .regOptSource .wcz,
    row "NEG" (opcode7 0b0110011) .regOptSource .wcz,
    row "NEGC" (opcode7 0b0110100) .regOptSource .wcz,
    row "NEGNC" (opcode7 0b0110101) .regOptSource .wcz,
    row "NEGZ" (opcode7 0b0110110) .regOptSource .wcz,
    row "NEGNZ" (opcode7 0b0110111) .regOptSource .wcz,
    row "INCMOD" (opcode7 0b0111000) .regSource .wcz,
    row "DECMOD" (opcode7 0b0111001) .regSource .wcz,
    row "ZEROX" (opcode7 0b0111010) .regSource .wcz,
    row "SIGNX" (opcode7 0b0111011) .regSource .wcz,
    row "ENCOD" (opcode7 0b0111100) .regOptSource .wcz,
    row "ONES" (opcode7 0b0111101) .regOptSource .wcz,
    row "TEST" (opcode7 0b0111110) .regOptSource .wcz,
    row "TESTN" (opcode7 0b0111111) .regSource .wcz ]

/-- Byte and word fields, and products. -/
def fields : List Mnemonic :=
  [ row "SETBYTE" (opcode7 0b1000110) .field2 .none,
    row "GETBYTE" (opcode7 0b1000111) .field2 .none,
    row "ROLBYTE" (opcode7 0b1001000) .field2 .none,
    row "SETWORD" (opcode8 0b10010010) .field1 .none,
    row "GETWORD" (opcode8 0b10010011) .field1 .none,
    row "ROLWORD" (opcode8 0b10010100) .field1 .none,
    row "SETR" (opcode9 0b100110100) .regSource .none,
    row "SETD" (opcode9 0b100110101) .regSource .none,
    row "SETS" (opcode9 0b100110110) .regSource .none,
    row "DECOD" (opcode9 0b100110111) .regOptSource .none,
    row "BMASK" (opcode9 0b100111000) .regOptSource .none,
    row "MUL" (opcode8 0b10100000) .regSource .wz,
    row "MULS" (opcode8 0b10100001) .regSource .wz,
    row "SCA" (opcode8 0b10100010) .regSource .wz,
    row "SCAS" (opcode8 0b10100011) .regSource .wz ]

/-- Reads of hub and lookup memory. -/
def hubReads : List Mnemonic :=
  [ row "RDLUT" (opcode7 0b1010101) .regSource .wcz,
    hubRow "RDBYTE" (opcode7 0b1010110) .regSource .wcz,
    hubRow "RDWORD" (opcode7 0b1010111) .regSource .wcz,
    hubRow "RDLONG" (opcode7 0b1011000) .regSource .wcz ]

/-- Branches by a distance of nine bits. -/
def relativeBranches : List Mnemonic :=
  [ row "DJZ" (opcode9 0b101101100) .relBranch .none,
    row "DJNZ" (opcode9 0b101101101) .relBranch .none,
    row "DJF" (opcode9 0b101101110) .relBranch .none,
    row "DJNF" (opcode9 0b101101111) .relBranch .none,
    row "IJZ" (opcode9 0b101110000) .relBranch .none,
    row "IJNZ" (opcode9 0b101110001) .relBranch .none,
    row "TJZ" (opcode9 0b101110010) .relBranch .none,
    row "TJNZ" (opcode9 0b101110011) .relBranch .none,
    row "TJF" (opcode9 0b101110100) .relBranch .none,
    row "TJNF" (opcode9 0b101110101) .relBranch .none,
    row "TJS" (opcode9 0b101110110) .relBranch .none,
    row "TJNS" (opcode9 0b101110111) .relBranch .none ]

/-- Instructions on two operands that may both be immediate. -/
def pairs : List Mnemonic :=
  [ row "WRPIN" (opcode8 0b11000000) .pair .none,
    row "WXPIN" (opcode8 0b11000001) .pair .none,
    row "WYPIN" (opcode8 0b11000010) .pair .none,
    row "WRLUT" (opcode8 0b11000011) .pair .none,
    hubRow "WRBYTE" (opcode8 0b11000100) .pair .none,
    hubRow "WRWORD" (opcode8 0b11000101) .pair .none,
    hubRow "WRLONG" (opcode8 0b11000110) .pair .none,
    row "RDFAST" (opcode8 0b11000111) .pair .none,
    row "WRFAST" (opcode8 0b11001000) .pair .none,
    row "FBLOCK" (opcode8 0b11001001) .pair .none,
    row "REP" (opcode8 0b11001101) .pair .none,
    row "COGINIT" (opcode7 0b1100111) .pair .wc,
    row "QMUL" (opcode8 0b11010000) .pair .none,
    row "QDIV" (opcode8 0b11010001) .pair .none,
    row "QFRAC" (opcode8 0b11010010) .pair .none,
    row "QSQRT" (opcode8 0b11010011) .pair .none,
    row "QROTATE" (opcode8 0b11010100) .pair .none,
    row "QVECTOR" (opcode8 0b11010101) .pair .none ]

/-- Instructions on one operand, and returns. -/
def singles : List Mnemonic :=
  [ row "HUBSET" (single 0x00) .dest .none,
    row "COGID" (single 0x01) .dest .wc,
    row "COGSTOP" (single 0x03) .dest .none,
    row "LOCKNEW" (single 0x04) .reg .wc,
    row "LOCKRET" (single 0x05) .dest .none,
    row "LOCKTRY" (single 0x06) .dest .wc,
    row "LOCKREL" (single 0x07) .dest .wc,
    row "QLOG" (single 0x0E) .dest .none,
    row "QEXP" (single 0x0F) .dest .none,
    row "RFBYTE" (single 0x10) .reg .wcz,
    row "RFWORD" (single 0x11) .reg .wcz,
    row "RFLONG" (single 0x12) .reg .wcz,
    row "RFVAR" (single 0x13) .reg .wcz,
    row "RFVARS" (single 0x14) .reg .wcz,
    row "WFBYTE" (single 0x15) .dest .none,
    row "WFWORD" (single 0x16) .dest .none,
    row "WFLONG" (single 0x17) .dest .none,
    row "GETQX" (single 0x18) .reg .wcz,
    row "GETQY" (single 0x19) .reg .wcz,
    row "GETCT" (single 0x1A) .reg .wc,
    row "GETRND" (single 0x1B) .reg .wcz,
    row "SETDACS" (single 0x1C) .dest .none,
    row "SETXFRQ" (single 0x1D) .dest .none,
    row "GETXACC" (single 0x1E) .reg .none,
    row "WAITX" (single 0x1F) .dest .wcz,
    row "RET" (returning 0x2D) .bare .wcz,
    row "RETA" (returning 0x2E) .bare .wcz,
    row "RETB" (returning 0x2F) .bare .wcz ]

/-- Directions, outputs and both together of pins. -/
def pins : List Mnemonic :=
  [ row "DIRL" (single 0x40) .dest .wcz,
    row "DIRH" (single 0x41) .dest .wcz,
    row "DIRC" (single 0x42) .dest .wcz,
    row "DIRNC" (single 0x43) .dest .wcz,
    row "DIRZ" (single 0x44) .dest .wcz,
    row "DIRNZ" (single 0x45) .dest .wcz,
    row "DIRRND" (single 0x46) .dest .wcz,
    row "DIRNOT" (single 0x47) .dest .wcz,
    row "OUTL" (single 0x48) .dest .wcz,
    row "OUTH" (single 0x49) .dest .wcz,
    row "OUTC" (single 0x4A) .dest .wcz,
    row "OUTNC" (single 0x4B) .dest .wcz,
    row "OUTZ" (single 0x4C) .dest .wcz,
    row "OUTNZ" (single 0x4D) .dest .wcz,
    row "OUTRND" (single 0x4E) .dest .wcz,
    row "OUTNOT" (single 0x4F) .dest .wcz,
    row "FLTL" (single 0x50) .dest .wcz,
    row "FLTH" (single 0x51) .dest .wcz,
    row "FLTC" (single 0x52) .dest .wcz,
    row "FLTNC" (single 0x53) .dest .wcz,
    row "FLTZ" (single 0x54) .dest .wcz,
    row "FLTNZ" (single 0x55) .dest .wcz,
    row "FLTRND" (single 0x56) .dest .wcz,
    row "FLTNOT" (single 0x57) .dest .wcz,
    row "DRVL" (single 0x58) .dest .wcz,
    row "DRVH" (single 0x59) .dest .wcz,
    row "DRVC" (single 0x5A) .dest .wcz,
    row "DRVNC" (single 0x5B) .dest .wcz,
    row "DRVZ" (single 0x5C) .dest .wcz,
    row "DRVNZ" (single 0x5D) .dest .wcz,
    row "DRVRND" (single 0x5E) .dest .wcz,
    row "DRVNOT" (single 0x5F) .dest .wcz ]

/-- Instructions on one register and the flags. -/
def flags : List Mnemonic :=
  [ row "REV" (single 0x69) .reg .none,
    row "RCZR" (single 0x6A) .reg .wcz,
    row "RCZL" (single 0x6B) .reg .wcz,
    row "WRC" (single 0x6C) .reg .none,
    row "WRNC" (single 0x6D) .reg .none,
    row "WRZ" (single 0x6E) .reg .none,
    row "WRNZ" (single 0x6F) .reg .none ]

/-- Jumps, calls and what loads the high bits of an immediate. -/
def jumps : List Mnemonic :=
  [ jumpRow "JMP" (opcode7 0b1101100) (single 0x2C),
    jumpRow "CALL" (opcode7 0b1101101) (single 0x2D),
    jumpRow "CALLA" (opcode7 0b1101110) (single 0x2E),
    jumpRow "CALLB" (opcode7 0b1101111) (single 0x2F),
    row "CALLD" (opcode5 0b11100) .pointerJump .none,
    row "LOC" (opcode5 0b11101) .pointerJump .none,
    row "AUGS" (opcode5 0b11110) .augment .none,
    row "AUGD" (opcode5 0b11111) .augment .none,
    row "NOP" 0 .bare .none ]

/-- All instructions. -/
def table : List Mnemonic :=
  shiftsAndArithmetic ++ bitsAndMoves ++ fields ++ hubReads ++ relativeBranches ++
    pairs ++ singles ++ pins ++ flags ++ jumps

/-- Look an instruction up by name. -/
def ofName (name : String) : Except EncodeError Mnemonic :=
  match table.find? fun m => sameName m.name name with
  | some m => .ok m
  | none   => .error (.unknownMnemonic name)

/-- The instruction that does nothing is the zero word. -/
def isNop (m : Mnemonic) : Bool := m.schema = .bare && m.base = 0

end Mnemonic

end Propeller
