/-!
# Opcodes

The numbering of the instruction set: names, lengths, and what walking through code needs to know of an
opcode.
-/

namespace Bytecode

/-- Properties of an opcode that matter for walking through code. -/
structure OpcodeFlags where
  /-- Control never goes on to the next instruction. -/
  stop : Bool
  /-- The instruction names positions to go to. -/
  branch : Bool
  /-- The instruction writes to a local variable. -/
  store : Bool
  deriving DecidableEq, Repr

namespace Opcode

def iload : UInt8 := 0x15
def aload : UInt8 := 0x19
def istore : UInt8 := 0x36
def astore : UInt8 := 0x3A
def iinc : UInt8 := 0x84
def goto : UInt8 := 0xA7
def jsr : UInt8 := 0xA8
def ret : UInt8 := 0xA9
def tableswitch : UInt8 := 0xAA
def lookupswitch : UInt8 := 0xAB
def newarray : UInt8 := 0xBC
def wide : UInt8 := 0xC4
def gotoW : UInt8 := 0xC8
def jsrW : UInt8 := 0xC9

/-- Names of the opcodes, from zero on. -/
def mnemonics : Array String :=
  #["nop", "aconst_null", "iconst_m1", "iconst_0", "iconst_1", "iconst_2", "iconst_3", "iconst_4",
    "iconst_5", "lconst_0", "lconst_1", "fconst_0", "fconst_1", "fconst_2", "dconst_0",
    "dconst_1", "bipush", "sipush", "ldc", "ldc_w", "ldc2_w", "iload", "lload", "fload", "dload",
    "aload", "iload_0", "iload_1", "iload_2", "iload_3", "lload_0", "lload_1", "lload_2",
    "lload_3", "fload_0", "fload_1", "fload_2", "fload_3", "dload_0", "dload_1", "dload_2",
    "dload_3", "aload_0", "aload_1", "aload_2", "aload_3", "iaload", "laload", "faload", "daload",
    "aaload", "baload", "caload", "saload", "istore", "lstore", "fstore", "dstore", "astore",
    "istore_0", "istore_1", "istore_2", "istore_3", "lstore_0", "lstore_1", "lstore_2",
    "lstore_3", "fstore_0", "fstore_1", "fstore_2", "fstore_3", "dstore_0", "dstore_1",
    "dstore_2", "dstore_3", "astore_0", "astore_1", "astore_2", "astore_3", "iastore", "lastore",
    "fastore", "dastore", "aastore", "bastore", "castore", "sastore", "pop", "pop2", "dup",
    "dup_x1", "dup_x2", "dup2", "dup2_x1", "dup2_x2", "swap", "iadd", "ladd", "fadd", "dadd",
    "isub", "lsub", "fsub", "dsub", "imul", "lmul", "fmul", "dmul", "idiv", "ldiv", "fdiv",
    "ddiv", "irem", "lrem", "frem", "drem", "ineg", "lneg", "fneg", "dneg", "ishl", "lshl",
    "ishr", "lshr", "iushr", "lushr", "iand", "land", "ior", "lor", "ixor", "lxor", "iinc", "i2l",
    "i2f", "i2d", "l2i", "l2f", "l2d", "f2i", "f2l", "f2d", "d2i", "d2l", "d2f", "i2b", "i2c",
    "i2s", "lcmp", "fcmpl", "fcmpg", "dcmpl", "dcmpg", "ifeq", "ifne", "iflt", "ifge", "ifgt",
    "ifle", "if_icmpeq", "if_icmpne", "if_icmplt", "if_icmpge", "if_icmpgt", "if_icmple",
    "if_acmpeq", "if_acmpne", "goto", "jsr", "ret", "tableswitch", "lookupswitch", "ireturn",
    "lreturn", "freturn", "dreturn", "areturn", "return", "getstatic", "putstatic", "getfield",
    "putfield", "invokevirtual", "invokespecial", "invokestatic", "invokeinterface",
    "invokedynamic", "new", "newarray", "anewarray", "arraylength", "athrow", "checkcast",
    "instanceof", "monitorenter", "monitorexit", "wide", "multianewarray", "ifnull", "ifnonnull",
    "goto_w", "jsr_w"]

/-- Name of an opcode. -/
def mnemonic (opcode : UInt8) : String := mnemonics[opcode.toNat]?.getD "<unknown>"

/-- Properties of an opcode; for a widened instruction, of the opcode that is widened. -/
def flags (opcode : UInt8) : OpcodeFlags :=
  let n := opcode.toNat
  if 0xA7 ≤ n ∧ n ≤ 0xA8 ∨ 0xAA ≤ n ∧ n ≤ 0xAB ∨ 0xC8 ≤ n ∧ n ≤ 0xC9 then ⟨true, true, false⟩
  else if n = 0xA9 ∨ 0xAC ≤ n ∧ n ≤ 0xB1 ∨ n = 0xBF then ⟨true, false, false⟩
  else if 0x99 ≤ n ∧ n ≤ 0xA6 ∨ 0xC6 ≤ n ∧ n ≤ 0xC7 then ⟨false, true, false⟩
  else if 0x36 ≤ n ∧ n ≤ 0x4E ∨ n = 0x84 then ⟨false, false, true⟩
  else ⟨false, false, false⟩

/-- Length of an instruction when its opcode alone fixes it: not that of switches, of widened
instructions and of unknown opcodes. -/
def fixedLength? (opcode : UInt8) : Option Nat :=
  let n := opcode.toNat
  if n ≤ 0x0F then some 1
  else if n = 0x11 ∨ n = 0x13 ∨ n = 0x14 then some 3
  else if n ≤ 0x19 then some 2
  else if n ≤ 0x35 then some 1
  else if n ≤ 0x3A then some 2
  else if n ≤ 0x83 then some 1
  else if n = 0x84 then some 3
  else if n ≤ 0x98 then some 1
  else if n ≤ 0xA8 then some 3
  else if n = 0xA9 then some 2
  else if n ≤ 0xAB then none
  else if n ≤ 0xB1 then some 1
  else if n ≤ 0xB8 then some 3
  else if n ≤ 0xBA then some 5
  else if n = 0xBB then some 3
  else if n = 0xBC then some 2
  else if n = 0xBD then some 3
  else if n ≤ 0xBF then some 1
  else if n ≤ 0xC1 then some 3
  else if n ≤ 0xC3 then some 1
  else if n = 0xC4 then none
  else if n = 0xC5 then some 4
  else if n ≤ 0xC7 then some 3
  else if n ≤ 0xC9 then some 5
  else none

/-- Number of bytes between the opcode of a switch and its operands, which are aligned to four bytes
from the start of the code. -/
def switchPadding (position : Nat) : Nat := 3 - position % 4

end Opcode

end Bytecode
