/-!
# Operation codes

The instruction set that bodies are written in and inspected against. Every instruction is one
byte followed by operands of a fixed size, so there are no switches, no `wide` forms and no
subroutines.

* `Opcode` lists the instructions in the order of their codes.
* `Opcode.info` is the table: code, mnemonic, operand bytes and, where it does not depend on a
  constant, the effect on the operand stack.
* `Opcode.ofByte?` and `Opcode.ofMnemonic?` read the table backwards.
* `Opcode.localAccess?` tells which instructions touch a local variable.
-/

namespace ClassForge

/-- Operand-stack effect of an instruction, in slots. -/
structure StackEffect where
  /-- Slots taken off the stack. -/
  pop : Nat
  /-- Slots put on the stack. -/
  push : Nat
deriving DecidableEq, Repr

/-- Net change in stack depth. -/
def StackEffect.net (e : StackEffect) : Int := (e.push : Int) - (e.pop : Int)

/-- The supported instructions, in the order of their codes. -/
inductive Opcode where
  | nop | aconstNull | iconstM1 | iconst0 | iconst1 | iconst2 | iconst3 | iconst4 | iconst5
  | lconst0 | lconst1 | fconst0 | fconst1 | fconst2 | dconst0 | dconst1 | bipush | sipush | ldc
  | ldcW | ldc2W
  | iload | lload | fload | dload | aload | iload0 | iload1 | iload2 | iload3 | lload0 | lload1
  | lload2 | lload3 | fload0 | fload1 | fload2 | fload3 | dload0 | dload1 | dload2 | dload3
  | aload0 | aload1 | aload2 | aload3 | iaload | laload | faload | daload | aaload | baload
  | caload | saload
  | istore | lstore | fstore | dstore | astore | istore0 | istore1 | istore2 | istore3 | lstore0
  | lstore1 | lstore2 | lstore3 | fstore0 | fstore1 | fstore2 | fstore3 | dstore0 | dstore1
  | dstore2 | dstore3 | astore0 | astore1 | astore2 | astore3 | iastore | lastore | fastore
  | dastore | aastore | bastore | castore | sastore
  | pop | pop2 | dup | dupX1 | dupX2 | dup2 | dup2X1 | dup2X2 | swap
  | iadd | ladd | fadd | dadd | isub | lsub | fsub | dsub | imul | lmul | fmul | dmul | idiv
  | ldiv | fdiv | ddiv | irem | lrem | frem | drem | ineg | lneg | fneg | dneg | ishl | lshl
  | ishr | lshr | iushr | lushr | iand | land | ior | lor | ixor | lxor | iinc
  | i2l | i2f | i2d | l2i | l2f | l2d | f2i | f2l | f2d | d2i | d2l | d2f | i2b | i2c | i2s
  | lcmp | fcmpl | fcmpg | dcmpl | dcmpg
  | ifeq | ifne | iflt | ifge | ifgt | ifle | ifIcmpeq | ifIcmpne | ifIcmplt | ifIcmpge
  | ifIcmpgt | ifIcmple | ifAcmpeq | ifAcmpne | goto
  | ireturn | lreturn | freturn | dreturn | areturn | returnVoid
  | getstatic | putstatic | getfield | putfield | invokevirtual | invokespecial | invokestatic
  | invokeinterface
  | new | newarray | anewarray | arraylength | athrow | checkcast | instanceof | monitorenter
  | monitorexit
  | ifnull | ifnonnull | gotoW
deriving DecidableEq

/-- One row of the instruction table. -/
structure OpcodeInfo where
  /-- The byte that stands for the instruction. -/
  code : UInt8
  /-- The assembler's word for the instruction. -/
  mnemonic : String
  /-- Number of operand bytes after the code. -/
  operands : Nat
  /-- Stack effect; absent where a constant decides it. -/
  effect : Option StackEffect

namespace Opcode

/-- A row whose stack effect is fixed. -/
def fixedRow (code : UInt8) (mnemonic : String) (operands pop push : Nat) : OpcodeInfo :=
  ⟨code, mnemonic, operands, some ⟨pop, push⟩⟩

/-- A row whose stack effect depends on the constant it names. -/
def linkedRow (code : UInt8) (mnemonic : String) (operands : Nat) : OpcodeInfo :=
  ⟨code, mnemonic, operands, none⟩

/-- The instruction table. -/
def info : Opcode → OpcodeInfo
  | .nop => fixedRow 0x00 "nop" 0 0 0
  | .aconstNull => fixedRow 0x01 "aconst_null" 0 0 1
  | .iconstM1 => fixedRow 0x02 "iconst_m1" 0 0 1
  | .iconst0 => fixedRow 0x03 "iconst_0" 0 0 1
  | .iconst1 => fixedRow 0x04 "iconst_1" 0 0 1
  | .iconst2 => fixedRow 0x05 "iconst_2" 0 0 1
  | .iconst3 => fixedRow 0x06 "iconst_3" 0 0 1
  | .iconst4 => fixedRow 0x07 "iconst_4" 0 0 1
  | .iconst5 => fixedRow 0x08 "iconst_5" 0 0 1
  | .lconst0 => fixedRow 0x09 "lconst_0" 0 0 2
  | .lconst1 => fixedRow 0x0a "lconst_1" 0 0 2
  | .fconst0 => fixedRow 0x0b "fconst_0" 0 0 1
  | .fconst1 => fixedRow 0x0c "fconst_1" 0 0 1
  | .fconst2 => fixedRow 0x0d "fconst_2" 0 0 1
  | .dconst0 => fixedRow 0x0e "dconst_0" 0 0 2
  | .dconst1 => fixedRow 0x0f "dconst_1" 0 0 2
  | .bipush => fixedRow 0x10 "bipush" 1 0 1
  | .sipush => fixedRow 0x11 "sipush" 2 0 1
  | .ldc => linkedRow 0x12 "ldc" 1
  | .ldcW => linkedRow 0x13 "ldc_w" 2
  | .ldc2W => linkedRow 0x14 "ldc2_w" 2
  | .iload => fixedRow 0x15 "iload" 1 0 1
  | .lload => fixedRow 0x16 "lload" 1 0 2
  | .fload => fixedRow 0x17 "fload" 1 0 1
  | .dload => fixedRow 0x18 "dload" 1 0 2
  | .aload => fixedRow 0x19 "aload" 1 0 1
  | .iload0 => fixedRow 0x1a "iload_0" 0 0 1
  | .iload1 => fixedRow 0x1b "iload_1" 0 0 1
  | .iload2 => fixedRow 0x1c "iload_2" 0 0 1
  | .iload3 => fixedRow 0x1d "iload_3" 0 0 1
  | .lload0 => fixedRow 0x1e "lload_0" 0 0 2
  | .lload1 => fixedRow 0x1f "lload_1" 0 0 2
  | .lload2 => fixedRow 0x20 "lload_2" 0 0 2
  | .lload3 => fixedRow 0x21 "lload_3" 0 0 2
  | .fload0 => fixedRow 0x22 "fload_0" 0 0 1
  | .fload1 => fixedRow 0x23 "fload_1" 0 0 1
  | .fload2 => fixedRow 0x24 "fload_2" 0 0 1
  | .fload3 => fixedRow 0x25 "fload_3" 0 0 1
  | .dload0 => fixedRow 0x26 "dload_0" 0 0 2
  | .dload1 => fixedRow 0x27 "dload_1" 0 0 2
  | .dload2 => fixedRow 0x28 "dload_2" 0 0 2
  | .dload3 => fixedRow 0x29 "dload_3" 0 0 2
  | .aload0 => fixedRow 0x2a "aload_0" 0 0 1
  | .aload1 => fixedRow 0x2b "aload_1" 0 0 1
  | .aload2 => fixedRow 0x2c "aload_2" 0 0 1
  | .aload3 => fixedRow 0x2d "aload_3" 0 0 1
  | .iaload => fixedRow 0x2e "iaload" 0 2 1
  | .laload => fixedRow 0x2f "laload" 0 2 2
  | .faload => fixedRow 0x30 "faload" 0 2 1
  | .daload => fixedRow 0x31 "daload" 0 2 2
  | .aaload => fixedRow 0x32 "aaload" 0 2 1
  | .baload => fixedRow 0x33 "baload" 0 2 1
  | .caload => fixedRow 0x34 "caload" 0 2 1
  | .saload => fixedRow 0x35 "saload" 0 2 1
  | .istore => fixedRow 0x36 "istore" 1 1 0
  | .lstore => fixedRow 0x37 "lstore" 1 2 0
  | .fstore => fixedRow 0x38 "fstore" 1 1 0
  | .dstore => fixedRow 0x39 "dstore" 1 2 0
  | .astore => fixedRow 0x3a "astore" 1 1 0
  | .istore0 => fixedRow 0x3b "istore_0" 0 1 0
  | .istore1 => fixedRow 0x3c "istore_1" 0 1 0
  | .istore2 => fixedRow 0x3d "istore_2" 0 1 0
  | .istore3 => fixedRow 0x3e "istore_3" 0 1 0
  | .lstore0 => fixedRow 0x3f "lstore_0" 0 2 0
  | .lstore1 => fixedRow 0x40 "lstore_1" 0 2 0
  | .lstore2 => fixedRow 0x41 "lstore_2" 0 2 0
  | .lstore3 => fixedRow 0x42 "lstore_3" 0 2 0
  | .fstore0 => fixedRow 0x43 "fstore_0" 0 1 0
  | .fstore1 => fixedRow 0x44 "fstore_1" 0 1 0
  | .fstore2 => fixedRow 0x45 "fstore_2" 0 1 0
  | .fstore3 => fixedRow 0x46 "fstore_3" 0 1 0
  | .dstore0 => fixedRow 0x47 "dstore_0" 0 2 0
  | .dstore1 => fixedRow 0x48 "dstore_1" 0 2 0
  | .dstore2 => fixedRow 0x49 "dstore_2" 0 2 0
  | .dstore3 => fixedRow 0x4a "dstore_3" 0 2 0
  | .astore0 => fixedRow 0x4b "astore_0" 0 1 0
  | .astore1 => fixedRow 0x4c "astore_1" 0 1 0
  | .astore2 => fixedRow 0x4d "astore_2" 0 1 0
  | .astore3 => fixedRow 0x4e "astore_3" 0 1 0
  | .iastore => fixedRow 0x4f "iastore" 0 3 0
  | .lastore => fixedRow 0x50 "lastore" 0 4 0
  | .fastore => fixedRow 0x51 "fastore" 0 3 0
  | .dastore => fixedRow 0x52 "dastore" 0 4 0
  | .aastore => fixedRow 0x53 "aastore" 0 3 0
  | .bastore => fixedRow 0x54 "bastore" 0 3 0
  | .castore => fixedRow 0x55 "castore" 0 3 0
  | .sastore => fixedRow 0x56 "sastore" 0 3 0
  | .pop => fixedRow 0x57 "pop" 0 1 0
  | .pop2 => fixedRow 0x58 "pop2" 0 2 0
  | .dup => fixedRow 0x59 "dup" 0 1 2
  | .dupX1 => fixedRow 0x5a "dup_x1" 0 2 3
  | .dupX2 => fixedRow 0x5b "dup_x2" 0 3 4
  | .dup2 => fixedRow 0x5c "dup2" 0 2 4
  | .dup2X1 => fixedRow 0x5d "dup2_x1" 0 3 5
  | .dup2X2 => fixedRow 0x5e "dup2_x2" 0 4 6
  | .swap => fixedRow 0x5f "swap" 0 2 2
  | .iadd => fixedRow 0x60 "iadd" 0 2 1
  | .ladd => fixedRow 0x61 "ladd" 0 4 2
  | .fadd => fixedRow 0x62 "fadd" 0 2 1
  | .dadd => fixedRow 0x63 "dadd" 0 4 2
  | .isub => fixedRow 0x64 "isub" 0 2 1
  | .lsub => fixedRow 0x65 "lsub" 0 4 2
  | .fsub => fixedRow 0x66 "fsub" 0 2 1
  | .dsub => fixedRow 0x67 "dsub" 0 4 2
  | .imul => fixedRow 0x68 "imul" 0 2 1
  | .lmul => fixedRow 0x69 "lmul" 0 4 2
  | .fmul => fixedRow 0x6a "fmul" 0 2 1
  | .dmul => fixedRow 0x6b "dmul" 0 4 2
  | .idiv => fixedRow 0x6c "idiv" 0 2 1
  | .ldiv => fixedRow 0x6d "ldiv" 0 4 2
  | .fdiv => fixedRow 0x6e "fdiv" 0 2 1
  | .ddiv => fixedRow 0x6f "ddiv" 0 4 2
  | .irem => fixedRow 0x70 "irem" 0 2 1
  | .lrem => fixedRow 0x71 "lrem" 0 4 2
  | .frem => fixedRow 0x72 "frem" 0 2 1
  | .drem => fixedRow 0x73 "drem" 0 4 2
  | .ineg => fixedRow 0x74 "ineg" 0 1 1
  | .lneg => fixedRow 0x75 "lneg" 0 2 2
  | .fneg => fixedRow 0x76 "fneg" 0 1 1
  | .dneg => fixedRow 0x77 "dneg" 0 2 2
  | .ishl => fixedRow 0x78 "ishl" 0 2 1
  | .lshl => fixedRow 0x79 "lshl" 0 3 2
  | .ishr => fixedRow 0x7a "ishr" 0 2 1
  | .lshr => fixedRow 0x7b "lshr" 0 3 2
  | .iushr => fixedRow 0x7c "iushr" 0 2 1
  | .lushr => fixedRow 0x7d "lushr" 0 3 2
  | .iand => fixedRow 0x7e "iand" 0 2 1
  | .land => fixedRow 0x7f "land" 0 4 2
  | .ior => fixedRow 0x80 "ior" 0 2 1
  | .lor => fixedRow 0x81 "lor" 0 4 2
  | .ixor => fixedRow 0x82 "ixor" 0 2 1
  | .lxor => fixedRow 0x83 "lxor" 0 4 2
  | .iinc => fixedRow 0x84 "iinc" 2 0 0
  | .i2l => fixedRow 0x85 "i2l" 0 1 2
  | .i2f => fixedRow 0x86 "i2f" 0 1 1
  | .i2d => fixedRow 0x87 "i2d" 0 1 2
  | .l2i => fixedRow 0x88 "l2i" 0 2 1
  | .l2f => fixedRow 0x89 "l2f" 0 2 1
  | .l2d => fixedRow 0x8a "l2d" 0 2 2
  | .f2i => fixedRow 0x8b "f2i" 0 1 1
  | .f2l => fixedRow 0x8c "f2l" 0 1 2
  | .f2d => fixedRow 0x8d "f2d" 0 1 2
  | .d2i => fixedRow 0x8e "d2i" 0 2 1
  | .d2l => fixedRow 0x8f "d2l" 0 2 2
  | .d2f => fixedRow 0x90 "d2f" 0 2 1
  | .i2b => fixedRow 0x91 "i2b" 0 1 1
  | .i2c => fixedRow 0x92 "i2c" 0 1 1
  | .i2s => fixedRow 0x93 "i2s" 0 1 1
  | .lcmp => fixedRow 0x94 "lcmp" 0 4 1
  | .fcmpl => fixedRow 0x95 "fcmpl" 0 2 1
  | .fcmpg => fixedRow 0x96 "fcmpg" 0 2 1
  | .dcmpl => fixedRow 0x97 "dcmpl" 0 4 1
  | .dcmpg => fixedRow 0x98 "dcmpg" 0 4 1
  | .ifeq => fixedRow 0x99 "ifeq" 2 1 0
  | .ifne => fixedRow 0x9a "ifne" 2 1 0
  | .iflt => fixedRow 0x9b "iflt" 2 1 0
  | .ifge => fixedRow 0x9c "ifge" 2 1 0
  | .ifgt => fixedRow 0x9d "ifgt" 2 1 0
  | .ifle => fixedRow 0x9e "ifle" 2 1 0
  | .ifIcmpeq => fixedRow 0x9f "if_icmpeq" 2 2 0
  | .ifIcmpne => fixedRow 0xa0 "if_icmpne" 2 2 0
  | .ifIcmplt => fixedRow 0xa1 "if_icmplt" 2 2 0
  | .ifIcmpge => fixedRow 0xa2 "if_icmpge" 2 2 0
  | .ifIcmpgt => fixedRow 0xa3 "if_icmpgt" 2 2 0
  | .ifIcmple => fixedRow 0xa4 "if_icmple" 2 2 0
  | .ifAcmpeq => fixedRow 0xa5 "if_acmpeq" 2 2 0
  | .ifAcmpne => fixedRow 0xa6 "if_acmpne" 2 2 0
  | .goto => fixedRow 0xa7 "goto" 2 0 0
  | .ireturn => fixedRow 0xac "ireturn" 0 1 0
  | .lreturn => fixedRow 0xad "lreturn" 0 2 0
  | .freturn => fixedRow 0xae "freturn" 0 1 0
  | .dreturn => fixedRow 0xaf "dreturn" 0 2 0
  | .areturn => fixedRow 0xb0 "areturn" 0 1 0
  | .returnVoid => fixedRow 0xb1 "return" 0 0 0
  | .getstatic => linkedRow 0xb2 "getstatic" 2
  | .putstatic => linkedRow 0xb3 "putstatic" 2
  | .getfield => linkedRow 0xb4 "getfield" 2
  | .putfield => linkedRow 0xb5 "putfield" 2
  | .invokevirtual => linkedRow 0xb6 "invokevirtual" 2
  | .invokespecial => linkedRow 0xb7 "invokespecial" 2
  | .invokestatic => linkedRow 0xb8 "invokestatic" 2
  | .invokeinterface => linkedRow 0xb9 "invokeinterface" 4
  | .new => fixedRow 0xbb "new" 2 0 1
  | .newarray => fixedRow 0xbc "newarray" 1 1 1
  | .anewarray => fixedRow 0xbd "anewarray" 2 1 1
  | .arraylength => fixedRow 0xbe "arraylength" 0 1 1
  | .athrow => fixedRow 0xbf "athrow" 0 1 0
  | .checkcast => fixedRow 0xc0 "checkcast" 2 1 1
  | .instanceof => fixedRow 0xc1 "instanceof" 2 1 1
  | .monitorenter => fixedRow 0xc2 "monitorenter" 0 1 0
  | .monitorexit => fixedRow 0xc3 "monitorexit" 0 1 0
  | .ifnull => fixedRow 0xc6 "ifnull" 2 1 0
  | .ifnonnull => fixedRow 0xc7 "ifnonnull" 2 1 0
  | .gotoW => fixedRow 0xc8 "goto_w" 4 0 0

/-- Every instruction, in the order of the codes. -/
def all : Array Opcode := #[
  .nop, .aconstNull, .iconstM1, .iconst0, .iconst1, .iconst2, .iconst3, .iconst4, .iconst5,
  .lconst0, .lconst1, .fconst0, .fconst1, .fconst2, .dconst0, .dconst1, .bipush, .sipush, .ldc,
  .ldcW, .ldc2W, .iload, .lload, .fload, .dload, .aload, .iload0, .iload1, .iload2, .iload3,
  .lload0, .lload1, .lload2, .lload3, .fload0, .fload1, .fload2, .fload3, .dload0, .dload1,
  .dload2, .dload3, .aload0, .aload1, .aload2, .aload3, .iaload, .laload, .faload, .daload,
  .aaload, .baload, .caload, .saload, .istore, .lstore, .fstore, .dstore, .astore, .istore0,
  .istore1, .istore2, .istore3, .lstore0, .lstore1, .lstore2, .lstore3, .fstore0, .fstore1,
  .fstore2, .fstore3, .dstore0, .dstore1, .dstore2, .dstore3, .astore0, .astore1, .astore2,
  .astore3, .iastore, .lastore, .fastore, .dastore, .aastore, .bastore, .castore, .sastore, .pop,
  .pop2, .dup, .dupX1, .dupX2, .dup2, .dup2X1, .dup2X2, .swap, .iadd, .ladd, .fadd, .dadd, .isub,
  .lsub, .fsub, .dsub, .imul, .lmul, .fmul, .dmul, .idiv, .ldiv, .fdiv, .ddiv, .irem, .lrem,
  .frem, .drem, .ineg, .lneg, .fneg, .dneg, .ishl, .lshl, .ishr, .lshr, .iushr, .lushr, .iand,
  .land, .ior, .lor, .ixor, .lxor, .iinc, .i2l, .i2f, .i2d, .l2i, .l2f, .l2d, .f2i, .f2l, .f2d,
  .d2i, .d2l, .d2f, .i2b, .i2c, .i2s, .lcmp, .fcmpl, .fcmpg, .dcmpl, .dcmpg, .ifeq, .ifne, .iflt,
  .ifge, .ifgt, .ifle, .ifIcmpeq, .ifIcmpne, .ifIcmplt, .ifIcmpge, .ifIcmpgt, .ifIcmple,
  .ifAcmpeq, .ifAcmpne, .goto, .ireturn, .lreturn, .freturn, .dreturn, .areturn, .returnVoid,
  .getstatic, .putstatic, .getfield, .putfield, .invokevirtual, .invokespecial, .invokestatic,
  .invokeinterface, .new, .newarray, .anewarray, .arraylength, .athrow, .checkcast, .instanceof,
  .monitorenter, .monitorexit, .ifnull, .ifnonnull, .gotoW]

/-- The byte that stands for the instruction. -/
def byte (op : Opcode) : UInt8 := op.info.code

/-- The assembler's word for the instruction. -/
def mnemonic (op : Opcode) : String := op.info.mnemonic

/-- Operand bytes after the code. -/
def operandSize (op : Opcode) : Nat := op.info.operands

/-- Bytes of the whole instruction. -/
def encodedLength (op : Opcode) : Nat := 1 + op.operandSize

/-- The stack effect of an instruction that no constant decides: everything but constant loads
from the pool, field accesses and calls. -/
def fixedEffect? (op : Opcode) : Option StackEffect := op.info.effect

/-- The instruction a byte stands for. The codes leave three gaps: `a8` to `ab`, `ba`, and `c4`
and `c5`. -/
def ofByte? (b : UInt8) : Option Opcode :=
  let n := b.toNat
  if n ≤ 0xa7 then all[n]?
  else if 0xac ≤ n ∧ n ≤ 0xb9 then all[n - 4]?
  else if 0xbb ≤ n ∧ n ≤ 0xc3 then all[n - 5]?
  else if 0xc6 ≤ n ∧ n ≤ 0xc8 then all[n - 7]?
  else none

/-- The instruction with the given mnemonic. -/
def ofMnemonic? (word : String) : Option Opcode := all.find? (·.mnemonic == word)

/-- Does the instruction carry a branch offset? -/
def isBranch (op : Opcode) : Bool :=
  (0x99 ≤ op.byte && op.byte ≤ 0xa7) || op == .ifnull || op == .ifnonnull || op == .gotoW

/-- Is the instruction a branch with a 16-bit offset? -/
def isShortBranch (op : Opcode) : Bool := op.isBranch && op != .gotoW

/-- Does control never continue with the next instruction? -/
def isTerminal : Opcode → Bool
  | .goto | .gotoW | .ireturn | .lreturn | .freturn | .dreturn | .areturn | .returnVoid
  | .athrow => true
  | _ => false

/-- Is it one of the return instructions? -/
def isReturn (op : Opcode) : Bool := 0xac ≤ op.byte && op.byte ≤ 0xb1

/-- How an instruction touches a local variable: the number of slots, and the index where the
code itself fixes it. -/
structure LocalAccess where
  /-- Slots of the variable. -/
  width : Nat
  /-- The index, for the forms without an operand. -/
  index? : Option Nat
deriving DecidableEq, Repr

/-- The access of the form number `k` in a family of twenty: five kinds (int, long, float,
double, reference) with the indices 0 to 3 each. -/
def shortForm (k : Nat) : LocalAccess :=
  ⟨if k / 4 = 1 ∨ k / 4 = 3 then 2 else 1, some (k % 4)⟩

/-- The local variable an instruction touches, if it touches one. -/
def localAccess? (op : Opcode) : Option LocalAccess :=
  match op with
  | .iload | .fload | .aload | .istore | .fstore | .astore | .iinc => some ⟨1, none⟩
  | .lload | .dload | .lstore | .dstore => some ⟨2, none⟩
  | _ =>
    let n := op.byte.toNat
    if 0x1a ≤ n ∧ n ≤ 0x2d then some (shortForm (n - 0x1a))
    else if 0x3b ≤ n ∧ n ≤ 0x4e then some (shortForm (n - 0x3b))
    else none

set_option maxRecDepth 4096 in
/-- Reading back the byte of an instruction gives the instruction. -/
theorem ofByte?_byte (op : Opcode) : ofByte? op.byte = some op := by
  cases op <;> rfl

end Opcode

end ClassForge
