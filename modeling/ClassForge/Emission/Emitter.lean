import ClassForge.Body.Assembly
import ClassForge.Emission.Tracker
import ClassForge.Pool.Basic

/-!
# Emitting instructions

An emitter writes the body of one method. Every operation reports its effect on the operand stack
to the tracker, and all paths that meet at a label have to agree on the depth there.

* Operations run in `Emit`: they change the emitter, and a defect ends the method.
* Constants are interned into the pool of the class, which outlives the emitter.
* `Emitter.reachable` tells whether control can fall through to the next instruction.
-/

namespace ClassForge

/-- The body of a method under construction. -/
structure Emitter where
  /-- The instructions so far. -/
  assembly : Assembly := {}
  /-- The constants of the class. -/
  pool : ConstantPool
  /-- Operand stack, local slots and source line. -/
  tracker : Tracker
  /-- The stack depth expected at each label. -/
  labelDepths : Array (Option Nat) := #[]
  /-- Can control fall through to the next instruction? -/
  reachable : Bool := true

/-- An action on the body under construction. -/
abbrev Emit (α : Type) : Type := StateT Emitter (Except Defect) α

namespace Emitter

/-- An emitter for a method whose receiver and parameters take up `slots` local slots. -/
def ofPool (pool : ConstantPool) (slots : Nat) : Emitter where
  pool := pool
  tracker := .ofParameters slots

/-- The finished body, with the tracked maxima as its limits. -/
def finish (e : Emitter) : Except LimitError MethodBody :=
  e.assembly.finish (UInt16.ofNat e.tracker.maxDepth) (UInt16.ofNat e.tracker.maxLocals)

/-! ### Parts of the emitter -/

/-- Changes the instructions. -/
def assemble (f : Assembly → Assembly) : Emit Unit := fun e =>
  .ok ((), { e with assembly := f e.assembly })

/-- Changes the instructions, or meets a defect. -/
def tryAssemble (f : Assembly → Except Defect Assembly) : Emit Unit := fun e =>
  match f e.assembly with
  | .error d => .error d
  | .ok assembly => .ok ((), { e with assembly })

/-- Changes the tracked slots, or meets a defect. -/
def track (f : Tracker → Except Defect Tracker) : Emit Unit := fun e =>
  match f e.tracker with
  | .error d => .error d
  | .ok tracker => .ok ((), { e with tracker })

/-- Interns a constant. -/
def intern (f : ConstantPool → UInt16 × ConstantPool) : Emit UInt16 := fun e =>
  let (i, pool) := f e.pool
  .ok (i, { e with pool })

/-- The code byte of an instruction. -/
def writeOp (op : Opcode) : Emit Unit := assemble (·.writeOp op)

/-- A byte operand. -/
def writeByte (b : UInt8) : Emit Unit := assemble (·.writeByte b)

/-- An instruction with a 16-bit operand. -/
def writeLinked (op : Opcode) (operand : UInt16) : Emit Unit :=
  assemble fun a => (a.writeOp op).writeWord operand

/-- `n` slots are pushed. -/
def push (n : Nat) : Emit Unit := track (·.push n)

/-- `n` slots are popped. -/
def pop (n : Nat) : Emit Unit := track (·.pop n)

/-- The slots from `slot` on are accessed. -/
def noteLocal (slot width : Nat) : Emit Unit := track (·.noteLocal slot width)

/-- Between statements the operand stack has to be empty. -/
def checkBalanced : Emit Unit := track fun t => do
  t.checkBalanced
  return t

/-- What follows a terminal instruction is dead. -/
def leave (op : Opcode) : Emit Unit := fun e =>
  .ok ((), if op.isTerminal then { e with reachable := false } else e)

/-! ### Plain instructions -/

/-- An instruction without operands. -/
def emit (op : Opcode) : Emit Unit := do
  if op.operandSize ≠ 0 then throw (.operandsMissing op)
  match op.fixedEffect? with
  | none => throw (.effectUnknown op)
  | some effect =>
    pop effect.pop
    push effect.push
    writeOp op
    leave op

/-! ### Constants -/

/-- Pushes a single-slot constant of the pool, in the short form where its index allows. -/
def loadConstant (index : UInt16) : Emit Unit := do
  if index.toNat ≤ 255 then
    writeOp .ldc
    writeByte index.toUInt8
  else writeLinked .ldcW index
  push 1

/-- Pushes a two-slot constant of the pool. -/
def loadWideConstant (index : UInt16) : Emit Unit := do
  writeLinked .ldc2W index
  push 2

/-- Pushes the null reference. -/
def nullConst : Emit Unit := emit .aconstNull

/-- Pushes an `int` in its shortest form. -/
def intConst (value : Int32) : Emit Unit :=
  let n := value.toInt
  if n = -1 then emit .iconstM1
  else if n = 0 then emit .iconst0
  else if n = 1 then emit .iconst1
  else if n = 2 then emit .iconst2
  else if n = 3 then emit .iconst3
  else if n = 4 then emit .iconst4
  else if n = 5 then emit .iconst5
  else if -128 ≤ n ∧ n ≤ 127 then do
    writeOp .bipush
    writeByte (UInt8.ofNat (n % 256).toNat)
    push 1
  else if -32768 ≤ n ∧ n ≤ 32767 then do
    writeLinked .sipush (UInt16.ofNat (n % 65536).toNat)
    push 1
  else do
    let index ← intern (·.intern (.integer value))
    loadConstant index

/-- Pushes a `long`. -/
def longConst (value : Int64) : Emit Unit :=
  if value = 0 then emit .lconst0
  else if value = 1 then emit .lconst1
  else do
    let index ← intern (·.intern (.long value))
    loadWideConstant index

/-- Pushes a `float` by its bit pattern; zero, one and two have instructions of their own, negative
zero has not. -/
def floatConst (bits : UInt32) : Emit Unit :=
  if bits = 0 then emit .fconst0
  else if bits = 0x3f800000 then emit .fconst1
  else if bits = 0x40000000 then emit .fconst2
  else do
    let index ← intern (·.intern (.float bits))
    loadConstant index

/-- Pushes a `double` by its bit pattern; zero and one have instructions of their own, negative zero
has not. -/
def doubleConst (bits : UInt64) : Emit Unit :=
  if bits = 0 then emit .dconst0
  else if bits = 0x3ff0000000000000 then emit .dconst1
  else do
    let index ← intern (·.intern (.double bits))
    loadWideConstant index

/-- Pushes a string literal. -/
def textConst (text : String) : Emit Unit := do
  let index ← intern (·.stringRef text)
  loadConstant index

/-- Pushes the zero of a type: a number, the null reference, or nothing at all for `void`. -/
def zeroOf : JavaType → Emit Unit
  | .void => pure ()
  | .long => longConst 0
  | .float => floatConst 0
  | .double => doubleConst 0
  | .object _ | .array _ => nullConst
  | _ => intConst 0

/-! ### Local variables -/

/-- The operand byte of a local slot. -/
def slotByte (slot : Nat) : Emit UInt8 :=
  if slot ≤ 255 then pure (UInt8.ofNat slot) else throw (.slotTooWide slot)

/-- Accesses a local variable: the slots 0 to 3 have instructions of their own, in a row from
`first` on. -/
def accessLocal (first general : Opcode) (slot width : Nat) : Emit Unit := do
  noteLocal slot width
  if slot ≤ 3 then writeByte (first.byte + UInt8.ofNat slot)
  else
    writeOp general
    writeByte (← slotByte slot)

/-- The load instructions of a type: the one for slot 0 and the general one. -/
def loadOps : JavaType → Opcode × Opcode
  | .long => (.lload0, .lload)
  | .float => (.fload0, .fload)
  | .double => (.dload0, .dload)
  | .object _ | .array _ => (.aload0, .aload)
  | _ => (.iload0, .iload)

/-- The store instructions of a type: the one for slot 0 and the general one. -/
def storeOps : JavaType → Opcode × Opcode
  | .long => (.lstore0, .lstore)
  | .float => (.fstore0, .fstore)
  | .double => (.dstore0, .dstore)
  | .object _ | .array _ => (.astore0, .astore)
  | _ => (.istore0, .istore)

/-- Pushes a local variable. -/
def load (type : JavaType) (slot : Nat) : Emit Unit := do
  accessLocal (loadOps type).1 (loadOps type).2 slot type.slots
  push type.slots

/-- Pops into a local variable. -/
def store (type : JavaType) (slot : Nat) : Emit Unit := do
  pop type.slots
  accessLocal (storeOps type).1 (storeOps type).2 slot type.slots

/-- Pushes a local reference. -/
def loadRef (slot : Nat) : Emit Unit := load .anyObject slot

/-- Pops into a local reference. -/
def storeRef (slot : Nat) : Emit Unit := store .anyObject slot

/-- Adds to a local `int`. -/
def increment (slot : Nat) (delta : Int8) : Emit Unit := do
  let operand ← slotByte slot
  noteLocal slot 1
  writeOp .iinc
  writeByte operand
  writeByte delta.toUInt8

/-! ### Stack operations -/

/-- Discards a value of a type. -/
def popValue (type : JavaType) : Emit Unit :=
  match type.slots with
  | 0 => pure ()
  | 1 => emit .pop
  | _ => emit .pop2

/-- Duplicates a value of a type. -/
def dupValue (type : JavaType) : Emit Unit :=
  match type.slots with
  | 0 => pure ()
  | 1 => emit .dup
  | _ => emit .dup2

/-! ### Members -/

/-- Replaces an object by the value of one of its fields. -/
def getField (owner name : String) (type : JavaType) : Emit Unit := do
  let index ← intern (·.fieldRef owner name type.descriptor)
  writeLinked .getfield index
  pop 1
  push type.slots

/-- Pops an object and the new value of one of its fields. -/
def putField (owner name : String) (type : JavaType) : Emit Unit := do
  let index ← intern (·.fieldRef owner name type.descriptor)
  writeLinked .putfield index
  pop (1 + type.slots)

/-- Pushes the value of a static field. -/
def getStatic (owner name : String) (type : JavaType) : Emit Unit := do
  let index ← intern (·.fieldRef owner name type.descriptor)
  writeLinked .getstatic index
  push type.slots

/-- Pops the new value of a static field. -/
def putStatic (owner name : String) (type : JavaType) : Emit Unit := do
  let index ← intern (·.fieldRef owner name type.descriptor)
  writeLinked .putstatic index
  pop type.slots

/-- The stack effect of a call. -/
def call (type : MethodType) (receiver : Bool) : Emit Unit := do
  let popped ← liftM (type.callWord receiver)
  pop popped
  push type.retSlots

/-- Calls a method of an object. -/
def invokeVirtual (owner name : String) (type : MethodType) : Emit Unit := do
  let index ← intern (·.methodRef owner name type)
  writeLinked .invokevirtual index
  call type true

/-- Calls a constructor, a private method or a method of the superclass. -/
def invokeSpecial (owner name : String) (type : MethodType) : Emit Unit := do
  let index ← intern (·.methodRef owner name type)
  writeLinked .invokespecial index
  call type true

/-- Calls a static method. -/
def invokeStatic (owner name : String) (type : MethodType) : Emit Unit := do
  let index ← intern (·.methodRef owner name type)
  writeLinked .invokestatic index
  call type false

/-- Calls a method of an interface; the argument slots with the receiver are repeated in an
operand byte. -/
def invokeInterface (owner name : String) (type : MethodType) : Emit Unit := do
  let index ← intern (·.interfaceMethodRef owner name type)
  writeLinked .invokeinterface index
  let slots ← liftM (type.callWord true)
  writeByte (UInt8.ofNat slots)
  writeByte 0
  call type true

/-! ### Objects and arrays -/

/-- Pushes a new object without running a constructor. -/
def newObject (name : String) : Emit Unit := do
  let index ← intern (·.classRef name)
  writeLinked .new index
  push 1

/-- Checks that the reference on top has a type. -/
def checkCast (type : JavaType) : Emit Unit :=
  match type.className? with
  | none => throw (.castTarget type)
  | some name => do
    let index ← intern (·.classRef name)
    writeLinked .checkcast index

/-- Asks whether the reference on top has a type. -/
def instanceOf (type : JavaType) : Emit Unit :=
  match type.className? with
  | none => throw (.testTarget type)
  | some name => do
    let index ← intern (·.classRef name)
    writeLinked .instanceof index

/-- Replaces a length by a new array of references. -/
def newRefArray (element : JavaType) : Emit Unit :=
  match element.className? with
  | none => throw (.arrayElement element)
  | some name => do
    let index ← intern (·.classRef name)
    writeLinked .anewarray index

/-! ### Control flow -/

/-- A new branch target. -/
def newLabel : Emit Label := fun e =>
  let (l, assembly) := e.assembly.newLabel
  .ok (l, { e with assembly, labelDepths := e.labelDepths.push none })

/-- The current depth is the one expected at a label. -/
def expectDepth (l : Label) : Emit Unit := fun e =>
  match e.labelDepths[l.id]? with
  | none => .error (.foreignLabel l.id)
  | some none =>
    .ok ((), { e with labelDepths := e.labelDepths.setIfInBounds l.id (some e.tracker.depth) })
  | some (some expected) =>
    if expected = e.tracker.depth then .ok ((), e)
    else .error (.branchDepth l.id expected e.tracker.depth)

/-- A branch to a label. -/
def branch (op : Opcode) (l : Label) : Emit Unit := do
  if !op.isShortBranch then throw (.notShortBranch op)
  pop ((op.fixedEffect?.map StackEffect.pop).getD 0)
  tryAssemble (·.branch op l)
  expectDepth l
  leave op

/-- An unconditional branch to a label. -/
def goto (l : Label) : Emit Unit := branch .goto l

/-- Joins the paths that meet at a label: falling through has to agree with earlier branches, and
after dead code the depth is that of an earlier branch. -/
def joinDepth (l : Label) : Emit Unit := fun e =>
  match e.reachable, e.labelDepths[l.id]? with
  | _, none => .error (.foreignLabel l.id)
  | true, some (some expected) =>
    if expected = e.tracker.depth then .ok ((), e)
    else .error (.labelDepth l.id expected e.tracker.depth)
  | true, some none =>
    .ok ((), { e with labelDepths := e.labelDepths.setIfInBounds l.id (some e.tracker.depth) })
  | false, some (some expected) => .ok ((), { e with tracker := e.tracker.withDepth expected })
  | false, some none => .error (.labelUnreachable l.id)

/-- Puts a label at the next instruction, which is reachable from there on. -/
def placeLabel (l : Label) : Emit Unit := do
  joinDepth l
  modify fun e => { e with reachable := true }
  tryAssemble (·.placeLabel l)

/-- The return instruction of a type. -/
def returnOp : JavaType → Opcode
  | .void => .returnVoid
  | .long => .lreturn
  | .float => .freturn
  | .double => .dreturn
  | .object _ | .array _ => .areturn
  | _ => .ireturn

/-- Returns a value of a type, or nothing for `void`. -/
def returnValue (type : JavaType) : Emit Unit := emit (returnOp type)

/-! ### Source lines -/

/-- A source line in a line table, which ends at the largest 16-bit word. -/
def lineWord (line : UInt32) : UInt16 := UInt16.ofNat (min line.toNat wordMax)

/-- Marks a source line if there is one to mark. -/
def markLine (noted : Tracker → Option UInt32 × Tracker) : Emit Unit := fun e =>
  let (line?, tracker) := noted e.tracker
  match line? with
  | none => .ok ((), { e with tracker })
  | some line => .ok ((), { e with tracker, assembly := e.assembly.markLine (lineWord line) })

/-- Code from here on belongs to a source line. -/
def noteLine (line : UInt32) : Emit Unit := markLine (·.noteLine line)

/-- The code of the rule has ended: what follows belongs to the line after the last one noted. -/
def noteEnd : Emit Unit := markLine (·.noteEnd)

end Emitter

end ClassForge
