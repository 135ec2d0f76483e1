import ClassForge.Body.Basic
import ClassForge.Defect
import ClassForge.Inspection.Error
import ClassForge.Pool.Lookup

/-!
# Instructions of a body

What an inspection reads off single instructions: where they start, which operands they have,
where they branch to and what they do to the operand stack.

* `boundaries` marks the offsets where instructions start.
* `effectAt` is the stack effect of an instruction; constants are looked up where they decide it.
-/

namespace ClassForge

/-- A check of a body: it may find a fault, and a defect ends it. -/
abbrev BodyCheck (α : Type) : Type := ExceptT BodyFault (Except Defect) α

namespace Inspection

/-- Ends a check with a defect. -/
def abort {α : Type} (d : Defect) : BodyCheck α := ExceptT.mk (.error d)

/-- Continues a check with a count that may have overflowed. -/
def ofCount {α : Type} (x : Except Defect α) : BodyCheck α :=
  ExceptT.mk (match x with
    | .error d => .error d
    | .ok a => .ok (.ok a))

/-! ### Boundaries -/

/-- Marks instruction starts from `pc` on. Every instruction is at least one byte long, so the
length of the code is enough fuel. -/
def markStarts (code : Array UInt8) : Nat → Nat → Array Bool → Except BodyFault (Array Bool)
  | 0, _, starts => .ok starts
  | fuel + 1, pc, starts =>
    match code[pc]? with
    | none => .ok starts
    | some b =>
      match Opcode.ofByte? b with
      | none => .error (.unknownOpcode pc b)
      | some op =>
        if pc + op.encodedLength > code.size then .error (.truncated pc)
        else markStarts code fuel (pc + op.encodedLength) (starts.setIfInBounds pc true)

/-- Where instructions start, for each offset of the code. -/
def boundaries (code : Array UInt8) : Except BodyFault (Array Bool) :=
  markStarts code code.size 0 (Array.replicate code.size false)

/-- Is there an instruction at the offset? -/
def isStart (starts : Array Bool) (pc : Nat) : Bool := starts[pc]?.getD false

/-- Finds the first line-table entry that points at no instruction. -/
def checkLines (starts : Array Bool) (lines : List LineEntry) : Except BodyFault Unit :=
  match lines.find? fun l => !isStart starts l.startPc.toNat with
  | some l => .error (.badLine l.startPc.toNat)
  | none => .ok ()

/-! ### Operands -/

/-- The byte at an offset. -/
def byteAt (code : Array UInt8) (i : Nat) : BodyCheck UInt8 :=
  match code[i]? with
  | some b => pure b
  | none => abort (.readOutsideCode i)

/-- The 16-bit word at an offset. -/
def wordAt (code : Array UInt8) (i : Nat) : BodyCheck UInt16 := do
  let hi ← byteAt code i
  let lo ← byteAt code (i + 1)
  return UInt16.ofNat (256 * hi.toNat + lo.toNat)

/-- Where the branch at `pc` goes. Offsets are signed and relative to the branch itself. -/
def branchTarget (code : Array UInt8) (op : Opcode) (pc : Nat) : BodyCheck Int := do
  let hi ← wordAt code (pc + 1)
  if op = .gotoW then
    let lo ← wordAt code (pc + 3)
    return pc + Int.bmod (65536 * hi.toNat + lo.toNat) 4294967296
  else return pc + Int.bmod hi.toNat 65536

/-! ### Stack effects -/

/-- Does the constant at the index load as a single slot? -/
def loadsOneSlot (pool : ConstantPool) (i : UInt16) : Bool :=
  match pool.get? i with
  | some (.integer _) | some (.float _) | some (.stringRef _) | some (.classRef _) => true
  | _ => false

/-- Does the constant at the index load as two slots? -/
def loadsTwoSlots (pool : ConstantPool) (i : UInt16) : Bool :=
  match pool.get? i with
  | some (.long _) | some (.double _) => true
  | _ => false

/-- Is there a class at the index? -/
def isClass (pool : ConstantPool) (i : UInt16) : Bool :=
  match pool.get? i with
  | some (.classRef _) => true
  | _ => false

/-- The width of the field that an instruction names. -/
def fieldSlots (pool : ConstantPool) (pc : Nat) (i : UInt16) : BodyCheck Nat :=
  match pool.memberAt i with
  | .error _ => throw (.badConstant pc i)
  | .ok member =>
    if member.kind ≠ .field then throw (.badConstant pc i)
    else
      match JavaType.ofDescriptor? member.descriptor with
      | none | some .void => throw (.badConstant pc i)
      | some t => pure t.slots

/-- May the call instruction name a member of this kind? -/
def callsKind (op : Opcode) (kind : MemberKind) : Bool :=
  match op with
  | .invokeinterface => kind == .interfaceMethod
  | .invokevirtual => kind == .method
  | _ => kind != .field

/-- The type of the method that a call instruction names. -/
def calledType (pool : ConstantPool) (op : Opcode) (pc : Nat) (i : UInt16) :
    BodyCheck MethodType :=
  match pool.memberAt i with
  | .error _ => throw (.badConstant pc i)
  | .ok member =>
    if callsKind op member.kind then
      match MethodType.ofDescriptor? member.descriptor with
      | none => throw (.badConstant pc i)
      | some type => pure type
    else throw (.badConstant pc i)

/-- The stack effect of a call. An interface call repeats its argument slots in an operand. -/
def callEffect (pool : ConstantPool) (code : Array UInt8) (op : Opcode) (pc : Nat) :
    BodyCheck StackEffect := do
  let i ← wordAt code (pc + 1)
  let type ← calledType pool op pc i
  if op = .invokeinterface then
    let repeated ← byteAt code (pc + 3)
    let slots ← ofCount (type.callWord true)
    if repeated.toNat ≠ slots then throw (.badConstant pc i)
  let popped ← ofCount (type.callWord (op ≠ .invokestatic))
  return ⟨popped, type.retSlots⟩

/-- The stack effect of the instruction at `pc`. -/
def effectAt (pool : ConstantPool) (code : Array UInt8) (op : Opcode) (pc : Nat) :
    BodyCheck StackEffect :=
  match op.fixedEffect? with
  | some effect =>
    match op with
    | .new | .anewarray | .checkcast | .instanceof => do
      let i ← wordAt code (pc + 1)
      if isClass pool i then return effect else throw (.badConstant pc i)
    | _ => pure effect
  | none =>
    match op with
    | .ldc => do
      let i := (← byteAt code (pc + 1)).toUInt16
      if loadsOneSlot pool i then return ⟨0, 1⟩ else throw (.badConstant pc i)
    | .ldcW => do
      let i ← wordAt code (pc + 1)
      if loadsOneSlot pool i then return ⟨0, 1⟩ else throw (.badConstant pc i)
    | .ldc2W => do
      let i ← wordAt code (pc + 1)
      if loadsTwoSlots pool i then return ⟨0, 2⟩ else throw (.badConstant pc i)
    | .getstatic => do return ⟨0, ← fieldSlots pool pc (← wordAt code (pc + 1))⟩
    | .putstatic => do return ⟨← fieldSlots pool pc (← wordAt code (pc + 1)), 0⟩
    | .getfield => do return ⟨1, ← fieldSlots pool pc (← wordAt code (pc + 1))⟩
    | .putfield => do return ⟨1 + (← fieldSlots pool pc (← wordAt code (pc + 1))), 0⟩
    | _ => callEffect pool code op pc

/-- Does the return instruction fit the return type? Other instructions always do. -/
def returnFits (op : Opcode) (ret : JavaType) : Bool :=
  match op with
  | .returnVoid => ret.isVoid
  | .ireturn => ret.isIntLike
  | .lreturn => ret == .long
  | .freturn => ret == .float
  | .dreturn => ret == .double
  | .areturn => ret.isReference
  | _ => true

end Inspection

end ClassForge
