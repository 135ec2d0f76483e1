import ClassForge.ClassFile.ReadError

/-!
# Inspection errors

Why a class does not pass the inspection: it cannot be read, or the body of one of its methods is
at fault.
-/

namespace ClassForge

/-- What is wrong with a method body. -/
inductive BodyFault where
  /-- A method that needs a body has none. -/
  | missing
  /-- A code byte outside the instruction set. -/
  | unknownOpcode (pc : Nat) (code : UInt8)
  /-- Operands that run past the end of the code. -/
  | truncated (pc : Nat)
  /-- An instruction that pops more than the stack holds. -/
  | stackUnderflow (pc : Nat)
  /-- A stack deeper than declared. -/
  | stackOverflow (pc depth declared : Nat)
  /-- Two paths that reach an instruction with different depths. -/
  | depthClash (pc first second : Nat)
  /-- A branch to something that is no instruction. -/
  | badTarget (pc : Nat) (target : Int)
  /-- A local variable outside the declared slots. -/
  | localOutOfRange (pc index declared : Nat)
  /-- A path that runs past the last instruction. -/
  | fallsOffEnd
  /-- An operand that names no usable constant. -/
  | badConstant (pc : Nat) (index : UInt16)
  /-- A return that does not fit the method's return type. -/
  | returnMismatch (pc : Nat)
  /-- A line-table entry that points at no instruction. -/
  | badLine (pc : Nat)
deriving DecidableEq

/-- The text that reports a fault of a body. -/
def BodyFault.message : BodyFault → String
  | .missing => "missing Code attribute"
  | .unknownOpcode pc code => s!"unsupported opcode 0x{hexPadded 2 code.toNat} at {pc}"
  | .truncated pc => s!"truncated instruction at {pc}"
  | .stackUnderflow pc => s!"operand stack underflow at {pc}"
  | .stackOverflow pc depth declared =>
    s!"stack depth {depth} exceeds max_stack {declared} at {pc}"
  | .depthClash pc first second => s!"inconsistent stack depth at {pc} ({first} vs {second})"
  | .badTarget pc target => s!"branch at {pc} targets invalid offset {target}"
  | .localOutOfRange pc index declared =>
    s!"local {index} out of range (max_locals {declared}) at {pc}"
  | .fallsOffEnd => "execution falls off the end of the code"
  | .badConstant pc index => s!"bad constant reference {index.toNat} at {pc}"
  | .returnMismatch pc => s!"return instruction does not match descriptor at {pc}"
  | .badLine pc => s!"line number entry at invalid offset {pc}"

/-- Why a class does not pass the inspection. -/
inductive InspectionError where
  /-- The class, or a descriptor in it, cannot be read. -/
  | unreadable (e : ReadError)
  /-- The body of a method is at fault. -/
  | body (method : String) (fault : BodyFault)
deriving DecidableEq

/-- The text that reports a failed inspection. -/
def InspectionError.message : InspectionError → String
  | .unreadable e => e.message
  | .body method fault => s!"{method}: {fault.message}"

end ClassForge
