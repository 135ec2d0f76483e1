import ClassForge.MethodType
import ClassForge.Opcode

/-!
# Defects

A defect is a broken promise of the code that drives the library: an unbalanced operand stack, a
label placed twice, a count that leaves 16 bits. It ends the work at once and is kept apart from
the errors that a well-behaved caller has to expect.
-/

namespace ClassForge

/-- The largest number a 16-bit word holds. -/
def wordMax : Nat := 65535

/-- A broken promise of the driving code. -/
inductive Defect where
  /-- A 16-bit count left its range. -/
  | wordOverflow
  /-- More slots popped than the stack holds. -/
  | poppedTooMany (count depth : Nat)
  /-- Slots left where a statement ends. -/
  | slotsLeft (depth : Nat)
  /-- More local slots released than are in use. -/
  | releasedTooMany (count locals : Nat)
  /-- An instruction with operands emitted without them. -/
  | operandsMissing (op : Opcode)
  /-- An instruction whose effect a constant decides, emitted without one. -/
  | effectUnknown (op : Opcode)
  /-- A local slot that one operand byte cannot address. -/
  | slotTooWide (slot : Nat)
  /-- A cast to something that is no reference type. -/
  | castTarget (type : JavaType)
  /-- A type test against something that is no reference type. -/
  | testTarget (type : JavaType)
  /-- A reference array of something that is no reference type. -/
  | arrayElement (type : JavaType)
  /-- A branch emitted with an instruction that is no short branch. -/
  | notShortBranch (op : Opcode)
  /-- A pending branch recorded for an instruction that is no short branch. -/
  | branchForm
  /-- A label that does not belong to the body. -/
  | foreignLabel (label : Nat)
  /-- A label placed a second time. -/
  | labelPlacedTwice (label : Nat)
  /-- Falling through to a label with another depth than a branch to it. -/
  | labelDepth (label branch fallThrough : Nat)
  /-- A label after dead code that no branch reaches. -/
  | labelUnreachable (label : Nat)
  /-- A branch to a label with another depth than is expected there. -/
  | branchDepth (label expected found : Nat)
  /-- A condition that does not leave exactly one slot. -/
  | conditionDepth (depth : Nat)
  /-- A read outside the code of a method. -/
  | readOutsideCode (offset : Nat)
  /-- A walk over the code that takes more steps than it has instructions for. -/
  | walkUnfinished
deriving DecidableEq

namespace Defect

/-- The text that reports a defect. -/
def message : Defect → String
  | .wordOverflow => "attempt to add with overflow"
  | .poppedTooMany count depth =>
    s!"unexpected stack count: popping {count} from depth {depth}"
  | .slotsLeft depth => s!"unexpected stack count: {depth} slots left at statement boundary"
  | .releasedTooMany count locals => s!"releasing {count} of {locals} locals"
  | .operandsMissing op => s!"{op.mnemonic} needs operands; use its dedicated emitter"
  | .effectUnknown op => s!"{op.mnemonic} has no fixed stack effect"
  | .slotTooWide slot => s!"local slot {slot} needs wide addressing"
  | .castTarget type => s!"checkcast to non-reference type {type.display}"
  | .testTarget type => s!"instanceof non-reference type {type.display}"
  | .arrayElement type => s!"anewarray of non-reference type {type.display}"
  | .notShortBranch op => s!"{op.mnemonic} is not a short branch"
  | .branchForm => "assertion failed: op.is_branch() && op != Opcode::GotoW"
  | .foreignLabel label => s!"label {label} does not belong to this body"
  | .labelPlacedTwice label => s!"label {label} placed twice"
  | .labelDepth label branch fallThrough =>
    s!"unexpected stack count at label {label}: branch depth {branch}, " ++
      s!"fall-through depth {fallThrough}"
  | .labelUnreachable label =>
    s!"unexpected stack count at label {label}: unreachable with no incoming branch"
  | .branchDepth label expected found =>
    s!"unexpected stack count branching to label {label}: expected {expected}, found {found}"
  | .conditionDepth depth =>
    s!"unexpected stack count: condition left {depth} slots, expected 1"
  | .readOutsideCode offset => s!"offset {offset} is outside the code"
  | .walkUnfinished => "the walk over the code did not finish"

/-- The count itself while it fits a 16-bit word. -/
def checkWord (n : Nat) : Except Defect Nat :=
  if n ≤ wordMax then .ok n else .error .wordOverflow

end Defect

/-- Operand slots of a call's arguments, which have to fit a 16-bit word. -/
def MethodType.argWord (m : MethodType) : Except Defect Nat := Defect.checkWord m.argSlots

/-- Operand slots of a call's arguments and its receiver, both sums within a 16-bit word. -/
def MethodType.callWord (m : MethodType) (receiver : Bool) : Except Defect Nat := do
  let args ← m.argWord
  Defect.checkWord (args + if receiver then 1 else 0)

end ClassForge
