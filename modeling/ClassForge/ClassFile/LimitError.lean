/-!
# Limits of the class-file format

What can go wrong while a class is assembled: the format counts entries, code bytes and branch
offsets in 16 bits, and the receiver of the bytes may refuse them.
-/

namespace ClassForge

/-- A limit of the class-file format that a class exceeds. -/
inductive LimitError where
  /-- More constants than an index can address. -/
  | poolFull
  /-- A branch offset that does not fit 16 bits. -/
  | branchTooFar (site target : Nat)
  /-- A branch to a label that has no place. -/
  | labelUnplaced (label : Nat)
  /-- A method body beyond the code limit. -/
  | codeTooLong (length : Nat)
  /-- A text constant beyond the length limit. -/
  | textTooLong (length : Nat)
  /-- More members of one kind than a count can hold. -/
  | tooMany (members : String) (count : Nat)
  /-- The receiver of the bytes failed. -/
  | sinkFailed (reason : String)
deriving DecidableEq

/-- The text that reports an exceeded limit. -/
def LimitError.message : LimitError → String
  | .poolFull => "constant pool overflow: more than 65535 entries"
  | .branchTooFar site target => s!"branch at offset {site} cannot reach offset {target}"
  | .labelUnplaced label => s!"label {label} was never placed"
  | .codeTooLong length => s!"method code is {length} bytes, exceeding the 65535 byte limit"
  | .textTooLong length => s!"string constant of {length} bytes exceeds the 65535 byte limit"
  | .tooMany members count => s!"too many {members}: {count}"
  | .sinkFailed reason => s!"i/o error writing class file: {reason}"

end ClassForge
