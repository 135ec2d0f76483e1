import ClassForge.Text.Hex

/-!
# Unreadable class files

Why bytes cannot be read as a class file, or an index into its constants cannot be followed.
-/

namespace ClassForge

/-- A reason why a class file cannot be read. -/
inductive ReadError where
  /-- The bytes end early. -/
  | truncated
  /-- The bytes do not start with the magic number. -/
  | badMagic (found : UInt32)
  /-- A constant of an unknown kind. -/
  | unknownTag (tag : UInt8) (index : Nat)
  /-- An index that names no constant. -/
  | badIndex (index : UInt16)
  /-- A constant of another kind than its use requires. -/
  | wrongKind (index : UInt16) (expected : String)
  /-- A text that is not modified UTF-8. -/
  | badText (index : Nat)
  /-- A method descriptor that cannot be read. -/
  | badDescriptor (text : String)
  /-- Bytes after the end of the class. -/
  | trailing (count : Nat)
deriving DecidableEq

/-- The text that reports an unreadable class file. -/
def ReadError.message : ReadError → String
  | .truncated => "unexpected end of class file"
  | .badMagic found => "bad magic number 0x" ++ hexPadded 8 found.toNat
  | .unknownTag tag index => s!"unknown constant pool tag {tag.toNat} at index {index}"
  | .badIndex index => s!"constant pool index {index.toNat} is invalid"
  | .wrongKind index expected => s!"constant {index.toNat} is not a {expected}"
  | .badText index => s!"invalid modified UTF-8 in constant {index}"
  | .badDescriptor text => s!"malformed descriptor '{text}'"
  | .trailing count => s!"{count} trailing bytes after class file"

end ClassForge
