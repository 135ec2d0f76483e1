/-!
# Method bodies

The code of a method with the tables that come with it.
-/

namespace ClassForge

/-- A line-table entry: from this offset on, code belongs to this source line. -/
structure LineEntry where
  /-- Offset of the first instruction of the line. -/
  startPc : UInt16
  /-- Source line. -/
  line : UInt16
deriving DecidableEq, Repr

/-- An exception-table entry. -/
structure Handler where
  /-- First offset that the handler covers. -/
  startPc : UInt16
  /-- First offset that it no longer covers. -/
  endPc : UInt16
  /-- Offset of the handling code. -/
  handlerPc : UInt16
  /-- Index of the class it catches, 0 for all. -/
  catchType : UInt16
deriving DecidableEq, Repr

/-- A finished method body. -/
structure MethodBody where
  /-- Declared depth of the operand stack. -/
  maxStack : UInt16
  /-- Declared number of local slots. -/
  maxLocals : UInt16
  /-- The instructions. -/
  code : Array UInt8
  /-- The exception table. -/
  handlers : List Handler := []
  /-- The line table. -/
  lines : List LineEntry := []
deriving DecidableEq, Repr

end ClassForge
