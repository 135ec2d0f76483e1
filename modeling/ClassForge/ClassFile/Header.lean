/-!
# Class headers

Version numbers and access flags.
-/

namespace ClassForge

/-- The number every class file starts with. -/
def classMagic : UInt32 := 0xcafebabe

/-- Version of the class-file format. -/
structure ClassVersion where
  major : UInt16
  minor : UInt16
deriving DecidableEq, Repr

namespace ClassVersion

/-- The last version whose bodies need no stack maps. -/
def java5 : ClassVersion := ⟨49, 0⟩

/-- Do bodies of this version need stack maps? -/
def requiresStackMaps (v : ClassVersion) : Bool := 51 ≤ v.major

end ClassVersion

/-- Access and property flags of classes, fields and methods. All sixteen bits are kept. -/
structure AccessFlags where
  bits : UInt16
deriving DecidableEq, Repr

namespace AccessFlags

def publicFlag : AccessFlags := ⟨0x0001⟩

def privateFlag : AccessFlags := ⟨0x0002⟩

def staticFlag : AccessFlags := ⟨0x0008⟩

/-- Marks classes whose superclass calls are resolved the modern way. -/
def superFlag : AccessFlags := ⟨0x0020⟩

def nativeFlag : AccessFlags := ⟨0x0100⟩

def abstractFlag : AccessFlags := ⟨0x0400⟩

/-- The flags of both. -/
def union (a b : AccessFlags) : AccessFlags := ⟨a.bits ||| b.bits⟩

/-- Are all flags of the second set? -/
def contains (a b : AccessFlags) : Bool := a.bits &&& b.bits == b.bits

/-- Do both share a flag? -/
def meets (a b : AccessFlags) : Bool := a.bits &&& b.bits != 0

/-- Is it a member without a receiver? -/
def isStatic (a : AccessFlags) : Bool := a.contains staticFlag

/-- May the method do without a body? -/
def isBodyless (a : AccessFlags) : Bool := a.meets (abstractFlag.union nativeFlag)

end AccessFlags

end ClassForge
