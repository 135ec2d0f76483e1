import ClassForge.JavaType

/-!
# Bindings

A binding names a variable of a rule. Its flags tell where the value comes from: the receiver of
the triggering call, its argument array, the helper object itself, the rule's own clause, or
another binding.
-/

namespace ClassForge

/-- Classification of a binding. All eight bits are kept. -/
structure BindingFlags where
  bits : UInt8 := 0
deriving DecidableEq, Repr

namespace BindingFlags

/-- Refers to the storage of another binding. -/
def aliasing : BindingFlags := ⟨1⟩

/-- Refers to the helper object itself. -/
def helper : BindingFlags := ⟨2⟩

/-- The receiver of the triggering call. -/
def recipient : BindingFlags := ⟨4⟩

/-- Declared by the rule; neither copied from nor to the call. -/
def bindVar : BindingFlags := ⟨8⟩

/-- Assigned by the rule; copied back to the call. -/
def updated : BindingFlags := ⟨16⟩

/-- The flags of both. -/
def union (a b : BindingFlags) : BindingFlags := ⟨a.bits ||| b.bits⟩

/-- Are all flags of the second set? -/
def contains (a b : BindingFlags) : Bool := a.bits &&& b.bits == b.bits

end BindingFlags

/-- A named variable of a rule. -/
structure Binding where
  /-- The name by which rules know it. -/
  name : String
  /-- Declared type. -/
  type : JavaType
  /-- Name of the field that stores it. -/
  fieldName : String := name
  /-- Index into the argument array of the triggering call. -/
  argIndex : UInt16 := 0
  flags : BindingFlags := {}
deriving DecidableEq

namespace Binding

/-- The binding with further flags. -/
def withFlags (b : Binding) (flags : BindingFlags) : Binding :=
  { b with flags := b.flags.union flags }

def isAlias (b : Binding) : Bool := b.flags.contains .aliasing

def isHelper (b : Binding) : Bool := b.flags.contains .helper

def isRecipient (b : Binding) : Bool := b.flags.contains .recipient

def isBindVar (b : Binding) : Bool := b.flags.contains .bindVar

def isUpdated (b : Binding) : Bool := b.flags.contains .updated

end Binding

end ClassForge
