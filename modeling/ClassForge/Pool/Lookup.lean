import ClassForge.ClassFile.ReadError
import ClassForge.Pool.Basic

/-!
# Following constants

An index is followed through the pool to the texts it stands for. Each step fails with the index
at fault: one that names nothing, or one that names a constant of another kind.
-/

namespace ClassForge

/-- The kinds of members that a class file refers to. -/
inductive MemberKind where
  | field
  | method
  | interfaceMethod
deriving DecidableEq

/-- A member reference with its texts. -/
structure MemberRef where
  kind : MemberKind
  /-- Internal name of the class that owns the member. -/
  owner : String
  name : String
  descriptor : String
deriving DecidableEq

namespace ConstantPool

/-- The text at an index. -/
def utf8At (p : ConstantPool) (i : UInt16) : Except ReadError String :=
  match p.get? i with
  | some (.utf8 text) => .ok text
  | some _ => .error (.wrongKind i "Utf8")
  | none => .error (.badIndex i)

/-- The internal name of the class at an index. -/
def classAt (p : ConstantPool) (i : UInt16) : Except ReadError String :=
  match p.get? i with
  | some (.classRef name) => p.utf8At name
  | some _ => .error (.wrongKind i "Class")
  | none => .error (.badIndex i)

/-- The string literal at an index. -/
def stringAt (p : ConstantPool) (i : UInt16) : Except ReadError String :=
  match p.get? i with
  | some (.stringRef text) => p.utf8At text
  | some _ => .error (.wrongKind i "String")
  | none => .error (.badIndex i)

/-- Kind, owner index and name-and-type index of the member reference at an index. -/
def memberIndices (p : ConstantPool) (i : UInt16) :
    Except ReadError (MemberKind × UInt16 × UInt16) :=
  match p.get? i with
  | some (.fieldRef owner nameAndType) => .ok (.field, owner, nameAndType)
  | some (.methodRef owner nameAndType) => .ok (.method, owner, nameAndType)
  | some (.interfaceMethodRef owner nameAndType) => .ok (.interfaceMethod, owner, nameAndType)
  | some _ => .error (.wrongKind i "member reference")
  | none => .error (.badIndex i)

/-- Name and descriptor indices of the name-and-type constant at an index. -/
def nameAndTypeIndices (p : ConstantPool) (i : UInt16) : Except ReadError (UInt16 × UInt16) :=
  match p.get? i with
  | some (.nameAndType name descriptor) => .ok (name, descriptor)
  | some _ => .error (.wrongKind i "NameAndType")
  | none => .error (.badIndex i)

/-- The member reference at an index, with its texts. -/
def memberAt (p : ConstantPool) (i : UInt16) : Except ReadError MemberRef := do
  let (kind, owner, nameAndType) ← p.memberIndices i
  let (name, descriptor) ← p.nameAndTypeIndices nameAndType
  let owner ← p.classAt owner
  let name ← p.utf8At name
  let descriptor ← p.utf8At descriptor
  return ⟨kind, owner, name, descriptor⟩

end ConstantPool

end ClassForge
