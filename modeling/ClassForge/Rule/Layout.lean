import ClassForge.Rule.Binding

/-!
# Layout of bindings

Where the generated class keeps the value of each binding. The layout is planned once and shared
by all methods and both strategies.

* An alias has no storage, the helper binding is the adapter itself, all others have a field.
* A field whose declared type the adapter cannot access holds an object instead
  (`Storage.field` with `generalized`).
-/

namespace ClassForge

/-- Tells which types the generated class cannot access. -/
structure AccessPolicy where
  /-- Is the type out of reach for the generated class? -/
  hides : JavaType → Bool

namespace AccessPolicy

/-- Every type is accessible. -/
def unrestricted : AccessPolicy := ⟨fun _ => false⟩

/-- The given classes are inaccessible, and so are arrays of them. Names come in either
spelling. -/
def concealing (classes : List String) : AccessPolicy :=
  let hidden := classes.map internalName
  ⟨fun t => match t.elementClass? with
    | some name => hidden.contains name
    | none => false⟩

end AccessPolicy

/-- Where the value of a binding lives. -/
inductive Storage where
  /-- Nowhere: reads and writes go to the aliased binding. -/
  | none
  /-- The value is the adapter itself. -/
  | adapter
  /-- A private field; if generalized, it holds an object and values are stored as they are. -/
  | field (name : String) (type : JavaType) (generalized : Bool)
deriving DecidableEq

namespace Storage

/-- Is it a field? -/
def isField : Storage → Bool
  | .field .. => true
  | _ => false

/-- Is it a field that holds an object in place of its declared type? -/
def isGeneralized : Storage → Bool
  | .field _ _ generalized => generalized
  | _ => false

/-- The storage of a binding. -/
def plan (policy : AccessPolicy) (b : Binding) : Storage :=
  if b.isAlias then .none
  else if b.isHelper then .adapter
  else if policy.hides b.type then .field b.fieldName .anyObject true
  else .field b.fieldName b.type false

end Storage

/-- A binding with its storage. -/
structure PlannedBinding where
  binding : Binding
  storage : Storage
deriving DecidableEq

namespace PlannedBinding

/-- The type of the value once it is loaded. -/
def valueType (p : PlannedBinding) : JavaType :=
  match p.storage with
  | .field _ type _ => type
  | _ => p.binding.type

/-- Is a value converted between object and storage? -/
def needsConversion (p : PlannedBinding) : Bool := !p.storage.isGeneralized

end PlannedBinding

/-- All bindings with their storage, in declaration order. -/
abbrev Layout : Type := List PlannedBinding

namespace Layout

/-- Plans the storage of every binding. -/
def plan (policy : AccessPolicy) (bindings : List Binding) : Layout :=
  bindings.map fun b => ⟨b, Storage.plan policy b⟩

/-- The bindings with a field. -/
def fields (l : Layout) : List PlannedBinding := l.filter (·.storage.isField)

/-- The first binding of the given name that is not an alias. -/
def find? (l : Layout) (name : String) : Option PlannedBinding :=
  List.find? (fun p => p.binding.name == name && p.storage != .none) l

end Layout

end ClassForge
