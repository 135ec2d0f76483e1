import ClassForge.ClassFile.LimitError
import ClassForge.Inspection.Error

/-!
# Why an adapter cannot be made

The causes of a failed adapter, with the texts that report them.
-/

namespace ClassForge

/-- Why a class loader does not define a class. -/
inductive LoadError where
  /-- The loader refuses the class. -/
  | rejected (name loader reason : String)
  /-- The loader has a class of that name. -/
  | duplicate (name : String)
deriving DecidableEq

/-- The text that reports a class that was not defined. -/
def LoadError.message : LoadError → String
  | .rejected name loader reason => s!"class {name} rejected by loader {loader}: {reason}"
  | .duplicate name => s!"class {name} is already defined"

/-- Why an adapter cannot be made. -/
inductive Cause where
  /-- The helper declares no constructor to call. -/
  | noConstructor (helper : String)
  /-- The helper's constructor is private. -/
  | hiddenConstructor (helper : String)
  /-- A limit of the class-file format. -/
  | limit (e : LimitError)
  /-- A clause of the rule refuses to compile. -/
  | clause (clause reason : String)
  /-- The generated class does not pass the inspection. -/
  | inspection (e : InspectionError)
  /-- The class is not defined. -/
  | load (e : LoadError)
deriving DecidableEq

namespace Cause

/-- The text that reports a cause. -/
def message : Cause → String
  | .noConstructor helper => s!"no valid constructor found for helper class {helper}"
  | .hiddenConstructor helper => s!"unable to access constructor for helper class {helper}"
  | .limit e => e.message
  | .clause part reason => s!"{part} failed to compile: {reason}"
  | .inspection e => s!"generated class failed verification: {e.message}"
  | .load e => e.message

/-- Is the helper's constructor the cause? -/
def isConstructor : Cause → Bool
  | .noConstructor _ | .hiddenConstructor _ => true
  | _ => false

end Cause

end ClassForge
