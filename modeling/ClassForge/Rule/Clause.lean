import ClassForge.Cause
import ClassForge.Emission.Convert
import ClassForge.Rule.Layout

/-!
# Rules and their clauses

A rule has three clauses: its event binds variables, its condition decides, its action acts. A
clause can write its own code into the adapter; it reaches bindings through the `AdapterView`.

* `AdapterView.loadBinding` and `AdapterView.storeBinding` read and write the first binding of a
  name that is not an alias.
* A condition has to leave one `int`, the other clauses nothing.
-/

namespace ClassForge

/-- Code that may refuse to compile. What was interned before stays in the pool. -/
abbrev ClauseEmit (α : Type) : Type := ExceptT Cause (StateT Emitter (Except Defect)) α

/-- The adapter under construction, as clauses see it. -/
structure AdapterView where
  /-- Internal name of the adapter. -/
  className : String
  layout : Layout

namespace AdapterView

/-- A name without a stored binding. -/
def unknownBinding (name : String) : Cause :=
  .clause "binding" s!"no stored binding named '{name}'"

/-- The storage of the first binding of a name. -/
def storage? (v : AdapterView) (name : String) : Option Storage :=
  (v.layout.find? name).map (·.storage)

/-- Pushes the value of a binding, and answers its type. -/
def loadBinding (v : AdapterView) (name : String) : ClauseEmit JavaType :=
  match v.layout.find? name with
  | none => throw (unknownBinding name)
  | some planned => do
    Emitter.loadRef 0
    match planned.storage with
    | .field field type _ => Emitter.getField v.className field type
    | _ => pure ()
    return planned.valueType

/-- Stores into a binding the value that `value` pushes, given the type of the field. Answers what
`value` answers. -/
def storeBinding {α : Type} (v : AdapterView) (name : String)
    (value : JavaType → ClauseEmit α) : ClauseEmit α :=
  match v.storage? name with
  | some (.field field type _) => do
    Emitter.loadRef 0
    let answer ← value type
    Emitter.putField v.className field type
    return answer
  | _ => throw (unknownBinding name)

end AdapterView

/-- A clause of a rule, by the code it writes. -/
structure Clause where
  compile : AdapterView → ClauseEmit Unit

namespace Clause

/-- The clause without code. -/
def skip : Clause := ⟨fun _ => pure ()⟩

/-- The condition that always holds. -/
def always : Clause := ⟨fun _ => Emitter.intConst 1⟩

end Clause

/-- A rule, as the generator sees it. -/
structure Rule where
  name : String
  /-- Bindings in declaration order. -/
  bindings : List Binding := []
  event : Clause := .skip
  condition : Clause := .always
  action : Clause := .skip
  /-- Path of the script that declares the rule. -/
  file : String
  /-- Line of the script where the rule starts. -/
  line : UInt32
  policy : AccessPolicy := .unrestricted
  /-- Name of the loader that defines the helper class. -/
  loader : String

namespace Rule

/-- The storage of the rule's bindings. -/
def layout (r : Rule) : Layout := Layout.plan r.policy r.bindings

/-- The script's name without its directories: what follows the last slash or backslash. -/
def fileName (r : Rule) : String :=
  String.ofList (r.file.toList.reverse.takeWhile fun c => c ≠ '/' ∧ c ≠ '\\').reverse

end Rule

end ClassForge
