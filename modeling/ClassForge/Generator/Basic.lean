import ClassForge.Adapter.Build
import ClassForge.Generator.FileTree
import ClassForge.Inspection.Report

/-!
# The adapter generator

Making an adapter takes a fresh class name, builds the class, inspects it if the options ask for
that, writes it to the dump directory if there is one, and has it defined if it is to be loaded.

A name is used up by every request, also by one that fails.
-/

namespace ClassForge

/-! ### Names -/

/-- The name of the adapter with the given number. -/
def adapterName (helper : HelperClass) (strategy : Strategy) (number : Nat) : String :=
  s!"{helper.name}_HelperAdapter_{strategy.tag}_{number}"

/-- The numbers of generated classes: the next one to be used. After 2^64 of them they start
over. -/
structure NameSupply where
  next : UInt64 := 0

/-- A fresh class name. -/
def NameSupply.take (s : NameSupply) (helper : HelperClass) (strategy : Strategy) :
    String × NameSupply :=
  (adapterName helper strategy s.next.toNat, ⟨s.next + 1⟩)

/-! ### Classes -/

/-- A generated class. -/
structure GeneratedClass where
  /-- Internal name. -/
  name : String
  /-- The class file. -/
  bytes : List UInt8

/-- The name that class loaders use. -/
def GeneratedClass.externalName (c : GeneratedClass) : String := binaryName c.name

/-- A defined class: its name, its loader, and what its module system finds it by. -/
structure ClassHandle where
  name : String
  loader : String
  token : Nat
deriving DecidableEq

/-- Defines classes, keeping a state between definitions. -/
structure ModuleSystem (σ : Type) where
  /-- Defines a class file under a name in a loader. -/
  define : σ → (loader name : String) → List UInt8 → Except LoadError ClassHandle × σ

/-! ### Requests -/

/-- A failed adapter. -/
structure AdapterError where
  /-- The helper class as messages show it. -/
  helper : String
  strategy : Strategy
  cause : Cause
deriving DecidableEq

/-- The text that reports a failed adapter. -/
def AdapterError.message (e : AdapterError) : String :=
  s!"exception creating {e.strategy.display} helper adapter for {e.helper}: {e.cause.message}"

/-- What lasts between requests: the supply of names and the dumped files. -/
structure Workshop where
  names : NameSupply := {}
  files : FileTree := {}

/-- The outcome of a request: a defect, a failure or a result. -/
abbrev Outcome (α : Type) : Type := Except Defect (Except AdapterError α)

namespace Options

/-- Builds an adapter, and inspects it if asked to. -/
def buildChecked (o : Options) (rule : Rule) (helper : HelperClass) (strategy : Strategy)
    (className : String) : Except Defect (Except Cause (List UInt8)) :=
  match AdapterPlan.build ⟨rule, helper, className, strategy, o⟩ with
  | .error defect => .error defect
  | .ok (.error cause) => .ok (.error cause)
  | .ok (.ok bytes) =>
    if o.inspect then
      match (Inspection.inspectClass bytes).run with
      | .error defect => .error defect
      | .ok (.error e) => .ok (.error (.inspection e))
      | .ok (.ok _) => .ok (.ok bytes)
    else .ok (.ok bytes)

/-- Writes a class to the dump directory, if there is one. -/
def dumpClass (o : Options) (files : FileTree) (c : GeneratedClass) : FileTree :=
  match o.dumpDir with
  | none => files
  | some dir => (files.dump dir c.name c.bytes).2

/-- Makes an adapter without loading it. -/
def generate (o : Options) (rule : Rule) (helper : HelperClass) (strategy : Strategy)
    (w : Workshop) : Outcome GeneratedClass × Workshop :=
  let (className, names) := w.names.take helper strategy
  match o.buildChecked rule helper strategy className with
  | .error defect => (.error defect, { w with names })
  | .ok (.error cause) => (.ok (.error ⟨helper.displayName, strategy, cause⟩), { w with names })
  | .ok (.ok bytes) =>
    let c : GeneratedClass := ⟨className, bytes⟩
    (.ok (.ok c), { names, files := o.dumpClass w.files c })

/-- Makes an adapter and has it defined in the loader of its rule. -/
def generateLoaded {σ : Type} (o : Options) (modules : ModuleSystem σ) (rule : Rule)
    (helper : HelperClass) (strategy : Strategy) (w : Workshop) (s : σ) :
    Outcome (GeneratedClass × ClassHandle) × Workshop × σ :=
  match o.generate rule helper strategy w with
  | (.error defect, w) => (.error defect, w, s)
  | (.ok (.error e), w) => (.ok (.error e), w, s)
  | (.ok (.ok c), w) =>
    match modules.define s rule.loader c.externalName c.bytes with
    | (.error e, s) => (.ok (.error ⟨helper.displayName, strategy, .load e⟩), w, s)
    | (.ok handle, s) => (.ok (.ok (c, handle)), w, s)

end Options

end ClassForge
