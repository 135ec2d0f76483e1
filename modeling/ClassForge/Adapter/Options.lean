import ClassForge.Adapter.EngineNames
import ClassForge.ClassFile.Header
import ClassForge.Text.Blank

/-!
# Options

Options of adapter generation, and how variables override them: flags accept a few words in any
case, and anything else leaves the default.
-/

namespace ClassForge

/-- Options of adapter generation. -/
structure Options where
  /-- Does an adapter trace its runs? -/
  trace : Bool := true
  /-- Is every generated class inspected? -/
  inspect : Bool := true
  /-- The directory to write generated classes to. -/
  dumpDir : Option String := none
  /-- Version of generated classes. -/
  version : ClassVersion := .java5
  /-- Names of the rule engine. -/
  names : EngineNames := {}
deriving DecidableEq

namespace Options

/-- The variable that names the dump directory. -/
def dumpDirVar : String := "RULEGEN_DUMP_DIR"

/-- The variable that turns inspection on or off. -/
def inspectVar : String := "RULEGEN_VERIFY"

/-- The variable that turns tracing on or off. -/
def traceVar : String := "RULEGEN_TRACE"

/-- The truth value that a word stands for. -/
def flag? (value : String) : Option Bool :=
  let word := String.ofList ((trimBlanks value.toList).map lowerAscii)
  if ["1", "true", "yes", "on"].contains word then some true
  else if ["0", "false", "no", "off"].contains word then some false
  else none

/-- The defaults, overridden by variables. A blank directory counts as none. -/
def ofVariables (lookup : String → Option String) : Options where
  dumpDir := (lookup dumpDirVar).filter fun dir => trimBlanks dir.toList ≠ []
  inspect := ((lookup inspectVar).bind flag?).getD true
  trace := ((lookup traceVar).bind flag?).getD true

end Options

end ClassForge
