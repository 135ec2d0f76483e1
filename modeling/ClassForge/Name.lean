/-!
# Class names

A class has two spellings: the internal one, with slashes between packages (`java/lang/String`),
and the binary one, with dots (`java.lang.String`). Class files use the internal spelling, class
loaders and messages the binary one.
-/

namespace ClassForge

/-- The internal spelling: every dot becomes a slash. -/
def internalName (name : String) : String :=
  name.map fun c => if c = '.' then '/' else c

/-- The binary spelling: every slash becomes a dot. -/
def binaryName (name : String) : String :=
  name.map fun c => if c = '/' then '.' else c

end ClassForge
