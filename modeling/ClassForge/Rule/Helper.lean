import ClassForge.MethodType

/-!
# Helper classes

An adapter extends the helper class of its rule. All that matters of the helper is its name and
the constructors it declares.

`SuperConstructor.choose` picks the constructor that the adapter calls: the one that takes the
rule, else the one without parameters. A private one is refused even if the other would do.
-/

namespace ClassForge

/-- Access level of a class member. -/
inductive MemberAccess where
  | publicMember
  | protectedMember
  | packageMember
  | privateMember
deriving DecidableEq

/-- May a subclass in the same package use the member? -/
def MemberAccess.isInherited : MemberAccess → Bool
  | .privateMember => false
  | _ => true

/-- A constructor that a helper class declares. -/
structure ConstructorDecl where
  params : List JavaType
  access : MemberAccess
deriving DecidableEq

/-- The helper class of a rule. -/
structure HelperClass where
  /-- Internal name. -/
  name : String
  constructors : List ConstructorDecl := []
deriving DecidableEq

namespace HelperClass

/-- A helper class by its name in either spelling. -/
def ofName (name : String) (constructors : List ConstructorDecl) : HelperClass :=
  ⟨internalName name, constructors⟩

/-- The name as messages show it. -/
def displayName (h : HelperClass) : String := binaryName h.name

/-- The first constructor with exactly these parameter types. -/
def constructor? (h : HelperClass) (params : List JavaType) : Option ConstructorDecl :=
  h.constructors.find? (·.params == params)

end HelperClass

/-- The helper's constructor that an adapter calls. -/
inductive SuperConstructor where
  /-- The one that takes the rule. -/
  | withRule
  /-- The one without parameters. -/
  | plain
deriving DecidableEq

/-- Why a helper class has no constructor to call. -/
inductive ConstructorError where
  /-- It declares neither of the two. -/
  | missing
  /-- The one to call is private. -/
  | inaccessible
deriving DecidableEq

namespace SuperConstructor

/-- The type of the constructor. -/
def type (ruleType : JavaType) : SuperConstructor → MethodType
  | .withRule => ⟨[ruleType], .void⟩
  | .plain => .action

/-- Both constructors, the preferred one first. -/
def ranked : List SuperConstructor := [.withRule, .plain]

/-- Picks the first of the given constructors that the helper declares. -/
def chooseFrom (h : HelperClass) (ruleType : JavaType) :
    List SuperConstructor → Except ConstructorError SuperConstructor
  | [] => .error .missing
  | c :: rest =>
    match h.constructor? (c.type ruleType).params with
    | some decl => if decl.access.isInherited then .ok c else .error .inaccessible
    | none => chooseFrom h ruleType rest

/-- The constructor that an adapter of the helper calls. -/
def choose (h : HelperClass) (ruleType : JavaType) : Except ConstructorError SuperConstructor :=
  chooseFrom h ruleType ranked

end SuperConstructor

end ClassForge
