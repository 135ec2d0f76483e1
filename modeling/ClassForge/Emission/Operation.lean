import ClassForge.Emission.Convert

/-!
# Emitter operations as data

The operations on an emitter as values, so that a body can be given as a list of them. Labels are
numbered in the order of their creation, so a list can name the labels that it creates.
-/

namespace ClassForge

/-- An operation on the body under construction. -/
inductive Operation where
  | emit (op : Opcode)
  | nullConst
  | intConst (value : Int32)
  | longConst (value : Int64)
  | floatConst (bits : UInt32)
  | doubleConst (bits : UInt64)
  | textConst (text : String)
  | zeroOf (type : JavaType)
  | load (type : JavaType) (slot : Nat)
  | store (type : JavaType) (slot : Nat)
  | loadRef (slot : Nat)
  | storeRef (slot : Nat)
  | increment (slot : Nat) (delta : Int8)
  | popValue (type : JavaType)
  | dupValue (type : JavaType)
  | getField (owner name : String) (type : JavaType)
  | putField (owner name : String) (type : JavaType)
  | getStatic (owner name : String) (type : JavaType)
  | putStatic (owner name : String) (type : JavaType)
  | invokeVirtual (owner name : String) (type : MethodType)
  | invokeSpecial (owner name : String) (type : MethodType)
  | invokeStatic (owner name : String) (type : MethodType)
  | invokeInterface (owner name : String) (type : MethodType)
  | newObject (name : String)
  | checkCast (type : JavaType)
  | instanceOf (type : JavaType)
  | newRefArray (element : JavaType)
  | newLabel
  | branch (op : Opcode) (l : Label)
  | goto (l : Label)
  | placeLabel (l : Label)
  | returnValue (type : JavaType)
  | noteLine (line : UInt32)
  | noteEnd
  | convert (source target : JavaType)
  | checkBalanced

namespace Operation

/-- Performs an operation. -/
def run : Operation → Emit Unit
  | .emit op => Emitter.emit op
  | .nullConst => Emitter.nullConst
  | .intConst value => Emitter.intConst value
  | .longConst value => Emitter.longConst value
  | .floatConst bits => Emitter.floatConst bits
  | .doubleConst bits => Emitter.doubleConst bits
  | .textConst text => Emitter.textConst text
  | .zeroOf type => Emitter.zeroOf type
  | .load type slot => Emitter.load type slot
  | .store type slot => Emitter.store type slot
  | .loadRef slot => Emitter.loadRef slot
  | .storeRef slot => Emitter.storeRef slot
  | .increment slot delta => Emitter.increment slot delta
  | .popValue type => Emitter.popValue type
  | .dupValue type => Emitter.dupValue type
  | .getField owner name type => Emitter.getField owner name type
  | .putField owner name type => Emitter.putField owner name type
  | .getStatic owner name type => Emitter.getStatic owner name type
  | .putStatic owner name type => Emitter.putStatic owner name type
  | .invokeVirtual owner name type => Emitter.invokeVirtual owner name type
  | .invokeSpecial owner name type => Emitter.invokeSpecial owner name type
  | .invokeStatic owner name type => Emitter.invokeStatic owner name type
  | .invokeInterface owner name type => Emitter.invokeInterface owner name type
  | .newObject name => Emitter.newObject name
  | .checkCast type => Emitter.checkCast type
  | .instanceOf type => Emitter.instanceOf type
  | .newRefArray element => Emitter.newRefArray element
  | .newLabel => do
    let _ ← Emitter.newLabel
  | .branch op l => Emitter.branch op l
  | .goto l => Emitter.goto l
  | .placeLabel l => Emitter.placeLabel l
  | .returnValue type => Emitter.returnValue type
  | .noteLine line => Emitter.noteLine line
  | .noteEnd => Emitter.noteEnd
  | .convert source target => Emitter.convert source target
  | .checkBalanced => Emitter.checkBalanced

/-- Performs operations in order. -/
def runAll : List Operation → Emit Unit
  | [] => pure ()
  | op :: rest => do
    op.run
    runAll rest

end Operation

end ClassForge
