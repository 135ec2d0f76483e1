import ClassForge.Proofs.Inspection.Instruction
import Mathlib.Logic.Relation

/-!
# The machine that runs generated code

A small-step semantics of the instructions that adapters consist of. What a virtual machine brings
along is a parameter, the `Platform`: the class hierarchy, the library, and every method that is
called but not defined here.

* `World` — objects, and fields that hold values of their types;
* `Library` — the three groups of library methods with a fixed meaning: comparing strings, wrapping
  primitives, and taking them out of their wrappers;
* `Machine.step` — one instruction. A failed cast, an access outside of an array and a call on the
  null reference have no next state;
* `Machine.Completes` — a whole method, from its arguments to its result.
-/

namespace ClassForge

/-- Identity of an object. -/
abbrev Ref : Type := Nat

/-- What a stack slot pair, a local variable or a field holds. Numbers with a point are bit
patterns. -/
inductive Value where
  | int (v : Int32)
  | long (v : Int64)
  | float (bits : UInt32)
  | double (bits : UInt64)
  /-- A reference, or the null reference. -/
  | ref (r : Option Ref)
deriving DecidableEq

namespace Value

/-- The null reference. -/
abbrev null : Value := .ref none

/-- Can a variable of the type hold the value? -/
def fits : Value → JavaType → Bool
  | .int _, type => type.isIntLike
  | .long _, type => type == .long
  | .float _, type => type == .float
  | .double _, type => type == .double
  | .ref _, type => type.isReference

/-- Does the value take up two slots? -/
def isWide : Value → Bool
  | .long _ | .double _ => true
  | _ => false

/-- The value of a field that nothing has been stored into. -/
def zero : JavaType → Value
  | .long => .long 0
  | .float => .float 0
  | .double => .double 0
  | .object _ | .array _ => null
  | _ => .int 0

theorem fits_zero {type : JavaType} (h : type ≠ .void) : (zero type).fits type = true := by
  cases type with
  | void => exact absurd rfl h
  | _ => rfl

end Value

/-- An object, by what generated code can tell about it. -/
inductive Obj where
  | text (content : String)
  /-- The wrapper of a primitive. -/
  | box (type : JavaType) (value : Value)
  /-- An array of references, with the class of its elements. -/
  | array (element : String) (items : List (Option Ref))
  /-- An object of any other class. -/
  | other (cls : String)
deriving DecidableEq

/-! ### Worlds -/

/-- Everything outside of a running method. -/
structure World (σ : Type) where
  objects : Ref → Option Obj
  /-- The identity of the next object. -/
  next : Ref
  /-- There is always room for another object. -/
  free : ∀ r, next ≤ r → objects r = none
  /-- The value of a field of an object. -/
  fields : Ref → MemberRef → Value
  /-- Whatever else there is. -/
  hidden : σ
  /-- Fields hold values of their types. -/
  typed : ∀ r (m : MemberRef) type, JavaType.ofDescriptor? m.descriptor = some type →
    type ≠ .void → (fields r m).fits type = true

namespace World

variable {σ : Type}

/-- The world of some objects whose fields nothing has been stored into. -/
def start (objects : List Obj) (hidden : σ) : World σ where
  objects r := objects[r]?
  next := objects.length
  free _ h := List.getElem?_eq_none h
  fields _ m := (JavaType.ofDescriptor? m.descriptor).elim .null .zero
  hidden := hidden
  typed := by
    intro r m type htype hvoid
    rw [htype]
    exact Value.fits_zero hvoid

/-- Can the field hold the value? -/
def admits (m : MemberRef) (v : Value) : Bool :=
  (JavaType.ofDescriptor? m.descriptor).any v.fits

/-- The world with another value in a field, if the field can hold it. -/
def setField? (w : World σ) (r : Ref) (m : MemberRef) (v : Value) : Option (World σ) :=
  if h : admits m v = true then
    some {
      objects := w.objects
      next := w.next
      free := w.free
      fields := fun r' m' => if r' = r ∧ m' = m then v else w.fields r' m'
      hidden := w.hidden
      typed := by
        intro r' m' type htype hvoid
        split
        · rename_i heq
          obtain ⟨-, rfl⟩ := heq
          unfold admits at h
          rwa [htype] at h
        · exact w.typed r' m' type htype hvoid }
  else none

/-- The world with other contents of an object that is there. -/
def setObject (w : World σ) (r : Ref) (o : Obj) : World σ :=
  { w with
    objects := fun r' => if r' = r then (w.objects r).map fun _ => o else w.objects r'
    free := by
      intro r' hr'
      split
      · rename_i heq
        rw [← heq, w.free r' hr']
        rfl
      · exact w.free r' hr' }

/-- The world with a further object. -/
def allocate (w : World σ) (o : Obj) : Ref × World σ :=
  (w.next, { w with
    objects := fun r' => if r' = w.next then some o else w.objects r'
    next := w.next + 1
    free := fun r' hr' => by
      rw [if_neg (Nat.ne_of_gt hr')]
      exact w.free r' (Nat.le_of_succ_le hr') })

/-- The element of an array. -/
def element? (w : World σ) (array : Option Ref) (k : Nat) : Option (Option Ref) :=
  match array.bind w.objects with
  | some (.array _ items) => items[k]?
  | _ => none

/-- The objects that were there are still the same. -/
def Retains (w w' : World σ) : Prop := ∀ r o, w.objects r = some o → w'.objects r = some o

/-- Nothing that was there has changed. -/
structure Keeps (w w' : World σ) : Prop where
  objects : w.Retains w'
  fields : ∀ r, w.objects r ≠ none → ∀ m, w'.fields r m = w.fields r m

variable {w w' w'' : World σ}

theorem Retains.trans (h : w.Retains w') (h' : w'.Retains w'') : w.Retains w'' :=
  fun r o ho => h' r o (h r o ho)

theorem Retains.ne_none (h : w.Retains w') {r : Ref} (hr : w.objects r ≠ none) :
    w'.objects r ≠ none := by
  obtain ⟨o, ho⟩ := Option.ne_none_iff_exists'.1 hr
  rw [h r o ho]
  nofun

theorem Keeps.refl (w : World σ) : w.Keeps w := ⟨fun _ _ h => h, fun _ _ _ => rfl⟩

theorem Keeps.trans (h : w.Keeps w') (h' : w'.Keeps w'') : w.Keeps w'' where
  objects := h.objects.trans h'.objects
  fields r hr m := (h'.fields r (h.objects.ne_none hr) m).trans (h.fields r hr m)

theorem keeps_allocate (w : World σ) (o : Obj) : w.Keeps (w.allocate o).2 where
  objects r o' ho' := by
    have hne : r ≠ w.next := fun heq => by
      rw [w.free r (Nat.le_of_eq heq.symm)] at ho'
      cases ho'
    exact (if_neg hne).trans ho'
  fields _ _ _ := rfl

/-- What storing into a field changes. -/
theorem exists_setField? (w : World σ) (r : Ref) {m : MemberRef} {v : Value}
    (h : admits m v = true) :
    ∃ w', w.setField? r m v = some w' ∧ w'.objects = w.objects ∧
      ∀ r' m', w'.fields r' m' = if r' = r ∧ m' = m then v else w.fields r' m' := by
  unfold setField?
  rw [dif_pos h]
  exact ⟨_, rfl, rfl, fun _ _ => rfl⟩

end World

/-! ### Platforms -/

/-- A virtual machine with its library, as far as the meaning of generated code depends on it. -/
structure Platform (σ : Type) where
  /-- Is the object an instance of the class, which may be that of an array? -/
  isInstance : Obj → String → Bool
  /-- What an array holds does not tell its class. -/
  isInstance_array : ∀ element items items' cls,
    isInstance (.array element items) cls = isInstance (.array element items') cls
  /-- The value that the accessor of a primitive type yields. -/
  number : Obj → JavaType → Value
  number_fits : ∀ o type, type.isPrimitive = true → (number o type).fits type = true
  /-- A wrapper holds what it was made of. -/
  number_box : ∀ type v, v.fits type = true → number (.box type v) type = v
  /-- An object with the given contents: a new one, or one that is there already. -/
  provide : Obj → World σ → Ref × World σ
  provide_objects : ∀ o w, (provide o w).2.objects (provide o w).1 = some o
  provide_keeps : ∀ o (w : World σ), w.Keeps (provide o w).2
  /-- A new object of a class. -/
  create : String → World σ → Ref × World σ
  create_keeps : ∀ cls (w : World σ), w.Keeps (create cls w).2
  /-- The value of a static field. -/
  static : MemberRef → World σ → Option Value
  /-- A call of any other method; nothing comes out of a call that throws. -/
  call : MemberRef → List Value → World σ → Option (Option Value × World σ)

/-- The classes of an object, in a world of few classes. -/
def Obj.classes : Obj → List String
  | .text _ => ["java/lang/String", "java/lang/Object"]
  | .box .boolean _ => ["java/lang/Boolean", "java/lang/Object"]
  | .box .char _ => ["java/lang/Character", "java/lang/Object"]
  | .box type _ => type.boxClass?.toList ++ ["java/lang/Number", "java/lang/Object"]
  | .array element _ => ["[L" ++ element ++ ";", "java/lang/Object"]
  | .other cls => [cls, "java/lang/Object"]

/-- A value in place of another type's: an integer is widened. -/
def Value.widen : Value → JavaType → Value
  | .int v, .long => .long v.toInt64
  | v, type => if v.fits type then v else .zero type

theorem Value.fits_widen (v : Value) {type : JavaType} (h : type.isPrimitive = true) :
    (v.widen type).fits type = true := by
  unfold Value.widen
  split
  · rfl
  · split
    · assumption
    · exact Value.fits_zero (JavaType.wellFormed_of_isPrimitive h).1

theorem Value.widen_of_fits {v : Value} {type : JavaType} (h : v.fits type = true) :
    v.widen type = v := by
  unfold Value.widen
  split
  · cases h
  · exact if_pos h

/-- Finds an object with the given contents, or adds one. -/
def World.intern {σ : Type} (o : Obj) (w : World σ) : Ref × World σ :=
  match (List.range w.next).find? fun r => w.objects r = some o with
  | some r => (r, w)
  | none => w.allocate o

/-- A platform without further state, by its static fields and methods.  Literals and wrappers with
the same contents are the same object. -/
def Platform.plain (static : MemberRef → Option Value)
    (call : MemberRef → List Value → World Unit → Option (Option Value × World Unit)) :
    Platform Unit where
  isInstance o cls := o.classes.contains cls
  isInstance_array _ _ _ _ := rfl
  number o type :=
    match o with
    | .box _ v => v.widen type
    | _ => .zero type
  number_fits o type hprimitive := by
    cases o with
    | box type' v => exact v.fits_widen hprimitive
    | text | array | other =>
      exact Value.fits_zero (JavaType.wellFormed_of_isPrimitive hprimitive).1
  number_box type v h := Value.widen_of_fits h
  provide := World.intern
  provide_objects o w := by
    unfold World.intern
    split
    · rename_i r hfind
      have hr := List.find?_some hfind
      exact of_decide_eq_true hr
    · exact if_pos rfl
  provide_keeps o w := by
    unfold World.intern
    split
    · exact .refl w
    · exact w.keeps_allocate o
  create cls w := w.allocate (.other cls)
  create_keeps cls w := w.keeps_allocate _
  static m _ := static m
  call := call

/-! ### Library methods -/

namespace Library

/-- The primitive types. -/
def primitives : List JavaType :=
  [.boolean, .byte, .char, .short, .int, .long, .float, .double]

/-- Compares a string with an object. -/
def equals : MemberRef := ⟨.method, "java/lang/String", "equals", "(Ljava/lang/Object;)Z"⟩

/-- Wraps a primitive. -/
def boxing? : JavaType → Option MemberRef
  | .boolean => some ⟨.method, "java/lang/Boolean", "valueOf", "(Z)Ljava/lang/Boolean;"⟩
  | .byte => some ⟨.method, "java/lang/Byte", "valueOf", "(B)Ljava/lang/Byte;"⟩
  | .char => some ⟨.method, "java/lang/Character", "valueOf", "(C)Ljava/lang/Character;"⟩
  | .short => some ⟨.method, "java/lang/Short", "valueOf", "(S)Ljava/lang/Short;"⟩
  | .int => some ⟨.method, "java/lang/Integer", "valueOf", "(I)Ljava/lang/Integer;"⟩
  | .long => some ⟨.method, "java/lang/Long", "valueOf", "(J)Ljava/lang/Long;"⟩
  | .float => some ⟨.method, "java/lang/Float", "valueOf", "(F)Ljava/lang/Float;"⟩
  | .double => some ⟨.method, "java/lang/Double", "valueOf", "(D)Ljava/lang/Double;"⟩
  | _ => none

/-- Takes a primitive out of an object. -/
def accessor? : JavaType → Option MemberRef
  | .boolean => some ⟨.method, "java/lang/Boolean", "booleanValue", "()Z"⟩
  | .byte => some ⟨.method, "java/lang/Number", "byteValue", "()B"⟩
  | .char => some ⟨.method, "java/lang/Character", "charValue", "()C"⟩
  | .short => some ⟨.method, "java/lang/Number", "shortValue", "()S"⟩
  | .int => some ⟨.method, "java/lang/Number", "intValue", "()I"⟩
  | .long => some ⟨.method, "java/lang/Number", "longValue", "()J"⟩
  | .float => some ⟨.method, "java/lang/Number", "floatValue", "()F"⟩
  | .double => some ⟨.method, "java/lang/Number", "doubleValue", "()D"⟩
  | _ => none

end Library

namespace Platform

variable {σ : Type}

/-- Compares a string with another object, which need not be a string. -/
def compare (args : List Value) (w : World σ) : Option (Value × World σ) :=
  match args with
  | [.ref (some r), .ref other] =>
    match w.objects r with
    | some (.text content) =>
      some (.int (if other.bind w.objects = some (.text content) then 1 else 0), w)
    | _ => none
  | _ => none

/-- Wraps a primitive. -/
def wrap (P : Platform σ) (type : JavaType) (args : List Value) (w : World σ) :
    Option (Value × World σ) :=
  match args with
  | [v] =>
    if v.fits type then
      some (.ref (some (P.provide (.box type v) w).1), (P.provide (.box type v) w).2)
    else none
  | _ => none

/-- Takes a primitive out of an object. -/
def unwrap (P : Platform σ) (type : JavaType) (args : List Value) (w : World σ) :
    Option (Value × World σ) :=
  match args with
  | [.ref (some r)] => (w.objects r).map fun o => (P.number o type, w)
  | _ => none

/-- What a library method does, if it is one of those with a fixed meaning. -/
def library? (P : Platform σ) (m : MemberRef) :
    Option (List Value → World σ → Option (Value × World σ)) :=
  if m = Library.equals then some compare
  else
    match Library.primitives.find? (fun type => Library.boxing? type == some m) with
    | some type => some (P.wrap type)
    | none => (Library.primitives.find? fun type => Library.accessor? type == some m).map P.unwrap

end Platform

/-! ### Frames -/

/-- A call that left the code. -/
structure Call where
  method : MemberRef
  args : List Value
deriving DecidableEq

/-- What a running method works on. -/
structure Activation (σ : Type) where
  /-- The operand stack, its top first; a wide value is one entry. -/
  stack : List Value
  /-- The local variables, by slot. -/
  locals : Nat → Option Value
  world : World σ
  /-- The calls so far. -/
  calls : List Call

namespace Activation

variable {σ : Type} (P : Platform σ) (pool : ConstantPool)

/-- The frame with another operand stack. -/
def withStack (f : Activation σ) (stack : List Value) : Activation σ := { f with stack }

/-- The frame with a value pushed. -/
def push (f : Activation σ) (v : Value) : Activation σ := f.withStack (v :: f.stack)

/-- Pushes a constant of the pool that takes up the given number of slots. -/
def pushConstant (width : Nat) (index : UInt16) (f : Activation σ) : Option (Activation σ) :=
  match pool.get? index with
  | some (.integer v) => if width = 1 then some (f.push (.int v)) else none
  | some (.float bits) => if width = 1 then some (f.push (.float bits)) else none
  | some (.long v) => if width = 2 then some (f.push (.long v)) else none
  | some (.double bits) => if width = 2 then some (f.push (.double bits)) else none
  | some (.stringRef _) =>
    match pool.stringAt index with
    | .ok text =>
      if width = 1 then
        some { f with
          stack := .ref (some (P.provide (.text text) f.world).1) :: f.stack
          world := (P.provide (.text text) f.world).2 }
      else none
    | .error _ => none
  | _ => none

/-- Pushes a local reference. -/
def pushLocal (slot : Nat) (f : Activation σ) : Option (Activation σ) :=
  match f.locals slot with
  | some (.ref r) => some (f.push (.ref r))
  | _ => none

/-- Discards a value of one slot. -/
def discard (f : Activation σ) : Option (Activation σ) :=
  match f.stack with
  | v :: s => if v.isWide then none else some (f.withStack s)
  | _ => none

/-- Duplicates a value of one slot. -/
def duplicate (f : Activation σ) : Option (Activation σ) :=
  match f.stack with
  | v :: s => if v.isWide then none else some (f.withStack (v :: v :: s))
  | _ => none

/-- Replaces an `int` by another value. -/
def mapInt (g : Int32 → Value) (f : Activation σ) : Option (Activation σ) :=
  match f.stack with
  | .int v :: s => some (f.withStack (g v :: s))
  | _ => none

/-- Replaces a `long` by another value. -/
def mapLong (g : Int64 → Value) (f : Activation σ) : Option (Activation σ) :=
  match f.stack with
  | .long v :: s => some (f.withStack (g v :: s))
  | _ => none

/-- Compares two numbers, the first of which was pushed first. -/
def compareLongs (f : Activation σ) : Option (Activation σ) :=
  match f.stack with
  | .long b :: .long a :: s =>
    some (f.withStack (.int (if a < b then -1 else if a = b then 0 else 1) :: s))
  | _ => none

/-- Replaces an array and an index by the element there. -/
def loadElement (f : Activation σ) : Option (Activation σ) :=
  match f.stack with
  | .int k :: .ref r :: s =>
    if k.toInt < 0 then none
    else (f.world.element? r k.toInt.toNat).map fun item => f.withStack (.ref item :: s)
  | _ => none

/-- May an array with elements of the class hold the reference? -/
def mayHold (w : World σ) (element : String) : Option Ref → Bool
  | none => true
  | some r => (w.objects r).any fun o => P.isInstance o element

/-- Stores a reference into an array. -/
def storeElement (f : Activation σ) : Option (Activation σ) :=
  match f.stack with
  | .ref item :: .int k :: .ref (some r) :: s =>
    match f.world.objects r with
    | some (.array element items) =>
      if k.toInt < 0 ∨ items.length ≤ k.toInt.toNat ∨ mayHold P f.world element item = false then
        none
      else
        some { f with
          stack := s
          world := f.world.setObject r (.array element (items.set k.toInt.toNat item)) }
    | _ => none
  | _ => none

/-- The field or method at an index of the pool. -/
def member? (kind : MemberKind) (index : UInt16) : Option MemberRef :=
  match pool.memberAt index with
  | .ok m => if m.kind = kind then some m else none
  | .error _ => none

/-- Replaces an object by the value of a field. -/
def readField (index : UInt16) (f : Activation σ) : Option (Activation σ) :=
  match member? pool .field index, f.stack with
  | some m, .ref (some r) :: s => some (f.withStack (f.world.fields r m :: s))
  | _, _ => none

/-- Stores a value into a field of an object. -/
def writeField (index : UInt16) (f : Activation σ) : Option (Activation σ) :=
  match member? pool .field index, f.stack with
  | some m, v :: .ref (some r) :: s =>
    (f.world.setField? r m v).map fun world => { f with stack := s, world }
  | _, _ => none

/-- Pushes the value of a static field. -/
def readStatic (index : UInt16) (f : Activation σ) : Option (Activation σ) :=
  (member? pool .field index).bind fun m => (P.static m f.world).map f.push

/-- Calls a method with arguments; calls of the library leave no trace. -/
def enter (m : MemberRef) (args : List Value) (f : Activation σ) : Option (Activation σ) :=
  match P.library? m with
  | some meaning => (meaning args f.world).map fun r =>
    { f with stack := r.1 :: f.stack, world := r.2 }
  | none => (P.call m args f.world).map fun r =>
    { f with stack := r.1.toList ++ f.stack, world := r.2, calls := f.calls ++ [⟨m, args⟩] }

/-- Pops the arguments of a method, the receiver among them unless it has none, and calls it. -/
def invoke (receiver : Bool) (index : UInt16) (f : Activation σ) : Option (Activation σ) :=
  match member? pool .method index with
  | none => none
  | some m =>
    match MethodType.ofDescriptor? m.descriptor with
    | none => none
    | some type =>
      let count := type.params.length + if receiver then 1 else 0
      let args := (f.stack.take count).reverse
      if args.length < count ∨ receiver = true ∧ args.head? = some .null then none
      else enter P m args (f.withStack (f.stack.drop count))

/-- Pushes a new object. -/
def allocate (index : UInt16) (f : Activation σ) : Option (Activation σ) :=
  match pool.classAt index with
  | .ok cls =>
    some { f with
      stack := .ref (some (P.create cls f.world).1) :: f.stack
      world := (P.create cls f.world).2 }
  | .error _ => none

/-- Passes on the null reference and instances of a class. -/
def checkCast (index : UInt16) (f : Activation σ) : Option (Activation σ) :=
  match pool.classAt index with
  | .ok cls =>
    match f.stack with
    | .ref r :: _ => if mayHold P f.world cls r then some f else none
    | _ => none
  | .error _ => none

end Activation

/-! ### Steps -/

/-- A running method: the offset of the next instruction, and what it works on. -/
structure MachineState (σ : Type) where
  pc : Nat
  frame : Activation σ

/-- The code of a method, loaded into a platform. -/
structure Machine (σ : Type) where
  platform : Platform σ
  pool : ConstantPool
  code : Array UInt8

namespace Machine

variable {σ : Type} (M : Machine σ)

/-- An instruction after which the next one follows. -/
def operate (i : Instruction) (f : Activation σ) : Option (Activation σ) :=
  match i.op with
  | .aconstNull => some (f.push .null)
  | .iconstM1 => some (f.push (.int (-1)))
  | .iconst0 => some (f.push (.int 0))
  | .iconst1 => some (f.push (.int 1))
  | .iconst2 => some (f.push (.int 2))
  | .iconst3 => some (f.push (.int 3))
  | .iconst4 => some (f.push (.int 4))
  | .iconst5 => some (f.push (.int 5))
  | .lconst0 => some (f.push (.long 0))
  | .lconst1 => some (f.push (.long 1))
  | .fconst0 => some (f.push (.float 0))
  | .fconst1 => some (f.push (.float 0x3f800000))
  | .fconst2 => some (f.push (.float 0x40000000))
  | .dconst0 => some (f.push (.double 0))
  | .dconst1 => some (f.push (.double 0x3ff0000000000000))
  | .bipush => some (f.push (.int (i.operand 0).toInt8.toInt32))
  | .sipush => some (f.push (.int (i.word 0).toInt16.toInt32))
  | .ldc => f.pushConstant M.platform M.pool 1 (i.operand 0).toUInt16
  | .ldcW => f.pushConstant M.platform M.pool 1 (i.word 0)
  | .ldc2W => f.pushConstant M.platform M.pool 2 (i.word 0)
  | .aload => f.pushLocal (i.operand 0).toNat
  | .aload0 => f.pushLocal 0
  | .aload1 => f.pushLocal 1
  | .aload2 => f.pushLocal 2
  | .aload3 => f.pushLocal 3
  | .pop => f.discard
  | .dup => f.duplicate
  | .i2l => f.mapInt fun v => .long v.toInt64
  | .l2i => f.mapLong fun v => .int v.toInt32
  | .i2b => f.mapInt fun v => .int v.toInt8.toInt32
  | .i2s => f.mapInt fun v => .int v.toInt16.toInt32
  | .i2c => f.mapInt fun v => .int v.toUInt32.toUInt16.toUInt32.toInt32
  | .lcmp => f.compareLongs
  | .aaload => f.loadElement
  | .aastore => f.storeElement M.platform
  | .getfield => f.readField M.pool (i.word 0)
  | .putfield => f.writeField M.pool (i.word 0)
  | .getstatic => f.readStatic M.platform M.pool (i.word 0)
  | .invokevirtual | .invokespecial => f.invoke M.platform M.pool true (i.word 0)
  | .invokestatic => f.invoke M.platform M.pool false (i.word 0)
  | .new => f.allocate M.platform M.pool (i.word 0)
  | .checkcast => f.checkCast M.platform M.pool (i.word 0)
  | _ => none

/-- Is a branch taken? With the stack after it. -/
def branch? (op : Opcode) (stack : List Value) : Option (Bool × List Value) :=
  match op with
  | .goto => some (true, stack)
  | .ifeq =>
    match stack with
    | .int v :: s => some (v == 0, s)
    | _ => none
  | .ifnonnull =>
    match stack with
    | .ref r :: s => some (r.isSome, s)
    | _ => none
  | _ => none

/-- **One instruction.** -/
def step (s : MachineState σ) : Option (MachineState σ) :=
  match Instruction.at? M.code s.pc with
  | none => none
  | some i =>
    match branch? i.op s.frame.stack with
    | some (true, stack) =>
      if i.target s.pc < 0 then none
      else some ⟨(i.target s.pc).toNat, s.frame.withStack stack⟩
    | some (false, stack) => some ⟨s.pc + i.op.encodedLength, s.frame.withStack stack⟩
    | none => (M.operate i s.frame).map fun frame => ⟨s.pc + i.op.encodedLength, frame⟩

/-- What a return instruction returns. -/
def result? (op : Opcode) (stack : List Value) : Option (Option Value) :=
  match op with
  | .returnVoid => some none
  | .areturn =>
    match stack with
    | .ref r :: _ => some (some (.ref r))
    | _ => none
  | _ => none

/-- The result of a method that is about to return. -/
def returned? (s : MachineState σ) : Option (Option Value) :=
  (Instruction.at? M.code s.pc).bind fun i => result? i.op s.frame.stack

/-- Some instructions lead from one state to another. -/
def Reaches : MachineState σ → MachineState σ → Prop :=
  Relation.ReflTransGen fun s s' => M.step s = some s'

/-- The method, called with the given arguments of one slot each, returns the value; it leaves the
world behind and has made the calls. -/
def Completes (args : List Value) (w : World σ) (value : Option Value) (w' : World σ)
    (calls : List Call) : Prop :=
  ∃ s : MachineState σ, M.Reaches ⟨0, ⟨[], fun slot => args[slot]?, w, []⟩⟩ s ∧
    M.returned? s = some value ∧ s.frame.world = w' ∧ s.frame.calls = calls

/-- A method that returns takes no further step. -/
theorem step_of_returned? {M : Machine σ} {s : MachineState σ} {value : Option Value}
    (h : M.returned? s = some value) : M.step s = none := by
  obtain ⟨i, hat, hresult⟩ := Option.bind_eq_some_iff.1 h
  have hop : i.op = .returnVoid ∨ i.op = .areturn := by
    unfold result? at hresult
    split at hresult
    · exact .inl ‹_›
    · exact .inr ‹_›
    · cases hresult
  rcases hop with hop | hop <;> simp only [step, hat, hop, branch?, operate, Option.map_none]

/-- **A run has one outcome.** -/
theorem Completes.unique {M : Machine σ} {args : List Value} {w w' w'' : World σ}
    {value value' : Option Value} {calls calls' : List Call}
    (h : M.Completes args w value w' calls) (h' : M.Completes args w value' w'' calls') :
    value = value' ∧ w' = w'' ∧ calls = calls' := by
  obtain ⟨s, hreach, hreturn, rfl, rfl⟩ := h
  obtain ⟨s', hreach', hreturn', rfl, rfl⟩ := h'
  have hstuck : ∀ {s t : MachineState σ} {v}, M.returned? s = some v → M.Reaches s t → t = s := by
    intro s t v hs hst
    rcases Relation.ReflTransGen.cases_head hst with rfl | ⟨u, hstep, -⟩
    · rfl
    · rw [step_of_returned? hs] at hstep
      cases hstep
  obtain rfl : s = s' := by
    rcases Relation.ReflTransGen.total_of_right_unique
      (fun _ _ _ h₁ h₂ => Option.some.inj (h₁.symm.trans h₂)) hreach hreach' with hst | hst
    · exact (hstuck hreturn hst).symm
    · exact hstuck hreturn' hst
  exact ⟨Option.some.inj (hreturn.symm.trans hreturn'), rfl, rfl⟩

end Machine

end ClassForge
