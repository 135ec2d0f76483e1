import ClassForge.Proofs.ClassFile.RoundTrip

/-!
# Attributes by their declared lengths

A reader that knows no attribute goes by counts and lengths alone: it takes the name of an attribute
and as many bytes as are declared. The writer declares lengths before it writes the bytes, by
formulas of its own.

* `RawAttribute.read`, `RawMember.read`, `RawClass.read` — such a reader, up to a whole class file;
* `RawAttribute.encode` — an attribute with its exact length;
* `encodeLines_eq`, `encodeBody_eq`, `encodeExceptions_eq` — **PROVED**: each formula is the length
  of what follows it;
* `encodeMethod_eq`, `encodeClassAttributes_eq` — **PROVED**: each count is the number of attributes
  that follow it;
* `RawClass.ofBytes_encode` — **PROVED**: so this reader finds the members and attributes of every
  written class, and its end.
-/

namespace ClassForge

open Reader ClassDraft

/-! ### A reader that goes by lengths -/

/-- An attribute: the index of its name, and the bytes of its body. -/
structure RawAttribute where
  name : UInt16
  content : List UInt8
deriving DecidableEq

/-- A field or method, by the indices of its texts. -/
structure RawMember where
  access : UInt16
  name : UInt16
  descriptor : UInt16
  attributes : List RawAttribute
deriving DecidableEq

/-- A class, by its indices. -/
structure RawClass where
  version : ClassVersion
  pool : ConstantPool
  access : UInt16
  thisClass : UInt16
  superClass : UInt16
  interfaces : List UInt16
  fields : List RawMember
  methods : List RawMember
  attributes : List RawAttribute

/-- An attribute of any kind, by its declared length. -/
def RawAttribute.read : Reader RawAttribute := do
  let name ← u16
  let length ← u32
  let content ← bytes length.toNat
  return ⟨name, content⟩

/-- A field or method with its attributes. -/
def RawMember.read : Reader RawMember := do
  let access ← u16
  let name ← u16
  let descriptor ← u16
  let attributes ← counted RawAttribute.read
  return ⟨access, name, descriptor, attributes⟩

namespace RawClass

/-- A class off the front of the bytes. -/
def read : Reader RawClass := do
  let magic ← u32
  if magic ≠ classMagic then throw (.badMagic magic)
  let minor ← u16
  let major ← u16
  let pool ← ClassImage.readPool
  let access ← u16
  let thisClass ← u16
  let superClass ← u16
  let interfaces ← counted u16
  let fields ← counted RawMember.read
  let methods ← counted RawMember.read
  let attributes ← counted RawAttribute.read
  return ⟨⟨major, minor⟩, pool, access, thisClass, superClass, interfaces, fields, methods,
    attributes⟩

/-- A complete class file: nothing may follow the class. -/
def ofBytes (input : List UInt8) : Except ReadError RawClass :=
  match read input with
  | .error e => .error e
  | .ok (c, []) => .ok c
  | .ok (_, rest) => .error (.trailing rest.length)

end RawClass

/-! ### The attributes of a draft -/

/-- The bytes of an attribute with its exact length. -/
def RawAttribute.encode (a : RawAttribute) : List UInt8 :=
  encodeAttribute a.name a.content.length a.content

namespace MethodBody

/-- The attributes of a body: its line table, if it has one. -/
def attributes (names : AttributeNames) (b : MethodBody) : List RawAttribute :=
  if b.lines.isEmpty then [] else [⟨names.lineNumbers, encodeCounted encodeLine b.lines⟩]

/-- What comes before the attributes of a body. -/
def front (b : MethodBody) : List UInt8 :=
  word16 b.maxStack ++ (word16 b.maxLocals ++ (count32 b.code.size ++ (b.code.toList ++
    encodeCounted encodeHandler b.handlers)))

/-- The attribute that holds a body. -/
def codeAttribute (names : AttributeNames) (b : MethodBody) : RawAttribute :=
  ⟨names.code, b.front ++ encodeCounted RawAttribute.encode (b.attributes names)⟩

end MethodBody

/-- The attribute that holds declared exceptions, if there are any. -/
def exceptionAttributes (names : AttributeNames) (exceptions : List UInt16) : List RawAttribute :=
  if exceptions.isEmpty then [] else [⟨names.exceptions, encodeCounted word16 exceptions⟩]

/-- The attributes of a method: its body and its exceptions, each if there is one. -/
def MethodDraft.attributes (names : AttributeNames) (m : MethodDraft) : List RawAttribute :=
  m.body.toList.map (·.codeAttribute names) ++ exceptionAttributes names m.exceptions

namespace ClassDraft

/-- The attributes of a class: source file and debug text, each if it was set. -/
def attributes (d : ClassDraft) : List RawAttribute :=
  (d.sourceFile.toList.map fun file => ⟨d.names.sourceFile, word16 file⟩) ++
    d.sourceDebug.toList.map fun text => ⟨d.names.sourceDebug, text⟩

/-- The class of a draft as it stands in a class file, with the pool read from there. -/
def raw (d : ClassDraft) (pool : ConstantPool) : RawClass where
  version := d.version
  pool := pool
  access := d.access.bits
  thisClass := d.thisClass
  superClass := d.superClass
  interfaces := d.interfaces
  fields := d.fields.toList.map fun f => ⟨f.access.bits, f.name, f.descriptor, []⟩
  methods := d.methods.toList.map fun m =>
    ⟨m.access.bits, m.name, m.descriptor, m.attributes d.names⟩
  attributes := d.attributes

end ClassDraft

/-! ### Declared lengths -/

variable {names : AttributeNames}

theorem length_encodeCounted {α : Type} {encode : α → List UInt8} {k : Nat}
    (h : ∀ x, (encode x).length = k) (xs : List α) :
    (encodeCounted encode xs).length = 2 + k * xs.length := by
  have hflat : (xs.flatMap encode).length = k * xs.length := by
    induction xs with
    | nil => rfl
    | cons x xs ih =>
      rw [List.flatMap_cons, List.length_append, h, ih, List.length_cons]
      ring
  rw [encodeCounted, List.length_append, hflat]
  rfl

theorem length_word16 (w : UInt16) : (word16 w).length = 2 := rfl

theorem length_encodeLine (l : LineEntry) : (encodeLine l).length = 4 := rfl

theorem length_encodeHandler (h : Handler) : (encodeHandler h).length = 8 := rfl

theorem RawAttribute.length_encode (a : RawAttribute) : a.encode.length = 6 + a.content.length := by
  rw [encode, encodeAttribute, List.length_append, List.length_append, ← Nat.add_assoc]
  rfl

theorem MethodBody.length_front (b : MethodBody) :
    b.front.length = 2 + 2 + 4 + b.code.size + 2 + 8 * b.handlers.length := by
  have hhandlers := length_encodeCounted length_encodeHandler b.handlers
  have hwords : (word16 b.maxStack).length = 2 ∧ (word16 b.maxLocals).length = 2 ∧
      (count32 b.code.size).length = 4 := ⟨rfl, rfl, rfl⟩
  simp only [front, List.length_append, hhandlers, hwords, Array.length_toList]
  omega

/-- A line table is declared with its length, and counted. -/
theorem encodeLines_eq (b : MethodBody) :
    encodeLines names b.lines = encodeCounted RawAttribute.encode (b.attributes names) := by
  unfold encodeLines MethodBody.attributes
  by_cases hlines : b.lines.isEmpty = true
  · rw [if_pos hlines, if_pos hlines]
    rfl
  · rw [if_neg hlines, if_neg hlines, ← length_encodeCounted length_encodeLine]
    show word16 1 ++ _ = word16 1 ++ (_ ++ [])
    rw [List.append_nil]
    rfl

/-- The bytes that a line table adds to its body. -/
theorem length_encodeLines (b : MethodBody) :
    (encodeLines names b.lines).length = 2 + linesLength b.lines := by
  unfold encodeLines linesLength
  by_cases hlines : b.lines.isEmpty = true
  · rw [if_pos hlines, if_pos hlines]
    rfl
  · rw [if_neg hlines, if_neg hlines, List.length_append]
    show 2 + (encodeAttribute _ _ _).length = _
    rw [← length_encodeCounted length_encodeLine]
    exact congrArg (2 + ·) (RawAttribute.length_encode ⟨names.lineNumbers, _⟩)

/-- **A body is declared with its length**, its line table included. -/
theorem encodeBody_eq (b : MethodBody) : encodeBody names b = (b.codeAttribute names).encode := by
  have hcontent : (b.codeAttribute names).content =
      word16 b.maxStack ++ (word16 b.maxLocals ++ (count32 b.code.size ++ (b.code.toList ++
        (encodeCounted encodeHandler b.handlers ++ encodeLines names b.lines)))) := by
    rw [encodeLines_eq]
    simp only [MethodBody.codeAttribute, MethodBody.front, List.append_assoc]
  have hlength : (b.codeAttribute names).content.length =
      2 + 2 + 4 + b.code.size + 2 + 8 * b.handlers.length + 2 + linesLength b.lines := by
    rw [MethodBody.codeAttribute, List.length_append, b.length_front, ← encodeLines_eq,
      length_encodeLines, ← Nat.add_assoc]
  rw [RawAttribute.encode, hlength, hcontent]
  rfl

/-- The exceptions of a method are declared with their length. -/
theorem encodeExceptions_eq (exceptions : List UInt16) :
    encodeExceptions names exceptions =
      (exceptionAttributes names exceptions).flatMap RawAttribute.encode := by
  have hlength := length_encodeCounted length_word16 exceptions
  unfold encodeExceptions exceptionAttributes
  by_cases hnone : exceptions.isEmpty = true
  · rw [if_pos hnone, if_pos hnone]
    rfl
  · rw [if_neg hnone, if_neg hnone, ← hlength]
    exact (List.append_nil _).symm

/-- A field counts no attributes. -/
theorem encodeField_eq (f : FieldDraft) :
    encodeField f = word16 f.access.bits ++ (word16 f.name ++ (word16 f.descriptor ++
      encodeCounted RawAttribute.encode [])) := rfl

/-- **A method counts its attributes.** -/
theorem encodeMethod_eq (m : MethodDraft) :
    encodeMethod names m = word16 m.access.bits ++ (word16 m.name ++ (word16 m.descriptor ++
      encodeCounted RawAttribute.encode (m.attributes names))) := by
  obtain ⟨access, name, descriptor, body, exceptions⟩ := m
  have hcount : (exceptionAttributes names exceptions).length =
      if exceptions.isEmpty then 0 else 1 := by
    unfold exceptionAttributes
    split <;> rfl
  unfold encodeMethod encodeCounted MethodDraft.attributes
  rw [List.length_append, List.flatMap_append, ← encodeExceptions_eq, hcount]
  cases body with
  | none => rfl
  | some b =>
    have hbody : encodeBody names b = [b.codeAttribute names].flatMap RawAttribute.encode :=
      (encodeBody_eq b).trans (List.append_nil _).symm
    simp only [hbody]
    rfl

/-- **A class counts its attributes**, and declares them with their lengths. -/
theorem encodeClassAttributes_eq (d : ClassDraft) :
    d.encodeClassAttributes = encodeCounted RawAttribute.encode d.attributes := by
  unfold encodeClassAttributes ClassDraft.attributes encodeCounted
  cases d.sourceFile with
  | none =>
    cases d.sourceDebug with
    | none => rfl
    | some text =>
      show count16 1 ++ ([] ++ _) = count16 1 ++ (_ ++ [])
      rw [List.append_nil]
      rfl
  | some file =>
    cases d.sourceDebug with
    | none => rfl
    | some text =>
      show count16 2 ++ (_ ++ _) = count16 2 ++ (_ ++ (_ ++ []))
      rw [List.append_nil]
      rfl

/-! ### Reading by lengths -/

theorem RawAttribute.reads {a : RawAttribute} (h : a.content.length < 2 ^ 32) :
    Reads RawAttribute.read a.encode a := by
  refine (reads_u16 a.name).bind ((reads_u32 _).bind ?_)
  rw [toNat_ofNat_of_lt h]
  exact (reads_bytes rfl).map (RawAttribute.mk a.name)

/-- Counted attributes are told apart by their lengths. -/
theorem reads_attributes {as : List RawAttribute} (hcount : as.length ≤ 2)
    (h : ∀ a ∈ as, a.content.length < 2 ^ 32) :
    Reads (counted RawAttribute.read) (encodeCounted RawAttribute.encode as) as :=
  reads_counted _ (hcount.trans (by decide)) (List.forall₂_same.2 fun a ha => a.reads (h a ha))

theorem reads_rawMember {access name descriptor : UInt16} {as : List RawAttribute}
    (hcount : as.length ≤ 2) (h : ∀ a ∈ as, a.content.length < 2 ^ 32) :
    Reads RawMember.read (word16 access ++ (word16 name ++ (word16 descriptor ++
      encodeCounted RawAttribute.encode as))) ⟨access, name, descriptor, as⟩ :=
  (reads_u16 access).bind ((reads_u16 name).bind ((reads_u16 descriptor).bind
    ((reads_attributes hcount h).map (RawMember.mk access name descriptor))))

theorem MethodBody.length_attributes_le (b : MethodBody) : (b.attributes names).length ≤ 1 := by
  unfold attributes
  split <;> simp

theorem MethodDraft.length_attributes_le (m : MethodDraft) : (m.attributes names).length ≤ 2 := by
  unfold attributes exceptionAttributes
  rw [List.length_append, List.length_map]
  cases m.body <;> cases m.exceptions <;> simp

theorem ClassDraft.length_attributes_le (d : ClassDraft) : d.attributes.length ≤ 2 := by
  unfold attributes
  rw [List.length_append, List.length_map, List.length_map]
  cases d.sourceFile <;> cases d.sourceDebug <;> simp

/-- A line table is shorter than the attribute that it belongs to. -/
theorem MethodBody.length_content_lt {b : MethodBody} {a : RawAttribute}
    (ha : a ∈ b.attributes names) :
    a.content.length < (b.codeAttribute names).content.length := by
  have hnested := (List.sublist_flatten_of_mem
    (List.mem_map_of_mem (f := RawAttribute.encode) ha)).length_le
  rw [a.length_encode, ← List.flatMap_def] at hnested
  rw [codeAttribute, List.length_append, encodeCounted, List.length_append]
  omega

namespace RawClass

/-- A reader that goes by lengths takes the bytes of a draft for its members and attributes. -/
theorem reads_class {d : ClassDraft} (hlisted : d.pool.Listed)
    (hmethods : ∀ m ∈ d.methods, ∀ a ∈ m.attributes d.names, a.content.length < 2 ^ 32)
    (hclass : ∀ a ∈ d.attributes, a.content.length < 2 ^ 32)
    (hinterfaces : d.interfaces.length ≤ wordMax) (hfields : d.fields.size ≤ wordMax)
    (hcount : d.methods.size ≤ wordMax) :
    ∃ pool : ConstantPool, pool.slots = d.pool.slots ∧
      Reads read d.encodeUnchecked (d.raw pool) := by
  obtain ⟨pool, hslots, -, hpool⟩ := ConstantPool.reads_pool hlisted
  refine ⟨pool, hslots, ?_⟩
  have hreadInterfaces : Reads (counted u16) (encodeCounted word16 d.interfaces) d.interfaces :=
    ClassImage.reads_table reads_u16 hinterfaces
  have hreadFields : Reads (counted RawMember.read) (encodeCounted encodeField d.fields.toList)
      (d.raw pool).fields := by
    refine reads_counted _ hfields (List.forall₂_map_right_iff.2 (List.forall₂_same.2 ?_))
    intro f _
    rw [encodeField_eq]
    exact reads_rawMember (Nat.zero_le _) nofun
  have hreadMethods : Reads (counted RawMember.read)
      (encodeCounted (encodeMethod d.names) d.methods.toList) (d.raw pool).methods := by
    refine reads_counted _ hcount (List.forall₂_map_right_iff.2 (List.forall₂_same.2 ?_))
    intro m hm
    rw [encodeMethod_eq]
    exact reads_rawMember m.length_attributes_le (hmethods m (Array.mem_toList_iff.1 hm))
  have hreadAttributes := reads_attributes d.length_attributes_le hclass
  unfold encodeUnchecked
  rw [← List.append_assoc (word16 d.pool.count), encodeClassAttributes_eq]
  refine (reads_u32 classMagic).bind ?_
  rw [if_neg (by simp)]
  exact (reads_u16 d.version.minor).bind ((reads_u16 d.version.major).bind (hpool.bind
    ((reads_u16 d.access.bits).bind ((reads_u16 d.thisClass).bind ((reads_u16 d.superClass).bind
    (hreadInterfaces.bind (hreadFields.bind (hreadMethods.bind
    (hreadAttributes.map fun as => { d.raw pool with attributes := as })))))))))

/-- **Declared lengths and counts of attributes are exact.** Take the class that any operations
draft, with attributes shorter than four gibibytes each, and write it. A reader that goes by counts
and declared lengths alone finds the fields, methods and attributes of the draft, each attribute
with all its bytes and no others, and nothing after them. Inside of the attribute that holds a body,
right behind the exception table, it finds the line table if there is one, and nothing after it. -/
theorem ofBytes_encode (version : ClassVersion) (access : AccessFlags) (name superName : String)
    (interfaces : List String) (ops : List Drafting) {d : ClassDraft} {bytes : List UInt8}
    (hd : d = ops.foldl Drafting.apply
      (ClassDraft.new version access name superName interfaces))
    (hmethods : ∀ m ∈ d.methods, ∀ a ∈ m.attributes d.names, a.content.length < 2 ^ 32)
    (hclass : ∀ a ∈ d.attributes, a.content.length < 2 ^ 32) (hbytes : d.encode = .ok bytes) :
    (∃ pool : ConstantPool, pool.slots = d.pool.slots ∧ ofBytes bytes = .ok (d.raw pool)) ∧
      ∀ m ∈ d.methods, ∀ b, m.body = some b → ∃ front tail,
        (b.codeAttribute d.names).content = front ++ tail ∧
        front.length = 2 + 2 + 4 + b.code.size + 2 + 8 * b.handlers.length ∧
        Reads (counted RawAttribute.read) tail (b.attributes d.names) := by
  have hrep := Drafting.represents_foldl_apply version access name superName interfaces ops
  rw [← hd] at hrep
  obtain ⟨-, hfields, hcount, hinterfaces, rfl⟩ := ClassImage.encode_eq_ok.1 hbytes
  constructor
  · obtain ⟨pool, hslots, hread⟩ :=
      reads_class hrep.listed hmethods hclass hinterfaces hfields hcount
    have hall := hread []
    rw [List.append_nil] at hall
    exact ⟨pool, hslots, by rw [ofBytes, hall]⟩
  · intro m hm b hb
    have hbody : b.codeAttribute d.names ∈ m.attributes d.names := by
      rw [MethodDraft.attributes, hb]
      exact List.mem_append_left _ List.mem_cons_self
    refine ⟨b.front, _, rfl, b.length_front, reads_attributes (b.length_attributes_le.trans
      (by decide)) fun a ha => ?_⟩
    exact (MethodBody.length_content_lt ha).trans (hmethods m hm _ hbody)

open ClassImage (sampleDraft sampleRun encode_sampleDraft)

/-- The attributes of the sample: a body with a line table, exceptions, source file and debug
text. -/
theorem ofBytes_encode_sampleDraft :
    (∃ pool : ConstantPool, pool.slots = sampleDraft.pool.slots ∧
      ofBytes sampleDraft.encodeUnchecked = .ok (sampleDraft.raw pool)) ∧
    sampleDraft.methods.toList.map (fun m =>
      (m.attributes sampleDraft.names).map fun a => a.content.length) = [[33, 4]] ∧
    sampleDraft.attributes.map (fun a => a.content.length) = [2, 4] := by
  have hlengths : sampleDraft.methods.toList.map (fun m =>
      (m.attributes sampleDraft.names).map fun a => a.content.length) = [[33, 4]] := rfl
  have hlengths' : sampleDraft.attributes.map (fun a => a.content.length) = [2, 4] := rfl
  have hmethods : ∀ m ∈ sampleDraft.methods, ∀ a ∈ m.attributes sampleDraft.names,
      a.content.length < 2 ^ 32 := by
    intro m hm a ha
    have hall := List.mem_map_of_mem (f := fun m : MethodDraft =>
      (m.attributes sampleDraft.names).map fun a => a.content.length) (Array.mem_toList_iff.2 hm)
    rw [hlengths, List.mem_singleton] at hall
    have hlength := List.mem_map_of_mem (f := fun a : RawAttribute => a.content.length) ha
    rw [hall] at hlength
    exact (by decide : ∀ n ∈ [33, 4], n < 2 ^ 32) _ hlength
  have hclass : ∀ a ∈ sampleDraft.attributes, a.content.length < 2 ^ 32 := by
    intro a ha
    have hlength := List.mem_map_of_mem (f := fun a : RawAttribute => a.content.length) ha
    rw [hlengths'] at hlength
    exact (by decide : ∀ n ∈ [2, 4], n < 2 ^ 32) _ hlength
  exact ⟨(ofBytes_encode .java5 .publicFlag "demo/Unit" "java/lang/Object" ["java/lang/Runnable"]
    sampleRun rfl hmethods hclass encode_sampleDraft).1, hlengths, hlengths'⟩

end RawClass

end ClassForge
