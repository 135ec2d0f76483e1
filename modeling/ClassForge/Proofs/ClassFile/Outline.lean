import ClassForge.ClassFile.Draft
import ClassForge.ClassFile.Image
import ClassForge.Proofs.Pool.Growth

/-!
# What a draft stands for

A draft keeps indices, a class file shows texts. An outline holds the texts, and a draft represents
it when every index stands for its text:

* `ClassOutline` — names, members and attributes of a class, as texts;
* `AttributeNames.Named` — the attributes in use have their names in the pool;
* `ClassDraft.Resolves` — each index of the draft stands for the text of the outline;
* `ClassDraft.Represents` — so it does unless a limit of the pool has been exceeded;
* `Represents.addMethod` and its siblings — **PROVED**: every operation on a draft keeps a
  representation, and the outline changes by what was passed.
-/

namespace ClassForge

open ConstantPool

/-! ### Attribute names -/

/-- The attributes a class is written with. -/
inductive AttributeKind where
  | code
  | lineNumbers
  | exceptions
  | sourceFile
  | sourceDebug
deriving DecidableEq

/-- The name that a class file spells out. -/
def AttributeKind.text : AttributeKind → String
  | .code => "Code"
  | .lineNumbers => "LineNumberTable"
  | .exceptions => "Exceptions"
  | .sourceFile => "SourceFile"
  | .sourceDebug => "SourceDebugExtension"

namespace AttributeNames

/-- The index of an attribute's name. -/
def get (names : AttributeNames) : AttributeKind → UInt16
  | .code => names.code
  | .lineNumbers => names.lineNumbers
  | .exceptions => names.exceptions
  | .sourceFile => names.sourceFile
  | .sourceDebug => names.sourceDebug

/-- The names with another index for one of them. -/
def set (names : AttributeNames) (kind : AttributeKind) (i : UInt16) : AttributeNames :=
  match kind with
  | .code => { names with code := i }
  | .lineNumbers => { names with lineNumbers := i }
  | .exceptions => { names with exceptions := i }
  | .sourceFile => { names with sourceFile := i }
  | .sourceDebug => { names with sourceDebug := i }

@[simp]
theorem get_set (names : AttributeNames) (kind other : AttributeKind) (i : UInt16) :
    (names.set kind i).get other = if other = kind then i else names.get other := by
  cases kind <;> cases other <;> rfl

/-- Every attribute in use has its name in the pool. -/
def Named (p : ConstantPool) (names : AttributeNames) (used : AttributeKind → Prop) : Prop :=
  ∀ kind, used kind → p.utf8At (names.get kind) = .ok kind.text

variable {p p' : ConstantPool} {names : AttributeNames} {used : AttributeKind → Prop}

theorem Named.extend (h : names.Named p used) (hext : Extends p p') : names.Named p' used :=
  fun kind hkind => hext.utf8At (h kind hkind)

/-- Naming one more attribute. -/
theorem Named.insert (h : names.Named p used) (hcoh : p.Coherent) {kind : AttributeKind}
    (hv : (p.utf8 kind.text).2.violation = none) :
    (names.set kind (p.utf8 kind.text).1).Named (p.utf8 kind.text).2 fun k =>
      used k ∨ k = kind := by
  intro k hk
  rw [get_set]
  split
  · rename_i heq
    rw [heq]
    exact utf8At_utf8 hcoh hv
  · rename_i hne
    exact (grows_utf8 p kind.text).keeps.utf8At (h k (hk.resolve_right hne))

theorem Named.imp {used' : AttributeKind → Prop} (h : names.Named p used)
    (himp : ∀ kind, used' kind → used kind) : names.Named p used' :=
  fun kind hkind => h kind (himp kind hkind)

end AttributeNames

/-- The attributes that a body brings along. -/
def MethodBody.Uses (b : MethodBody) : AttributeKind → Prop
  | .code => True
  | .lineNumbers => b.lines ≠ []
  | _ => False

/-- The attributes of a method. -/
def MethodImage.Uses (m : MethodImage) (kind : AttributeKind) : Prop :=
  (∃ b, m.body = some b ∧ b.Uses kind) ∨ (m.exceptions ≠ [] ∧ kind = .exceptions)

/-! ### Outlines -/

/-- A class by its texts. -/
structure ClassOutline where
  name : String
  superName : String
  interfaces : List String
  fields : List FieldImage := []
  methods : List MethodImage := []
  sourceFile : Option String := none
  sourceDebug : Option String := none

/-- The attributes of a class and of its methods. -/
def ClassOutline.Uses (o : ClassOutline) (kind : AttributeKind) : Prop :=
  (∃ m ∈ o.methods, m.Uses kind) ∨ (o.sourceFile ≠ none ∧ kind = .sourceFile) ∨
    (o.sourceDebug ≠ none ∧ kind = .sourceDebug)

/-- The indices of a field stand for its texts. -/
structure FieldDraft.Depicts (p : ConstantPool) (f : FieldDraft) (g : FieldImage) : Prop where
  access : f.access = g.access
  name : p.utf8At f.name = .ok g.name
  descriptor : p.utf8At f.descriptor = .ok g.descriptor

/-- The indices of a method stand for its texts; the body is the same. -/
structure MethodDraft.Depicts (p : ConstantPool) (m : MethodDraft) (g : MethodImage) : Prop where
  access : m.access = g.access
  name : p.utf8At m.name = .ok g.name
  descriptor : p.utf8At m.descriptor = .ok g.descriptor
  body : m.body = g.body
  exceptions : List.Forall₂ (fun i name => p.classAt i = .ok name) m.exceptions g.exceptions

theorem FieldDraft.Depicts.extend {p p' : ConstantPool} {f : FieldDraft} {g : FieldImage}
    (h : f.Depicts p g) (hext : Extends p p') : f.Depicts p' g :=
  ⟨h.access, hext.utf8At h.name, hext.utf8At h.descriptor⟩

theorem MethodDraft.Depicts.extend {p p' : ConstantPool} {m : MethodDraft} {g : MethodImage}
    (h : m.Depicts p g) (hext : Extends p p') : m.Depicts p' g :=
  ⟨h.access, hext.utf8At h.name, hext.utf8At h.descriptor, h.body,
    h.exceptions.imp fun _ _ hi => hext.classAt hi⟩

namespace ClassDraft

/-- Each index of the draft stands for the text of the outline. -/
structure Resolves (p : ConstantPool) (d : ClassDraft) (o : ClassOutline) : Prop where
  name : p.classAt d.thisClass = .ok o.name
  superName : p.classAt d.superClass = .ok o.superName
  interfaces : List.Forall₂ (fun i name => p.classAt i = .ok name) d.interfaces o.interfaces
  fields : List.Forall₂ (FieldDraft.Depicts p) d.fields.toList o.fields
  methods : List.Forall₂ (MethodDraft.Depicts p) d.methods.toList o.methods
  sourceFile : Option.Rel (fun i text => p.utf8At i = .ok text) d.sourceFile o.sourceFile
  sourceDebug : d.sourceDebug = o.sourceDebug.map ModifiedUtf8.encode
  names : d.names.Named p o.Uses

theorem Resolves.extend {p p' : ConstantPool} {d : ClassDraft} {o : ClassOutline}
    (h : d.Resolves p o) (hext : Extends p p') : d.Resolves p' o where
  name := hext.classAt h.name
  superName := hext.classAt h.superName
  interfaces := h.interfaces.imp fun _ _ hi => hext.classAt hi
  fields := h.fields.imp fun _ _ hf => hf.extend hext
  methods := h.methods.imp fun _ _ hm => hm.extend hext
  sourceFile := by
    have hfile := h.sourceFile
    revert hfile
    generalize d.sourceFile = i, o.sourceFile = text
    rintro (hi | _)
    · exact .some (hext.utf8At hi)
    · exact .none
  sourceDebug := h.sourceDebug
  names := h.names.extend hext

/-- **The draft stands for the outline**, unless a limit of its pool has been exceeded. -/
structure Represents (d : ClassDraft) (o : ClassOutline) : Prop where
  coherent : d.pool.Coherent
  listed : d.pool.Listed
  resolves : d.pool.violation = none → d.Resolves d.pool o

variable {d : ClassDraft} {o : ClassOutline}

/-- A pool that has grown represents the same class. -/
theorem Represents.withPool (h : d.Represents o) {p : ConstantPool} (hgrows : Grows d.pool p) :
    (d.withPool p).Represents o where
  coherent := hgrows.coherent h.coherent
  listed := hgrows.listed h.listed
  resolves hv := by
    have hold := (h.resolves (hgrows.clean hv)).extend hgrows.keeps
    exact ⟨hold.name, hold.superName, hold.interfaces, hold.fields, hold.methods,
      hold.sourceFile, hold.sourceDebug, hold.names⟩

/-! ### Headers and fields -/

theorem represents_new (version : ClassVersion) (access : AccessFlags) (name superName : String)
    (interfaces : List String) :
    (ClassDraft.new version access name superName interfaces).Represents
      { name, superName, interfaces } := by
  unfold ClassDraft.new
  have hgrows₁ := grows_classRef empty name
  have hgrows₂ := grows_classRef (empty.classRef name).2 superName
  have hgrows₃ := grows_classRefs ((empty.classRef name).2.classRef superName).2 interfaces
  have hcoh₁ := hgrows₁.coherent coherent_empty
  have hcoh₂ := hgrows₂.coherent hcoh₁
  refine ⟨hgrows₃.coherent hcoh₂, hgrows₃.listed (hgrows₂.listed (hgrows₁.listed listed_empty)),
    fun hv => ?_⟩
  have hv₂ := hgrows₃.clean hv
  have hv₁ := hgrows₂.clean hv₂
  refine ⟨?_, ?_, classAt_classRefs hcoh₂ hv, .nil, .nil, .none, rfl, ?_⟩
  · exact hgrows₃.keeps.classAt (hgrows₂.keeps.classAt (classAt_classRef coherent_empty hv₁).2)
  · exact hgrows₃.keeps.classAt (classAt_classRef hcoh₁ hv₂).2
  · rintro kind (⟨m, hm, -⟩ | ⟨h, -⟩ | ⟨h, -⟩)
    · cases hm
    · exact absurd rfl h
    · exact absurd rfl h

theorem Represents.addField (h : d.Represents o) (access : AccessFlags) (name : String)
    (type : JavaType) :
    (d.addField access name type).Represents
      { o with fields := o.fields ++ [⟨access, name, type.descriptor⟩] } := by
  unfold ClassDraft.addField
  generalize type.descriptor = descriptor
  have hgrows₁ := grows_utf8 d.pool name
  have hgrows₂ := grows_utf8 (d.pool.utf8 name).2 descriptor
  have hgrows := hgrows₁.trans hgrows₂
  refine ⟨hgrows.coherent h.coherent, hgrows.listed h.listed, fun hv => ?_⟩
  have hv₁ := hgrows₂.clean hv
  have hold := (h.resolves (hgrows.clean hv)).extend hgrows.keeps
  have hname := hgrows₂.keeps.utf8At (utf8At_utf8 h.coherent hv₁)
  have hdescriptor := utf8At_utf8 (hgrows₁.coherent h.coherent) hv
  refine ⟨hold.name, hold.superName, hold.interfaces, ?_, hold.methods, hold.sourceFile,
    hold.sourceDebug, hold.names⟩
  simp only [Array.toList_push]
  exact List.rel_append hold.fields (.cons ⟨rfl, hname, hdescriptor⟩ .nil)

/-! ### Methods -/

section NamingAttributes

variable {p : ConstantPool} {names : AttributeNames} {used : AttributeKind → Prop}

theorem nameBody_some (p : ConstantPool) (names : AttributeNames) (body : MethodBody) :
    nameBody p names (some body) =
      if body.lines = [] then
        (names.set .code (p.utf8 AttributeKind.code.text).1, (p.utf8 AttributeKind.code.text).2)
      else
        ((names.set .code (p.utf8 AttributeKind.code.text).1).set .lineNumbers
            ((p.utf8 AttributeKind.code.text).2.utf8 AttributeKind.lineNumbers.text).1,
          ((p.utf8 AttributeKind.code.text).2.utf8 AttributeKind.lineNumbers.text).2) := by
  obtain ⟨maxStack, maxLocals, code, handlers, lines⟩ := body
  cases lines <;> rfl

theorem nameExceptions_eq (p : ConstantPool) (names : AttributeNames) (exceptions : List String) :
    nameExceptions p names exceptions =
      if exceptions = [] then (names, p)
      else (names.set .exceptions (p.utf8 AttributeKind.exceptions.text).1,
        (p.utf8 AttributeKind.exceptions.text).2) := by
  unfold nameExceptions
  cases exceptions <;> rfl

theorem grows_nameBody (p : ConstantPool) (names : AttributeNames) (body : Option MethodBody) :
    Grows p (nameBody p names body).2 := by
  cases body with
  | none => exact .refl p
  | some body =>
    rw [nameBody_some]
    split
    · exact grows_utf8 p _
    · exact (grows_utf8 p _).trans (grows_utf8 _ _)

/-- A body has the names of its attributes interned. -/
theorem named_nameBody (h : names.Named p used) (hcoh : p.Coherent) {body : Option MethodBody}
    (hv : (nameBody p names body).2.violation = none) :
    (nameBody p names body).1.Named (nameBody p names body).2 fun kind =>
      used kind ∨ ∃ b, body = some b ∧ b.Uses kind := by
  cases body with
  | none =>
    refine h.imp ?_
    rintro kind (hkind | ⟨b, hb, -⟩)
    · exact hkind
    · cases hb
  | some body =>
    rw [nameBody_some] at hv ⊢
    by_cases hlines : body.lines = []
    · rw [if_pos hlines] at hv ⊢
      refine (h.insert hcoh hv).imp ?_
      rintro kind (hkind | ⟨b, hb, hkind⟩)
      · exact .inl hkind
      · cases hb
        cases kind with
        | code => exact .inr rfl
        | lineNumbers => exact absurd hlines hkind
        | exceptions | sourceFile | sourceDebug => exact hkind.elim
    · rw [if_neg hlines] at hv ⊢
      have hcode := @AttributeNames.Named.insert _ _ _ h hcoh .code ((grows_utf8 _ _).clean hv)
      refine (hcode.insert ((grows_utf8 p _).coherent hcoh) hv).imp ?_
      rintro kind (hkind | ⟨b, hb, hkind⟩)
      · exact .inl (.inl hkind)
      · cases hb
        cases kind with
        | code => exact .inl (.inr rfl)
        | lineNumbers => exact .inr rfl
        | exceptions | sourceFile | sourceDebug => exact hkind.elim

theorem grows_nameExceptions (p : ConstantPool) (names : AttributeNames)
    (exceptions : List String) : Grows p (nameExceptions p names exceptions).2 := by
  rw [nameExceptions_eq]
  split
  · exact .refl p
  · exact grows_utf8 p _

theorem named_nameExceptions (h : names.Named p used) (hcoh : p.Coherent)
    {exceptions : List String} (hv : (nameExceptions p names exceptions).2.violation = none) :
    (nameExceptions p names exceptions).1.Named (nameExceptions p names exceptions).2 fun kind =>
      used kind ∨ (exceptions ≠ [] ∧ kind = .exceptions) := by
  rw [nameExceptions_eq] at hv ⊢
  by_cases hnone : exceptions = []
  · rw [if_pos hnone]
    exact h.imp fun kind hkind => hkind.resolve_right fun hex => hex.1 hnone
  · rw [if_neg hnone] at hv ⊢
    exact (h.insert hcoh hv).imp fun kind hkind => hkind.imp_right And.right

end NamingAttributes

/-- **A declared method joins the outline** with its texts, its body and its exceptions. -/
theorem Represents.addMethod (h : d.Represents o) (access : AccessFlags) (name : String)
    (type : MethodType) (body : Option MethodBody) (exceptions : List String) :
    (d.addMethod access name type body exceptions).Represents
      { o with methods := o.methods ++ [⟨access, name, type.descriptor, body, exceptions⟩] } := by
  unfold ClassDraft.addMethod
  generalize type.descriptor = descriptor
  dsimp only
  -- Each stage is generalized once its own facts are noted, so the next one sees only a pool.
  have hgrows₁ := grows_utf8 d.pool name
  have hcoh₁ := hgrows₁.coherent h.coherent
  have hname := @utf8At_utf8 _ h.coherent name
  generalize d.pool.utf8 name = r₁ at *
  have hgrows₂ := grows_utf8 r₁.2 descriptor
  have hcoh₂ := hgrows₂.coherent hcoh₁
  have hdescriptor := @utf8At_utf8 _ hcoh₁ descriptor
  generalize r₁.2.utf8 descriptor = r₂ at *
  have hgrows₃ := grows_nameBody r₂.2 d.names body
  have hcoh₃ := hgrows₃.coherent hcoh₂
  have hnames₃ := fun hnamed : d.names.Named r₂.2 o.Uses =>
    @named_nameBody _ _ _ hnamed hcoh₂ body
  generalize nameBody r₂.2 d.names body = r₃ at *
  have hgrows₄ := grows_nameExceptions r₃.2 r₃.1 exceptions
  have hcoh₄ := hgrows₄.coherent hcoh₃
  have hnames₄ := fun hnamed : r₃.1.Named r₃.2 fun kind =>
      o.Uses kind ∨ ∃ b, body = some b ∧ b.Uses kind =>
    @named_nameExceptions _ _ _ hnamed hcoh₃ exceptions
  generalize nameExceptions r₃.2 r₃.1 exceptions = r₄ at *
  have hgrows₅ := grows_classRefs r₄.2 exceptions
  have hthrown := @classAt_classRefs _ hcoh₄ exceptions
  generalize r₄.2.classRefs exceptions = r₅ at *
  have hafter := (hgrows₃.trans hgrows₄).trans hgrows₅
  have hgrows := (hgrows₁.trans hgrows₂).trans hafter
  refine ⟨hgrows.coherent h.coherent, hgrows.listed h.listed, fun hv => ?_⟩
  have hv₄ := hgrows₅.clean hv
  have hv₃ := hgrows₄.clean hv₄
  have hv₂ := hgrows₃.clean hv₃
  have hresolves := h.resolves (hgrows.clean hv)
  have hold := hresolves.extend hgrows.keeps
  refine ⟨hold.name, hold.superName, hold.interfaces, hold.fields, ?_, hold.sourceFile,
    hold.sourceDebug, ?_⟩
  · simp only [Array.toList_push]
    refine List.rel_append hold.methods (.cons ⟨rfl, ?_, ?_, rfl, hthrown hv⟩ .nil)
    · exact (hgrows₂.trans hafter).keeps.utf8At (hname (hgrows₂.clean hv₂))
    · exact hafter.keeps.utf8At (hdescriptor hv₂)
  · have hbefore := hresolves.names.extend (hgrows₁.trans hgrows₂).keeps
    have hnamed := hnames₄ (hnames₃ hbefore hv₃) hv₄
    refine (hnamed.extend hgrows₅.keeps).imp ?_
    rintro kind (⟨m, hm, hkind⟩ | hkind)
    · rcases List.mem_append.1 hm with hm | hm
      · exact .inl (.inl (.inl ⟨m, hm, hkind⟩))
      · rw [List.mem_singleton.1 hm] at hkind
        exact hkind.imp (fun hbody => .inr hbody) id
    · exact .inl (.inl (.inr hkind))

/-! ### Class attributes -/

theorem Represents.setSourceFile (h : d.Represents o) (file : String) :
    (d.setSourceFile file).Represents { o with sourceFile := some file } := by
  have hgrows₁ := grows_utf8 d.pool AttributeKind.sourceFile.text
  have hcoh₁ := hgrows₁.coherent h.coherent
  have hgrows₂ := grows_utf8 (d.pool.utf8 AttributeKind.sourceFile.text).2 file
  have hgrows := hgrows₁.trans hgrows₂
  refine ⟨hgrows.coherent h.coherent, hgrows.listed h.listed, fun hv => ?_⟩
  have hresolves := h.resolves (hgrows.clean hv)
  have hold := hresolves.extend hgrows.keeps
  have hnamed := (hresolves.names.insert h.coherent (hgrows₂.clean hv)).extend hgrows₂.keeps
  refine ⟨hold.name, hold.superName, hold.interfaces, hold.fields, hold.methods,
    .some (utf8At_utf8 hcoh₁ hv), hold.sourceDebug, hnamed.imp ?_⟩
  rintro kind (hkind | ⟨-, hkind⟩ | hkind)
  · exact .inl (.inl hkind)
  · exact .inr hkind
  · exact .inl (.inr (.inr hkind))

theorem Represents.setSourceDebug (h : d.Represents o) (text : String) :
    (d.setSourceDebug text).Represents { o with sourceDebug := some text } := by
  have hgrows := grows_utf8 d.pool AttributeKind.sourceDebug.text
  refine ⟨hgrows.coherent h.coherent, hgrows.listed h.listed, fun hv => ?_⟩
  have hresolves := h.resolves (hgrows.clean hv)
  have hold := hresolves.extend hgrows.keeps
  have hnamed := @AttributeNames.Named.insert _ _ _ hresolves.names h.coherent .sourceDebug hv
  refine ⟨hold.name, hold.superName, hold.interfaces, hold.fields, hold.methods,
    hold.sourceFile, rfl, hnamed.imp ?_⟩
  rintro kind (hkind | hkind | ⟨-, hkind⟩)
  · exact .inl (.inl hkind)
  · exact .inl (.inr (.inl hkind))
  · exact .inr hkind

end ClassDraft

end ClassForge
