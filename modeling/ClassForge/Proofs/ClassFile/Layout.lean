import ClassForge.Proofs.ClassFile.Attributes
import ClassForge.Proofs.ClassFile.Consumption

/-!
# The layout of a class file

The bytes of a class file as the reader cuts them: members, their attributes, and the attributes
inside of bodies. An attribute keeps the length that it declares apart from the bytes that are
taken for it, since the two can differ.

* `AttributeLayout`, `MemberLayout`, `ClassLayout` — the parts, each with its bytes;
* `BodyAttributeShows`, `MethodAttributeShows`, `ClassAttributeShows` — what the content of an
  attribute says, by the kind that its name tells;
* `ClassLayout.Depicts` — the class that a layout shows;
* `ofBytes_eq_ok_iff` — **PROVED**: bytes are read as a class exactly if a layout with these bytes
  depicts it.
-/

namespace ClassForge

open Reader ClassDraft

/-! ### Parts and their bytes -/

/-- An attribute: the index of its name, the length that it declares, and the bytes taken for it. -/
structure AttributeLayout where
  name : UInt16
  declared : UInt32
  content : List UInt8

namespace AttributeLayout

def bytes (a : AttributeLayout) : List UInt8 := word16 a.name ++ (word32 a.declared ++ a.content)

/-- The bytes taken are as many as declared. -/
def Exact (a : AttributeLayout) : Prop := a.content.length = a.declared.toNat

instance (a : AttributeLayout) : Decidable a.Exact := inferInstanceAs (Decidable (_ = _))

theorem bytes_append (a : AttributeLayout) (rest : List UInt8) :
    a.bytes ++ rest = word16 a.name ++ (word32 a.declared ++ (a.content ++ rest)) := by
  rw [bytes, List.append_assoc, List.append_assoc]

theorem append_eq_bytes (i : UInt16) (d : UInt32) (content rest : List UInt8) :
    word16 i ++ (word32 d ++ (content ++ rest)) = bytes ⟨i, d, content⟩ ++ rest :=
  (bytes_append ⟨i, d, content⟩ rest).symm

end AttributeLayout

/-- An attribute of a member, with the attributes inside of it. Only bodies have such. -/
structure OuterLayout extends AttributeLayout where
  inner : List AttributeLayout
  inner_le : inner.length ≤ wordMax

/-- A field or method, by the indices of its texts. -/
structure MemberLayout where
  access : UInt16
  name : UInt16
  descriptor : UInt16
  attributes : List OuterLayout
  attributes_le : attributes.length ≤ wordMax

def MemberLayout.bytes (m : MemberLayout) : List UInt8 :=
  word16 m.access ++ (word16 m.name ++ (word16 m.descriptor ++
    encodeCounted (fun a => a.bytes) m.attributes))

/-- A class, by its indices. The pool stands beside its bytes. -/
structure ClassLayout where
  version : ClassVersion
  pool : ConstantPool
  poolBytes : List UInt8
  reads_pool : Reads ClassImage.readPool poolBytes pool
  access : UInt16
  thisClass : UInt16
  superClass : UInt16
  interfaces : List UInt16
  interfaces_le : interfaces.length ≤ wordMax
  fields : List MemberLayout
  fields_le : fields.length ≤ wordMax
  methods : List MemberLayout
  methods_le : methods.length ≤ wordMax
  attributes : List AttributeLayout
  attributes_le : attributes.length ≤ wordMax

def ClassLayout.bytes (l : ClassLayout) : List UInt8 :=
  word32 classMagic ++ (word16 l.version.minor ++ (word16 l.version.major ++ (l.poolBytes ++
    (word16 l.access ++ (word16 l.thisClass ++ (word16 l.superClass ++
      (encodeCounted word16 l.interfaces ++ (encodeCounted MemberLayout.bytes l.fields ++
        (encodeCounted MemberLayout.bytes l.methods ++
          encodeCounted AttributeLayout.bytes l.attributes)))))))))

/-! ### What the parts show -/

section Shows

variable (pool : ConstantPool)

/-- The lines that an attribute of a body adds. -/
inductive BodyAttributeShows : AttributeLayout → List LineEntry → Prop
  | lines {a : AttributeLayout} {ls : List LineEntry}
      (hname : pool.utf8At a.name = .ok "LineNumberTable") (hle : ls.length ≤ wordMax)
      (hcontent : a.content = encodeCounted encodeLine ls) : BodyAttributeShows a ls
  | skipped {a : AttributeLayout} {name : String} (hname : pool.utf8At a.name = .ok name)
      (hlines : name ≠ "LineNumberTable") (hexact : a.Exact) : BodyAttributeShows a []

/-- The bytes of a body with attributes inside. -/
structure BodyShows (content : List UInt8) (inner : List AttributeLayout) (b : MethodBody) :
    Prop where
  content_eq : content = b.front ++ encodeCounted AttributeLayout.bytes inner
  size_lt : b.code.size < 2 ^ 32
  handlers_le : b.handlers.length ≤ wordMax
  lines_eq : ∃ tables, List.Forall₂ (BodyAttributeShows pool) inner tables ∧
    b.lines = tables.flatten

/-- The body or the exceptions that an attribute of a method adds. -/
inductive MethodAttributeShows : OuterLayout → Option MethodBody × List String → Prop
  | code {a : OuterLayout} {b : MethodBody} (hname : pool.utf8At a.name = .ok "Code")
      (hbody : BodyShows pool a.content a.inner b) : MethodAttributeShows a (some b, [])
  | exceptions {a : OuterLayout} {classes : List UInt16} {names : List String}
      (hname : pool.utf8At a.name = .ok "Exceptions") (hinner : a.inner = [])
      (hle : classes.length ≤ wordMax) (hcontent : a.content = encodeCounted word16 classes)
      (hclasses : List.Forall₂ (fun i name => pool.classAt i = .ok name) classes names) :
      MethodAttributeShows a (none, names)
  | skipped {a : OuterLayout} {name : String} (hname : pool.utf8At a.name = .ok name)
      (hcode : name ≠ "Code") (hexceptions : name ≠ "Exceptions") (hinner : a.inner = [])
      (hexact : a.Exact) : MethodAttributeShows a (none, [])

/-- The source file or debug text that an attribute of a class sets. -/
inductive ClassAttributeShows : AttributeLayout → Option String × Option String → Prop
  | sourceFile {a : AttributeLayout} {i : UInt16} {file : String}
      (hname : pool.utf8At a.name = .ok "SourceFile") (hcontent : a.content = word16 i)
      (hfile : pool.utf8At i = .ok file) : ClassAttributeShows a (some file, none)
  | sourceDebug {a : AttributeLayout} {text : String}
      (hname : pool.utf8At a.name = .ok "SourceDebugExtension") (hexact : a.Exact)
      (htext : ModifiedUtf8.decode? a.content = some text) : ClassAttributeShows a (none, some text)
  | skipped {a : AttributeLayout} {name : String} (hname : pool.utf8At a.name = .ok name)
      (hfile : name ≠ "SourceFile") (hdebug : name ≠ "SourceDebugExtension") (hexact : a.Exact) :
      ClassAttributeShows a (none, none)

/-- A field; its attributes say nothing. -/
structure FieldShows (m : MemberLayout) (f : FieldImage) : Prop where
  access : f.access = ⟨m.access⟩
  name : pool.utf8At m.name = .ok f.name
  descriptor : pool.utf8At m.descriptor = .ok f.descriptor
  attributes : ∀ a ∈ m.attributes, a.Exact ∧ a.inner = []

/-- A method: of several bodies the last counts, and exceptions add up. -/
structure MethodShows (m : MemberLayout) (i : MethodImage) : Prop where
  access : i.access = ⟨m.access⟩
  name : pool.utf8At m.name = .ok i.name
  descriptor : pool.utf8At m.descriptor = .ok i.descriptor
  attributes : ∃ shown, List.Forall₂ (MethodAttributeShows pool) m.attributes shown ∧
    i.body = (shown.filterMap Prod.fst).getLast? ∧ i.exceptions = shown.flatMap Prod.snd

end Shows

/-- **The class that a layout shows.** -/
structure ClassLayout.Depicts (l : ClassLayout) (c : ClassImage) : Prop where
  version : c.version = l.version
  pool : c.pool = l.pool
  access : c.access = ⟨l.access⟩
  name : l.pool.classAt l.thisClass = .ok c.name
  superName : l.pool.classAt l.superClass = .ok c.superName
  interfaces : List.Forall₂ (fun i name => l.pool.classAt i = .ok name) l.interfaces c.interfaces
  fields : List.Forall₂ (FieldShows l.pool) l.fields c.fields
  methods : List.Forall₂ (MethodShows l.pool) l.methods c.methods
  attributes : ∃ shown, List.Forall₂ (ClassAttributeShows l.pool) l.attributes shown ∧
    c.sourceFile = (shown.filterMap Prod.fst).getLast? ∧
    c.sourceDebug = (shown.filterMap Prod.snd).getLast?

namespace ClassImage

variable {α : Type} {input rest : List UInt8}

/-! ### Words and entries -/

/-- An index that is followed. -/
theorem recognizes_index {follow : UInt16 → Except ReadError α} :
    Recognizes (do Reader.ofExcept (follow (← u16)) : Reader α) word16
      (fun i a => follow i = .ok a) := by
  intro input a rest
  rw [bind_eq_ok]
  constructor
  · rintro ⟨i, mid, hi, hfollow⟩
    obtain ⟨ha, rfl⟩ := ofExcept_eq_ok.1 hfollow
    exact ⟨i, u16_eq_ok.1 hi, ha⟩
  · rintro ⟨i, hi, ha⟩
    exact ⟨i, rest, u16_eq_ok.2 hi, ofExcept_eq_ok.2 ⟨ha, rfl⟩⟩

theorem recognizes_readText (pool : ConstantPool) :
    Recognizes (readText pool) word16 (fun i text => pool.utf8At i = .ok text) := recognizes_index

theorem recognizes_readClassName (pool : ConstantPool) :
    Recognizes (readClassName pool) word16 (fun i name => pool.classAt i = .ok name) :=
  recognizes_index

theorem recognizes_readLine : Recognizes readLine encodeLine Eq := by
  intro input l rest
  constructor
  · intro h
    obtain ⟨startPc, m, hstart, h⟩ := bind_eq_ok.1 h
    obtain ⟨line, m', hline, h⟩ := bind_eq_ok.1 h
    obtain ⟨rfl, rfl⟩ := pure_eq_ok.1 h
    obtain rfl := u16_eq_ok.1 hstart
    obtain rfl := u16_eq_ok.1 hline
    exact ⟨_, rfl, rfl⟩
  · rintro ⟨l, rfl, rfl⟩
    exact reads_line l rest

theorem recognizes_readHandler : Recognizes readHandler encodeHandler Eq := by
  intro input h rest
  constructor
  · intro hrun
    obtain ⟨startPc, m, hstart, hrun⟩ := bind_eq_ok.1 hrun
    obtain ⟨endPc, m, hend, hrun⟩ := bind_eq_ok.1 hrun
    obtain ⟨handlerPc, m, hhandler, hrun⟩ := bind_eq_ok.1 hrun
    obtain ⟨catchType, m, hcatch, hrun⟩ := bind_eq_ok.1 hrun
    obtain ⟨rfl, rfl⟩ := pure_eq_ok.1 hrun
    obtain rfl := u16_eq_ok.1 hstart
    obtain rfl := u16_eq_ok.1 hend
    obtain rfl := u16_eq_ok.1 hhandler
    obtain rfl := u16_eq_ok.1 hcatch
    exact ⟨_, rfl, rfl⟩
  · rintro ⟨h, rfl, rfl⟩
    exact reads_handler h rest

/-- A table of entries that show themselves. -/
theorem table_eq_ok {item : Reader α} {encode : α → List UInt8} (h : Recognizes item encode Eq)
    {xs : List α} :
    counted item input = .ok (xs, rest) ↔
      xs.length ≤ wordMax ∧ input = encodeCounted encode xs ++ rest := by
  rw [h.counted input xs rest]
  constructor
  · rintro ⟨ls, hinput, hle, heq⟩
    rw [List.forall₂_eq_eq_eq] at heq
    subst heq
    exact ⟨hle, hinput⟩
  · rintro ⟨hle, hinput⟩
    refine ⟨xs, hinput, hle, ?_⟩
    rw [List.forall₂_eq_eq_eq]

/-! ### Attributes -/

/-- Name and declared length come first, then what the reader takes by the name. -/
theorem attribute_eq_ok {pool : ConstantPool} {k : String → UInt32 → Reader α} {t : α} :
    (do k (← readText pool) (← u32) : Reader α) input = .ok (t, rest) ↔
      ∃ i d name mid, pool.utf8At i = .ok name ∧ input = word16 i ++ (word32 d ++ mid) ∧
        k name d mid = .ok (t, rest) := by
  constructor
  · intro h
    obtain ⟨name, m, hname, hlength⟩ := bind_eq_ok.1 h
    obtain ⟨d, mid, hd, hk⟩ := bind_eq_ok.1 hlength
    obtain ⟨i, hinput, hi⟩ := (recognizes_readText pool _ _ _).1 hname
    rw [u32_eq_ok.1 hd] at hinput
    exact ⟨i, d, name, mid, hi, hinput, hk⟩
  · rintro ⟨i, d, name, mid, hi, rfl, h⟩
    exact bind_eq_ok.2 ⟨name, _, (recognizes_readText pool _ _ _).2 ⟨i, rfl, hi⟩,
      bind_eq_ok.2 ⟨d, mid, u32_eq_ok.2 rfl, h⟩⟩

/-- Content that is skipped by its length. -/
theorem skip_eq_ok {d : UInt32} {s t : α} :
    (do let _ ← bytes d.toNat; return s : Reader α) input = .ok (t, rest) ↔
      ∃ content, content.length = d.toNat ∧ input = content ++ rest ∧ t = s := by
  rw [bind_eq_ok]
  constructor
  · rintro ⟨content, mid, hbytes, hpure⟩
    obtain ⟨hlen, rfl⟩ := bytes_eq_ok.1 hbytes
    obtain ⟨rfl, rfl⟩ := pure_eq_ok.1 hpure
    exact ⟨content, hlen, rfl, rfl⟩
  · rintro ⟨content, hlen, rfl, rfl⟩
    exact ⟨content, rest, bytes_eq_ok.2 ⟨hlen, rfl⟩, rfl⟩

theorem readBodyAttribute_eq_ok (pool : ConstantPool) (s : List LineEntry) (input : List UInt8)
    (t : List LineEntry) (rest : List UInt8) :
    readBodyAttribute pool s input = .ok (t, rest) ↔
      ∃ a v, input = AttributeLayout.bytes a ++ rest ∧ BodyAttributeShows pool a v ∧
        t = v.reverse ++ s := by
  refine attribute_eq_ok.trans ?_
  constructor
  · rintro ⟨i, d, name, mid, hname, rfl, h⟩
    by_cases hlines : name = "LineNumberTable"
    · subst hlines
      rw [if_pos rfl] at h
      obtain ⟨ls, m, htable, hpure⟩ := bind_eq_ok.1 h
      obtain ⟨hle, rfl⟩ := (table_eq_ok recognizes_readLine).1 htable
      obtain ⟨rfl, rfl⟩ := pure_eq_ok.1 hpure
      exact ⟨⟨i, d, encodeCounted encodeLine ls⟩, ls, AttributeLayout.append_eq_bytes ..,
        .lines hname hle rfl, rfl⟩
    · rw [if_neg hlines] at h
      obtain ⟨content, hlen, rfl, rfl⟩ := skip_eq_ok.1 h
      exact ⟨⟨i, d, content⟩, [], AttributeLayout.append_eq_bytes ..,
        .skipped hname hlines hlen, rfl⟩
  · rintro ⟨a, v, rfl, hshows, rfl⟩
    rw [a.bytes_append]
    cases hshows with
    | lines hname hle hcontent =>
      refine ⟨_, _, _, _, hname, rfl, ?_⟩
      rw [if_pos rfl, hcontent]
      exact bind_eq_ok.2 ⟨v, rest, (table_eq_ok recognizes_readLine).2 ⟨hle, rfl⟩, rfl⟩
    | skipped hname hlines hexact =>
      refine ⟨_, _, _, _, hname, rfl, ?_⟩
      rw [if_neg hlines]
      exact skip_eq_ok.2 ⟨_, hexact, rfl, rfl⟩

theorem foldl_reverse_append (tables : List (List α)) :
    ∀ s : List α, tables.foldl (fun s v => v.reverse ++ s) s = tables.flatten.reverse ++ s := by
  induction tables with
  | nil =>
    intro s
    rfl
  | cons v tables ih =>
    intro s
    rw [List.foldl_cons, ih, List.flatten_cons, List.reverse_append, List.append_assoc]

/-- **A body is read from its front and the attributes inside.** -/
theorem readBody_eq_ok {pool : ConstantPool} {b : MethodBody} :
    readBody pool input = .ok (b, rest) ↔
      ∃ content inner, inner.length ≤ wordMax ∧ input = content ++ rest ∧
        BodyShows pool content inner b := by
  constructor
  · intro h
    obtain ⟨maxStack, m, hstack, h⟩ := bind_eq_ok.1 h
    obtain ⟨maxLocals, m, hlocals, h⟩ := bind_eq_ok.1 h
    obtain ⟨length, m, hlength, h⟩ := bind_eq_ok.1 h
    obtain ⟨code, m, hcode, h⟩ := bind_eq_ok.1 h
    obtain ⟨handlers, m, hhandlers, h⟩ := bind_eq_ok.1 h
    obtain ⟨inner, tables, m, hinner, hshows, hattributes, h⟩ :=
      (counted_iterate_eq_ok (readBodyAttribute_eq_ok pool)).1 h
    obtain ⟨hb, rfl⟩ := pure_eq_ok.1 h
    subst hattributes
    obtain rfl := u16_eq_ok.1 hstack
    obtain rfl := u16_eq_ok.1 hlocals
    obtain rfl := u32_eq_ok.1 hlength
    obtain ⟨hsize, rfl⟩ := bytes_eq_ok.1 hcode
    obtain ⟨hle, rfl⟩ := (table_eq_ok recognizes_readHandler).1 hhandlers
    subst hb
    rw [foldl_reverse_append, List.append_nil, List.reverse_reverse]
    refine ⟨_, inner, hinner, ?_, rfl, ?_, hle, tables, hshows, rfl⟩
    · have hword : count32 code.toArray.size = word32 length := by
        rw [List.size_toArray, hsize, count32, UInt32.ofNat_toNat]
      simp only [MethodBody.front, hword, List.append_assoc]
    · rw [List.size_toArray, hsize]
      exact length.toNat_lt
  · rintro ⟨content, inner, hinner, rfl, rfl, hsize, hle, tables, hshows, hlines⟩
    have hlength : (UInt32.ofNat b.code.size).toNat = b.code.size := by
      rw [UInt32.toNat_ofNat']
      exact Nat.mod_eq_of_lt hsize
    simp only [MethodBody.front, List.append_assoc]
    refine bind_eq_ok.2 ⟨b.maxStack, _, u16_eq_ok.2 rfl, bind_eq_ok.2 ⟨b.maxLocals, _,
      u16_eq_ok.2 rfl, bind_eq_ok.2 ⟨UInt32.ofNat b.code.size, _, u32_eq_ok.2 rfl,
      bind_eq_ok.2 ⟨b.code.toList, _, bytes_eq_ok.2 ⟨?_, rfl⟩, bind_eq_ok.2 ⟨b.handlers, _,
      (table_eq_ok recognizes_readHandler).2 ⟨hle, rfl⟩,
      (counted_iterate_eq_ok (readBodyAttribute_eq_ok pool)).2
        ⟨inner, tables, rest, hinner, hshows, rfl, pure_eq_ok.2 ⟨?_, rfl⟩⟩⟩⟩⟩⟩⟩
    · rw [hlength]
      exact Array.length_toList
    · rw [foldl_reverse_append, List.append_nil, List.reverse_reverse, ← hlines]

/-- What an attribute of a method does to body and exceptions, the latter listed backwards. -/
def addToMethod (s v : Option MethodBody × List String) : Option MethodBody × List String :=
  (v.1.or s.1, v.2.reverse ++ s.2)

theorem readMethodAttribute_eq_ok (pool : ConstantPool) (s : Option MethodBody × List String)
    (input : List UInt8) (t : Option MethodBody × List String) (rest : List UInt8) :
    readMethodAttribute pool s input = .ok (t, rest) ↔
      ∃ (a : OuterLayout) (v : _), input = a.bytes ++ rest ∧ MethodAttributeShows pool a v ∧
        t = addToMethod s v := by
  refine attribute_eq_ok.trans ?_
  constructor
  · rintro ⟨i, d, name, mid, hname, rfl, h⟩
    by_cases hcode : name = "Code"
    · subst hcode
      rw [if_pos rfl] at h
      obtain ⟨b, m, hbody, hpure⟩ := bind_eq_ok.1 h
      obtain ⟨content, inner, hinner, rfl, hshows⟩ := readBody_eq_ok.1 hbody
      obtain ⟨rfl, rfl⟩ := pure_eq_ok.1 hpure
      exact ⟨⟨⟨i, d, content⟩, inner, hinner⟩, _, AttributeLayout.append_eq_bytes ..,
        .code hname hshows, rfl⟩
    rw [if_neg hcode] at h
    by_cases hexceptions : name = "Exceptions"
    · subst hexceptions
      rw [if_pos rfl] at h
      obtain ⟨names, m, htable, hpure⟩ := bind_eq_ok.1 h
      obtain ⟨classes, rfl, hle, hclasses⟩ :=
        ((recognizes_readClassName pool).counted _ _ _).1 htable
      obtain ⟨rfl, rfl⟩ := pure_eq_ok.1 hpure
      exact ⟨⟨⟨i, d, encodeCounted word16 classes⟩, [], Nat.zero_le _⟩, _,
        AttributeLayout.append_eq_bytes .., .exceptions hname rfl hle rfl hclasses, rfl⟩
    · rw [if_neg hexceptions] at h
      obtain ⟨content, hlen, rfl, rfl⟩ := skip_eq_ok.1 h
      exact ⟨⟨⟨i, d, content⟩, [], Nat.zero_le _⟩, _, AttributeLayout.append_eq_bytes ..,
        .skipped hname hcode hexceptions rfl hlen, rfl⟩
  · rintro ⟨a, v, rfl, hshows, rfl⟩
    rw [a.bytes_append]
    cases hshows with
    | code hname hbody =>
      refine ⟨_, _, _, _, hname, rfl, ?_⟩
      rw [if_pos rfl]
      exact bind_eq_ok.2 ⟨_, rest, readBody_eq_ok.2 ⟨_, a.inner, a.inner_le, rfl, hbody⟩, rfl⟩
    | exceptions hname hinner hle hcontent hclasses =>
      refine ⟨_, _, _, _, hname, rfl, ?_⟩
      rw [if_neg (by decide), if_pos rfl, hcontent]
      exact bind_eq_ok.2 ⟨_, rest, ((recognizes_readClassName pool).counted _ _ _).2
        ⟨_, rfl, hle, hclasses⟩, rfl⟩
    | skipped hname hcode hexceptions hinner hexact =>
      refine ⟨_, _, _, _, hname, rfl, ?_⟩
      rw [if_neg hcode, if_neg hexceptions]
      exact skip_eq_ok.2 ⟨_, hexact, rfl, rfl⟩

/-- What an attribute of a class does to source file and debug text. -/
def addToClass (s v : Option String × Option String) : Option String × Option String :=
  (v.1.or s.1, v.2.or s.2)

theorem readClassAttribute_eq_ok (pool : ConstantPool) (s : Option String × Option String)
    (input : List UInt8) (t : Option String × Option String) (rest : List UInt8) :
    readClassAttribute pool s input = .ok (t, rest) ↔
      ∃ a v, input = AttributeLayout.bytes a ++ rest ∧ ClassAttributeShows pool a v ∧
        t = addToClass s v := by
  refine attribute_eq_ok.trans ?_
  constructor
  · rintro ⟨i, d, name, mid, hname, rfl, h⟩
    by_cases hfile : name = "SourceFile"
    · subst hfile
      rw [if_pos rfl] at h
      obtain ⟨file, m, htext, hpure⟩ := bind_eq_ok.1 h
      obtain ⟨j, rfl, hj⟩ := (recognizes_readText pool _ _ _).1 htext
      obtain ⟨rfl, rfl⟩ := pure_eq_ok.1 hpure
      exact ⟨⟨i, d, word16 j⟩, _, AttributeLayout.append_eq_bytes .., .sourceFile hname rfl hj, rfl⟩
    rw [if_neg hfile] at h
    by_cases hdebug : name = "SourceDebugExtension"
    · subst hdebug
      rw [if_pos rfl] at h
      obtain ⟨raw, m, hbytes, hdecode⟩ := bind_eq_ok.1 h
      obtain ⟨hlen, rfl⟩ := bytes_eq_ok.1 hbytes
      cases htext : ModifiedUtf8.decode? raw with
      | none =>
        rw [htext] at hdecode
        cases hdecode
      | some text =>
        rw [htext] at hdecode
        obtain ⟨rfl, rfl⟩ := pure_eq_ok.1 hdecode
        exact ⟨⟨i, d, raw⟩, _, AttributeLayout.append_eq_bytes ..,
          .sourceDebug hname hlen htext, rfl⟩
    · rw [if_neg hdebug] at h
      obtain ⟨content, hlen, rfl, rfl⟩ := skip_eq_ok.1 h
      exact ⟨⟨i, d, content⟩, _, AttributeLayout.append_eq_bytes ..,
        .skipped hname hfile hdebug hlen, rfl⟩
  · rintro ⟨a, v, rfl, hshows, rfl⟩
    rw [a.bytes_append]
    cases hshows with
    | sourceFile hname hcontent hfile =>
      refine ⟨_, _, _, _, hname, rfl, ?_⟩
      rw [if_pos rfl, hcontent]
      exact bind_eq_ok.2 ⟨_, rest, (recognizes_readText pool _ _ _).2 ⟨_, rfl, hfile⟩, rfl⟩
    | sourceDebug hname hexact htext =>
      refine ⟨_, _, _, _, hname, rfl, ?_⟩
      rw [if_neg (by decide), if_pos rfl]
      refine bind_eq_ok.2 ⟨a.content, rest, bytes_eq_ok.2 ⟨hexact, rfl⟩, ?_⟩
      rw [htext]
      rfl
    | skipped hname hfile hdebug hexact =>
      refine ⟨_, _, _, _, hname, rfl, ?_⟩
      rw [if_neg hfile, if_neg hdebug]
      exact skip_eq_ok.2 ⟨_, hexact, rfl, rfl⟩

/-! ### Members -/

theorem skipAttribute_eq_ok (s : Unit) (input : List UInt8) (t : Unit) (rest : List UInt8) :
    skipAttribute input = .ok (t, rest) ↔
      ∃ (a : OuterLayout) (v : Unit), input = a.bytes ++ rest ∧
        ((a.Exact ∧ a.inner = []) ∧ v = ()) ∧ t = s := by
  constructor
  · intro h
    obtain ⟨i, m, hi, h⟩ := bind_eq_ok.1 h
    obtain ⟨d, m, hd, h⟩ := bind_eq_ok.1 h
    obtain ⟨content, hlen, rfl, -⟩ := skip_eq_ok.1 h
    obtain rfl := u16_eq_ok.1 hi
    obtain rfl := u32_eq_ok.1 hd
    exact ⟨⟨⟨i, d, content⟩, [], Nat.zero_le _⟩, (), AttributeLayout.append_eq_bytes ..,
      ⟨⟨hlen, rfl⟩, rfl⟩, rfl⟩
  · rintro ⟨a, v, rfl, ⟨⟨hexact, -⟩, -⟩, rfl⟩
    rw [a.bytes_append]
    exact bind_eq_ok.2 ⟨a.name, _, u16_eq_ok.2 rfl, bind_eq_ok.2 ⟨a.declared, _, u32_eq_ok.2 rfl,
      skip_eq_ok.2 ⟨a.content, hexact, rfl, rfl⟩⟩⟩

theorem recognizes_readField (pool : ConstantPool) :
    Recognizes (readField pool) MemberLayout.bytes (FieldShows pool) := by
  intro input f rest
  constructor
  · intro h
    obtain ⟨access, m, haccess, h⟩ := bind_eq_ok.1 h
    obtain ⟨name, m, hname, h⟩ := bind_eq_ok.1 h
    obtain ⟨descriptor, m, hdescriptor, h⟩ := bind_eq_ok.1 h
    obtain ⟨attributes, shown, m, hle, hshows, hattributes, h⟩ :=
      (counted_iterate_eq_ok skipAttribute_eq_ok).1 h
    obtain ⟨rfl, rfl⟩ := pure_eq_ok.1 h
    subst hattributes
    obtain rfl := u16_eq_ok.1 haccess
    obtain ⟨i, rfl, hi⟩ := (recognizes_readText pool _ _ _).1 hname
    obtain ⟨j, rfl, hj⟩ := (recognizes_readText pool _ _ _).1 hdescriptor
    refine ⟨⟨access, i, j, attributes, hle⟩, ?_, rfl, hi, hj,
      ((List.forall₂_and_left _ _).1 hshows).1⟩
    simp only [MemberLayout.bytes, List.append_assoc]
  · rintro ⟨m, rfl, haccess, hname, hdescriptor, hattributes⟩
    have hshown : List.Forall₂ (fun (_ : OuterLayout) (v : Unit) => v = ()) m.attributes
        (m.attributes.map fun _ => ()) :=
      List.forall₂_map_right_iff.2 (List.forall₂_same.2 fun _ _ => rfl)
    simp only [MemberLayout.bytes, List.append_assoc]
    refine bind_eq_ok.2 ⟨m.access, _, u16_eq_ok.2 rfl, bind_eq_ok.2 ⟨f.name, _,
      (recognizes_readText pool _ _ _).2 ⟨_, rfl, hname⟩, bind_eq_ok.2 ⟨f.descriptor, _,
      (recognizes_readText pool _ _ _).2 ⟨_, rfl, hdescriptor⟩,
      (counted_iterate_eq_ok skipAttribute_eq_ok).2 ⟨m.attributes, _, rest, m.attributes_le,
        (List.forall₂_and_left _ _).2 ⟨hattributes, hshown⟩, rfl, pure_eq_ok.2 ⟨?_, rfl⟩⟩⟩⟩⟩
    rw [← haccess]

/-- Of several optional values the last one counts. -/
theorem getLast?_filterMap_cons {β : Type} (f : α → Option β) (v : α) (vs : List α)
    (o : Option β) :
    ((v :: vs).filterMap f).getLast?.or o = (vs.filterMap f).getLast?.or ((f v).or o) := by
  cases hv : f v with
  | none => rw [List.filterMap_cons_none hv, Option.none_or]
  | some b =>
    rw [List.filterMap_cons_some hv, List.getLast?_cons]
    cases (vs.filterMap f).getLast? <;> rfl

theorem foldl_addToMethod (shown : List (Option MethodBody × List String)) :
    ∀ s, shown.foldl addToMethod s = ((shown.filterMap Prod.fst).getLast?.or s.1,
      (shown.flatMap Prod.snd).reverse ++ s.2) := by
  induction shown with
  | nil =>
    intro s
    rfl
  | cons v shown ih =>
    intro s
    rw [List.foldl_cons, ih, getLast?_filterMap_cons, List.flatMap_cons, List.reverse_append,
      List.append_assoc]
    rfl

theorem foldl_addToClass (shown : List (Option String × Option String)) :
    ∀ s, shown.foldl addToClass s = ((shown.filterMap Prod.fst).getLast?.or s.1,
      (shown.filterMap Prod.snd).getLast?.or s.2) := by
  induction shown with
  | nil =>
    intro s
    rfl
  | cons v shown ih =>
    intro s
    rw [List.foldl_cons, ih, getLast?_filterMap_cons, getLast?_filterMap_cons]
    rfl

theorem recognizes_readMethod (pool : ConstantPool) :
    Recognizes (readMethod pool) MemberLayout.bytes (MethodShows pool) := by
  intro input f rest
  constructor
  · intro h
    obtain ⟨access, m, haccess, h⟩ := bind_eq_ok.1 h
    obtain ⟨name, m, hname, h⟩ := bind_eq_ok.1 h
    obtain ⟨descriptor, m, hdescriptor, h⟩ := bind_eq_ok.1 h
    obtain ⟨attributes, shown, m, hle, hshows, hattributes, h⟩ :=
      (counted_iterate_eq_ok (readMethodAttribute_eq_ok pool)).1 h
    rw [foldl_addToMethod] at h
    obtain ⟨rfl, rfl⟩ := pure_eq_ok.1 h
    subst hattributes
    obtain rfl := u16_eq_ok.1 haccess
    obtain ⟨i, rfl, hi⟩ := (recognizes_readText pool _ _ _).1 hname
    obtain ⟨j, rfl, hj⟩ := (recognizes_readText pool _ _ _).1 hdescriptor
    refine ⟨⟨access, i, j, attributes, hle⟩, ?_, rfl, hi, hj, shown, hshows, ?_, ?_⟩
    · simp only [MemberLayout.bytes, List.append_assoc]
    · exact Option.or_none
    · rw [List.append_nil, List.reverse_reverse]
  · rintro ⟨m, rfl, haccess, hname, hdescriptor, shown, hshows, hbody, hexceptions⟩
    simp only [MemberLayout.bytes, List.append_assoc]
    refine bind_eq_ok.2 ⟨m.access, _, u16_eq_ok.2 rfl, bind_eq_ok.2 ⟨f.name, _,
      (recognizes_readText pool _ _ _).2 ⟨_, rfl, hname⟩, bind_eq_ok.2 ⟨f.descriptor, _,
      (recognizes_readText pool _ _ _).2 ⟨_, rfl, hdescriptor⟩,
      (counted_iterate_eq_ok (readMethodAttribute_eq_ok pool)).2 ⟨m.attributes, shown, rest,
        m.attributes_le, hshows, rfl, ?_⟩⟩⟩⟩
    rw [foldl_addToMethod]
    refine pure_eq_ok.2 ⟨?_, rfl⟩
    rw [Option.or_none, List.append_nil, List.reverse_reverse, ← haccess, ← hbody, ← hexceptions]

/-! ### Whole class files -/

theorem readPool_eq_ok_iff {pool : ConstantPool} :
    readPool input = .ok (pool, rest) ↔
      ∃ used, input = used ++ rest ∧ Reads readPool used pool := by
  constructor
  · intro h
    obtain ⟨used, hinput, hreads, -⟩ := local_readPool.ok h
    exact ⟨used, hinput, hreads⟩
  · rintro ⟨used, rfl, hreads⟩
    exact hreads rest

/-- A class off the front of the bytes. -/
theorem recognizes_read : Recognizes read ClassLayout.bytes ClassLayout.Depicts := by
  intro input c rest
  constructor
  · intro h
    obtain ⟨magic, m, hmagic, h⟩ := bind_eq_ok.1 h
    obtain ⟨hclass, h⟩ := guard_eq_ok.1 h
    obtain ⟨minor, m, hminor, h⟩ := bind_eq_ok.1 h
    obtain ⟨major, m, hmajor, h⟩ := bind_eq_ok.1 h
    obtain ⟨pool, m, hpool, h⟩ := bind_eq_ok.1 h
    obtain ⟨access, m, haccess, h⟩ := bind_eq_ok.1 h
    obtain ⟨name, m, hname, h⟩ := bind_eq_ok.1 h
    obtain ⟨superName, m, hsuper, h⟩ := bind_eq_ok.1 h
    obtain ⟨interfaces, m, hinterfaces, h⟩ := bind_eq_ok.1 h
    obtain ⟨fields, m, hfields, h⟩ := bind_eq_ok.1 h
    obtain ⟨methods, m, hmethods, h⟩ := bind_eq_ok.1 h
    obtain ⟨attributes, shown, m, hle, hshows, hattributes, h⟩ :=
      (counted_iterate_eq_ok (readClassAttribute_eq_ok pool)).1 h
    rw [foldl_addToClass] at h
    obtain ⟨rfl, rfl⟩ := pure_eq_ok.1 h
    subst hattributes
    obtain rfl := not_not.1 hclass
    obtain rfl := u32_eq_ok.1 hmagic
    obtain rfl := u16_eq_ok.1 hminor
    obtain rfl := u16_eq_ok.1 hmajor
    obtain ⟨used, rfl, hused⟩ := readPool_eq_ok_iff.1 hpool
    obtain rfl := u16_eq_ok.1 haccess
    obtain ⟨i, rfl, hi⟩ := (recognizes_readClassName pool _ _ _).1 hname
    obtain ⟨j, rfl, hj⟩ := (recognizes_readClassName pool _ _ _).1 hsuper
    obtain ⟨is, rfl, his, hshowIs⟩ :=
      ((recognizes_readClassName pool).counted _ _ _).1 hinterfaces
    obtain ⟨fs, rfl, hfs, hshowFs⟩ := ((recognizes_readField pool).counted _ _ _).1 hfields
    obtain ⟨ms, rfl, hms, hshowMs⟩ := ((recognizes_readMethod pool).counted _ _ _).1 hmethods
    refine ⟨⟨⟨major, minor⟩, pool, used, hused, access, i, j, is, his, fs, hfs, ms, hms, attributes,
      hle⟩, ?_, rfl, rfl, rfl, hi, hj, hshowIs, hshowFs, hshowMs, shown, hshows, ?_, ?_⟩
    · simp only [ClassLayout.bytes, List.append_assoc]
    · exact Option.or_none
    · exact Option.or_none
  · rintro ⟨l, rfl, hl⟩
    obtain ⟨shown, hshows, hfile, hdebug⟩ := hl.attributes
    simp only [ClassLayout.bytes, List.append_assoc]
    refine bind_eq_ok.2 ⟨_, _, u32_eq_ok.2 rfl, guard_eq_ok.2 ⟨not_not.2 rfl,
      bind_eq_ok.2 ⟨_, _, u16_eq_ok.2 rfl, bind_eq_ok.2 ⟨_, _, u16_eq_ok.2 rfl,
      bind_eq_ok.2 ⟨_, _, l.reads_pool _, bind_eq_ok.2 ⟨_, _, u16_eq_ok.2 rfl,
      bind_eq_ok.2 ⟨_, _, (recognizes_readClassName _ _ _ _).2 ⟨_, rfl, hl.name⟩,
      bind_eq_ok.2 ⟨_, _, (recognizes_readClassName _ _ _ _).2 ⟨_, rfl, hl.superName⟩,
      bind_eq_ok.2 ⟨_, _, ((recognizes_readClassName _).counted _ _ _).2
        ⟨_, rfl, l.interfaces_le, hl.interfaces⟩,
      bind_eq_ok.2 ⟨_, _, ((recognizes_readField _).counted _ _ _).2
        ⟨_, rfl, l.fields_le, hl.fields⟩,
      bind_eq_ok.2 ⟨_, _, ((recognizes_readMethod _).counted _ _ _).2
        ⟨_, rfl, l.methods_le, hl.methods⟩,
      (counted_iterate_eq_ok (readClassAttribute_eq_ok l.pool)).2 ⟨l.attributes, shown, rest,
        l.attributes_le, hshows, rfl, ?_⟩⟩⟩⟩⟩⟩⟩⟩⟩⟩⟩⟩
    rw [foldl_addToClass]
    refine pure_eq_ok.2 ⟨?_, rfl⟩
    rw [Option.or_none, Option.or_none, ← hfile, ← hdebug, ← hl.access, ← hl.pool, ← hl.version]

/-- **Bytes are read as a class exactly if a layout with these bytes depicts it.** -/
theorem ofBytes_eq_ok_iff {c : ClassImage} :
    ofBytes input = .ok c ↔ ∃ l : ClassLayout, l.bytes = input ∧ l.Depicts c := by
  rw [ofBytes_eq_ok, recognizes_read input c []]
  constructor
  · rintro ⟨l, rfl, hl⟩
    exact ⟨l, (List.append_nil _).symm, hl⟩
  · rintro ⟨l, rfl, hl⟩
    exact ⟨l, (List.append_nil _).symm, hl⟩

end ClassImage

end ClassForge
