import ClassForge.Proofs.Pool.Capacity
import ClassForge.Proofs.Pool.Reading

/-!
# Written classes are read back

The reader follows the writer structure by structure: each lemma says that one part of a class is
read from the bytes it is written as, whatever comes after them.

* `reads_field`, `reads_body`, `reads_method`, `reads_classAttributes` — the parts of a class, for
  a pool in which the indices of the draft stand for the texts of the outline;
* `Reads.iterate_add` — attributes in sequence, each of them optional;
* `exists_ofBytes_encode` — **PROVED**: the bytes of a draft are read as the class it represents;
* `ofBytes_encode_of_overflow` — **PROVED**: unless its debug text is too long for its length to be
  told;
* `ofBytes_encode_foldl_apply` — **PROVED**: so are the bytes of any sequence of operations.
-/

namespace ClassForge

/-! ### Sizes -/

/-- The tables of a body are as long as their counts can tell. -/
structure MethodBody.Sized (b : MethodBody) : Prop where
  code : b.code.size < 2 ^ 32
  handlers : b.handlers.length ≤ wordMax
  lines : b.lines.length ≤ wordMax

/-- The tables of a method are as long as their counts can tell. -/
structure MethodImage.Sized (m : MethodImage) : Prop where
  body : ∀ b, m.body = some b → b.Sized
  exceptions : m.exceptions.length ≤ wordMax

/-- A debug text is as long as its length can tell. -/
def DebugSized (text : String) : Prop := (ModifiedUtf8.encode text).length < 2 ^ 32

theorem toNat_ofNat_of_lt {n : Nat} (h : n < 2 ^ 32) : (UInt32.ofNat n).toNat = n := by
  rw [UInt32.toNat_ofNat']
  exact Nat.mod_eq_of_lt h

namespace Reader

variable {σ : Type} {step : σ → Reader σ} {s s' s'' : σ} {bs cs : List UInt8}

/-! ### Attributes in sequence -/

theorem iterate_succ (step : σ → Reader σ) (n : Nat) (s : σ) :
    iterate step (n + 1) s = step s >>= iterate step n := by
  funext input
  show _ = (step s input >>= fun r => iterate step n r.1 r.2)
  rw [iterate]
  cases step s input <;> rfl

theorem iterate_add (step : σ → Reader σ) (n m : Nat) :
    ∀ s, iterate step (n + m) s = iterate step n s >>= iterate step m := by
  induction n with
  | zero =>
    intro s
    rw [Nat.zero_add]
    rfl
  | succ n ih =>
    intro s
    rw [Nat.succ_add, iterate_succ, iterate_succ, bind_assoc]
    exact congrArg _ (funext ih)

theorem Reads.iterate_add {n m : Nat} (hn : Reads (iterate step n s) bs s')
    (hm : Reads (iterate step m s') cs s'') : Reads (iterate step (n + m) s) (bs ++ cs) s'' := by
  rw [Reader.iterate_add]
  exact hn.bind hm

theorem reads_iterate_zero (step : σ → Reader σ) (s : σ) : Reads (iterate step 0 s) [] s :=
  fun _ => rfl

theorem Reads.iterate_one (h : Reads (step s) bs s') : Reads (iterate step 1 s) bs s' := by
  have hone := h.bind (reads_iterate_zero step s')
  rw [List.append_nil] at hone
  rw [iterate_succ]
  exact hone

end Reader

namespace ClassImage

open Reader ClassDraft

variable {p : ConstantPool} {names : AttributeNames}

/-! ### Texts and tables -/

theorem reads_text {i : UInt16} {text : String} (h : p.utf8At i = .ok text) :
    Reads (readText p) (word16 i) text :=
  (reads_u16 i).bind_last (Reads.ofExcept h)

theorem reads_className {i : UInt16} {name : String} (h : p.classAt i = .ok name) :
    Reads (readClassName p) (word16 i) name :=
  (reads_u16 i).bind_last (Reads.ofExcept h)

theorem reads_handler (h : Handler) : Reads readHandler (encodeHandler h) h :=
  (reads_u16 h.startPc).bind ((reads_u16 h.endPc).bind ((reads_u16 h.handlerPc).bind
    ((reads_u16 h.catchType).map (Handler.mk h.startPc h.endPc h.handlerPc))))

theorem reads_line (l : LineEntry) : Reads readLine (encodeLine l) l :=
  (reads_u16 l.startPc).bind ((reads_u16 l.line).map (LineEntry.mk l.startPc))

/-- A table is read back from its entries. -/
theorem reads_table {α : Type} {item : Reader α} {encode : α → List UInt8}
    (hitem : ∀ x, Reads item (encode x) x) {xs : List α} (hlen : xs.length ≤ wordMax) :
    Reads (counted item) (encodeCounted encode xs) xs :=
  reads_counted _ hlen (List.forall₂_same.2 fun x _ => hitem x)

/-! ### Fields -/

theorem reads_field {f : FieldDraft} {g : FieldImage} (h : f.Depicts p g) :
    Reads (readField p) (encodeField f) g := by
  have hfield : g = ⟨⟨f.access.bits⟩, g.name, g.descriptor⟩ := by
    rw [h.access]
  rw [hfield]
  refine (reads_u16 f.access.bits).bind ((reads_text h.name).bind
    ((reads_text h.descriptor).bind ((reads_u16 0).bind_last ?_)))
  exact (reads_iterate_zero _ ()).map fun _ => _

/-! ### Bodies -/

/-- One line table, read backwards onto nothing. -/
theorem reads_lineTable {lines : List LineEntry} (hlen : lines.length ≤ wordMax)
    (hname : p.utf8At names.lineNumbers = .ok "LineNumberTable") :
    Reads (readBodyAttribute p []) (encodeAttribute names.lineNumbers (2 + 4 * lines.length)
      (encodeCounted encodeLine lines)) lines.reverse := by
  refine (reads_text hname).bind ((reads_u32 _).bind ?_)
  rw [if_pos rfl]
  have htable := (reads_table reads_line hlen).map fun more => more.reverse ++ []
  rw [List.append_nil] at htable
  exact htable

/-- A body is read back from the content of its attribute. -/
theorem reads_body {b : MethodBody} (hb : b.Sized)
    (hname : b.lines ≠ [] → p.utf8At names.lineNumbers = .ok "LineNumberTable") :
    Reads (readBody p) (word16 b.maxStack ++ (word16 b.maxLocals ++ (count32 b.code.size ++
      (b.code.toList ++ (encodeCounted encodeHandler b.handlers ++ encodeLines names b.lines)))))
      b := by
  refine (reads_u16 b.maxStack).bind ((reads_u16 b.maxLocals).bind ((reads_u32 _).bind ?_))
  rw [toNat_ofNat_of_lt hb.code]
  refine (reads_bytes Array.length_toList).bind ((reads_table reads_handler hb.handlers).bind ?_)
  unfold encodeLines
  by_cases hlines : b.lines = []
  · rw [if_pos (by rw [hlines]; rfl)]
    refine (reads_u16 0).bind_last ((reads_iterate_zero _ []).bind_last ?_)
    have hbody : b = ⟨b.maxStack, b.maxLocals, b.code, b.handlers, []⟩ := by rw [← hlines]
    rw [hbody]
    exact Reads.pure _
  · rw [if_neg (by simpa using hlines)]
    refine (reads_u16 1).bind
      ((Reads.iterate_one (reads_lineTable hb.lines (hname hlines))).bind_last ?_)
    rw [List.reverse_reverse]
    exact Reads.pure _

/-! ### Methods -/

theorem reads_bodyAttribute {b : MethodBody} (hb : b.Sized) (hnames : names.Named p b.Uses)
    (sofar : Option MethodBody × List String) :
    Reads (readMethodAttribute p sofar) (encodeBody names b) (some b, sofar.2) := by
  have hcode : p.utf8At names.code = .ok "Code" := hnames .code trivial
  refine (reads_text hcode).bind ((reads_u32 _).bind ?_)
  rw [if_pos rfl]
  exact (reads_body hb fun hlines => hnames .lineNumbers hlines).map fun body =>
    (some body, sofar.2)

theorem reads_exceptionsAttribute {indices : List UInt16} {thrown : List String}
    (hlen : indices.length ≤ wordMax)
    (hthrown : List.Forall₂ (fun i name => p.classAt i = .ok name) indices thrown)
    (hname : p.utf8At names.exceptions = .ok "Exceptions") (body : Option MethodBody) :
    Reads (readMethodAttribute p (body, [])) (encodeAttribute names.exceptions
      (2 + 2 * indices.length) (encodeCounted word16 indices)) (body, thrown.reverse) := by
  refine (reads_text hname).bind ((reads_u32 _).bind ?_)
  rw [if_neg (by decide), if_pos rfl]
  have hlist := reads_counted word16 hlen (hthrown.imp fun _ _ h => reads_className h)
  have hmore := hlist.map fun more => (body, more.reverse ++ [])
  rw [List.append_nil] at hmore
  exact hmore

/-- The attributes of a method: its body and its exceptions, each if there is one. -/
theorem reads_methodAttributes {m : MethodDraft} {g : MethodImage} (h : m.Depicts p g)
    (hsized : g.Sized) (hnames : names.Named p g.Uses) :
    Reads (iterate (readMethodAttribute p)
        ((if m.body.isSome then 1 else 0) + (if m.exceptions.isEmpty then 0 else 1)) (none, []))
      ((match m.body with
        | some body => encodeBody names body
        | none => []) ++ encodeExceptions names m.exceptions) (g.body, g.exceptions.reverse) := by
  have hlen : m.exceptions.length ≤ wordMax := by
    rw [h.exceptions.length_eq]
    exact hsized.exceptions
  refine Reads.iterate_add (?_ : Reads _ _ (g.body, [])) ?_
  · rw [h.body]
    cases hbody : g.body with
    | none => exact reads_iterate_zero _ _
    | some b =>
      refine Reads.iterate_one (reads_bodyAttribute (hsized.body b hbody) ?_ (none, []))
      exact hnames.imp fun kind hkind => .inl ⟨b, hbody, hkind⟩
  · have hthrown := h.exceptions
    unfold encodeExceptions
    by_cases hnone : m.exceptions = []
    · rw [hnone] at hthrown ⊢
      rw [List.forall₂_nil_left_iff.1 hthrown]
      exact reads_iterate_zero _ _
    · have hsome : ¬ m.exceptions.isEmpty := by simpa using hnone
      have hne : g.exceptions ≠ [] := by
        intro hnil
        rw [hnil] at hthrown
        exact hnone (List.forall₂_nil_right_iff.1 hthrown)
      rw [if_neg hsome, if_neg hsome]
      exact Reads.iterate_one (reads_exceptionsAttribute hlen hthrown
        (hnames .exceptions (.inr ⟨hne, rfl⟩)) g.body)

/-- **A method is read back with its body and its exceptions.** -/
theorem reads_method {m : MethodDraft} {g : MethodImage} (h : m.Depicts p g) (hsized : g.Sized)
    (hnames : names.Named p g.Uses) : Reads (readMethod p) (encodeMethod names m) g := by
  have hmethod :
      g = ⟨⟨m.access.bits⟩, g.name, g.descriptor, g.body, g.exceptions.reverse.reverse⟩ := by
    rw [h.access, List.reverse_reverse]
  rw [hmethod]
  have hcount : (if m.body.isSome then 1 else 0) + (if m.exceptions.isEmpty then 0 else 1) ≤
      wordMax := by
    unfold wordMax
    split <;> split <;> omega
  obtain ⟨hread, hvalue⟩ := reads_count16 hcount
  refine (reads_u16 m.access.bits).bind ((reads_text h.name).bind
    ((reads_text h.descriptor).bind (hread.bind ?_)))
  rw [hvalue]
  exact (reads_methodAttributes h hsized hnames).map fun r =>
    (⟨⟨m.access.bits⟩, g.name, g.descriptor, r.1, r.2.reverse⟩ : MethodImage)

/-! ### Classes -/

theorem reads_sourceFile {i : UInt16} {file : String} (hfile : p.utf8At i = .ok file)
    (hname : p.utf8At names.sourceFile = .ok "SourceFile")
    (sofar : Option String × Option String) :
    Reads (readClassAttribute p sofar) (encodeAttribute names.sourceFile 2 (word16 i))
      (some file, sofar.2) := by
  refine (reads_text hname).bind ((reads_u32 _).bind ?_)
  rw [if_pos rfl]
  exact (reads_text hfile).map fun file => (some file, sofar.2)

theorem reads_sourceDebug {text : String} (hsized : DebugSized text)
    (hname : p.utf8At names.sourceDebug = .ok "SourceDebugExtension")
    (sofar : Option String × Option String) :
    Reads (readClassAttribute p sofar) (encodeAttribute names.sourceDebug
      (ModifiedUtf8.encode text).length (ModifiedUtf8.encode text)) (sofar.1, some text) := by
  refine (reads_text hname).bind ((reads_u32 _).bind ?_)
  rw [if_neg (by decide), if_pos rfl, toNat_ofNat_of_lt hsized]
  refine (reads_bytes rfl).bind_last ?_
  rw [ModifiedUtf8.decode?_encode]
  exact Reads.pure _

/-- The attributes of a class: source file and debug text, each if it was set. -/
theorem reads_classAttributes {d : ClassDraft} {o : ClassOutline} (h : d.Resolves p o)
    (hdebug : ∀ text, o.sourceDebug = some text → DebugSized text) :
    Reads (iterate (readClassAttribute p)
        ((if d.sourceFile.isSome then 1 else 0) + (if d.sourceDebug.isSome then 1 else 0))
        (none, none))
      ((match d.sourceFile with
        | some file => encodeAttribute d.names.sourceFile 2 (word16 file)
        | none => []) ++
      (match d.sourceDebug with
        | some bytes => encodeAttribute d.names.sourceDebug bytes.length bytes
        | none => [])) (o.sourceFile, o.sourceDebug) := by
  refine Reads.iterate_add (?_ : Reads _ _ (o.sourceFile, none)) ?_
  · have hfile := h.sourceFile
    have hname := fun hne => h.names .sourceFile (.inr (.inl ⟨hne, rfl⟩))
    revert hfile hname
    generalize d.sourceFile = i
    cases o.sourceFile with
    | none =>
      rintro ⟨⟩ -
      exact reads_iterate_zero _ _
    | some file =>
      rintro (hfile | _) hname
      exact Reads.iterate_one (reads_sourceFile hfile (hname (by simp)) (none, none))
  · rw [h.sourceDebug]
    cases hsome : o.sourceDebug with
    | none => exact reads_iterate_zero _ _
    | some text =>
      have hname := h.names .sourceDebug (.inr (.inr ⟨by simp [hsome], rfl⟩))
      exact Reads.iterate_one (reads_sourceDebug (hdebug text hsome) hname (o.sourceFile, none))

/-- What the counts and lengths of a class file can tell of an outline. -/
structure OutlineSized (o : ClassOutline) : Prop where
  methods : ∀ m ∈ o.methods, m.Sized
  debug : ∀ text, o.sourceDebug = some text → DebugSized text

theorem reads_methods {d : ClassDraft} {o : ClassOutline} (h : d.Resolves p o)
    (hmethods : ∀ m ∈ o.methods, m.Sized) (hcount : d.methods.size ≤ wordMax) :
    Reads (counted (readMethod p)) (encodeCounted (encodeMethod d.names) d.methods.toList)
      o.methods := by
  refine reads_counted _ hcount ?_
  have hread : ∀ g ∈ o.methods, ∀ m, m.Depicts p g →
      Reads (readMethod p) (encodeMethod d.names m) g := fun g hg m hm =>
    reads_method hm (hmethods g hg) (h.names.imp fun kind hkind => .inl ⟨g, hg, hkind⟩)
  have hboth := (List.forall₂_and_left _ _).2
    ⟨hread, List.Forall₂.flip (R := flip (MethodDraft.Depicts p)) h.methods⟩
  exact List.Forall₂.flip (hboth.imp fun g m hg => hg.1 m hg.2)

/-- The class that an outline describes, with the rest of its header. -/
def ofOutline (version : ClassVersion) (access : AccessFlags) (pool : ConstantPool)
    (o : ClassOutline) : ClassImage :=
  { version, pool, access, name := o.name, superName := o.superName, interfaces := o.interfaces
    fields := o.fields, methods := o.methods, sourceFile := o.sourceFile
    sourceDebug := o.sourceDebug }

/-- The reader takes the bytes of a draft for the class it represents. -/
theorem reads_class {d : ClassDraft} {o : ClassOutline} (h : d.Represents o)
    (hsized : OutlineSized o) (hclean : d.pool.violation = none)
    (hinterfaces : d.interfaces.length ≤ wordMax) (hfields : d.fields.size ≤ wordMax)
    (hmethods : d.methods.size ≤ wordMax) :
    ∃ pool : ConstantPool, pool.slots = d.pool.slots ∧ pool.violation = none ∧
      Reads read d.encodeUnchecked (ofOutline d.version d.access pool o) := by
  obtain ⟨pool, hslots, hviolation, hpool⟩ := ConstantPool.reads_pool h.listed
  refine ⟨pool, hslots, hviolation, ?_⟩
  have hres := (h.resolves hclean).extend (ConstantPool.extends_of_slots_eq hslots.symm)
  have hreadInterfaces := reads_counted word16 hinterfaces
    (hres.interfaces.imp fun _ _ hi => reads_className hi)
  have hreadFields := reads_counted encodeField hfields
    (hres.fields.imp fun _ _ hf => reads_field hf)
  have hcount : (if d.sourceFile.isSome then 1 else 0) + (if d.sourceDebug.isSome then 1 else 0) ≤
      wordMax := by
    unfold wordMax
    split <;> split <;> omega
  obtain ⟨hreadCount, hvalue⟩ := reads_count16 hcount
  unfold encodeUnchecked
  rw [← List.append_assoc (word16 d.pool.count)]
  refine (reads_u32 classMagic).bind ?_
  rw [if_neg (by simp)]
  refine (reads_u16 d.version.minor).bind ((reads_u16 d.version.major).bind (hpool.bind
    ((reads_u16 d.access.bits).bind ((reads_className hres.name).bind
    ((reads_className hres.superName).bind (hreadInterfaces.bind (hreadFields.bind
    ((reads_methods hres hsized.methods hmethods).bind (hreadCount.bind ?_)))))))))
  rw [hvalue]
  exact (reads_classAttributes hres hsized.debug).map fun r =>
    ofOutline d.version d.access pool { o with sourceFile := r.1, sourceDebug := r.2 }

theorem checkCount_eq_ok {members : String} {n : Nat} :
    checkCount members n = .ok () ↔ n ≤ wordMax := by
  unfold checkCount
  split
  · rename_i hgt
    exact ⟨by rintro ⟨⟩, fun h => absurd hgt (Nat.not_lt.2 h)⟩
  · rename_i hle
    exact ⟨fun _ => Nat.not_lt.1 hle, fun _ => rfl⟩

/-- A draft is written unless a limit of its pool or of its counts has been exceeded. -/
theorem encode_eq_ok {d : ClassDraft} {bytes : List UInt8} :
    d.encode = .ok bytes ↔
      d.pool.violation = none ∧ d.fields.size ≤ wordMax ∧ d.methods.size ≤ wordMax ∧
        d.interfaces.length ≤ wordMax ∧ d.encodeUnchecked = bytes := by
  unfold ClassDraft.encode ClassDraft.check
  simp only [Except.bind_eq_ok]
  constructor
  · rintro ⟨_, ⟨_, hpool, _, hfields, _, hmethods, hinterfaces⟩, hbytes⟩
    exact ⟨ConstantPool.check_eq_ok.1 hpool, checkCount_eq_ok.1 hfields,
      checkCount_eq_ok.1 hmethods, checkCount_eq_ok.1 hinterfaces, Except.ok.inj hbytes⟩
  · rintro ⟨hpool, hfields, hmethods, hinterfaces, hbytes⟩
    exact ⟨(), ⟨(), ConstantPool.check_eq_ok.2 hpool, (), checkCount_eq_ok.2 hfields, (),
      checkCount_eq_ok.2 hmethods, checkCount_eq_ok.2 hinterfaces⟩, congrArg Except.ok hbytes⟩

/-- **The bytes of a draft are read as the class that it represents.** -/
theorem exists_ofBytes_encode {d : ClassDraft} {o : ClassOutline} {bytes : List UInt8}
    (h : d.Represents o) (hsized : OutlineSized o) (hbytes : d.encode = .ok bytes) :
    ∃ pool : ConstantPool, pool.slots = d.pool.slots ∧ pool.violation = none ∧
      ofBytes bytes = .ok (ofOutline d.version d.access pool o) := by
  obtain ⟨hclean, hfields, hmethods, hinterfaces, rfl⟩ := encode_eq_ok.1 hbytes
  obtain ⟨pool, hslots, hviolation, hread⟩ :=
    reads_class h hsized hclean hinterfaces hfields hmethods
  refine ⟨pool, hslots, hviolation, ?_⟩
  have hall := hread []
  rw [List.append_nil] at hall
  rw [ofBytes, hall]

/-! ### Debug texts whose length no count can tell -/

/-- The same draft with an empty debug text. -/
def emptyDebug (d : ClassDraft) : ClassDraft := { d with sourceDebug := some [] }

theorem represents_emptyDebug {d : ClassDraft} {o : ClassOutline} (h : d.Represents o)
    (hsome : o.sourceDebug ≠ none) :
    (emptyDebug d).Represents { o with sourceDebug := some "" } where
  coherent := h.coherent
  listed := h.listed
  resolves hv := by
    have hres := h.resolves hv
    refine ⟨hres.name, hres.superName, hres.interfaces, hres.fields, hres.methods, hres.sourceFile,
      rfl, hres.names.imp fun kind hkind => ?_⟩
    exact hkind.imp_right (.imp_right (.imp_left fun _ => hsome))

/-- A length of which a count tells nothing is written as none. -/
theorem encodeUnchecked_emptyDebug {d : ClassDraft} {content : List UInt8}
    (hdebug : d.sourceDebug = some content) (hlength : content.length % 2 ^ 32 = 0) :
    d.encodeUnchecked = (emptyDebug d).encodeUnchecked ++ content := by
  have hcount : count32 content.length = count32 0 := by
    refine congrArg word32 (UInt32.toNat_inj.1 ?_)
    rw [UInt32.toNat_ofNat', UInt32.toNat_ofNat', hlength]
  simp only [encodeUnchecked, encodeClassAttributes, encodeAttribute, emptyDebug, hdebug, hcount,
    Option.isSome_some, List.append_assoc, List.length_nil, List.append_nil]
  rfl

/-- **A debug text of a multiple of 2^32 bytes is not read back**: its length is written as 0, and
all of it is left over. -/
theorem ofBytes_encode_of_overflow {d : ClassDraft} {o : ClassOutline} {bytes : List UInt8}
    {text : String} (h : d.Represents o) (hmethods : ∀ m ∈ o.methods, m.Sized)
    (htext : o.sourceDebug = some text) (hne : ModifiedUtf8.encode text ≠ [])
    (hlength : (ModifiedUtf8.encode text).length % 2 ^ 32 = 0) (hbytes : d.encode = .ok bytes) :
    ofBytes bytes = .error (.trailing (ModifiedUtf8.encode text).length) := by
  obtain ⟨hclean, hfields, hcount, hinterfaces, rfl⟩ := encode_eq_ok.1 hbytes
  have hdebug : d.sourceDebug = some (ModifiedUtf8.encode text) := by
    rw [(h.resolves hclean).sourceDebug, htext]
    rfl
  have hsized : OutlineSized { o with sourceDebug := some "" } := by
    refine ⟨hmethods, ?_⟩
    rintro _ ⟨⟩
    show (ModifiedUtf8.encode "").length < 2 ^ 32
    decide
  obtain ⟨pool, -, -, hread⟩ := reads_class
    (represents_emptyDebug h (by rw [htext]; exact Option.some_ne_none _)) hsized hclean hinterfaces
    hfields hcount
  rw [encodeUnchecked_emptyDebug hdebug hlength, ofBytes, hread (ModifiedUtf8.encode text)]
  cases hcontent : ModifiedUtf8.encode text with
  | nil => exact absurd hcontent hne
  | cons b rest => rfl

end ClassImage

/-! ### Sequences of operations -/

namespace Drafting

/-- The field that an operation declares. -/
def field? : Drafting → Option FieldImage
  | .field access name type => some ⟨access, name, type.descriptor⟩
  | _ => none

/-- The method that an operation declares. -/
def method? : Drafting → Option MethodImage
  | .method access name type body exceptions =>
    some ⟨access, name, type.descriptor, body, exceptions⟩
  | _ => none

/-- The source file that an operation sets. -/
def sourceFile? : Drafting → Option String
  | .sourceFile file => some file
  | _ => none

/-- The debug text that an operation sets. -/
def sourceDebug? : Drafting → Option String
  | .sourceDebug text => some text
  | _ => none

/-- The class that operations declare: the members in order, the attributes as set last. -/
def outline (name superName : String) (interfaces : List String) (ops : List Drafting) :
    ClassOutline :=
  { name, superName, interfaces
    fields := ops.filterMap field?
    methods := ops.filterMap method?
    sourceFile := (ops.filterMap sourceFile?).getLast?
    sourceDebug := (ops.filterMap sourceDebug?).getLast? }

theorem version_apply (d : ClassDraft) (op : Drafting) :
    (op.apply d).version = d.version ∧ (op.apply d).access = d.access := by
  cases op <;> exact ⟨rfl, rfl⟩

/-- One operation changes the outline by what it declares. -/
theorem outline_concat (name superName : String) (interfaces : List String) (ops : List Drafting)
    (op : Drafting) :
    outline name superName interfaces (ops ++ [op]) =
      { name, superName, interfaces
        fields := ops.filterMap field? ++ op.field?.toList
        methods := ops.filterMap method? ++ op.method?.toList
        sourceFile := op.sourceFile?.or (ops.filterMap sourceFile?).getLast?
        sourceDebug := op.sourceDebug?.or (ops.filterMap sourceDebug?).getLast? } := by
  cases op <;> simp [outline, field?, method?, sourceFile?, sourceDebug?, List.filterMap_cons]

theorem represents_apply {d : ClassDraft} {name superName : String} {interfaces : List String}
    {ops : List Drafting} (h : d.Represents (outline name superName interfaces ops))
    (op : Drafting) :
    (op.apply d).Represents (outline name superName interfaces (ops ++ [op])) := by
  rw [outline_concat]
  cases op with
  | field access fieldName type =>
    simp only [field?, method?, sourceFile?, sourceDebug?, Option.toList, List.append_nil,
      Option.or]
    exact h.addField access fieldName type
  | method access methodName type body exceptions =>
    simp only [field?, method?, sourceFile?, sourceDebug?, Option.toList, List.append_nil,
      Option.or]
    exact h.addMethod access methodName type body exceptions
  | sourceFile file =>
    simp only [field?, method?, sourceFile?, sourceDebug?, Option.toList, List.append_nil,
      Option.or]
    exact h.setSourceFile file
  | sourceDebug text =>
    simp only [field?, method?, sourceFile?, sourceDebug?, Option.toList, List.append_nil,
      Option.or]
    exact h.setSourceDebug text
  | constant c =>
    simp only [field?, method?, sourceFile?, sourceDebug?, Option.toList, List.append_nil,
      Option.or]
    exact h.withPool (ConstantPool.grows_apply d.pool c)

/-- **A run of operations represents what it declares.** -/
theorem represents_foldl_apply (version : ClassVersion) (access : AccessFlags)
    (name superName : String) (interfaces : List String) (ops : List Drafting) :
    (ops.foldl apply (ClassDraft.new version access name superName interfaces)).Represents
      (outline name superName interfaces ops) := by
  induction ops using List.reverseRecOn with
  | nil => exact ClassDraft.represents_new version access name superName interfaces
  | append_singleton ops op ih =>
    rw [List.foldl_append]
    exact represents_apply ih op

theorem header_foldl_apply (ops : List Drafting) :
    ∀ d : ClassDraft, (ops.foldl apply d).version = d.version ∧
      (ops.foldl apply d).access = d.access := by
  induction ops with
  | nil =>
    intro d
    exact ⟨rfl, rfl⟩
  | cons op ops ih =>
    intro d
    obtain ⟨hversion, haccess⟩ := version_apply d op
    rw [← hversion, ← haccess]
    exact ih (op.apply d)

end Drafting

namespace ClassImage

open ClassDraft

/-- **Every written class is read back as the operations declared it**: the header, the constants
slot by slot, the members in order, and the source file and debug text that were set last. -/
theorem ofBytes_encode_foldl_apply (version : ClassVersion) (access : AccessFlags)
    (name superName : String) (interfaces : List String) (ops : List Drafting)
    (hmethods : ∀ m ∈ ops.filterMap Drafting.method?, m.Sized)
    (hdebug : ∀ text, Drafting.sourceDebug text ∈ ops → DebugSized text) {bytes : List UInt8}
    (hbytes : (ops.foldl Drafting.apply
      (ClassDraft.new version access name superName interfaces)).encode = .ok bytes) :
    ∃ pool : ConstantPool,
      pool.slots = (ops.foldl Drafting.apply
        (ClassDraft.new version access name superName interfaces)).pool.slots ∧
      ofBytes bytes = .ok {
        version, pool, access, name, superName, interfaces
        fields := ops.filterMap Drafting.field?
        methods := ops.filterMap Drafting.method?
        sourceFile := (ops.filterMap Drafting.sourceFile?).getLast?
        sourceDebug := (ops.filterMap Drafting.sourceDebug?).getLast? } := by
  have hrep := Drafting.represents_foldl_apply version access name superName interfaces ops
  have hsized : OutlineSized (Drafting.outline name superName interfaces ops) := by
    refine ⟨hmethods, fun text htext => hdebug text ?_⟩
    obtain ⟨op, hop, hset⟩ := List.mem_filterMap.1 (List.mem_of_getLast? htext)
    cases op with
    | sourceDebug other =>
      cases hset
      exact hop
    | field | method | sourceFile | constant => cases hset
  obtain ⟨pool, hslots, -, hread⟩ := exists_ofBytes_encode hrep hsized hbytes
  obtain ⟨hversion, haccess⟩ := Drafting.header_foldl_apply ops
    (ClassDraft.new version access name superName interfaces)
  rw [hversion, haccess] at hread
  exact ⟨pool, hslots, hread⟩

/-- A class with a field, a 64-bit constant, a method with all its tables, and attributes of which
the source file is set twice. -/
def sampleRun : List Drafting := [
  .field .privateFlag "count" .long,
  .constant (.long 7),
  .sourceFile "Draft.java",
  .method .publicFlag "run" ⟨[.int], .void⟩
    (some { maxStack := 1, maxLocals := 2, code := #[0xb1], handlers := [⟨0, 1, 0, 0⟩],
            lines := [⟨0, 3⟩] })
    ["java/io/IOException"],
  .sourceDebug "SMAP",
  .sourceFile "Final.java"]

/-- The draft that the sample run ends with. -/
def sampleDraft : ClassDraft :=
  sampleRun.foldl Drafting.apply
    (ClassDraft.new .java5 .publicFlag "demo/Unit" "java/lang/Object" ["java/lang/Runnable"])

theorem hasRoom_sampleDraft : sampleDraft.pool.HasRoom 0 := by
  have hnew : (ClassDraft.new .java5 .publicFlag "demo/Unit" "java/lang/Object"
      ["java/lang/Runnable"]).pool.HasRoom 16 :=
    hasRoom_new .java5 .publicFlag (by decide) (by decide) (by decide) (by decide)
  have hfield := @hasRoom_addField _ 14 .privateFlag "count" .long hnew (by decide) (by decide)
  have hconstant := hfield.intern (c := .long 7) (n := 12)
  simp only [sampleDraft, sampleRun, List.foldl_cons, List.foldl_nil, Drafting.apply]
  refine hasRoom_setSourceFile (hasRoom_setSourceDebug (hasRoom_addMethod (hasRoom_setSourceFile
    hconstant ?_) ?_ ?_ ?_)) ?_
  · decide
  · decide
  · decide
  · decide
  · decide

theorem encode_sampleDraft : sampleDraft.encode = .ok sampleDraft.encodeUnchecked := by
  refine encode_eq_ok.2 ⟨hasRoom_sampleDraft.clean, ?_, ?_, ?_, rfl⟩
  · show 1 ≤ wordMax
    decide
  · show 1 ≤ wordMax
    decide
  · show (ConstantPool.classRefs _ ["java/lang/Runnable"]).1.length ≤ wordMax
    rw [ConstantPool.length_classRefs]
    decide

/-- The bytes of the sample are read with the tables of its method and the later source file. -/
theorem ofBytes_encode_sampleRun :
    ∃ pool : ConstantPool, pool.slots = sampleDraft.pool.slots ∧
      ofBytes sampleDraft.encodeUnchecked = .ok {
        version := .java5, pool, access := .publicFlag, name := "demo/Unit"
        superName := "java/lang/Object", interfaces := ["java/lang/Runnable"]
        fields := [⟨.privateFlag, "count", "J"⟩]
        methods := [⟨.publicFlag, "run", "(I)V",
          some { maxStack := 1, maxLocals := 2, code := #[0xb1], handlers := [⟨0, 1, 0, 0⟩],
                 lines := [⟨0, 3⟩] }, ["java/io/IOException"]⟩]
        sourceFile := some "Final.java", sourceDebug := some "SMAP" } := by
  have hdescriptor : (⟨[.int], .void⟩ : MethodType).descriptor = "(I)V" := by decide
  have hmethods : ∀ m ∈ sampleRun.filterMap Drafting.method?, m.Sized := by
    intro m hm
    obtain rfl := List.mem_singleton.1 hm
    refine ⟨?_, by decide⟩
    rintro b ⟨⟩
    exact ⟨by decide, by decide, by decide⟩
  have hdebug : ∀ text, Drafting.sourceDebug text ∈ sampleRun → DebugSized text := by
    intro text htext
    obtain rfl : text = "SMAP" := by
      simpa [sampleRun] using htext
    show (ModifiedUtf8.encode "SMAP").length < 2 ^ 32
    decide
  rw [← hdescriptor]
  exact ofBytes_encode_foldl_apply .java5 .publicFlag "demo/Unit" "java/lang/Object"
    ["java/lang/Runnable"] sampleRun hmethods hdebug encode_sampleDraft

end ClassImage

end ClassForge
