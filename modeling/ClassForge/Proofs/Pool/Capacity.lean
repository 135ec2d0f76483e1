import ClassForge.Proofs.ClassFile.Outline

/-!
# Room in a pool

A limit is exceeded only when there is no room left or a text is too long. With room for all the
slots that an operation may take, it succeeds and uses up no more than these.

* `HasRoom n` — no limit has been exceeded, and `n` more slots fit;
* `HasRoom.utf8` and its siblings — **PROVED**: what each named operation takes up at most;
* `classRefs_shared` — **PROVED**: a class named several times takes up its two slots once.
-/

namespace ClassForge

/-- A text short enough for a constant. -/
def ShortText (text : String) : Prop := ModifiedUtf8.encodedLength text ≤ wordMax

instance (text : String) : Decidable (ShortText text) :=
  inferInstanceAs (Decidable (_ ≤ _))

namespace ConstantPool

/-- No limit has been exceeded, and so many more slots fit. -/
structure HasRoom (n : Nat) (p : ConstantPool) : Prop where
  clean : p.violation = none
  room : p.slots.size + n ≤ wordMax

variable {p : ConstantPool} {n : Nat}

theorem hasRoom_empty (h : n < wordMax) : empty.HasRoom n := by
  refine ⟨rfl, ?_⟩
  show 1 + n ≤ wordMax
  omega

theorem HasRoom.mono {m : Nat} (h : p.HasRoom n) (hle : m ≤ n) : p.HasRoom m :=
  ⟨h.clean, by have := h.room; omega⟩

theorem HasRoom.intern {c : Constant} (h : p.HasRoom (n + c.width)) :
    (p.intern c).2.HasRoom n := by
  have hroom := h.room
  rcases intern_cases p c with ⟨i, -, heq⟩ | ⟨hfull, -⟩ | ⟨-, -, heq⟩
  · rw [heq]
    exact h.mono (by omega)
  · omega
  · rw [heq]
    refine ⟨h.clean, ?_⟩
    show (pushSlots p.slots c).size + n ≤ wordMax
    rw [size_pushSlots]
    omega

theorem utf8_of_shortText {text : String} (htext : ShortText text) :
    p.utf8 text = p.intern (.utf8 text) :=
  if_neg (Nat.not_lt.2 htext)

theorem HasRoom.utf8 {text : String} (h : p.HasRoom (n + 1)) (htext : ShortText text) :
    (p.utf8 text).2.HasRoom n := by
  rw [utf8_of_shortText htext]
  exact HasRoom.intern (c := .utf8 text) h

theorem HasRoom.classRef {name : String} (h : p.HasRoom (n + 2)) (hname : ShortText name) :
    (p.classRef name).2.HasRoom n :=
  HasRoom.intern (c := .classRef _) (HasRoom.utf8 (n := n + 1) h hname)

theorem HasRoom.stringRef {text : String} (h : p.HasRoom (n + 2)) (htext : ShortText text) :
    (p.stringRef text).2.HasRoom n :=
  HasRoom.intern (c := .stringRef _) (HasRoom.utf8 (n := n + 1) h htext)

theorem HasRoom.nameAndType {name descriptor : String} (h : p.HasRoom (n + 3))
    (hname : ShortText name) (hdesc : ShortText descriptor) :
    (p.nameAndType name descriptor).2.HasRoom n :=
  HasRoom.intern (c := .nameAndType _ _)
    (HasRoom.utf8 (n := n + 1) (HasRoom.utf8 (n := n + 2) h hname) hdesc)

theorem HasRoom.memberRef {kind : MemberKind} {owner name descriptor : String}
    (h : p.HasRoom (n + 6)) (howner : ShortText owner) (hname : ShortText name)
    (hdesc : ShortText descriptor) : (p.memberRef kind owner name descriptor).2.HasRoom n := by
  have hmembers := HasRoom.nameAndType (n := n + 1) (HasRoom.classRef (n := n + 4) h howner)
    hname hdesc
  unfold ConstantPool.memberRef
  refine HasRoom.intern (hmembers.mono ?_)
  cases kind <;> exact Nat.le_refl _

/-! ### Sharing -/

theorem index_intern_of_some {c c' : Constant} {i : UInt16} (h : p.index[c]? = some i) :
    (p.intern c').2.index[c]? = some i := by
  rcases intern_cases p c' with ⟨j, -, heq⟩ | ⟨-, heq⟩ | ⟨hnew, -, heq⟩
  · rw [heq]
    exact h
  · rw [heq]
    exact h
  · have hne : (c' == c) = false := by
      refine beq_eq_false_iff_ne.2 ?_
      rintro rfl
      rw [hnew] at h
      cases h
    rw [heq, Std.HashMap.getElem?_insert, hne]
    exact h

theorem index_intern {c : Constant} (hv : (p.intern c).2.violation = none) :
    (p.intern c).2.index[c]? = some (p.intern c).1 := by
  rcases intern_cases p c with ⟨i, hi, heq⟩ | ⟨-, heq⟩ | ⟨-, -, heq⟩
  · rw [heq]
    exact hi
  · rw [heq] at hv
    exact absurd hv (reject_violation p _)
  · rw [heq, Std.HashMap.getElem?_insert_self]

theorem intern_of_index {c : Constant} {i : UInt16} (h : p.index[c]? = some i) :
    p.intern c = (i, p) := by
  rw [ConstantPool.intern, h]

/-- The class and its name are interned. -/
def Knows (p : ConstantPool) (name : String) : Prop :=
  ∃ i j, p.index[Constant.utf8 name]? = some i ∧ p.index[Constant.classRef i]? = some j

theorem Knows.intern {name : String} (h : p.Knows name) (c : Constant) :
    (p.intern c).2.Knows name := by
  obtain ⟨i, j, hi, hj⟩ := h
  exact ⟨i, j, index_intern_of_some hi, index_intern_of_some hj⟩

theorem Knows.classRef {name other : String} (h : p.Knows name) (hother : ShortText other) :
    (p.classRef other).2.Knows name := by
  rw [ConstantPool.classRef, utf8_of_shortText hother]
  exact (h.intern _).intern _

theorem knows_classRef {name : String} (h : p.HasRoom 2) (hname : ShortText name) :
    (p.classRef name).2.Knows name := by
  have htext : (p.utf8 name).2.HasRoom 1 := HasRoom.utf8 h hname
  have hclass := (HasRoom.classRef (n := 0) h hname).clean
  rw [ConstantPool.classRef] at hclass ⊢
  rw [utf8_of_shortText hname] at htext hclass ⊢
  exact ⟨_, _, index_intern_of_some (index_intern htext.clean), index_intern hclass⟩

theorem classRef_of_knows {name : String} (h : p.Knows name) (hname : ShortText name) :
    (p.classRef name).2 = p := by
  obtain ⟨i, j, hi, hj⟩ := h
  rw [ConstantPool.classRef, utf8_of_shortText hname, intern_of_index hi]
  exact congrArg Prod.snd (intern_of_index hj)

/-- **Different names take up two slots each**, however often they occur. -/
theorem classRefs_shared {names : List String} (h : p.HasRoom (n + 2 * names.toFinset.card))
    (hnames : ∀ name ∈ names, ShortText name) :
    (p.classRefs names).2.HasRoom n ∧ ∀ name ∈ names, (p.classRefs names).2.Knows name := by
  induction names using List.reverseRecOn generalizing n with
  | nil => exact ⟨h, by simp⟩
  | append_singleton names name ih =>
    have hfirst : ∀ other ∈ names, ShortText other := fun other hother =>
      hnames other (List.mem_append_left _ hother)
    have hname : ShortText name := hnames name (by simp)
    rw [classRefs_concat]
    by_cases hmem : name ∈ names
    · -- A name that occurs before leaves the pool as it is.
      have hset : (names ++ [name]).toFinset = names.toFinset := by
        ext other
        simp only [List.mem_toFinset, List.mem_append, List.mem_singleton]
        exact ⟨fun ho => ho.elim id fun heq => heq ▸ hmem, .inl⟩
      rw [hset] at h
      obtain ⟨hroom, hknown⟩ := ih h hfirst
      rw [classRef_of_knows (hknown name hmem) hname]
      refine ⟨hroom, fun other hother => ?_⟩
      rcases List.mem_append.1 hother with hother | hother
      · exact hknown other hother
      · rw [List.mem_singleton.1 hother]
        exact hknown name hmem
    · have hcard : (names ++ [name]).toFinset.card = names.toFinset.card + 1 := by
        rw [List.toFinset_append, List.toFinset_cons, List.toFinset_nil, insert_empty_eq,
          Finset.union_comm, ← Finset.insert_eq,
          Finset.card_insert_of_notMem (mt List.mem_toFinset.1 hmem)]
      obtain ⟨hroom, hknown⟩ := ih (n := n + 2) (h.mono (by omega)) hfirst
      refine ⟨hroom.classRef hname, fun other hother => ?_⟩
      rcases List.mem_append.1 hother with hother | hother
      · exact (hknown other hother).classRef hname
      · rw [List.mem_singleton.1 hother]
        exact knows_classRef (hroom.mono (by omega)) hname

theorem HasRoom.classRefs {names : List String} (h : p.HasRoom (n + 2 * names.length))
    (hnames : ∀ name ∈ names, ShortText name) : (p.classRefs names).2.HasRoom n := by
  have hcard := List.toFinset_card_le names
  exact (classRefs_shared (h.mono (by omega)) hnames).1

end ConstantPool

namespace ClassDraft

open ConstantPool

variable {d : ClassDraft} {n : Nat}

/-! ### Drafts -/

theorem hasRoom_new (version : ClassVersion) (access : AccessFlags) {name superName : String}
    {interfaces : List String} (hname : ShortText name) (hsuper : ShortText superName)
    (hinterfaces : ∀ i ∈ interfaces, ShortText i) (h : n + 2 * interfaces.length + 4 < wordMax) :
    (ClassDraft.new version access name superName interfaces).pool.HasRoom n :=
  have hthis := (hasRoom_empty h).classRef (n := n + 2 * interfaces.length + 2) hname
  (hthis.classRef hsuper).classRefs hinterfaces

theorem hasRoom_addField {access : AccessFlags} {name : String} {type : JavaType}
    (h : d.pool.HasRoom (n + 2)) (hname : ShortText name) (htype : ShortText type.descriptor) :
    (d.addField access name type).pool.HasRoom n :=
  (h.utf8 (n := n + 1) hname).utf8 htype

theorem hasRoom_nameBody {p : ConstantPool} {names : AttributeNames} {body : Option MethodBody}
    (h : p.HasRoom (n + 2)) : (nameBody p names body).2.HasRoom n := by
  have hcode : ShortText AttributeKind.code.text := by decide
  have hlines : ShortText AttributeKind.lineNumbers.text := by decide
  cases body with
  | none => exact h.mono (by omega)
  | some body =>
    rw [nameBody_some]
    split
    · exact HasRoom.utf8 (h.mono (by omega)) hcode
    · exact HasRoom.utf8 (HasRoom.utf8 (n := n + 1) h hcode) hlines

theorem hasRoom_nameExceptions {p : ConstantPool} {names : AttributeNames}
    {exceptions : List String} (h : p.HasRoom (n + 1)) :
    (nameExceptions p names exceptions).2.HasRoom n := by
  have hname : ShortText AttributeKind.exceptions.text := by decide
  rw [nameExceptions_eq]
  split
  · exact h.mono (by omega)
  · exact HasRoom.utf8 h hname

/-- A method takes up five slots for its texts and two for each different exception. -/
theorem hasRoom_addMethod_shared {access : AccessFlags} {name : String} {type : MethodType}
    {body : Option MethodBody} {exceptions : List String}
    (h : d.pool.HasRoom (n + 2 * exceptions.toFinset.card + 5)) (hname : ShortText name)
    (htype : ShortText type.descriptor) (hexceptions : ∀ e ∈ exceptions, ShortText e) :
    (d.addMethod access name type body exceptions).pool.HasRoom n := by
  have htexts := (h.utf8 (n := n + 2 * exceptions.toFinset.card + 4) hname).utf8
    (n := n + 2 * exceptions.toFinset.card + 3) htype
  exact (classRefs_shared (hasRoom_nameExceptions (hasRoom_nameBody htexts)) hexceptions).1

theorem hasRoom_addMethod {access : AccessFlags} {name : String} {type : MethodType}
    {body : Option MethodBody} {exceptions : List String}
    (h : d.pool.HasRoom (n + 2 * exceptions.length + 5)) (hname : ShortText name)
    (htype : ShortText type.descriptor) (hexceptions : ∀ e ∈ exceptions, ShortText e) :
    (d.addMethod access name type body exceptions).pool.HasRoom n := by
  have hcard := List.toFinset_card_le exceptions
  exact hasRoom_addMethod_shared (h.mono (by omega)) hname htype hexceptions

theorem hasRoom_setSourceFile {file : String} (h : d.pool.HasRoom (n + 2))
    (hfile : ShortText file) : (d.setSourceFile file).pool.HasRoom n := by
  have hname : ShortText AttributeKind.sourceFile.text := by decide
  exact (h.utf8 (n := n + 1) hname).utf8 hfile

theorem hasRoom_setSourceDebug {text : String} (h : d.pool.HasRoom (n + 1)) :
    (d.setSourceDebug text).pool.HasRoom n := by
  have hname : ShortText AttributeKind.sourceDebug.text := by decide
  exact h.utf8 hname

end ClassDraft

end ClassForge
