import Mathlib
import ClassForge.Pool.Lookup

/-!
# Growing pools

A pool only grows: constants keep their indices, and what an index stands for stays.

* `Extends` — every constant of one pool stands at the same index of another;
* `Coherent` — an interned constant stands where the index says;
* `Listed` — the slots hold a list of constants, with an empty slot at index 0 and after each
  64-bit number, and no more of them than an index addresses;
* `Grows` — all of this along any sequence of operations, with the first exceeded limit kept;
* `classAt_classRef` and its siblings — **PROVED**: unless a limit has been exceeded, an index that
  a named operation answers stands for the texts that were passed to it.
-/

namespace ClassForge

/-- A constant that fits a class file: a text has at most as many bytes as its length can tell. -/
def Constant.Storable : Constant → Prop
  | .utf8 text => ModifiedUtf8.encodedLength text ≤ wordMax
  | _ => True

theorem Constant.width_pos (c : Constant) : 0 < c.width := by
  cases c <;> simp [Constant.width]

namespace ConstantPool

/-! ### Slots -/

theorem size_pushSlots (slots : Array (Option Constant)) (c : Constant) :
    (pushSlots slots c).size = slots.size + c.width := by
  unfold pushSlots
  split
  · rename_i hw
    simp [hw]
  · have hone : c.width = 1 := by
      cases c <;> simp_all [Constant.width]
    simp [hone]

theorem getElem?_pushSlots_of_lt {slots : Array (Option Constant)} {k : Nat} (c : Constant)
    (h : k < slots.size) : (pushSlots slots c)[k]? = slots[k]? := by
  unfold pushSlots
  split
  · rw [Array.getElem?_push_lt (by simp; omega), Array.getElem_push_lt h,
      Array.getElem?_eq_getElem h]
  · rw [Array.getElem?_push_lt h, Array.getElem?_eq_getElem h]

theorem getElem?_pushSlots_size (slots : Array (Option Constant)) (c : Constant) :
    (pushSlots slots c)[slots.size]? = some (some c) := by
  unfold pushSlots
  split
  · rw [Array.getElem?_push_lt (by simp), Array.getElem_push_eq]
  · rw [Array.getElem?_push_size]

theorem toNat_lt_size_of_get? {p : ConstantPool} {i : UInt16} {c : Constant}
    (h : p.get? i = some c) : i.toNat < p.slots.size := by
  by_contra hge
  rw [get?, Array.getElem?_eq_none (by omega)] at h
  cases h

/-! ### Extension -/

/-- Every constant of the pool stands at the same index of the other one. -/
def Extends (p p' : ConstantPool) : Prop := ∀ i c, p.get? i = some c → p'.get? i = some c

variable {p p' : ConstantPool}

theorem Extends.refl (p : ConstantPool) : Extends p p := fun _ _ h => h

theorem extends_of_slots_eq (h : p.slots = p'.slots) : Extends p p' := by
  intro i c hget
  rw [get?, ← h]
  exact hget

/-- The larger pool shows the same at an index, or there was nothing. -/
theorem Extends.get?_eq_or_none (h : Extends p p') (i : UInt16) :
    p'.get? i = p.get? i ∨ p.get? i = none := by
  cases hget : p.get? i with
  | none => exact .inr rfl
  | some c => exact .inl (h i c hget)

theorem Extends.utf8At {i : UInt16} {text : String} (h : Extends p p')
    (hi : p.utf8At i = .ok text) : p'.utf8At i = .ok text := by
  unfold ConstantPool.utf8At at hi ⊢
  rcases h.get?_eq_or_none i with hget | hnone
  · rw [hget]
    exact hi
  · rw [hnone] at hi
    cases hi

theorem Extends.classAt {i : UInt16} {name : String} (h : Extends p p')
    (hi : p.classAt i = .ok name) : p'.classAt i = .ok name := by
  unfold ConstantPool.classAt at hi ⊢
  split at hi
  · rename_i n hget
    rw [h i _ hget]
    exact h.utf8At hi
  · cases hi
  · cases hi

theorem Extends.memberIndices {i : UInt16} {r : MemberKind × UInt16 × UInt16}
    (h : Extends p p') (hi : p.memberIndices i = .ok r) : p'.memberIndices i = .ok r := by
  unfold ConstantPool.memberIndices at hi ⊢
  rcases h.get?_eq_or_none i with hget | hnone
  · rw [hget]
    exact hi
  · rw [hnone] at hi
    cases hi

theorem Extends.nameAndTypeIndices {i : UInt16} {r : UInt16 × UInt16} (h : Extends p p')
    (hi : p.nameAndTypeIndices i = .ok r) : p'.nameAndTypeIndices i = .ok r := by
  unfold ConstantPool.nameAndTypeIndices at hi ⊢
  rcases h.get?_eq_or_none i with hget | hnone
  · rw [hget]
    exact hi
  · rw [hnone] at hi
    cases hi

end ConstantPool

/-- A sequence of two steps that may fail succeeds when both do. -/
theorem Except.bind_eq_ok {ε α β : Type} {x : Except ε α} {f : α → Except ε β} {b : β} :
    x >>= f = .ok b ↔ ∃ a, x = .ok a ∧ f a = .ok b := by
  cases x with
  | error e =>
    constructor
    · intro h
      cases h
    · rintro ⟨a, h, -⟩
      cases h
  | ok a =>
    constructor
    · intro h
      exact ⟨a, rfl, h⟩
    · rintro ⟨a', h, hf⟩
      cases h
      exact hf

/-- A step that may fail has succeeded if its result passes a test. -/
theorem Except.exists_ok_of_any {ε α : Type} {x : Except ε α} {test : α → Bool}
    (h : x.toOption.any test = true) : ∃ a, x = .ok a ∧ test a = true := by
  cases x with
  | error e => cases h
  | ok a => exact ⟨a, rfl, h⟩

namespace ConstantPool

variable {p p' : ConstantPool}

/-- A member is resolved through three kinds of constants. -/
theorem memberAt_eq_ok {i : UInt16} {member : MemberRef} :
    p.memberAt i = .ok member ↔
      ∃ owner nameAndType name descriptor,
        p.memberIndices i = .ok (member.kind, owner, nameAndType) ∧
          p.nameAndTypeIndices nameAndType = .ok (name, descriptor) ∧
          p.classAt owner = .ok member.owner ∧ p.utf8At name = .ok member.name ∧
          p.utf8At descriptor = .ok member.descriptor := by
  unfold memberAt
  simp only [Except.bind_eq_ok]
  constructor
  · rintro ⟨⟨kind, owner, nameAndType⟩, hm, ⟨name, descriptor⟩, hn, o, ho, n, hname, d, hd, hr⟩
    cases hr
    exact ⟨owner, nameAndType, name, descriptor, hm, hn, ho, hname, hd⟩
  · rintro ⟨owner, nameAndType, name, descriptor, hm, hn, ho, hname, hd⟩
    exact ⟨_, hm, _, hn, _, ho, _, hname, _, hd, rfl⟩

theorem Extends.memberAt {i : UInt16} {member : MemberRef} (h : Extends p p')
    (hi : p.memberAt i = .ok member) : p'.memberAt i = .ok member := by
  obtain ⟨owner, nameAndType, name, descriptor, hm, hn, ho, hname, hd⟩ := memberAt_eq_ok.1 hi
  exact memberAt_eq_ok.2 ⟨owner, nameAndType, name, descriptor, h.memberIndices hm,
    h.nameAndTypeIndices hn, h.classAt ho, h.utf8At hname, h.utf8At hd⟩

/-! ### Invariants -/

/-- Every interned constant stands where the index says. -/
def Coherent (p : ConstantPool) : Prop := ∀ c i, p.index[c]? = some i → p.get? i = some c

/-- The slots hold these constants, from index 1 on. -/
structure Lists (p : ConstantPool) (cs : List Constant) : Prop where
  slots : p.slots = cs.foldl pushSlots #[none]
  size : p.slots.size ≤ wordMax
  storable : ∀ c ∈ cs, c.Storable

/-- The slots hold a list of constants. -/
def Listed (p : ConstantPool) : Prop := ∃ cs, p.Lists cs

theorem coherent_empty : empty.Coherent := by
  intro c i h
  simp [empty] at h

theorem listed_empty : empty.Listed := ⟨[], rfl, by decide, by simp⟩

/-- The limits that interning can exceed. -/
def IsPoolLimit : LimitError → Prop
  | .poolFull | .textTooLong _ => True
  | _ => False

/-- **What any sequence of operations does to a pool.** -/
structure Grows (p p' : ConstantPool) : Prop where
  keeps : Extends p p'
  /-- An exceeded limit is never forgotten. -/
  clean : p'.violation = none → p.violation = none
  limits : ∀ e, p'.violation = some e → p.violation = some e ∨ IsPoolLimit e
  coherent : p.Coherent → p'.Coherent
  listed : p.Listed → p'.Listed

theorem Grows.refl (p : ConstantPool) : Grows p p := ⟨.refl p, id, fun _ => .inl, id, id⟩

theorem Grows.trans {p'' : ConstantPool} (h : Grows p p') (h' : Grows p' p'') : Grows p p'' where
  keeps i c hget := h'.keeps i c (h.keeps i c hget)
  clean hv := h.clean (h'.clean hv)
  limits e hv := (h'.limits e hv).elim (h.limits e) .inr
  coherent hc := h'.coherent (h.coherent hc)
  listed hl := h'.listed (h.listed hl)

theorem grows_reject (p : ConstantPool) {e : LimitError} (he : IsPoolLimit e) :
    Grows p (p.reject e) where
  keeps := extends_of_slots_eq rfl
  clean hv := by
    have hne : p.violation.or (some e) ≠ none := by
      cases p.violation <;> simp
    exact absurd hv hne
  limits e' hv := by
    change p.violation.or (some e) = some e' at hv
    cases hp : p.violation with
    | none =>
      rw [hp] at hv
      cases hv
      exact .inr he
    | some old =>
      rw [hp] at hv
      exact .inl hv
  coherent := id
  listed := fun ⟨cs, h⟩ => ⟨cs, h.slots, h.size, h.storable⟩

theorem reject_violation (p : ConstantPool) (e : LimitError) : (p.reject e).violation ≠ none := by
  unfold reject
  cases p.violation <;> simp

theorem check_eq_ok : p.check = .ok () ↔ p.violation = none := by
  unfold check
  cases p.violation with
  | none => exact ⟨fun _ => rfl, fun _ => rfl⟩
  | some e => exact ⟨by rintro ⟨⟩, by rintro ⟨⟩⟩

/-! ### Interning -/

/-- **What interning can do**: find the constant, meet the limit, or add it at the end. -/
theorem intern_cases (p : ConstantPool) (c : Constant) :
    (∃ i, p.index[c]? = some i ∧ p.intern c = (i, p)) ∨
      (p.slots.size + c.width > wordMax ∧ p.intern c = (0, p.reject .poolFull)) ∨
      p.index[c]? = none ∧ p.slots.size + c.width ≤ wordMax ∧
        p.intern c = (UInt16.ofNat p.slots.size, { p with
          slots := pushSlots p.slots c
          index := p.index.insert c (UInt16.ofNat p.slots.size) }) := by
  unfold intern
  cases hc : p.index[c]? with
  | some i => exact .inl ⟨i, rfl, rfl⟩
  | none =>
    by_cases hfull : p.slots.size + c.width > wordMax
    · exact .inr (.inl ⟨hfull, by simp [hfull]⟩)
    · exact .inr (.inr ⟨rfl, by omega, by simp [hfull]⟩)

theorem toNat_ofNat_size {c : Constant} (h : p.slots.size + c.width ≤ wordMax) :
    (UInt16.ofNat p.slots.size).toNat = p.slots.size := by
  rw [UInt16.toNat_ofNat']
  have hw := c.width_pos
  unfold wordMax at h
  exact Nat.mod_eq_of_lt (by omega)

theorem extends_pushSlots {c : Constant} (h : p'.slots = pushSlots p.slots c) : Extends p p' := by
  intro i d hget
  have hlt := toNat_lt_size_of_get? hget
  rw [get?, h, getElem?_pushSlots_of_lt c hlt]
  exact hget

theorem listed_pushSlots {c : Constant} (hc : c.Storable) (h : p'.slots = pushSlots p.slots c)
    (hsize : p.slots.size + c.width ≤ wordMax) (hp : p.Listed) : p'.Listed := by
  obtain ⟨cs, hcs⟩ := hp
  refine ⟨cs ++ [c], ?_, ?_, ?_⟩
  · rw [h, hcs.slots, List.foldl_append]
    rfl
  · rw [h, size_pushSlots]
    exact hsize
  · intro d hd
    rcases List.mem_append.1 hd with hd | hd
    · exact hcs.storable d hd
    · rw [List.mem_singleton.1 hd]
      exact hc

theorem extends_intern (p : ConstantPool) (c : Constant) : Extends p (p.intern c).2 := by
  rcases intern_cases p c with ⟨i, -, h⟩ | ⟨-, h⟩ | ⟨-, -, h⟩
  · rw [h]
    exact .refl p
  · rw [h]
    exact extends_of_slots_eq rfl
  · rw [h]
    exact extends_pushSlots rfl

theorem coherent_intern (c : Constant) (hcoh : p.Coherent) : (p.intern c).2.Coherent := by
  rcases intern_cases p c with ⟨i, -, h⟩ | ⟨-, h⟩ | ⟨-, hsize, h⟩
  · rw [h]
    exact hcoh
  · rw [h]
    exact hcoh
  · rw [h]
    intro d i hd
    rw [Std.HashMap.getElem?_insert] at hd
    split at hd
    · rename_i heq
      obtain rfl : c = d := by simpa using heq
      cases hd
      rw [get?, toNat_ofNat_size hsize]
      show (pushSlots p.slots c)[p.slots.size]?.join = _
      rw [getElem?_pushSlots_size]
      rfl
    · exact extends_pushSlots (p := p) rfl i d (hcoh d i hd)

theorem grows_intern (p : ConstantPool) {c : Constant} (hc : c.Storable) :
    Grows p (p.intern c).2 := by
  have hcoh := coherent_intern (p := p) c
  rcases intern_cases p c with ⟨i, -, h⟩ | ⟨-, h⟩ | ⟨-, hsize, h⟩
  · rw [h]
    exact .refl p
  · rw [h]
    exact grows_reject p trivial
  · rw [h] at hcoh ⊢
    exact ⟨extends_pushSlots rfl, id, fun _ => .inl, hcoh, listed_pushSlots hc rfl hsize⟩

/-- Unless a limit has been exceeded, an interned constant stands at the index answered. -/
theorem get?_intern (hcoh : p.Coherent) {c : Constant}
    (hv : (p.intern c).2.violation = none) : (p.intern c).2.get? (p.intern c).1 = some c := by
  rcases intern_cases p c with ⟨i, hi, h⟩ | ⟨-, h⟩ | ⟨-, hsize, h⟩
  · rw [h]
    exact hcoh c i hi
  · rw [h] at hv
    exact absurd hv (reject_violation p _)
  · rw [h]
    show (pushSlots p.slots c)[(UInt16.ofNat p.slots.size).toNat]?.join = _
    rw [toNat_ofNat_size hsize, getElem?_pushSlots_size]
    rfl

/-! ### Named constants -/

theorem grows_utf8 (p : ConstantPool) (text : String) : Grows p (p.utf8 text).2 := by
  unfold utf8
  by_cases h : ModifiedUtf8.encodedLength text > wordMax
  · simp only [h, if_true]
    exact grows_reject p trivial
  · simp only [h, if_false]
    exact grows_intern p (c := .utf8 text) (Nat.le_of_not_gt h)

theorem utf8At_utf8 (hcoh : p.Coherent) {text : String}
    (hv : (p.utf8 text).2.violation = none) :
    (p.utf8 text).2.utf8At (p.utf8 text).1 = .ok text := by
  unfold utf8 at hv ⊢
  by_cases h : ModifiedUtf8.encodedLength text > wordMax
  · simp only [h, if_true] at hv
    exact absurd hv (reject_violation p _)
  · simp only [h, if_false] at hv ⊢
    rw [utf8At, get?_intern hcoh hv]

theorem grows_classRef (p : ConstantPool) (name : String) : Grows p (p.classRef name).2 :=
  (grows_utf8 p name).trans (grows_intern _ trivial)

/-- The class at the index that naming it answers. -/
theorem classAt_classRef (hcoh : p.Coherent) {name : String}
    (hv : (p.classRef name).2.violation = none) :
    (p.classRef name).2.get? (p.classRef name).1 = some (.classRef (p.utf8 name).1) ∧
      (p.classRef name).2.classAt (p.classRef name).1 = .ok name := by
  have hgrows : Grows (p.utf8 name).2 (p.classRef name).2 := grows_intern _ trivial
  have hget : (p.classRef name).2.get? (p.classRef name).1 = some (.classRef (p.utf8 name).1) :=
    get?_intern ((grows_utf8 p name).coherent hcoh) hv
  refine ⟨hget, ?_⟩
  rw [classAt, hget]
  exact hgrows.keeps.utf8At (utf8At_utf8 hcoh (hgrows.clean hv))

theorem grows_stringRef (p : ConstantPool) (text : String) : Grows p (p.stringRef text).2 :=
  (grows_utf8 p text).trans (grows_intern _ trivial)

theorem get?_stringRef (hcoh : p.Coherent) {text : String}
    (hv : (p.stringRef text).2.violation = none) :
    (p.stringRef text).2.get? (p.stringRef text).1 = some (.stringRef (p.utf8 text).1) :=
  get?_intern ((grows_utf8 p text).coherent hcoh) hv

theorem grows_nameAndType (p : ConstantPool) (name descriptor : String) :
    Grows p (p.nameAndType name descriptor).2 :=
  ((grows_utf8 p name).trans (grows_utf8 _ descriptor)).trans (grows_intern _ trivial)

theorem nameAndTypeIndices_nameAndType (hcoh : p.Coherent) {name descriptor : String}
    (hv : (p.nameAndType name descriptor).2.violation = none) :
    ∃ n d, (p.nameAndType name descriptor).2.nameAndTypeIndices
        (p.nameAndType name descriptor).1 = .ok (n, d) ∧
      (p.nameAndType name descriptor).2.utf8At n = .ok name ∧
      (p.nameAndType name descriptor).2.utf8At d = .ok descriptor := by
  have hcoh₁ := (grows_utf8 p name).coherent hcoh
  have hgrows₁ := grows_utf8 (p.utf8 name).2 descriptor
  have hcoh₂ := hgrows₁.coherent hcoh₁
  have hgrows₂ : Grows ((p.utf8 name).2.utf8 descriptor).2 (p.nameAndType name descriptor).2 :=
    grows_intern _ trivial
  have hv₂ := hgrows₂.clean hv
  have hv₁ := hgrows₁.clean hv₂
  refine ⟨(p.utf8 name).1, ((p.utf8 name).2.utf8 descriptor).1, ?_, ?_, ?_⟩
  · have hget : (p.nameAndType name descriptor).2.get? (p.nameAndType name descriptor).1 =
        some (.nameAndType (p.utf8 name).1 ((p.utf8 name).2.utf8 descriptor).1) :=
      get?_intern hcoh₂ hv
    rw [nameAndTypeIndices, hget]
  · exact hgrows₂.keeps.utf8At (hgrows₁.keeps.utf8At (utf8At_utf8 hcoh hv₁))
  · exact hgrows₂.keeps.utf8At (utf8At_utf8 hcoh₁ hv₂)

/-- The constant of a member reference. -/
def refConstant : MemberKind → UInt16 → UInt16 → Constant
  | .field => .fieldRef
  | .method => .methodRef
  | .interfaceMethod => .interfaceMethodRef

theorem storable_refConstant (kind : MemberKind) (owner member : UInt16) :
    (refConstant kind owner member).Storable := by
  cases kind <;> trivial

/-- A member reference resolves to the texts that its class and its name and type resolve to. -/
theorem memberAt_intern (hcoh : p.Coherent) {kind : MemberKind} {c m n d : UInt16}
    {owner name descriptor : String} (howner : p.classAt c = .ok owner)
    (hindices : p.nameAndTypeIndices m = .ok (n, d)) (hname : p.utf8At n = .ok name)
    (hdesc : p.utf8At d = .ok descriptor)
    (hv : (p.intern (refConstant kind c m)).2.violation = none) :
    (p.intern (refConstant kind c m)).2.memberAt (p.intern (refConstant kind c m)).1 =
      .ok ⟨kind, owner, name, descriptor⟩ := by
  have hget := get?_intern hcoh hv
  have hkeeps := (grows_intern p (storable_refConstant kind c m)).keeps
  refine memberAt_eq_ok.2 ⟨c, m, n, d, ?_, hkeeps.nameAndTypeIndices hindices,
    hkeeps.classAt howner, hkeeps.utf8At hname, hkeeps.utf8At hdesc⟩
  rw [memberIndices, hget]
  cases kind <;> rfl

/-- A member reference of any kind: its class, its name and descriptor, then the reference. -/
def memberRef (p : ConstantPool) (kind : MemberKind) (owner name descriptor : String) :
    UInt16 × ConstantPool :=
  ((p.classRef owner).2.nameAndType name descriptor).2.intern
    (refConstant kind (p.classRef owner).1 ((p.classRef owner).2.nameAndType name descriptor).1)

theorem fieldRef_eq (p : ConstantPool) (owner name descriptor : String) :
    p.fieldRef owner name descriptor = p.memberRef .field owner name descriptor := rfl

theorem methodRef_eq (p : ConstantPool) (owner name : String) (type : MethodType) :
    p.methodRef owner name type = p.memberRef .method owner name type.descriptor := by
  unfold methodRef memberRef
  generalize type.descriptor = descriptor
  rfl

theorem interfaceMethodRef_eq (p : ConstantPool) (owner name : String) (type : MethodType) :
    p.interfaceMethodRef owner name type =
      p.memberRef .interfaceMethod owner name type.descriptor := by
  unfold interfaceMethodRef memberRef
  generalize type.descriptor = descriptor
  rfl

theorem grows_memberRef (p : ConstantPool) (kind : MemberKind) (owner name descriptor : String) :
    Grows p (p.memberRef kind owner name descriptor).2 :=
  ((grows_classRef p owner).trans (grows_nameAndType _ name descriptor)).trans
    (grows_intern _ (storable_refConstant _ _ _))

/-- **A member reference resolves to the texts that were passed.** -/
theorem memberAt_memberRef (hcoh : p.Coherent) {kind : MemberKind}
    {owner name descriptor : String}
    (hv : (p.memberRef kind owner name descriptor).2.violation = none) :
    (p.memberRef kind owner name descriptor).2.memberAt
      (p.memberRef kind owner name descriptor).1 = .ok ⟨kind, owner, name, descriptor⟩ := by
  unfold memberRef at hv ⊢
  have hgrows := grows_nameAndType (p.classRef owner).2 name descriptor
  have hcoh₁ := (grows_classRef p owner).coherent hcoh
  have hv₂ := (grows_intern _ (storable_refConstant _ _ _)).clean hv
  have hclass := (classAt_classRef hcoh (hgrows.clean hv₂)).2
  obtain ⟨n, d, hindices, hname, hdesc⟩ := nameAndTypeIndices_nameAndType hcoh₁ hv₂
  exact memberAt_intern (hgrows.coherent hcoh₁) (hgrows.keeps.classAt hclass) hindices hname hdesc
    hv

/-! ### Several classes -/

/-- Classes are named one after the other. -/
theorem classRefs_concat (p : ConstantPool) (names : List String) (name : String) :
    p.classRefs (names ++ [name]) =
      ((p.classRefs names).1 ++ [((p.classRefs names).2.classRef name).1],
        ((p.classRefs names).2.classRef name).2) := by
  simp only [classRefs, List.foldl_append, List.foldl_cons, List.foldl_nil, List.reverse_cons]

theorem length_classRefs (p : ConstantPool) (names : List String) :
    (p.classRefs names).1.length = names.length := by
  induction names using List.reverseRecOn with
  | nil => rfl
  | append_singleton names name ih =>
    rw [classRefs_concat, List.length_append, List.length_append, ih]
    rfl

theorem grows_classRefs (p : ConstantPool) (names : List String) :
    Grows p (p.classRefs names).2 := by
  induction names using List.reverseRecOn with
  | nil => exact .refl p
  | append_singleton names name ih =>
    rw [classRefs_concat]
    exact ih.trans (grows_classRef _ name)

/-- **Each index stands for the class of its place.** -/
theorem classAt_classRefs (hcoh : p.Coherent) {names : List String}
    (hv : (p.classRefs names).2.violation = none) :
    List.Forall₂ (fun i name => (p.classRefs names).2.classAt i = .ok name)
      (p.classRefs names).1 names := by
  induction names using List.reverseRecOn with
  | nil => exact .nil
  | append_singleton names name ih =>
    rw [classRefs_concat] at hv ⊢
    have hgrows := grows_classRef (p.classRefs names).2 name
    have hlast := (classAt_classRef ((grows_classRefs p names).coherent hcoh) hv).2
    refine List.rel_append ((ih (hgrows.clean hv)).imp fun i n h => hgrows.keeps.classAt h) ?_
    exact .cons hlast .nil

/-- Every operation on a pool makes it grow. -/
theorem grows_apply (p : ConstantPool) (op : Interning) :
    Grows p (op.apply p).2 := by
  cases op with
  | utf8 text => exact grows_utf8 p text
  | classRef name => exact grows_classRef p name
  | stringRef text => exact grows_stringRef p text
  | integer value => exact grows_intern p trivial
  | float bits => exact grows_intern p trivial
  | long value => exact grows_intern p trivial
  | double bits => exact grows_intern p trivial
  | nameAndType name descriptor => exact grows_nameAndType p name descriptor
  | fieldRef owner name descriptor =>
    simp only [Interning.apply, fieldRef_eq]
    exact grows_memberRef p .field owner name descriptor
  | methodRef owner name type =>
    simp only [Interning.apply, methodRef_eq]
    exact grows_memberRef p .method owner name type.descriptor
  | interfaceMethodRef owner name type =>
    simp only [Interning.apply, interfaceMethodRef_eq]
    exact grows_memberRef p .interfaceMethod owner name type.descriptor

end ConstantPool

end ClassForge
