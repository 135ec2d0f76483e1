import ClassForge.Proofs.Pool.Capacity

/-!
# What the indices of a pool stand for

An index that a named operation answers stands for what was passed to the operation, then and after
all later operations, and no two indices stand for the same.

* `Denotation`, `Interning.denotation` — what an operation adds, by its texts and bit patterns;
* `Denotes` — an index stands for it, followed through the pool to the texts;
* `Filed` — every constant is found through the index map, so none stands at two indices;
* `Denotes.unique`, `Filed.denotes_inj` — **PROVED**: an index stands for one thing only, and one
  thing has one index only;
* `answer?_ofInternings` — **PROVED**: all of this for any sequence of operations that exceeds no
  limit.
-/

namespace ClassForge

/-! ### What an operation adds -/

/-- What an index of a pool can stand for. -/
inductive Denotation where
  | text (text : String)
  | classNamed (name : String)
  | literal (text : String)
  | integer (value : Int32)
  | float (bits : UInt32)
  | long (value : Int64)
  | double (bits : UInt64)
  | nameAndType (name descriptor : String)
  | member (ref : MemberRef)
deriving DecidableEq

/-- The kind of a denotation, as a number. -/
def Denotation.rank : Denotation → Nat
  | .text _ => 0
  | .classNamed _ => 1
  | .literal _ => 2
  | .integer _ => 3
  | .float _ => 4
  | .long _ => 5
  | .double _ => 6
  | .nameAndType .. => 7
  | .member _ => 8

/-- The kind of a constant, as a number. -/
def Constant.rank : Constant → Nat
  | .utf8 _ => 0
  | .classRef _ => 1
  | .stringRef _ => 2
  | .integer _ => 3
  | .float _ => 4
  | .long _ => 5
  | .double _ => 6
  | .nameAndType .. => 7
  | .fieldRef .. | .methodRef .. | .interfaceMethodRef .. => 8

/-- What an operation is passed: the kind of the constant, with its texts or its bit pattern. -/
def Interning.denotation : Interning → Denotation
  | .utf8 text => .text text
  | .classRef name => .classNamed name
  | .stringRef text => .literal text
  | .integer value => .integer value
  | .float bits => .float bits
  | .long value => .long value
  | .double bits => .double bits
  | .nameAndType name descriptor => .nameAndType name descriptor
  | .fieldRef owner name descriptor => .member ⟨.field, owner, name, descriptor⟩
  | .methodRef owner name type => .member ⟨.method, owner, name, type.descriptor⟩
  | .interfaceMethodRef owner name type =>
    .member ⟨.interfaceMethod, owner, name, type.descriptor⟩

/-- The texts that an operation is passed. -/
def Interning.texts : Interning → List String
  | .utf8 text | .classRef text | .stringRef text => [text]
  | .integer _ | .float _ | .long _ | .double _ => []
  | .nameAndType name descriptor => [name, descriptor]
  | .fieldRef owner name descriptor => [owner, name, descriptor]
  | .methodRef owner name type | .interfaceMethodRef owner name type =>
    [owner, name, type.descriptor]

namespace ConstantPool

/-- An index stands for something: it is looked up, and followed to the texts. -/
def Denotes (p : ConstantPool) (i : UInt16) : Denotation → Prop
  | .text text => p.utf8At i = .ok text
  | .classNamed name => p.classAt i = .ok name
  | .literal text => p.stringAt i = .ok text
  | .integer value => p.get? i = some (.integer value)
  | .float bits => p.get? i = some (.float bits)
  | .long value => p.get? i = some (.long value)
  | .double bits => p.get? i = some (.double bits)
  | .nameAndType name descriptor => ∃ n d, p.nameAndTypeIndices i = .ok (n, d) ∧
      p.utf8At n = .ok name ∧ p.utf8At d = .ok descriptor
  | .member ref => p.memberAt i = .ok ref

variable {p p' : ConstantPool} {i j : UInt16} {m m' : Denotation}

/-! ### Lookups and the constants that they find -/

theorem utf8At_eq_ok {text : String} : p.utf8At i = .ok text ↔ p.get? i = some (.utf8 text) := by
  unfold utf8At
  split <;> simp_all

theorem classAt_eq_ok {name : String} :
    p.classAt i = .ok name ↔ ∃ n, p.get? i = some (.classRef n) ∧ p.utf8At n = .ok name := by
  unfold classAt
  split <;> simp_all

theorem stringAt_eq_ok {text : String} :
    p.stringAt i = .ok text ↔ ∃ n, p.get? i = some (.stringRef n) ∧ p.utf8At n = .ok text := by
  unfold stringAt
  split <;> simp_all

theorem nameAndTypeIndices_eq_ok {n d : UInt16} :
    p.nameAndTypeIndices i = .ok (n, d) ↔ p.get? i = some (.nameAndType n d) := by
  unfold nameAndTypeIndices
  split <;> simp_all

theorem memberIndices_eq_ok {kind : MemberKind} {c m : UInt16} :
    p.memberIndices i = .ok (kind, c, m) ↔ p.get? i = some (refConstant kind c m) := by
  unfold memberIndices
  cases kind <;> split <;> simp_all [refConstant]

/-- An index that stands for something has a constant of its kind. -/
theorem Denotes.exists_get? (h : p.Denotes i m) : ∃ c, p.get? i = some c ∧ c.rank = m.rank := by
  cases m with
  | text text => exact ⟨_, utf8At_eq_ok.1 h, rfl⟩
  | classNamed name =>
    obtain ⟨n, hget, -⟩ := classAt_eq_ok.1 h
    exact ⟨_, hget, rfl⟩
  | literal text =>
    obtain ⟨n, hget, -⟩ := stringAt_eq_ok.1 h
    exact ⟨_, hget, rfl⟩
  | integer | float | long | double => exact ⟨_, h, rfl⟩
  | nameAndType name descriptor =>
    obtain ⟨n, d, hindices, -⟩ := h
    exact ⟨_, nameAndTypeIndices_eq_ok.1 hindices, rfl⟩
  | member ref =>
    obtain ⟨c, n, -, -, hindices, -⟩ := memberAt_eq_ok.1 h
    refine ⟨_, memberIndices_eq_ok.1 hindices, ?_⟩
    cases ref.kind <;> rfl

/-- **An index stands for one thing only.** -/
theorem Denotes.unique (h : p.Denotes i m) (h' : p.Denotes i m') : m = m' := by
  have hrank : m.rank = m'.rank := by
    obtain ⟨c, hget, hc⟩ := h.exists_get?
    obtain ⟨c', hget', hc'⟩ := h'.exists_get?
    cases hget.symm.trans hget'
    exact hc.symm.trans hc'
  -- Different kinds have different ranks, so one case is left for each kind.
  cases m <;> cases m' <;> cases hrank
  case text.text => exact congrArg _ (Except.ok.inj (h.symm.trans h'))
  case classNamed.classNamed => exact congrArg _ (Except.ok.inj (h.symm.trans h'))
  case literal.literal => exact congrArg _ (Except.ok.inj (h.symm.trans h'))
  case integer.integer =>
    cases h.symm.trans h'
    rfl
  case float.float =>
    cases h.symm.trans h'
    rfl
  case long.long =>
    cases h.symm.trans h'
    rfl
  case double.double =>
    cases h.symm.trans h'
    rfl
  case nameAndType.nameAndType =>
    obtain ⟨n, d, hindices, hn, hd⟩ := h
    obtain ⟨n', d', hindices', hn', hd'⟩ := h'
    cases hindices.symm.trans hindices'
    cases hn.symm.trans hn'
    cases hd.symm.trans hd'
    rfl
  case member.member => exact congrArg _ (Except.ok.inj (h.symm.trans h'))

/-- What an index stands for stays. -/
theorem Extends.denotes (h : Extends p p') (hi : p.Denotes i m) : p'.Denotes i m := by
  cases m with
  | text text => exact h.utf8At hi
  | classNamed name => exact h.classAt hi
  | literal text =>
    obtain ⟨n, hget, htext⟩ := stringAt_eq_ok.1 hi
    exact stringAt_eq_ok.2 ⟨n, h i _ hget, h.utf8At htext⟩
  | integer | float | long | double => exact h i _ hi
  | nameAndType name descriptor =>
    obtain ⟨n, d, hindices, hn, hd⟩ := hi
    exact ⟨n, d, h.nameAndTypeIndices hindices, h.utf8At hn, h.utf8At hd⟩
  | member ref => exact h.memberAt hi

/-! ### No constant stands twice -/

/-- Every constant is found through the index map. -/
def Filed (p : ConstantPool) : Prop := ∀ i c, p.get? i = some c → p.index[c]? = some i

theorem get?_zero (h : p.Listed) : p.get? 0 = none := by
  obtain ⟨cs, hcs⟩ := h
  have hslots : ∀ slots : Array (Option Constant), slots[0]? = some none →
      (cs.foldl pushSlots slots)[0]? = some none := by
    clear hcs
    induction cs with
    | nil => exact fun _ h => h
    | cons c cs ih =>
      intro slots h
      refine ih _ ?_
      rw [getElem?_pushSlots_of_lt c (Array.getElem?_eq_some_iff.1 h).1]
      exact h
  rw [get?, hcs.slots]
  show (cs.foldl pushSlots #[none])[0]?.join = none
  rw [hslots #[none] rfl]
  rfl

theorem filed_empty : empty.Filed := by
  intro i c h
  have hlt := toNat_lt_size_of_get? h
  have hzero : i = 0 := UInt16.toNat_inj.1 (Nat.lt_one_iff.1 hlt)
  rw [hzero, get?_zero listed_empty] at h
  cases h

/-- A constant that has been added stands at the end, the others where they were. -/
theorem get?_pushSlots {slots : Array (Option Constant)} {c d : Constant} {k : Nat}
    (h : (pushSlots slots c)[k]?.join = some d) :
    (k = slots.size ∧ c = d) ∨ slots[k]?.join = some d := by
  rcases Nat.lt_trichotomy k slots.size with hlt | heq | hgt
  · rw [getElem?_pushSlots_of_lt c hlt] at h
    exact .inr h
  · rw [heq, getElem?_pushSlots_size] at h
    exact .inl ⟨heq, Option.some.inj h⟩
  · -- After a 64-bit number there is an empty slot, and nothing beyond it.
    exfalso
    unfold pushSlots at h
    split at h
    · by_cases hnext : k = slots.size + 1
      · have hsize : slots.size + 1 = (slots.push (some c)).size := (Array.size_push _).symm
        rw [hnext, hsize, Array.getElem?_push_size] at h
        cases h
      · rw [Array.getElem?_eq_none (by simp; omega)] at h
        cases h
    · rw [Array.getElem?_eq_none (by simp; omega)] at h
      cases h

theorem Filed.reject (h : p.Filed) (e : LimitError) : (p.reject e).Filed := h

theorem Filed.intern (h : p.Filed) (c : Constant) : (p.intern c).2.Filed := by
  rcases intern_cases p c with ⟨i, -, hrun⟩ | ⟨-, hrun⟩ | ⟨hnone, hsize, hrun⟩
  · rw [hrun]
    exact h
  · rw [hrun]
    exact h.reject _
  · rw [hrun]
    intro i d hget
    rw [Std.HashMap.getElem?_insert]
    rcases get?_pushSlots hget with ⟨hi, rfl⟩ | hold
    · rw [if_pos (beq_self_eq_true _), ← hi, UInt16.ofNat_toNat]
    · have hd : p.index[d]? = some i := h i d hold
      rw [if_neg, hd]
      intro heq
      cases eq_of_beq heq
      cases hnone.symm.trans hd

theorem Filed.utf8 (h : p.Filed) (text : String) : (p.utf8 text).2.Filed := by
  unfold ConstantPool.utf8
  dsimp only
  split
  · exact h.reject _
  · exact h.intern _

theorem Filed.classRef (h : p.Filed) (name : String) : (p.classRef name).2.Filed :=
  (h.utf8 name).intern _

theorem Filed.nameAndType (h : p.Filed) (name descriptor : String) :
    (p.nameAndType name descriptor).2.Filed :=
  ((h.utf8 name).utf8 descriptor).intern _

theorem Filed.memberRef (h : p.Filed) (kind : MemberKind) (owner name descriptor : String) :
    (p.memberRef kind owner name descriptor).2.Filed :=
  ((h.classRef owner).nameAndType name descriptor).intern _

/-- Every operation keeps constants filed. -/
theorem Filed.apply (h : p.Filed) (op : Interning) : (op.apply p).2.Filed := by
  cases op with
  | utf8 text => exact h.utf8 text
  | classRef name => exact h.classRef name
  | stringRef text => exact (h.utf8 text).intern _
  | integer | float | long | double => exact h.intern _
  | nameAndType name descriptor => exact h.nameAndType name descriptor
  | fieldRef owner name descriptor => exact h.memberRef .field owner name descriptor
  | methodRef owner name type =>
    simp only [Interning.apply, methodRef_eq]
    exact h.memberRef .method owner name type.descriptor
  | interfaceMethodRef owner name type =>
    simp only [Interning.apply, interfaceMethodRef_eq]
    exact h.memberRef .interfaceMethod owner name type.descriptor

theorem Filed.get?_inj (h : p.Filed) {c : Constant} (hi : p.get? i = some c)
    (hj : p.get? j = some c) : i = j :=
  Option.some.inj ((h i c hi).symm.trans (h j c hj))

theorem Filed.utf8At_inj (h : p.Filed) {text : String} (hi : p.utf8At i = .ok text)
    (hj : p.utf8At j = .ok text) : i = j :=
  h.get?_inj (utf8At_eq_ok.1 hi) (utf8At_eq_ok.1 hj)

theorem Filed.classAt_inj (h : p.Filed) {name : String} (hi : p.classAt i = .ok name)
    (hj : p.classAt j = .ok name) : i = j := by
  obtain ⟨n, hget, hn⟩ := classAt_eq_ok.1 hi
  obtain ⟨n', hget', hn'⟩ := classAt_eq_ok.1 hj
  cases h.utf8At_inj hn hn'
  exact h.get?_inj hget hget'

theorem Filed.nameAndType_inj (h : p.Filed) {n d n' d' : UInt16} {name descriptor : String}
    (hi : p.nameAndTypeIndices i = .ok (n, d)) (hn : p.utf8At n = .ok name)
    (hd : p.utf8At d = .ok descriptor) (hj : p.nameAndTypeIndices j = .ok (n', d'))
    (hn' : p.utf8At n' = .ok name) (hd' : p.utf8At d' = .ok descriptor) : i = j := by
  cases h.utf8At_inj hn hn'
  cases h.utf8At_inj hd hd'
  exact h.get?_inj (nameAndTypeIndices_eq_ok.1 hi) (nameAndTypeIndices_eq_ok.1 hj)

/-- **One thing has one index only.** -/
theorem Filed.denotes_inj (h : p.Filed) (hi : p.Denotes i m) (hj : p.Denotes j m) : i = j := by
  cases m with
  | text text => exact h.utf8At_inj hi hj
  | classNamed name => exact h.classAt_inj hi hj
  | literal text =>
    obtain ⟨n, hget, hn⟩ := stringAt_eq_ok.1 hi
    obtain ⟨n', hget', hn'⟩ := stringAt_eq_ok.1 hj
    cases h.utf8At_inj hn hn'
    exact h.get?_inj hget hget'
  | integer | float | long | double => exact h.get?_inj hi hj
  | nameAndType name descriptor =>
    obtain ⟨n, d, hindices, hn, hd⟩ := hi
    obtain ⟨n', d', hindices', hn', hd'⟩ := hj
    exact h.nameAndType_inj hindices hn hd hindices' hn' hd'
  | member ref =>
    obtain ⟨c, k, n, d, hindices, hnd, hc, hn, hd⟩ := memberAt_eq_ok.1 hi
    obtain ⟨c', k', n', d', hindices', hnd', hc', hn', hd'⟩ := memberAt_eq_ok.1 hj
    cases h.classAt_inj hc hc'
    cases h.nameAndType_inj hnd hn hd hnd' hn' hd'
    exact h.get?_inj (memberIndices_eq_ok.1 hindices) (memberIndices_eq_ok.1 hindices')

/-! ### One operation -/

/-- **The index that an operation answers stands for what was passed**, unless a limit has been
exceeded. -/
theorem denotes_apply (hcoh : p.Coherent) (op : Interning) (hv : (op.apply p).2.violation = none) :
    (op.apply p).2.Denotes (op.apply p).1 op.denotation := by
  cases op with
  | utf8 text => exact utf8At_utf8 hcoh hv
  | classRef name => exact (classAt_classRef hcoh hv).2
  | stringRef text =>
    have hgrows : Grows (p.utf8 text).2 (p.stringRef text).2 := grows_intern _ trivial
    exact stringAt_eq_ok.2 ⟨_, get?_stringRef hcoh hv,
      hgrows.keeps.utf8At (utf8At_utf8 hcoh (hgrows.clean hv))⟩
  | integer | float | long | double => exact get?_intern hcoh hv
  | nameAndType name descriptor =>
    simp only [Interning.apply] at hv ⊢
    obtain ⟨n, d, hindices, hname, hdescriptor⟩ := nameAndTypeIndices_nameAndType hcoh hv
    exact ⟨n, d, hindices, hname, hdescriptor⟩
  | fieldRef owner name descriptor =>
    simp only [Interning.apply, fieldRef_eq] at hv ⊢
    exact memberAt_memberRef hcoh hv
  | methodRef owner name type =>
    simp only [Interning.apply, methodRef_eq] at hv ⊢
    exact memberAt_memberRef hcoh hv
  | interfaceMethodRef owner name type =>
    simp only [Interning.apply, interfaceMethodRef_eq] at hv ⊢
    exact memberAt_memberRef hcoh hv

/-! ### Sequences of operations -/

/-- The pool that named operations make, starting from the empty one. -/
def ofInternings (ops : List Interning) : ConstantPool :=
  ops.foldl (fun p op => (op.apply p).2) .empty

theorem ofInternings_concat (ops : List Interning) (op : Interning) :
    ofInternings (ops ++ [op]) = (op.apply (ofInternings ops)).2 := by
  simp only [ofInternings, List.foldl_append, List.foldl_cons, List.foldl_nil]

/-- Further operations make a pool grow. -/
theorem grows_ofInternings (ops rest : List Interning) :
    Grows (ofInternings ops) (ofInternings (ops ++ rest)) := by
  induction rest using List.reverseRecOn with
  | nil =>
    rw [List.append_nil]
    exact .refl _
  | append_singleton rest op ih =>
    rw [← List.append_assoc, ofInternings_concat]
    exact ih.trans (grows_apply _ op)

theorem coherent_ofInternings (ops : List Interning) : (ofInternings ops).Coherent :=
  (grows_ofInternings [] ops).coherent coherent_empty

theorem listed_ofInternings (ops : List Interning) : (ofInternings ops).Listed :=
  (grows_ofInternings [] ops).listed listed_empty

theorem filed_ofInternings (ops : List Interning) : (ofInternings ops).Filed := by
  induction ops using List.reverseRecOn with
  | nil => exact filed_empty
  | append_singleton ops op ih =>
    rw [ofInternings_concat]
    exact ih.apply op

/-- The index that the operation at a position answers. -/
def answer? (ops : List Interning) (k : Nat) : Option UInt16 :=
  ops[k]?.map fun op => (op.apply (ofInternings (ops.take k))).1

theorem grows_take (ops : List Interning) {k n : Nat} (h : k ≤ n) :
    Grows (ofInternings (ops.take k)) (ofInternings (ops.take n)) := by
  have hsplit : ops.take n = ops.take k ++ (ops.take n).drop k := by
    have htake := List.take_append_drop k (ops.take n)
    rw [List.take_take, Nat.min_eq_left h] at htake
    exact htake.symm
  rw [hsplit]
  exact grows_ofInternings _ _

/-- **What an operation answered stands for what was passed to it**, from then on. -/
theorem denotes_answer? {ops : List Interning} (hclean : (ofInternings ops).violation = none)
    {k : Nat} {op : Interning} (hop : ops[k]? = some op) :
    ∃ i, answer? ops k = some i ∧
      ∀ n, k < n → (ofInternings (ops.take n)).Denotes i op.denotation := by
  refine ⟨(op.apply (ofInternings (ops.take k))).1, ?_, fun n hn => ?_⟩
  · rw [answer?, hop]
    rfl
  · have hnext : ofInternings (ops.take (k + 1)) = (op.apply (ofInternings (ops.take k))).2 := by
      rw [List.take_add_one, hop, Option.toList_some, ofInternings_concat]
    have hall := grows_ofInternings (ops.take (k + 1)) (ops.drop (k + 1))
    rw [List.take_append_drop] at hall
    have hv : (op.apply (ofInternings (ops.take k))).2.violation = none := by
      rw [← hnext]
      exact hall.clean hclean
    have hnow := denotes_apply (coherent_ofInternings _) op hv
    rw [← hnext] at hnow
    exact (grows_take ops hn).keeps.denotes hnow

/-- **Indices are faithful, stable and injective.**  If a sequence of operations exceeds no limit,
every operation answers an index other than zero. From then on, and up to the end, it stands for
what was passed to the operation. Two operations answer the same index exactly if they were passed
the same. -/
theorem answer?_ofInternings {ops : List Interning} (h : (ofInternings ops).check = .ok ()) :
    (∀ k op, ops[k]? = some op → ∃ i, answer? ops k = some i ∧ i ≠ 0 ∧
      ∀ n, k < n → (ofInternings (ops.take n)).Denotes i op.denotation) ∧
    ∀ j k op op', ops[j]? = some op → ops[k]? = some op' →
      (answer? ops j = answer? ops k ↔ op.denotation = op'.denotation) := by
  have hclean := check_eq_ok.1 h
  -- At the end all answers can be compared in one pool.
  have hend : ∀ {k op}, ops[k]? = some op →
      ∃ i, answer? ops k = some i ∧ (ofInternings ops).Denotes i op.denotation := by
    intro k op hop
    obtain ⟨i, hi, hdenotes⟩ := denotes_answer? hclean hop
    have hlt : k < ops.length := (List.getElem?_eq_some_iff.1 hop).1
    have hlast := hdenotes ops.length hlt
    rw [List.take_length] at hlast
    exact ⟨i, hi, hlast⟩
  refine ⟨fun k op hop => ?_, fun j k op op' hj hk => ?_⟩
  · obtain ⟨i, hi, hdenotes⟩ := denotes_answer? hclean hop
    refine ⟨i, hi, ?_, hdenotes⟩
    rintro rfl
    obtain ⟨c, hget, -⟩ := (hdenotes (k + 1) (Nat.lt_succ_self k)).exists_get?
    rw [get?_zero (listed_ofInternings _)] at hget
    cases hget
  · obtain ⟨i, hi, hdenotes⟩ := hend hj
    obtain ⟨i', hi', hdenotes'⟩ := hend hk
    rw [hi, hi', Option.some.injEq]
    constructor
    · rintro rfl
      exact hdenotes.unique hdenotes'
    · intro heq
      rw [heq] at hdenotes
      exact (filed_ofInternings ops).denotes_inj hdenotes hdenotes'

/-! ### Sequences that exceed no limit -/

theorem HasRoom.apply {n : Nat} {op : Interning} (h : p.HasRoom (n + 6))
    (hshort : ∀ text ∈ op.texts, ShortText text) : (op.apply p).2.HasRoom n := by
  cases op with
  | utf8 text => exact HasRoom.utf8 (h.mono (by omega)) (hshort _ (by simp [Interning.texts]))
  | classRef name =>
    exact HasRoom.classRef (h.mono (by omega)) (hshort _ (by simp [Interning.texts]))
  | stringRef text =>
    exact HasRoom.stringRef (h.mono (by omega)) (hshort _ (by simp [Interning.texts]))
  | integer | float | long | double =>
    exact HasRoom.intern (h.mono (by simp only [Constant.width]; omega))
  | nameAndType name descriptor =>
    exact HasRoom.nameAndType (h.mono (by omega)) (hshort _ (by simp [Interning.texts]))
      (hshort _ (by simp [Interning.texts]))
  | fieldRef owner name descriptor =>
    simp only [Interning.apply, fieldRef_eq]
    exact HasRoom.memberRef h (hshort _ (by simp [Interning.texts]))
      (hshort _ (by simp [Interning.texts])) (hshort _ (by simp [Interning.texts]))
  | methodRef owner name type =>
    simp only [Interning.apply, methodRef_eq]
    exact HasRoom.memberRef h (hshort _ (by simp [Interning.texts]))
      (hshort _ (by simp [Interning.texts])) (hshort _ (by simp [Interning.texts]))
  | interfaceMethodRef owner name type =>
    simp only [Interning.apply, interfaceMethodRef_eq]
    exact HasRoom.memberRef h (hshort _ (by simp [Interning.texts]))
      (hshort _ (by simp [Interning.texts])) (hshort _ (by simp [Interning.texts]))

/-- Ten thousand operations with short texts exceed no limit. -/
theorem check_ofInternings {ops : List Interning}
    (hshort : ∀ op ∈ ops, ∀ text ∈ op.texts, ShortText text) (hcount : ops.length ≤ 10000) :
    (ofInternings ops).check = .ok () := by
  have hroom : ∀ n, n + 6 * ops.length < wordMax → (ofInternings ops).HasRoom n := by
    clear hcount
    induction ops using List.reverseRecOn with
    | nil => exact fun n hn => hasRoom_empty hn
    | append_singleton ops op ih =>
      intro n hn
      rw [List.length_append, List.length_singleton] at hn
      rw [ofInternings_concat]
      exact (ih (fun o ho => hshort o (by simp [ho])) (n + 6) (by omega)).apply
        (hshort op (by simp))
  exact check_eq_ok.2 (hroom 0 (by unfold wordMax; omega)).clean

/-- Operations that share texts, and numbers that differ in their bits only. -/
def sampleInternings : List Interning :=
  [.utf8 "run", .methodRef "demo/Unit" "run" .action, .long 7, .float 0, .float 0x80000000,
    .interfaceMethodRef "demo/Unit" "run" .action, .utf8 "()V",
    .methodRef "demo/Unit" "run" (.returning .void)]

theorem answer?_sampleInternings :
    answer? sampleInternings 1 = answer? sampleInternings 7 ∧
      answer? sampleInternings 1 ≠ answer? sampleInternings 5 ∧
      answer? sampleInternings 3 ≠ answer? sampleInternings 4 ∧
      ∃ i, answer? sampleInternings 1 = some i ∧ i ≠ 0 ∧
        (ofInternings sampleInternings).memberAt i =
          .ok ⟨.method, "demo/Unit", "run", "()V"⟩ := by
  have hcheck : (ofInternings sampleInternings).check = .ok () :=
    check_ofInternings (by decide +kernel) (by decide)
  obtain ⟨hanswer, hsame⟩ := answer?_ofInternings hcheck
  refine ⟨(hsame 1 7 _ _ rfl rfl).2 rfl, fun h => ?_, fun h => ?_, ?_⟩
  · exact absurd ((hsame 1 5 _ _ rfl rfl).1 h) (by decide)
  · exact absurd ((hsame 3 4 _ _ rfl rfl).1 h) (by decide)
  · obtain ⟨i, hi, hzero, hdenotes⟩ := hanswer 1 _ rfl
    exact ⟨i, hi, hzero, hdenotes 8 (by decide)⟩

end ConstantPool

end ClassForge
