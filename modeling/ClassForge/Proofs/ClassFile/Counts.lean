import ClassForge.Proofs.ClassFile.RoundTrip

/-!
# Counts in front of lists

Six kinds of lists stand in a class file with a 16-bit count in front. Three of them are checked
before the class is written, the tables of a method are not: past 65535 entries their count starts
again at zero.

* `ClassDraft.HasTable` — the lists of a draft, by kind, with their items as bytes;
* `Told` — the count in front of a list tells how many items follow;
* `told_iff` — **PROVED**: a count tells the number of items up to 65535;
* `exists_encode_iff` — **PROVED**: a draft is written exactly if the pool has exceeded no limit and
  the counts of interfaces, fields and methods are told;
* `HasTable.infix_encodeUnchecked` — **PROVED**: every list stands in the bytes with its count;
* `encode_crowdedDraft` — **PROVED**: a method is written with tables of any length.
-/

namespace ClassForge

open ClassDraft ClassImage Reader

/-- The lists of a class file that have a 16-bit count in front. -/
inductive TableKind where
  | interfaces
  | fields
  | methods
  | exceptions
  | handlers
  | lines
deriving DecidableEq

/-- Is the number of items checked before a class is written? -/
def TableKind.isChecked : TableKind → Bool
  | .interfaces | .fields | .methods => true
  | .exceptions | .handlers | .lines => false

/-- The items, given by their bytes, form a list of this kind in the draft. -/
inductive ClassDraft.HasTable (d : ClassDraft) : TableKind → List (List UInt8) → Prop
  | interfaces : d.HasTable .interfaces (d.interfaces.map word16)
  | fields : d.HasTable .fields (d.fields.toList.map encodeField)
  | methods : d.HasTable .methods (d.methods.toList.map (encodeMethod d.names))
  | exceptions {m : MethodDraft} (hm : m ∈ d.methods.toList) (hne : m.exceptions ≠ []) :
      d.HasTable .exceptions (m.exceptions.map word16)
  | handlers {m : MethodDraft} {b : MethodBody} (hm : m ∈ d.methods.toList)
      (hb : m.body = some b) : d.HasTable .handlers (b.handlers.map encodeHandler)
  | lines {m : MethodDraft} {b : MethodBody} (hm : m ∈ d.methods.toList) (hb : m.body = some b)
      (hne : b.lines ≠ []) : d.HasTable .lines (b.lines.map encodeLine)

/-- The items with their count in front. -/
def encodeTable (items : List (List UInt8)) : List UInt8 := encodeCounted id items

/-- The count in front of the items tells how many follow. -/
def Told (items : List (List UInt8)) : Prop :=
  ∃ count, u16 (encodeTable items) = .ok (count, items.flatten) ∧ count.toNat = items.length

/-! ### What a count tells -/

theorem encodeCounted_eq {α : Type} (encode : α → List UInt8) (xs : List α) :
    encodeCounted encode xs = encodeTable (xs.map encode) := by
  simp only [encodeTable, encodeCounted, List.length_map, List.flatMap_def, List.map_id]

/-- The count is the number of items, cut down to sixteen bits. -/
theorem u16_encodeTable (items : List (List UInt8)) :
    u16 (encodeTable items) = .ok (UInt16.ofNat items.length, items.flatten) := by
  have hread := reads_u16 (UInt16.ofNat items.length) (items.flatMap id)
  rw [List.flatMap_id] at hread
  rw [encodeTable, encodeCounted, List.flatMap_id]
  exact hread

theorem told_iff {items : List (List UInt8)} : Told items ↔ items.length ≤ wordMax := by
  unfold Told
  rw [u16_encodeTable]
  constructor
  · rintro ⟨count, hread, hcount⟩
    cases hread
    rw [UInt16.toNat_ofNat'] at hcount
    have hlt := Nat.mod_lt items.length (show 0 < 2 ^ 16 by decide)
    unfold wordMax
    omega
  · intro hle
    exact ⟨_, rfl, (reads_count16 hle).2⟩

/-! ### Where the lists stand -/

theorem infix_flatMap_of_mem {α β : Type} {x : α} {xs : List α} (encode : α → List β)
    (h : x ∈ xs) : encode x <:+: xs.flatMap encode :=
  List.infix_of_mem_flatten (List.mem_map_of_mem h)

theorem infix_encodeAttribute (name : UInt16) (length : Nat) (content : List UInt8) :
    content <:+: encodeAttribute name length content :=
  List.infix_append_of_infix_right List.infix_append_right

theorem infix_encodeBody_handlers (names : AttributeNames) (b : MethodBody) :
    encodeCounted encodeHandler b.handlers <:+: encodeBody names b := by
  refine List.IsInfix.trans ?_ (infix_encodeAttribute _ _ _)
  iterate 4 apply List.infix_append_of_infix_right
  exact List.infix_append_left

theorem infix_encodeBody_lines (names : AttributeNames) {b : MethodBody} (h : b.lines ≠ []) :
    encodeCounted encodeLine b.lines <:+: encodeBody names b := by
  have hlines : encodeCounted encodeLine b.lines <:+: encodeLines names b.lines := by
    rw [encodeLines, if_neg (by simpa using h)]
    exact List.infix_append_of_infix_right (infix_encodeAttribute _ _ _)
  refine (hlines.trans ?_).trans (infix_encodeAttribute _ _ _)
  iterate 5 apply List.infix_append_of_infix_right
  exact List.infix_refl _

theorem infix_encodeMethod_body (names : AttributeNames) {m : MethodDraft} {b : MethodBody}
    (h : m.body = some b) : encodeBody names b <:+: encodeMethod names m := by
  obtain ⟨access, name, descriptor, body, exceptions⟩ := m
  cases h
  iterate 4 apply List.infix_append_of_infix_right
  exact List.infix_append_left

theorem infix_encodeMethod_exceptions (names : AttributeNames) {m : MethodDraft}
    (h : m.exceptions ≠ []) : encodeCounted word16 m.exceptions <:+: encodeMethod names m := by
  have hattribute :
      encodeCounted word16 m.exceptions <:+: encodeExceptions names m.exceptions := by
    rw [encodeExceptions, if_neg (by simpa using h)]
    exact infix_encodeAttribute _ _ _
  refine hattribute.trans ?_
  iterate 5 apply List.infix_append_of_infix_right
  exact List.infix_refl _

namespace ClassDraft

variable {d : ClassDraft}

theorem infix_encodeUnchecked_interfaces (d : ClassDraft) :
    encodeCounted word16 d.interfaces <:+: d.encodeUnchecked := by
  iterate 8 apply List.infix_append_of_infix_right
  exact List.infix_append_left

theorem infix_encodeUnchecked_fields (d : ClassDraft) :
    encodeCounted encodeField d.fields.toList <:+: d.encodeUnchecked := by
  iterate 9 apply List.infix_append_of_infix_right
  exact List.infix_append_left

theorem infix_encodeUnchecked_methods (d : ClassDraft) :
    encodeCounted (encodeMethod d.names) d.methods.toList <:+: d.encodeUnchecked := by
  iterate 10 apply List.infix_append_of_infix_right
  exact List.infix_append_left

theorem infix_encodeUnchecked_method {m : MethodDraft} (hm : m ∈ d.methods.toList) :
    encodeMethod d.names m <:+: d.encodeUnchecked :=
  ((infix_flatMap_of_mem (encodeMethod d.names) hm).trans List.infix_append_right).trans
    (infix_encodeUnchecked_methods d)

/-- **Every list of a draft stands in its bytes, with its count in front.** -/
theorem HasTable.infix_encodeUnchecked {kind : TableKind} {items : List (List UInt8)}
    (h : d.HasTable kind items) : encodeTable items <:+: d.encodeUnchecked := by
  cases h with
  | interfaces =>
    rw [← encodeCounted_eq]
    exact infix_encodeUnchecked_interfaces d
  | fields =>
    rw [← encodeCounted_eq]
    exact infix_encodeUnchecked_fields d
  | methods =>
    rw [← encodeCounted_eq]
    exact infix_encodeUnchecked_methods d
  | exceptions hm hne =>
    rw [← encodeCounted_eq]
    exact (infix_encodeMethod_exceptions d.names hne).trans (infix_encodeUnchecked_method hm)
  | handlers hm hb =>
    rw [← encodeCounted_eq]
    exact ((infix_encodeBody_handlers d.names _).trans
      (infix_encodeMethod_body d.names hb)).trans (infix_encodeUnchecked_method hm)
  | lines hm hb hne =>
    rw [← encodeCounted_eq]
    exact ((infix_encodeBody_lines d.names hne).trans
      (infix_encodeMethod_body d.names hb)).trans (infix_encodeUnchecked_method hm)

/-! ### Which counts are checked -/

/-- The checked lists of a draft are those of the class itself. -/
theorem forall_checked_iff :
    (∀ kind items, d.HasTable kind items → kind.isChecked = true → Told items) ↔
      d.fields.size ≤ wordMax ∧ d.methods.size ≤ wordMax ∧ d.interfaces.length ≤ wordMax := by
  constructor
  · intro h
    have hfields := told_iff.1 (h _ _ .fields rfl)
    have hmethods := told_iff.1 (h _ _ .methods rfl)
    have hinterfaces := told_iff.1 (h _ _ .interfaces rfl)
    rw [List.length_map] at hfields hmethods hinterfaces
    exact ⟨hfields, hmethods, hinterfaces⟩
  · rintro ⟨hfields, hmethods, hinterfaces⟩ kind items htable hchecked
    rw [told_iff]
    cases htable with
    | interfaces => rwa [List.length_map]
    | fields => rwa [List.length_map]
    | methods => rwa [List.length_map]
    | exceptions | handlers | lines => cases hchecked

/-- **A draft is refused for a count exactly if it is one of the three checked.** -/
theorem exists_encode_iff :
    (∃ bytes, d.encode = .ok bytes) ↔
      d.pool.check = .ok () ∧
        ∀ kind items, d.HasTable kind items → kind.isChecked = true → Told items := by
  rw [forall_checked_iff, ConstantPool.check_eq_ok]
  simp only [encode_eq_ok]
  constructor
  · rintro ⟨bytes, hclean, hfields, hmethods, hinterfaces, -⟩
    exact ⟨hclean, hfields, hmethods, hinterfaces⟩
  · rintro ⟨hclean, hfields, hmethods, hinterfaces⟩
    exact ⟨_, hclean, hfields, hmethods, hinterfaces, rfl⟩

/-- **Counts of a written class.** A draft whose pool is within its limits is written exactly if the
counts of its interfaces, fields and methods are told. In the bytes every list follows its count,
which is cut down to sixteen bits and so tells the number of the items up to 65535. -/
theorem encode_tables (d : ClassDraft) :
    ((∃ bytes, d.encode = .ok bytes) ↔
      d.pool.check = .ok () ∧
        ∀ kind items, d.HasTable kind items → kind.isChecked = true → Told items) ∧
    ∀ bytes, d.encode = .ok bytes → ∀ kind items, d.HasTable kind items →
      encodeTable items <:+: bytes ∧
        u16 (encodeTable items) = .ok (UInt16.ofNat items.length, items.flatten) ∧
        (Told items ↔ items.length ≤ wordMax) := by
  refine ⟨exists_encode_iff, fun bytes hbytes kind items htable => ?_⟩
  obtain ⟨-, -, -, -, rfl⟩ := encode_eq_ok.1 hbytes
  exact ⟨htable.infix_encodeUnchecked, u16_encodeTable items, told_iff⟩

/-- The one handler of the sample stands in its bytes, with a count that tells so. -/
theorem encode_tables_sampleDraft :
    sampleDraft.encode = .ok sampleDraft.encodeUnchecked ∧
      sampleDraft.HasTable .handlers [encodeHandler ⟨0, 1, 0, 0⟩] ∧
      encodeTable [encodeHandler ⟨0, 1, 0, 0⟩] <:+: sampleDraft.encodeUnchecked ∧
      Told [encodeHandler ⟨0, 1, 0, 0⟩] := by
  have htable : sampleDraft.HasTable .handlers [encodeHandler ⟨0, 1, 0, 0⟩] :=
    .handlers (b := ⟨1, 2, #[0xb1], [⟨0, 1, 0, 0⟩], [⟨0, 3⟩]⟩) (List.mem_singleton_self _) rfl
  obtain ⟨hstands, -, htold⟩ := (encode_tables sampleDraft).2 _ encode_sampleDraft _ _ htable
  exact ⟨encode_sampleDraft, htable, hstands, htold.2 (by decide)⟩

/-! ### Tables that are too long -/

/-- A class with one method, which names the same exception so many times. -/
def crowdedDraft (access : AccessFlags) (body : Option MethodBody) (n : Nat) : ClassDraft :=
  Drafting.apply
    (ClassDraft.new .java5 (.union .publicFlag .superFlag) "a/Gen" "java/lang/Object" [])
    (.method access "run" ⟨[], .void⟩ body (List.replicate n "a/E"))

/-- A body with so many handlers and lines. -/
def crowdedBody (n : Nat) : MethodBody where
  maxStack := 0
  maxLocals := 1
  code := #[0xb1]
  handlers := List.replicate n ⟨0, 1, 0, 0⟩
  lines := List.replicate n ⟨0, 1⟩

variable (access : AccessFlags) (body : Option MethodBody) (n : Nat)

/-- Equal exceptions share their constants, so the pool holds them however many there are. -/
theorem hasRoom_crowdedDraft : (crowdedDraft access body n).pool.HasRoom 0 := by
  have hnew : (ClassDraft.new .java5 (.union .publicFlag .superFlag) "a/Gen" "java/lang/Object"
      []).pool.HasRoom 7 :=
    hasRoom_new .java5 (.union .publicFlag .superFlag) (by decide) (by decide) (by simp)
      (by decide)
  have hcard : (List.replicate n "a/E").toFinset.card ≤ 1 := by
    refine Finset.card_le_one.2 fun a ha b hb => ?_
    rw [List.eq_of_mem_replicate (List.mem_toFinset.1 ha),
      List.eq_of_mem_replicate (List.mem_toFinset.1 hb)]
  rw [crowdedDraft, Drafting.apply]
  refine hasRoom_addMethod_shared (hnew.mono (by omega)) (by decide) (by decide) ?_
  intro e he
  rw [List.eq_of_mem_replicate he]
  decide

/-- **A method is written with tables of any length.** -/
theorem encode_crowdedDraft :
    (crowdedDraft access body n).encode = .ok (crowdedDraft access body n).encodeUnchecked := by
  refine encode_eq_ok.2 ⟨(hasRoom_crowdedDraft access body n).clean, ?_, ?_, ?_, rfl⟩
  · exact Nat.zero_le _
  · exact (by decide : 1 ≤ wordMax)
  · exact Nat.zero_le _

theorem exists_method_crowdedDraft :
    ∃ m ∈ (crowdedDraft access body n).methods.toList,
      m.body = body ∧ m.exceptions.length = n :=
  ⟨_, List.mem_singleton_self _, rfl,
    (ConstantPool.length_classRefs _ _).trans List.length_replicate⟩

variable {n}

theorem not_told_of_length {items : List (List UInt8)} (hn : wordMax < n)
    (h : items.length = n) : ¬ Told items := by
  rw [told_iff]
  omega

theorem exists_exceptions_not_told (hn : wordMax < n) :
    ∃ items, (crowdedDraft access body n).HasTable .exceptions items ∧ ¬ Told items := by
  obtain ⟨m, hm, -, hlength⟩ := exists_method_crowdedDraft access body n
  have hne : m.exceptions ≠ [] := List.ne_nil_of_length_pos (by omega)
  refine ⟨_, .exceptions hm hne, not_told_of_length hn ?_⟩
  rw [List.length_map, hlength]

theorem exists_handlers_not_told (hn : wordMax < n) (k : Nat) :
    ∃ items, (crowdedDraft access (some (crowdedBody n)) k).HasTable .handlers items ∧
      ¬ Told items := by
  obtain ⟨m, hm, hbody, -⟩ := exists_method_crowdedDraft access (some (crowdedBody n)) k
  refine ⟨_, .handlers hm hbody, not_told_of_length hn ?_⟩
  rw [List.length_map, crowdedBody, List.length_replicate]

theorem exists_lines_not_told (hn : wordMax < n) (k : Nat) :
    ∃ items, (crowdedDraft access (some (crowdedBody n)) k).HasTable .lines items ∧
      ¬ Told items := by
  obtain ⟨m, hm, hbody, -⟩ := exists_method_crowdedDraft access (some (crowdedBody n)) k
  have hlength : (crowdedBody n).lines.length = n := List.length_replicate
  have hne : (crowdedBody n).lines ≠ [] := List.ne_nil_of_length_pos (by omega)
  refine ⟨_, .lines hm hbody hne, not_told_of_length hn ?_⟩
  rw [List.length_map, hlength]

/-- Two classes that are written although counts of theirs are too small: an abstract method with
65536 exceptions, and a method with as many handlers and lines. -/
theorem not_told_crowdedDraft :
    ((∃ bytes, (crowdedDraft (.union .publicFlag .abstractFlag) none 65536).encode = .ok bytes) ∧
      ∃ items, (crowdedDraft (.union .publicFlag .abstractFlag) none 65536).HasTable .exceptions
        items ∧ ¬ Told items) ∧
    (∃ bytes, (crowdedDraft .publicFlag (some (crowdedBody 65536)) 0).encode = .ok bytes) ∧
      ∀ kind : TableKind, kind = .handlers ∨ kind = .lines →
        ∃ items, (crowdedDraft .publicFlag (some (crowdedBody 65536)) 0).HasTable kind items ∧
          ¬ Told items := by
  have hlong : wordMax < 65536 := by decide
  refine ⟨⟨⟨_, encode_crowdedDraft _ _ _⟩, exists_exceptions_not_told _ _ hlong⟩,
    ⟨_, encode_crowdedDraft _ _ _⟩, ?_⟩
  rintro kind (rfl | rfl)
  · exact exists_handlers_not_told _ hlong 0
  · exact exists_lines_not_told _ hlong 0

end ClassDraft

end ClassForge
