import Mathlib.Data.List.TakeWhile
import ClassForge.MethodType

/-!
# Reading descriptors back

A descriptor is read back as the type that it was printed from, and nothing else is read:

* `JavaType.parse?_descriptorChars` — **PROVED**: off the front of any text, for every type that a
  descriptor can express;
* `JavaType.parse?_eq_some` — **PROVED**: a text starts with a type exactly if it starts with the
  descriptor of one;
* `MethodType.ofDescriptor?_descriptor` — **PROVED**: for every method type built from such types,
  none of its parameters `void`;
* `parse?_eq_some_iff_descriptor` — **PROVED**: reading is the exact inverse of printing, for types
  and for method types.
-/

namespace ClassForge

namespace JavaType

instance WellFormed.decide : (t : JavaType) → Decidable t.WellFormed
  | .object _ => inferInstanceAs (Decidable (_ ∧ _))
  | .array elem =>
    have := WellFormed.decide elem
    inferInstanceAs (Decidable (_ ∧ elem.WellFormed))
  | .void | .boolean | .byte | .char | .short | .int | .long | .float | .double =>
    inferInstanceAs (Decidable True)

/-- The name of a class ends at the first semicolon. -/
theorem parseClass?_append {name : List Char} (hne : name ≠ []) (hsemi : ';' ∉ name)
    (rest : List Char) :
    parseClass? (name ++ ';' :: rest) = some (.object (String.ofList name), rest) := by
  have hname : ∀ c ∈ name, (decide (c ≠ ';')) = true := by
    intro c hc
    exact decide_eq_true fun h => hsemi (h ▸ hc)
  have htake : (name ++ ';' :: rest).takeWhile (· ≠ ';') = name := by
    rw [List.takeWhile_append_of_pos hname]
    simp
  have hdrop : (name ++ ';' :: rest).dropWhile (· ≠ ';') = ';' :: rest := by
    rw [List.dropWhile_append_of_pos hname]
    simp
  unfold parseClass?
  rw [hdrop, htake]
  cases name with
  | nil => exact absurd rfl hne
  | cons c cs => rfl

/-- **A printed type is read back**, whatever follows it. -/
theorem parse?_descriptorChars {t : JavaType} (h : t.WellFormed) (rest : List Char) :
    parse? (t.descriptorChars ++ rest) = some (t, rest) := by
  induction t with
  | void | boolean | byte | char | short | int | long | float | double => rfl
  | object name =>
    show parseClass? ((name.toList ++ [';']) ++ rest) = _
    rw [List.append_assoc, List.singleton_append, parseClass?_append h.1 h.2, String.ofList_toList]
  | array elem ih =>
    have helem := ih h.2
    rw [descriptorChars, List.cons_append, parse?, helem]
    cases elem with
    | void => exact absurd rfl h.1
    | boolean | byte | char | short | int | long | float | double | object | array => rfl

theorem ofDescriptor?_descriptor {t : JavaType} (h : t.WellFormed) :
    ofDescriptor? t.descriptor = some t := by
  have hparse := parse?_descriptorChars h []
  rw [List.append_nil] at hparse
  unfold ofDescriptor? descriptor
  rw [String.toList_ofList, hparse]

/-- Exactly the texts with a non-empty name in front of their first semicolon start with a
class. -/
theorem parseClass?_eq_some {cs rest : List Char} {t : JavaType} :
    parseClass? cs = some (t, rest) ↔
      ∃ name, name ≠ [] ∧ ';' ∉ name ∧ t = .object (String.ofList name) ∧
        cs = name ++ ';' :: rest := by
  constructor
  · intro h
    have hsplit := List.takeWhile_append_dropWhile (p := (· ≠ ';')) (l := cs)
    have hsemi : ';' ∉ cs.takeWhile (· ≠ ';') := fun hmem =>
      absurd (List.mem_takeWhile_imp hmem) (by simp)
    unfold parseClass? at h
    split at h
    · cases h
    · rename_i c after hdrop
      have hne : cs.dropWhile (· ≠ ';') ≠ [] := by
        rw [hdrop]
        exact List.cons_ne_nil c after
      have hhead := List.head_dropWhile_not (· ≠ ';') hne
      simp only [hdrop, List.head_cons] at hhead
      obtain rfl : c = ';' := by simpa using hhead
      split at h
      · cases h
      · rename_i hname
        cases h
        exact ⟨_, hname, hsemi, rfl, by rw [← hdrop, hsplit]⟩
  · rintro ⟨name, hne, hsemi, rfl, rfl⟩
    exact parseClass?_append hne hsemi rest

/-- What is read is what is printed. -/
theorem wellFormed_and_eq_of_parse? {cs rest : List Char} {t : JavaType}
    (h : parse? cs = some (t, rest)) : t.WellFormed ∧ cs = t.descriptorChars ++ rest := by
  fun_induction parse? cs generalizing t rest with
  | case1 | case2 | case3 | case4 | case5 | case6 | case7 | case8 | case9 =>
    cases h
    exact ⟨trivial, rfl⟩
  | case10 cs =>
    obtain ⟨name, hne, hsemi, rfl, rfl⟩ := parseClass?_eq_some.1 h
    refine ⟨⟨?_, ?_⟩, ?_⟩
    · rwa [String.toList_ofList]
    · rwa [String.toList_ofList]
    · simp [descriptorChars]
  | case11 | case12 => cases h
  | case13 cs elem after hvoid hparse ih =>
    cases h
    obtain ⟨hwf, rfl⟩ := ih hparse
    exact ⟨⟨hvoid, hwf⟩, rfl⟩
  | case14 => cases h

/-- **A text starts with a type exactly if it starts with its descriptor.** -/
theorem parse?_eq_some {cs rest : List Char} {t : JavaType} :
    parse? cs = some (t, rest) ↔ t.WellFormed ∧ cs = t.descriptorChars ++ rest := by
  constructor
  · exact wellFormed_and_eq_of_parse?
  · rintro ⟨h, rfl⟩
    exact parse?_descriptorChars h rest

/-- No type starts with a closing parenthesis. -/
theorem head_descriptorChars_ne (t : JavaType) (rest rest' : List Char) :
    t.descriptorChars ++ rest ≠ ')' :: rest' := by
  cases t <;> simp [descriptorChars]

end JavaType

namespace MethodType

/-- A method type that a descriptor can express. -/
structure WellFormed (m : MethodType) : Prop where
  params : ∀ t ∈ m.params, t ≠ .void ∧ t.WellFormed
  ret : m.ret.WellFormed

instance (m : MethodType) : Decidable m.WellFormed :=
  decidable_of_iff ((∀ t ∈ m.params, t ≠ .void ∧ t.WellFormed) ∧ m.ret.WellFormed)
    ⟨fun h => ⟨h.1, h.2⟩, fun h => ⟨h.params, h.ret⟩⟩

theorem parseParams?_descriptorChars :
    ∀ {params : List JavaType}, (∀ t ∈ params, t ≠ .void ∧ t.WellFormed) →
      ∀ (rest : List Char) (read : List JavaType),
        parseParams? (params.flatMap JavaType.descriptorChars ++ ')' :: rest) read =
          some (read.reverse ++ params, rest) := by
  intro params
  induction params with
  | nil =>
    intro _ rest read
    rw [List.flatMap_nil, List.nil_append, parseParams?, List.append_nil]
  | cons t params ih =>
    intro h rest read
    obtain ⟨hvoid, ht⟩ := h t List.mem_cons_self
    have hrest := ih (fun s hs => h s (List.mem_cons_of_mem t hs)) rest (t :: read)
    rw [List.reverse_cons, List.append_assoc, List.singleton_append] at hrest
    rw [List.flatMap_cons, List.append_assoc, parseParams?]
    · split
      · rename_i hparse
        rw [JavaType.parse?_descriptorChars ht] at hparse
        cases hparse
      · rename_i hparse
        rw [JavaType.parse?_descriptorChars ht] at hparse
        cases hparse
        exact absurd rfl hvoid
      · rename_i hparse
        rw [JavaType.parse?_descriptorChars ht] at hparse
        cases hparse
        exact hrest
    · exact fun rest' => JavaType.head_descriptorChars_ne t _ rest'

/-- **A printed method type is read back.** -/
theorem ofDescriptor?_descriptor {m : MethodType} (h : m.WellFormed) :
    ofDescriptor? m.descriptor = some m := by
  have hret := JavaType.parse?_descriptorChars h.ret []
  rw [List.append_nil] at hret
  unfold ofDescriptor? descriptor descriptorChars
  rw [String.toList_ofList]
  simp only [parseParams?_descriptorChars h.params, List.reverse_nil, List.nil_append, hret]

/-- The parameters that are read are the printed ones, up to the parenthesis. -/
theorem exists_of_parseParams? {cs rest : List Char} {read params : List JavaType}
    (h : parseParams? cs read = some (params, rest)) :
    ∃ new, params = read.reverse ++ new ∧ (∀ t ∈ new, t ≠ .void ∧ t.WellFormed) ∧
      cs = new.flatMap JavaType.descriptorChars ++ ')' :: rest := by
  fun_induction parseParams? cs read with
  | case1 read =>
    cases h
    exact ⟨[], (List.append_nil _).symm, List.forall_mem_nil _, rfl⟩
  | case2 | case3 => cases h
  | case4 read cs _ t after hvoid hparse ih =>
    obtain ⟨new, rfl, hnew, rfl⟩ := ih h
    obtain ⟨hwf, rfl⟩ := JavaType.parse?_eq_some.1 hparse
    refine ⟨t :: new, ?_, List.forall_mem_cons.2 ⟨⟨hvoid, hwf⟩, hnew⟩, ?_⟩
    · rw [List.reverse_cons, List.append_assoc, List.singleton_append]
    · rw [List.flatMap_cons, List.append_assoc]

theorem wellFormed_and_eq_of_ofDescriptor? {text : String} {m : MethodType}
    (h : ofDescriptor? text = some m) : m.WellFormed ∧ m.descriptor = text := by
  unfold ofDescriptor? at h
  split at h
  · rename_i cs htext
    split at h
    · cases h
    · rename_i params rest hparams
      split at h
      · rename_i ret hret
        cases h
        obtain ⟨new, rfl, hnew, rfl⟩ := exists_of_parseParams? hparams
        obtain ⟨hwf, rfl⟩ := JavaType.parse?_eq_some.1 hret
        refine ⟨⟨hnew, hwf⟩, ?_⟩
        rw [← String.toList_inj, htext, descriptor, String.toList_ofList, descriptorChars,
          List.append_nil]
      · cases h
  · cases h

end MethodType

/-! ### Exactness -/

/-- **Reading descriptors is the exact inverse of printing them.**  A text starts with a type, and
goes on with `r`, exactly if a descriptor can express the type and the text is that descriptor with
`r` after it. A text is read as a method type exactly if it is its descriptor, a descriptor can
express its types, and no parameter is `void`. -/
theorem parse?_eq_some_iff_descriptor :
    (∀ (s r : String) (t : JavaType), JavaType.parse? s.toList = some (t, r.toList) ↔
      t.WellFormed ∧ s = t.descriptor ++ r) ∧
    ∀ (s : String) (m : MethodType), MethodType.ofDescriptor? s = some m ↔
      m.descriptor = s ∧ (∀ t ∈ m.params, t.WellFormed ∧ t ≠ .void) ∧ m.ret.WellFormed := by
  refine ⟨fun s r t => ?_, fun s m => ⟨fun h => ?_, ?_⟩⟩
  · rw [JavaType.parse?_eq_some, ← String.toList_inj, String.toList_append, JavaType.descriptor,
      String.toList_ofList]
  · obtain ⟨hwf, hs⟩ := MethodType.wellFormed_and_eq_of_ofDescriptor? h
    exact ⟨hs, fun t ht => (hwf.params t ht).symm, hwf.ret⟩
  · rintro ⟨rfl, hparams, hret⟩
    exact MethodType.ofDescriptor?_descriptor ⟨fun t ht => (hparams t ht).symm, hret⟩

/-- A parenthesis and a bracket inside a class name do not end it. -/
example : MethodType.ofDescriptor? "(La)[b;[[I)V" =
    some ⟨[.object "a)[b", .array (.array .int)], .void⟩ := by cbv

end ClassForge
