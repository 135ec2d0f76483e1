import ClassForge.JavaType

/-!
# Kinds of types

A type is `void`, a primitive or a reference. The primitives are the types that have a wrapper and
an accessor, and the references those that have a class.
-/

namespace ClassForge.JavaType

variable {t : JavaType}

theorem eq_void_of_isVoid (h : t.isVoid = true) : t = .void := by
  cases t with
  | void => rfl
  | _ => cases h

theorem isReference_eq (t : JavaType) : t.isReference = !(t.isVoid || t.isPrimitive) := by
  cases t <;> rfl

theorem isReference_of_not_isPrimitive (hvoid : t.isVoid ≠ true) (h : t.isPrimitive = false) :
    t.isReference = true := by
  rw [isReference_eq, h, Bool.eq_false_iff.2 hvoid]
  rfl

theorem slots_le_two (t : JavaType) : t.slots ≤ 2 := by
  cases t <;> simp [slots]

/-! ### Primitives -/

theorem isVoid_of_isPrimitive (h : t.isPrimitive = true) : t.isVoid = false := by
  cases t with
  | void => cases h
  | _ => rfl

/-- No primitive is `void`, and descriptors can express all of them. -/
theorem wellFormed_of_isPrimitive (h : t.isPrimitive = true) : t ≠ .void ∧ t.WellFormed := by
  cases t with
  | void | object | array => cases h
  | boolean | byte | char | short | int | long | float | double => exact ⟨nofun, trivial⟩

theorem isPrimitive_of_isIntLike (h : t.isIntLike = true) : t.isPrimitive = true := by
  cases t with
  | void | object | array => cases h
  | _ => rfl

theorem isSome_boxClass? (t : JavaType) : t.boxClass?.isSome = t.isPrimitive := by
  cases t <;> rfl

theorem exists_boxClass? (h : t.isPrimitive = true) : ∃ wrapper, t.boxClass? = some wrapper :=
  Option.isSome_iff_exists.1 (t.isSome_boxClass?.trans h)

theorem isPrimitive_of_boxClass? {wrapper : String} (h : t.boxClass? = some wrapper) :
    t.isPrimitive = true := by
  rw [← isSome_boxClass?, h]
  rfl

theorem isSome_unboxMethod? (t : JavaType) : t.unboxMethod?.isSome = t.isPrimitive := by
  cases t <;> rfl

theorem exists_unboxMethod? (h : t.isPrimitive = true) :
    ∃ accessor, t.unboxMethod? = some accessor :=
  Option.isSome_iff_exists.1 (t.isSome_unboxMethod?.trans h)

theorem isPrimitive_of_unboxMethod? {accessor : String} (h : t.unboxMethod? = some accessor) :
    t.isPrimitive = true := by
  rw [← isSome_unboxMethod?, h]
  rfl

/-! ### References -/

theorem isPrimitive_of_isReference (h : t.isReference = true) : t.isPrimitive = false := by
  cases t with
  | object | array => rfl
  | _ => cases h

theorem slots_of_isReference (h : t.isReference = true) : t.slots = 1 := by
  cases t with
  | object | array => rfl
  | _ => cases h

theorem isSome_className? (t : JavaType) : t.className?.isSome = t.isReference := by
  cases t <;> rfl

theorem exists_className? (h : t.isReference = true) : ∃ name, t.className? = some name :=
  Option.isSome_iff_exists.1 (t.isSome_className?.trans h)

theorem isReference_of_className? {name : String} (h : t.className? = some name) :
    t.isReference = true := by
  rw [← isSome_className?, h]
  rfl

end ClassForge.JavaType
