import ClassForge.Proofs.Machine.Conversion

/-!
# Plans are well typed

A plan is read over the static type of the value on top of the operand stack. Each step asks for
something of that type and says what it is afterwards.

* `JavaType.PassesAs` — every value of one type is one of another, with no code in between;
* `ConversionStep.Turns` — what a step asks for, and the type that it leaves;
* `Conversion.Leads` — the steps of a list, each one taking up the type that the last one left;
* `Conversion.exists_leads_plan` — **PROVED**: every plan leads from its source to a type that
  passes as its target. Whatever cast or truncation it leaves out, `PassesAs` accounts for;
* `Conversion.exists_leads_plan_iff` — **PROVED**: and it leads to no other type.
-/

namespace ClassForge

open Conversion

/-! ### What instructions and library methods ask for -/

/-- How the operand stack holds a type, which has to be a primitive one. -/
def JavaType.category? : JavaType → Option Category
  | .boolean | .byte | .char | .short | .int => some .int
  | .long => some .long
  | .float => some .float
  | .double => some .double
  | .void | .object _ | .array _ => none

/-- The whole numbers that a type has; those of `boolean` are zero and one. -/
def JavaType.Holds : JavaType → Int → Prop
  | .boolean, n => 0 ≤ n ∧ n ≤ 1
  | .byte, n => -128 ≤ n ∧ n ≤ 127
  | .char, n => 0 ≤ n ∧ n ≤ 65535
  | .short, n => -32768 ≤ n ∧ n ≤ 32767
  | .int, n => -2147483648 ≤ n ∧ n ≤ 2147483647
  | .long, n => -9223372036854775808 ≤ n ∧ n ≤ 9223372036854775807
  | _, _ => False

/-- The operand of a conversion instruction, and the type of its result. -/
def Opcode.conversion? : Opcode → Option (Category × JavaType)
  | .i2l => some (.int, .long)
  | .i2f => some (.int, .float)
  | .i2d => some (.int, .double)
  | .l2i => some (.long, .int)
  | .l2f => some (.long, .float)
  | .l2d => some (.long, .double)
  | .f2i => some (.float, .int)
  | .f2l => some (.float, .long)
  | .f2d => some (.float, .double)
  | .d2i => some (.double, .int)
  | .d2l => some (.double, .long)
  | .d2f => some (.double, .float)
  | .i2b => some (.int, .byte)
  | .i2c => some (.int, .char)
  | .i2s => some (.int, .short)
  | _ => none

namespace Library

/-- The classes that extend the common class of numbers. -/
def numbers : List String :=
  ["java/lang/Byte", "java/lang/Short", "java/lang/Integer", "java/lang/Long", "java/lang/Float",
    "java/lang/Double"]

/-- Gives the string form of a primitive. There is none for `byte` and `short`. -/
def stringForm? : JavaType → Option MemberRef
  | .boolean => some ⟨.method, "java/lang/String", "valueOf", "(Z)Ljava/lang/String;"⟩
  | .char => some ⟨.method, "java/lang/String", "valueOf", "(C)Ljava/lang/String;"⟩
  | .int => some ⟨.method, "java/lang/String", "valueOf", "(I)Ljava/lang/String;"⟩
  | .long => some ⟨.method, "java/lang/String", "valueOf", "(J)Ljava/lang/String;"⟩
  | .float => some ⟨.method, "java/lang/String", "valueOf", "(F)Ljava/lang/String;"⟩
  | .double => some ⟨.method, "java/lang/String", "valueOf", "(D)Ljava/lang/String;"⟩
  | _ => none

end Library

/-- **Every value of the first type is one of the second**, and held in the same way. -/
inductive JavaType.PassesAs : JavaType → JavaType → Prop where
  | same (t : JavaType) : PassesAs t t
  /-- An `int` on the stack, if the second type has all numbers of the first. -/
  | int {s t : JavaType} (hs : s.category? = some .int) (ht : t.category? = some .int)
      (h : ∀ n, s.Holds n → t.Holds n) : PassesAs s t
  /-- A reference, as an object. -/
  | object {s : JavaType} (h : s.isReference = true) : PassesAs s (.object "java/lang/Object")
  /-- A wrapper of a number, as a number. -/
  | number {name : String} (h : name ∈ Library.numbers) :
      PassesAs (.object name) (.object "java/lang/Number")

/-- **A step turns a value of the first type into one of the second.** The value is what the step
takes it for, and the library has the method that the step calls. -/
inductive ConversionStep.Turns : ConversionStep → JavaType → JavaType → Prop where
  | primitive {op : Opcode} {cat : Category} {s t : JavaType} (hs : s.category? = some cat)
      (hop : op.conversion? = some (cat, t)) : Turns (.primitive op) s t
  | truthy {s : JavaType} (hs : s.isPrimitive = true) : Turns (.truthy s) s .boolean
  | box {s : JavaType} {wrapper : String} (hs : s.boxClass? = some wrapper)
      (hcall : Library.boxing? s = some
        ⟨.method, wrapper, "valueOf", (⟨[s], .ofClass wrapper⟩ : MethodType).descriptor⟩) :
      Turns (.box s) s (.ofClass wrapper)
  /-- Without a cast the value has to be an object of the class that has the accessor. -/
  | unbox {s t : JavaType} {accessor : String} {cast : Bool} (hs : s.isReference = true)
      (ht : t.unboxMethod? = some accessor)
      (hcall : Library.accessor? t = some
        ⟨.method, unboxOwner t, accessor, (MethodType.returning t).descriptor⟩)
      (hcast : cast = false → s.PassesAs (.object (unboxOwner t))) : Turns (.unbox t cast) s t
  /-- The method may be that of another type, which the value passes as. -/
  | stringify {s form : JavaType} (hs : s.PassesAs form)
      (hcall : Library.stringForm? form = some
        ⟨.method, JavaType.stringClass, "valueOf", (stringifyType s).descriptor⟩) :
      Turns (.stringify s) s .text
  | checkCast {s t : JavaType} (hs : s.isReference = true) (ht : t.isReference = true) :
      Turns (.checkCast t) s t
  | discard (s : JavaType) : Turns (.discard s) s .void
  | zero (t : JavaType) : Turns (.zero t) .void t

namespace Conversion

/-- **Steps lead from one type to another.** -/
inductive Leads : JavaType → List ConversionStep → JavaType → Prop where
  | nil (t : JavaType) : Leads t [] t
  | cons {s t u : JavaType} {step : ConversionStep} {rest : List ConversionStep}
      (hstep : step.Turns s t) (hrest : Leads t rest u) : Leads s (step :: rest) u

variable {s t u source target : JavaType} {step : ConversionStep} {steps : List ConversionStep}

theorem Leads.singleton (h : step.Turns s t) : Leads s [step] t := .cons h (.nil t)

/-- A step leaves one type only. -/
theorem turns_unique (ht : step.Turns s t) (hu : step.Turns s u) : t = u := by
  cases ht with
  | primitive hs hop =>
    cases hu with
    | primitive hs' hop' => exact (Prod.mk.inj (Option.some.inj (hop.symm.trans hop'))).2
  | box hs =>
    cases hu with
    | box hs' => exact congrArg JavaType.ofClass (Option.some.inj (hs.symm.trans hs'))
  | truthy | unbox | stringify | checkCast | discard | zero =>
    cases hu
    rfl

theorem Leads.unique (ht : Leads s steps t) (hu : Leads s steps u) : t = u := by
  induction ht with
  | nil =>
    cases hu
    rfl
  | cons hstep _ ih =>
    cases hu with
    | cons hstep' hrest' =>
      cases turns_unique hstep hstep'
      exact ih hrest'

/-! ### Between primitives -/

/-- The type of the result of an instruction that changes the category. -/
def Category.type : Category → JavaType
  | .int => .int
  | .long => .long
  | .float => .float
  | .double => .double

theorem category?_of_isPrimitive (h : t.isPrimitive = true) :
    t.category? = some (categoryOf t) := by
  cases t with
  | void | object | array => cases h
  | boolean | byte | char | short | int | long | float | double => rfl

theorem Category.category?_type (c : Category) : c.type.category? = some c := by
  cases c <;> rfl

theorem conversion?_of_categoryOp? {c d : Category} {op : Opcode}
    (h : categoryOp? c d = some op) : op.conversion? = some (c, d.type) := by
  cases c <;> cases d <;> cases h <;> rfl

theorem categoryOp?_eq_none_iff {c d : Category} : categoryOp? c d = none ↔ c = d := by
  cases c <;> cases d <;> decide

theorem conversion?_of_truncateOp? {op : Opcode} (h : truncateOp? source target = some op) :
    op.conversion? = some (categoryOf target, target) := by
  unfold truncateOp? at h
  cases target with
  | byte | short | char =>
    simp only at h
    split at h
    · cases h
    · cases h
      rfl
  | void | boolean | int | long | float | double | object | array => cases h

/-- Zero and one are numbers of every type that the stack holds as an `int`. -/
theorem passesAs_of_boolean (ht : t.category? = some .int) : JavaType.boolean.PassesAs t := by
  refine .int rfl ht fun n ⟨hlo, hhi⟩ => ?_
  cases t with
  | void | long | float | double | object | array => cases ht
  | boolean | byte | char | short | int => constructor <;> omega

theorem passesAs_byte_short : JavaType.byte.PassesAs .short :=
  .int rfl rfl fun _ ⟨hlo, hhi⟩ => ⟨by omega, by omega⟩

/-- A type passes as the one that stands for its category. -/
theorem passesAs_type {c : Category} (hs : s.category? = some c) : s.PassesAs c.type := by
  cases s with
  | void | object | array => cases hs
  | long | float | double =>
    cases hs
    exact .same _
  | boolean | byte | char | short | int =>
    cases hs
    exact .int rfl rfl fun _ ⟨hlo, hhi⟩ => ⟨by omega, by omega⟩

/-- What passes as another type is held in the same way. -/
theorem category?_eq_of_passesAs (h : s.PassesAs t) : s.category? = t.category? := by
  cases h with
  | same | number => rfl
  | int hs ht => exact hs.trans ht.symm
  | object h =>
    cases s with
    | object | array => rfl
    | _ => cases h

/-- **A truncation is left out for a reason**: every number of the source is one of the target, or
the target stands for its category. -/
theorem passesAs_of_truncateOp?_eq_none (ht : target.isPrimitive = true)
    (hbool : target ≠ .boolean) (h : truncateOp? source target = none) :
    source.PassesAs target ∨ (categoryOf target).type = target := by
  have hcut {p : Prop} [Decidable p] {op : Opcode} (hnone : (if p then none else some op) = none) :
      p := by_contra fun hp => by simp [hp] at hnone
  cases target with
  | boolean => exact absurd rfl hbool
  | byte =>
    left
    rcases hcut h with rfl | rfl
    · exact .same _
    · exact passesAs_of_boolean rfl
  | short =>
    left
    rcases hcut h with rfl | rfl | rfl
    · exact passesAs_byte_short
    · exact .same _
    · exact passesAs_of_boolean rfl
  | char =>
    left
    rcases hcut h with rfl | rfl
    · exact .same _
    · exact passesAs_of_boolean rfl
  | int | long | float | double => exact .inr rfl
  | void | object | array => cases ht

theorem exists_leads_primitiveSteps (hs : source.isPrimitive = true)
    (ht : target.isPrimitive = true) :
    ∃ final, Leads source (primitiveSteps source target) final ∧ final.PassesAs target := by
  unfold primitiveSteps
  by_cases hbool : target = .boolean
  · rw [if_pos hbool, hbool]
    exact ⟨.boolean, .singleton (.truthy hs), .same _⟩
  rw [if_neg hbool]
  have hsource := category?_of_isPrimitive hs
  have htarget := category?_of_isPrimitive ht
  cases hwide : categoryOp? (categoryOf source) (categoryOf target) with
  | none =>
    have hcat := categoryOp?_eq_none_iff.1 hwide
    cases hcut : truncateOp? source target with
    | none =>
      refine ⟨source, .nil source, ?_⟩
      rcases passesAs_of_truncateOp?_eq_none ht hbool hcut with hpass | htype
      · exact hpass
      · exact htype ▸ passesAs_type (hcat ▸ hsource)
    | some op =>
      have hop := conversion?_of_truncateOp? hcut
      exact ⟨target, .singleton (.primitive (hcat ▸ hsource) hop), .same _⟩
  | some wide =>
    have hturns : (ConversionStep.primitive wide).Turns source (categoryOf target).type :=
      .primitive hsource (conversion?_of_categoryOp? hwide)
    cases hcut : truncateOp? source target with
    | none =>
      refine ⟨_, .singleton hturns, ?_⟩
      rcases passesAs_of_truncateOp?_eq_none ht hbool hcut with hpass | htype
      · -- The categories differ, so that nothing of the source passes as it is.
        have hcat := category?_eq_of_passesAs hpass
        rw [hsource, htarget, Option.some.injEq, ← categoryOp?_eq_none_iff, hwide] at hcat
        cases hcat
      · exact htype.symm ▸ .same _
    | some op =>
      have hop := conversion?_of_truncateOp? hcut
      have hnarrow : (ConversionStep.primitive op).Turns (categoryOf target).type target :=
        .primitive (Category.category?_type _) hop
      exact ⟨target, .cons hturns (.singleton hnarrow), .same _⟩

/-! ### Between primitives and references -/

theorem turns_stringify (hs : source.isPrimitive = true) :
    (ConversionStep.stringify source).Turns source .text := by
  cases source with
  | void | object | array => cases hs
  | byte | short => exact .stringify (passesAs_type rfl) (by decide +kernel)
  | boolean | char | int | long | float | double => exact .stringify (.same _) (by decide +kernel)

theorem exists_turns_box (hs : source.isPrimitive = true) :
    ∃ wrapper, source.boxClass? = some wrapper ∧
      (ConversionStep.box source).Turns source (.ofClass wrapper) := by
  obtain ⟨wrapper, hwrapper⟩ := JavaType.exists_boxClass? hs
  exact ⟨wrapper, hwrapper, .box hwrapper (Library.boxing?_of_boxClass? hwrapper)⟩

/-- The wrapper of a number is a number. -/
theorem passesAs_number {wrapper : String} (hs : source.isNumeric = true)
    (h : source.boxClass? = some wrapper) :
    (JavaType.ofClass wrapper).PassesAs (.object JavaType.numberClass) := by
  have hname : internalName wrapper ∈ Library.numbers := by
    cases source <;> cases hs <;> cases h <;> decide +kernel
  exact .number hname

theorem eq_anyObject_of_isAnyObject (h : t.isAnyObject = true) : t = .anyObject := by
  cases t with
  | object name => exact congrArg JavaType.object (eq_of_beq h)
  | void | boolean | byte | char | short | int | long | float | double | array => cases h

theorem eq_text_of_isText (h : t.isText = true) : t = .text := by
  cases t with
  | object name => exact congrArg JavaType.object (eq_of_beq h)
  | void | boolean | byte | char | short | int | long | float | double | array => cases h

/-- The wrapper goes without a cast only to its own class, to numbers and to objects. -/
theorem passesAs_of_boxSatisfies {wrapper : String} (hwrapper : source.boxClass? = some wrapper)
    (h : boxSatisfies source target = true) : (JavaType.ofClass wrapper).PassesAs target := by
  simp only [boxSatisfies, hwrapper, Option.map_some, Bool.or_eq_true, Bool.and_eq_true,
    beq_iff_eq, Option.some.injEq] at h
  rcases h with (hany | hown) | ⟨hnumeric, hnumber⟩
  · exact eq_anyObject_of_isAnyObject hany ▸ .object rfl
  · exact hown ▸ .same _
  · exact hnumber ▸ passesAs_number hnumeric hwrapper

theorem exists_leads_boxSteps (hs : source.isPrimitive = true) (ht : target.isReference = true) :
    ∃ final, Leads source (boxSteps source target) final ∧ final.PassesAs target := by
  unfold boxSteps
  obtain ⟨wrapper, hwrapper, hbox⟩ := exists_turns_box hs
  split_ifs with htext hsatisfies
  · obtain rfl := eq_text_of_isText htext
    exact ⟨.text, .singleton (turns_stringify hs), .same _⟩
  · exact ⟨_, .singleton hbox, passesAs_of_boxSatisfies hwrapper hsatisfies⟩
  · exact ⟨target, .cons hbox (.singleton (.checkCast rfl ht)), .same _⟩

/-- The cast is left out only where the class that has the accessor is known. -/
theorem passesAs_of_unboxable (h : unboxable source target = true) :
    source.PassesAs (.object (unboxOwner target)) := by
  cases source with
  | object name =>
    simp only [unboxable, Bool.or_eq_true, Bool.and_eq_true, beq_iff_eq, List.contains_iff_mem] at h
    rcases h with hown | ⟨hnumber, hname⟩
    · exact hown ▸ .same _
    · exact hnumber ▸ .number hname
  | void | boolean | byte | char | short | int | long | float | double | array => cases h

theorem turns_unbox (hs : source.isReference = true) (ht : target.isPrimitive = true) :
    (ConversionStep.unbox target (!unboxable source target)).Turns source target := by
  obtain ⟨accessor, haccessor⟩ := JavaType.exists_unboxMethod? ht
  refine .unbox hs haccessor (Library.accessor?_of_unboxMethod? haccessor) fun hcast => ?_
  exact passesAs_of_unboxable (Bool.not_eq_eq_eq_not.1 hcast)

/-! ### Plans -/

/-- **Every plan leads from its source to a type that passes as its target.** -/
theorem exists_leads_plan (source target : JavaType) :
    ∃ final, Leads source (plan source target) final ∧ final.PassesAs target := by
  unfold plan
  by_cases hsame : source = target
  · rw [if_pos hsame]
    exact ⟨source, .nil source, hsame ▸ .same _⟩
  rw [if_neg hsame]
  by_cases htarget : target.isVoid = true
  · rw [if_pos htarget, JavaType.eq_void_of_isVoid htarget]
    exact ⟨.void, .singleton (.discard source), .same _⟩
  rw [if_neg htarget]
  by_cases hsource : source.isVoid = true
  · rw [if_pos hsource, JavaType.eq_void_of_isVoid hsource]
    exact ⟨target, .singleton (.zero target), .same _⟩
  rw [if_neg hsource]
  cases hs : source.isPrimitive with
  | true =>
    cases ht : target.isPrimitive with
    | true => exact exists_leads_primitiveSteps hs ht
    | false => exact exists_leads_boxSteps hs (JavaType.isReference_of_not_isPrimitive htarget ht)
  | false =>
    have hreference := JavaType.isReference_of_not_isPrimitive hsource hs
    cases ht : target.isPrimitive with
    | true => exact ⟨target, .singleton (turns_unbox hreference ht), .same _⟩
    | false =>
      have hcast := JavaType.isReference_of_not_isPrimitive htarget ht
      by_cases hany : target.isAnyObject = true
      · simp only [hany, if_true]
        exact ⟨source, .nil source, eq_anyObject_of_isAnyObject hany ▸ .object hreference⟩
      · simp only [hany]
        exact ⟨target, .singleton (.checkCast hreference hcast), .same _⟩

/-- **Plans are well typed.** Read from its source on, a plan leads to exactly one type, and that
type passes as the target: it is the target, or an `int` on the stack like the target and with no
number that the target lacks, or a class whose objects are all objects of the target. -/
theorem exists_leads_plan_iff (source target : JavaType) :
    ∃ final : JavaType, final.PassesAs target ∧
      ∀ t, Leads source (plan source target) t ↔ t = final := by
  obtain ⟨final, hleads, hpass⟩ := exists_leads_plan source target
  refine ⟨final, hpass, fun t => ⟨fun ht => ht.unique hleads, ?_⟩⟩
  rintro rfl
  exact hleads

end Conversion

end ClassForge
