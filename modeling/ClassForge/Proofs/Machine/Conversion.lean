import ClassForge.Proofs.Emission.OperationBlocks
import ClassForge.Proofs.Machine.Contracts
import ClassForge.Proofs.Machine.Operations

/-!
# What conversions do

Values of bindings move between their declared types and objects.

* `Platform.fromObject?` — an object as a value of a type: the null reference is zero of a
  primitive type, all other objects have to pass a cast;
* `World.Shows` — a value as an object: a primitive in its wrapper, a reference as it is;
* `Carries.fromObject`, `exists_carries_toObject` — **PROVED**: the emitted code computes them.
-/

namespace ClassForge

open Emitter

/-! ### Objects and values -/

/-- An object as a value of a type; nothing if a cast fails. -/
def Platform.fromObject? {σ : Type} (P : Platform σ) (w : World σ) (type : JavaType)
    (r : Option Ref) : Option Value :=
  match Library.accessor? type with
  | some accessor =>
    if r = none then some (.zero type)
    else
      (r.bind w.objects).bind fun o =>
        if P.isInstance o accessor.owner then some (P.number o type) else none
  | none =>
    if type = .anyObject ∨ type.className?.any (fun cls => Activation.mayHold P w cls r) = true then
      some (.ref r)
    else none

/-- Every object is an object. -/
theorem Platform.fromObject?_anyObject {σ : Type} (P : Platform σ) (w : World σ) (r : Option Ref) :
    P.fromObject? w .anyObject r = some (.ref r) := by
  have hnone : Library.accessor? .anyObject = none := rfl
  simp only [fromObject?, hnone, true_or, if_true]

namespace World

variable {σ : Type} {w w' : World σ}

/-- The reference shows a value of the type: a primitive in its wrapper, an object as it is. -/
def Shows (w : World σ) (type : JavaType) (v : Value) (r : Option Ref) : Prop :=
  if type.isPrimitive then r.bind w.objects = some (.box type v) else v = .ref r

theorem Retains.bind_objects (h : w.Retains w') {r : Option Ref} {o : Obj}
    (hr : r.bind w.objects = some o) : r.bind w'.objects = some o := by
  cases r with
  | none => cases hr
  | some r => exact h r o hr

theorem Retains.mayHold (h : w.Retains w') {P : Platform σ} {cls : String} {r : Option Ref}
    (hr : Activation.mayHold P w cls r = true) : Activation.mayHold P w' cls r = true := by
  cases r with
  | none => rfl
  | some r =>
    obtain ⟨o, ho, hcls⟩ := (Option.any_eq_true _ _).1 hr
    exact (Option.any_eq_true _ _).2 ⟨o, h r o ho, hcls⟩

theorem Retains.fromObject? (h : w.Retains w') {P : Platform σ} {type : JavaType} {r : Option Ref}
    {v : Value} (hr : P.fromObject? w type r = some v) : P.fromObject? w' type r = some v := by
  unfold Platform.fromObject? at hr ⊢
  cases haccessor : Library.accessor? type with
  | some accessor =>
    simp only [haccessor] at hr ⊢
    by_cases hnull : r = none
    · rwa [if_pos hnull] at hr ⊢
    · rw [if_neg hnull] at hr ⊢
      obtain ⟨o, ho, hcast⟩ := Option.bind_eq_some_iff.1 hr
      exact Option.bind_eq_some_iff.2 ⟨o, h.bind_objects ho, hcast⟩
  | none =>
    simp only [haccessor] at hr ⊢
    split at hr
    · rename_i hpass
      rw [if_pos]
      · exact hr
      · refine hpass.imp_right fun hany => ?_
        obtain ⟨cls, hcls, hhold⟩ := (Option.any_eq_true _ _).1 hany
        exact (Option.any_eq_true _ _).2 ⟨cls, hcls, h.mayHold hhold⟩
    · cases hr

end World

/-! ### Library calls -/

namespace Library

theorem boxing?_of_boxClass? {type : JavaType} {wrapper : String}
    (h : type.boxClass? = some wrapper) : boxing? type = some
      ⟨.method, wrapper, "valueOf", (⟨[type], .ofClass wrapper⟩ : MethodType).descriptor⟩ := by
  cases type <;> cases h <;> decide +kernel

theorem accessor?_of_unboxMethod? {type : JavaType} {name : String}
    (h : type.unboxMethod? = some name) : accessor? type = some
      ⟨.method, Conversion.unboxOwner type, name, (MethodType.returning type).descriptor⟩ := by
  cases type <;> cases h <;> decide +kernel

theorem isPrimitive_of_accessor? {type : JavaType} {m : MemberRef} (h : accessor? type = some m) :
    type.isPrimitive = true := by
  cases type <;> cases h <;> rfl

theorem owner_of_accessor? {type : JavaType} {m : MemberRef} (h : accessor? type = some m) :
    (JavaType.ofClass (Conversion.unboxOwner type)).className? = some m.owner := by
  cases type <;> cases h <;> decide +kernel

/-- The names of the methods with a fixed meaning. -/
def names : List String :=
  ["equals", "valueOf", "booleanValue", "byteValue", "charValue", "shortValue", "intValue",
    "longValue", "floatValue", "doubleValue"]

theorem mem_names_of_boxing? {type : JavaType} {m : MemberRef} (h : boxing? type = some m) :
    m.name ∈ names := by
  cases type <;> cases h <;> decide

theorem mem_names_of_accessor? {type : JavaType} {m : MemberRef} (h : accessor? type = some m) :
    m.name ∈ names := by
  cases type <;> cases h <;> decide

end Library

namespace Platform

variable {σ : Type} (P : Platform σ) {type : JavaType} {m : MemberRef}

theorem library?_equals : P.library? Library.equals = some compare := if_pos rfl

theorem library?_of_boxing? (h : Library.boxing? type = some m) :
    P.library? m = some (P.wrap type) := by
  have hne : m ≠ Library.equals := by
    cases type <;> cases h <;> decide
  have hfind : Library.primitives.find? (fun t => Library.boxing? t == some m) = some type := by
    cases type <;> cases h <;> decide
  simp only [library?, if_neg hne, hfind]

theorem library?_of_accessor? (h : Library.accessor? type = some m) :
    P.library? m = some (P.unwrap type) := by
  have hne : m ≠ Library.equals := by
    cases type <;> cases h <;> decide
  have hnone : Library.primitives.find? (fun t => Library.boxing? t == some m) = none := by
    cases type <;> cases h <;> decide
  have hfind : Library.primitives.find? (fun t => Library.accessor? t == some m) = some type := by
    cases type <;> cases h <;> decide
  simp only [library?, if_neg hne, hnone, hfind, Option.map_some]

/-- All other methods are called. -/
theorem library?_eq_none (h : m.name ∉ Library.names) : P.library? m = none := by
  have hne : m ≠ Library.equals := by
    rintro rfl
    exact h (by decide)
  have hboxing : Library.primitives.find? (fun t => Library.boxing? t == some m) = none :=
    List.find?_eq_none.2 fun t _ ht => h (Library.mem_names_of_boxing? (beq_iff_eq.1 ht))
  have haccessor : Library.primitives.find? (fun t => Library.accessor? t == some m) = none :=
    List.find?_eq_none.2 fun t _ ht => h (Library.mem_names_of_accessor? (beq_iff_eq.1 ht))
  simp only [library?, if_neg hne, hboxing, haccessor, Option.map_none]

end Platform

namespace Machine

variable {σ : Type} {M : Machine σ} {st : List Value} {l : Nat → Option Value} {w : World σ}
  {c : List Call} {type : JavaType}

/-! ### From objects -/

/-- **The null reference becomes zero, and a wrapper its value.** -/
theorem Carries.emitUnbox {r : Option Ref} {v : Value} {accessor : MemberRef}
    (haccessor : Library.accessor? type = some accessor)
    (h : M.platform.fromObject? w type r = some v) :
    M.Carries (emitUnbox type true) ⟨.ref r :: st, l, w, c⟩ ⟨v :: st, l, w, c⟩ := by
  have hprimitive := Library.isPrimitive_of_accessor? haccessor
  obtain ⟨name, hname⟩ := JavaType.exists_unboxMethod? hprimitive
  obtain rfl : accessor = ⟨.method, Conversion.unboxOwner type, name,
      (MethodType.returning type).descriptor⟩ :=
    Option.some.inj (haccessor.symm.trans (Library.accessor?_of_unboxMethod? hname))
  have hvoid := (JavaType.wellFormed_of_isPrimitive hprimitive).1
  unfold Platform.fromObject? at h
  simp only [haccessor] at h
  rw [emitUnbox_eq hname]
  have hdup : M.Carries (Emitter.emit .dup) ⟨.ref r :: st, l, w, c⟩
      ⟨.ref r :: .ref r :: st, l, w, c⟩ := .emit rfl fun _ => rfl
  cases r with
  | none =>
    obtain rfl := Option.some.inj h
    have hpop : M.Carries (Emitter.emit .pop) ⟨.null :: st, l, w, c⟩ ⟨st, l, w, c⟩ :=
      .emit rfl fun _ => rfl
    exact .fork_next hdup rfl (hpop.seq (.zeroOf hvoid _))
      ((regular_checkCast _).seq (regular_invokeVirtual _ _ _))
  | some r =>
    obtain ⟨o, ho, hcast⟩ := Option.bind_eq_some_iff.1 h
    have ho : w.objects r = some o := ho
    split at hcast
    · rename_i hinstance
      cases hcast
      have hhold : Activation.mayHold M.platform w (Conversion.unboxOwner type) (some r) = true :=
        (Option.any_eq_true _ _).2 ⟨o, ho, hinstance⟩
      have hcall : M.Carries (Emitter.invokeVirtual (Conversion.unboxOwner type) name
          (.returning type)) ⟨[.ref (some r)].reverse ++ st, l, w, c⟩
          ⟨M.platform.number o type :: st, l, w, c⟩ := by
        refine .invokeVirtual (callFits_unbox hname) rfl nofun ?_
        simp only [Activation.enter, M.platform.library?_of_accessor? haccessor, Platform.unwrap,
          ho, Option.map_some]
      exact .fork_taken hdup rfl ((regular_emit .pop).seq (regular_zeroOf type))
        ((Carries.checkCast (Library.owner_of_accessor? haccessor) hhold).seq hcall)
    · cases hcast

/-- **An object becomes a value of the type.** -/
theorem Carries.fromObject {r : Option Ref} {v : Value} (hvoid : type ≠ .void)
    (h : M.platform.fromObject? w type r = some v) :
    M.Carries (fromObject type) ⟨.ref r :: st, l, w, c⟩ ⟨v :: st, l, w, c⟩ := by
  unfold Emitter.fromObject convert
  rw [plan_anyObject_left]
  -- A reference type asks for a cast, unless it is the root class.
  have hreference : Library.accessor? type = none → v = .ref r ∧ (type = .anyObject ∨
      ∃ cls, type.className? = some cls ∧ Activation.mayHold M.platform w cls r = true) := by
    intro hnone
    unfold Platform.fromObject? at h
    simp only [hnone] at h
    split at h
    · rename_i hpass
      exact ⟨(Option.some.inj h).symm, hpass.imp_right (Option.any_eq_true _ _).1⟩
    · cases h
  cases type with
  | void => exact absurd rfl hvoid
  | object name =>
    obtain ⟨rfl, hpass⟩ := hreference rfl
    dsimp only
    split
    · exact .pure _
    · rename_i hname
      rcases hpass with hany | ⟨cls, hcls, hhold⟩
      · exact absurd (JavaType.object.inj hany) hname
      · rw [emitSteps_singleton, emitStep]
        exact .checkCast hcls hhold
  | array elem =>
    obtain ⟨rfl, hpass⟩ := hreference rfl
    rcases hpass with hany | ⟨cls, hcls, hhold⟩
    · cases hany
    · show M.Carries (emitSteps [.checkCast _]) _ _
      rw [emitSteps_singleton, emitStep]
      exact .checkCast hcls hhold
  | boolean | byte | char | short | int | long | float | double =>
    show M.Carries (emitSteps [.unbox _ true]) _ _
    rw [emitSteps_singleton, emitStep]
    exact .emitUnbox rfl h

/-- A converted object fits the type. -/
theorem fits_of_fromObject? {P : Platform σ} {r : Option Ref} {v : Value}
    (h : P.fromObject? w type r = some v) : v.fits type = true := by
  unfold Platform.fromObject? at h
  cases haccessor : Library.accessor? type with
  | some accessor =>
    have hprimitive := Library.isPrimitive_of_accessor? haccessor
    simp only [haccessor] at h
    split at h
    · cases h
      exact Value.fits_zero (JavaType.wellFormed_of_isPrimitive hprimitive).1
    · obtain ⟨o, -, hcast⟩ := Option.bind_eq_some_iff.1 h
      split at hcast
      · cases hcast
        exact P.number_fits o type hprimitive
      · cases hcast
  | none =>
    simp only [haccessor] at h
    split at h
    · rename_i hpass
      cases h
      rcases hpass with rfl | hany
      · rfl
      · obtain ⟨cls, hcls, -⟩ := (Option.any_eq_true _ _).1 hany
        exact JavaType.isReference_of_className? hcls
    · cases h

/-! ### To objects -/

/-- **A value becomes an object that shows it.** -/
theorem exists_carries_toObject {v : Value} (hvoid : type ≠ .void) (hfits : v.fits type = true) :
    ∃ r w', w.Keeps w' ∧ w'.Shows type v r ∧
      ∀ st l c, M.Carries (toObject type) ⟨v :: st, l, w, c⟩ ⟨.ref r :: st, l, w', c⟩ := by
  unfold toObject convert
  rw [plan_anyObject_right]
  have hbox : ∀ {wrapper}, type.boxClass? = some wrapper → type.isPrimitive = true →
      ∃ r w', w.Keeps w' ∧ w'.Shows type v r ∧ ∀ st l c,
        M.Carries (emitSteps [.box type]) ⟨v :: st, l, w, c⟩ ⟨.ref r :: st, l, w', c⟩ := by
    intro wrapper hwrapper hprimitive
    refine ⟨some (M.platform.provide (.box type v) w).1, _,
      M.platform.provide_keeps (.box type v) w, ?_, fun st l c => ?_⟩
    · unfold World.Shows
      rw [if_pos hprimitive]
      exact M.platform.provide_objects (.box type v) w
    · have hcall : M.Carries (invokeStatic wrapper "valueOf" ⟨[type], .ofClass wrapper⟩)
          ⟨[v].reverse ++ st, l, w, c⟩
          ⟨.ref (some (M.platform.provide (.box type v) w).1) :: st, l,
            (M.platform.provide (.box type v) w).2, c⟩ := by
        refine .invokeStatic (callFits_box hwrapper) rfl ?_
        simp only [Activation.enter,
          M.platform.library?_of_boxing? (Library.boxing?_of_boxClass? hwrapper), Platform.wrap,
          hfits, if_true, Option.map_some]
      rw [emitSteps_singleton, emitStep]
      simp only [hwrapper]
      exact hcall
  cases type with
  | void => exact absurd rfl hvoid
  | object | array =>
    cases v with
    | ref r => exact ⟨r, w, .refl w, rfl, fun _ _ _ => .pure _⟩
    | int | long | float | double => cases hfits
  | boolean | byte | char | short | int | long | float | double => exact hbox rfl rfl

end Machine

end ClassForge
