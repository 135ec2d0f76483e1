import ClassForge.Proofs.Machine.Conversion

/-!
# Arrays

Code can change the elements of an array, but neither its class nor its length.

* `World.Preserves` — objects keep their shapes;
* `Platform.holds` — an array may hold a value, as an object;
* `Carries.loadElement`, `Carries.storeElement` — **PROVED**: the rules of both instructions.
-/

namespace ClassForge

open Emitter

/-! ### Shapes -/

/-- Contents that code can turn into each other: an array keeps its class and its length. -/
inductive Obj.SameShape : Obj → Obj → Prop
  | refl (o : Obj) : SameShape o o
  | array {element : String} {items items' : List (Option Ref)}
    (h : items'.length = items.length) : SameShape (.array element items) (.array element items')

theorem Obj.SameShape.trans {o o' o'' : Obj} (h : o.SameShape o') (h' : o'.SameShape o'') :
    o.SameShape o'' := by
  cases h with
  | refl => exact h'
  | array h =>
    cases h' with
    | refl => exact .array h
    | array h' => exact .array (h'.trans h)

theorem Obj.SameShape.isInstance {σ : Type} {o o' : Obj} (h : o.SameShape o') (P : Platform σ)
    (cls : String) : P.isInstance o' cls = P.isInstance o cls := by
  cases h with
  | refl => rfl
  | array => exact P.isInstance_array _ _ _ cls

/-- May an array hold a value of the type, as an object? -/
def Platform.holds {σ : Type} (P : Platform σ) (w : World σ) (element : String)
    (type : JavaType) (v : Value) : Bool :=
  match v with
  | .ref r => Activation.mayHold P w element r
  | v => P.isInstance (.box type v) element

namespace World

variable {σ : Type} {w w' w'' : World σ}

theorem Retains.element? (h : w.Retains w') {array item : Option Ref} {k : Nat}
    (hitem : w.element? array k = some item) : w'.element? array k = some item := by
  unfold World.element? at hitem ⊢
  cases hobj : array.bind w.objects with
  | none =>
    rw [hobj] at hitem
    cases hitem
  | some o =>
    rw [hobj] at hitem
    rw [h.bind_objects hobj]
    exact hitem

/-- Objects keep their shapes. -/
def Preserves (w w' : World σ) : Prop :=
  ∀ r o, w.objects r = some o → ∃ o', w'.objects r = some o' ∧ o.SameShape o'

theorem Retains.preserves (h : w.Retains w') : w.Preserves w' :=
  fun r o ho => ⟨o, h r o ho, .refl o⟩

theorem Preserves.trans (h : w.Preserves w') (h' : w'.Preserves w'') : w.Preserves w'' := by
  intro r o ho
  obtain ⟨o', ho', hsame⟩ := h r o ho
  obtain ⟨o'', ho'', hsame'⟩ := h' r o' ho'
  exact ⟨o'', ho'', hsame.trans hsame'⟩

theorem Preserves.ne_none (h : w.Preserves w') {r : Ref} (hr : w.objects r ≠ none) :
    w'.objects r ≠ none := by
  obtain ⟨o, ho⟩ := Option.ne_none_iff_exists'.1 hr
  obtain ⟨o', ho', -⟩ := h r o ho
  rw [ho']
  nofun

/-- A wrapper stays as it is. -/
theorem Preserves.shows (h : w.Preserves w') {type : JavaType} {v : Value} {r : Option Ref}
    (hr : w.Shows type v r) : w'.Shows type v r := by
  unfold Shows at hr ⊢
  by_cases hprimitive : type.isPrimitive = true
  · rw [if_pos hprimitive] at hr ⊢
    obtain ⟨a, rfl, ha⟩ := Option.bind_eq_some_iff.1 hr
    obtain ⟨o', ho', hsame⟩ := h a _ ha
    cases hsame
    exact ho'
  · rwa [if_neg hprimitive] at hr ⊢

theorem Preserves.mayHold (h : w.Preserves w') {P : Platform σ} {cls : String} {r : Option Ref}
    (hr : Activation.mayHold P w cls r = true) : Activation.mayHold P w' cls r = true := by
  cases r with
  | none => rfl
  | some r =>
    obtain ⟨o, ho, hcls⟩ := (Option.any_eq_true _ _).1 hr
    obtain ⟨o', ho', hsame⟩ := h r o ho
    exact (Option.any_eq_true _ _).2 ⟨o', ho', (hsame.isInstance P cls).trans hcls⟩

theorem Preserves.holds (h : w.Preserves w') {P : Platform σ} {element : String} {type : JavaType}
    {v : Value} (hv : P.holds w element type v = true) : P.holds w' element type v = true := by
  cases v with
  | ref r => exact h.mayHold hv
  | int | long | float | double => exact hv

/-- The object that shows a value can be held where the value can. -/
theorem Shows.mayHold {P : Platform σ} {element : String} {type : JavaType} {v : Value}
    {r : Option Ref} (h : w.Shows type v r) (hfits : v.fits type = true)
    (hv : P.holds w element type v = true) : Activation.mayHold P w element r = true := by
  unfold Shows at h
  have hbox : type.isPrimitive = true → P.isInstance (.box type v) element = true →
      Activation.mayHold P w element r = true := by
    intro hprimitive hinstance
    rw [if_pos hprimitive] at h
    obtain ⟨a, rfl, ha⟩ := Option.bind_eq_some_iff.1 h
    exact (Option.any_eq_true _ _).2 ⟨_, ha, hinstance⟩
  cases v with
  | ref r' =>
    rw [JavaType.isPrimitive_of_isReference hfits, if_neg (by nofun)] at h
    cases h
    exact hv
  | int => exact hbox (JavaType.isPrimitive_of_isIntLike hfits) hv
  | long | float | double => exact hbox (by rw [eq_of_beq hfits]; rfl) hv

theorem objects_setObject {r : Ref} (hr : w.objects r ≠ none) (o' : Obj) (r' : Ref) :
    (w.setObject r o').objects r' = if r' = r then some o' else w.objects r' := by
  obtain ⟨o, ho⟩ := Option.ne_none_iff_exists'.1 hr
  show (if r' = r then (w.objects r).map fun _ => o' else w.objects r') = _
  rw [ho]
  rfl

end World

/-! ### Access to elements -/

namespace Machine

variable {σ : Type} {M : Machine σ} {st : List Value} {l : Nat → Option Value} {w : World σ}
  {c : List Call} {r : Ref}

theorem Carries.loadElement {k : Int32} {n : Nat} {array item : Option Ref} (hk : k.toInt = n)
    (h : w.element? array n = some item) :
    M.Carries (Emitter.emit .aaload) ⟨.int k :: .ref array :: st, l, w, c⟩
      ⟨.ref item :: st, l, w, c⟩ := by
  refine .emit rfl fun hsize => ?_
  rw [show ∀ s, M.operate (.plain .aaload hsize) s = s.loadElement from fun _ => rfl]
  have hsign : ¬((n : Int) < 0) := by omega
  simp only [Activation.loadElement, hk, if_neg hsign, Int.toNat_natCast, h, Option.map_some,
    Activation.withStack]

theorem Carries.storeElement {k : Int32} {n : Nat} {item : Option Ref} {element : String}
    {items : List (Option Ref)} (hk : k.toInt = n)
    (harray : w.objects r = some (.array element items)) (hlength : n < items.length)
    (hhold : Activation.mayHold M.platform w element item = true) :
    M.Carries (Emitter.emit .aastore) ⟨.ref item :: .int k :: .ref (some r) :: st, l, w, c⟩
      ⟨st, l, w.setObject r (.array element (items.set n item)), c⟩ := by
  have hpass : ¬((n : Int) < 0 ∨ items.length ≤ n ∨
      Activation.mayHold M.platform w element item = false) := by
    rw [hhold]
    simp only [Bool.true_eq_false, or_false]
    omega
  refine .emit rfl fun hsize => ?_
  rw [show ∀ s, M.operate (.plain .aastore hsize) s = s.storeElement M.platform from fun _ => rfl]
  simp only [Activation.storeElement, harray, hk, Int.toNat_natCast, if_neg hpass]

end Machine

end ClassForge
