import ClassForge.Proofs.Conversion.StackEffect

/-!
# Conversions of whole numbers

What the code of a conversion computes, where both types are `boolean`, `byte`, `char`, `short`,
`int` or `long`.

* `JavaType.cast` — the value of a type that a number is cast to: what is left of it in the bits of
  the type, and for `boolean` whether it is other than zero;
* `JavaType.eq_cast_of_holds` — **PROVED**: a cast is told by its remainder, so that a plan may cut
  a number down in several steps or in none;
* `Machine.carries_emitStep` — **PROVED**: the code of one step casts to the type that it leaves;
* `Machine.exists_carries_emitSteps` — **PROVED**: the code of several steps keeps as many bits as
  each of their types has;
* `Emitter.reaches_cast` — **PROVED**: a conversion, in the finished code of a method.
-/

namespace ClassForge

open Conversion Emitter

namespace JavaType

/-- Are the values of the type whole numbers? -/
def isIntegral : JavaType → Bool
  | .boolean | .byte | .char | .short | .int | .long => true
  | _ => false

/-- The bits of a whole number of the type. -/
def bits : JavaType → Nat
  | .boolean => 1
  | .byte => 8
  | .char | .short => 16
  | .int => 32
  | .long => 64
  | _ => 0

/-- **A number, cast to a type.** -/
def cast (type : JavaType) (n : Int) : Int :=
  match type with
  | .boolean => if n = 0 then 0 else 1
  | .char => n % 2 ^ 16
  | type => n.bmod (2 ^ type.bits)

variable {s t : JavaType} {n m : Int}

theorem isIntegral_of_holds (h : t.Holds n) : t.isIntegral = true := by
  cases t with
  | boolean | byte | char | short | int | long => rfl
  | void | float | double | object | array => exact h.elim

theorem isPrimitive_of_isIntegral (h : t.isIntegral = true) : t.isPrimitive = true := by
  cases t with
  | boolean | byte | char | short | int | long => rfl
  | void | float | double | object | array => cases h

theorem not_holds_of_isReference (h : t.isReference = true) : ¬t.Holds n := by
  cases t with
  | object | array => exact id
  | _ => cases h

theorem category?_of_holds (h : t.Holds n) :
    t.category? = some .int ∨ t.category? = some .long := by
  cases t with
  | boolean | byte | char | short | int => exact .inl rfl
  | long => exact .inr rfl
  | void | float | double | object | array => exact h.elim

theorem cast_boolean (n : Int) : JavaType.boolean.cast n = if n = 0 then 0 else 1 := rfl

/-- A cast leaves a number of its type. -/
theorem holds_cast (ht : t.isIntegral = true) (n : Int) : t.Holds (t.cast n) := by
  cases t with
  | boolean =>
    rw [cast_boolean]
    split <;> exact ⟨by decide, by decide⟩
  | char =>
    show 0 ≤ n % 2 ^ 16 ∧ n % 2 ^ 16 ≤ 65535
    omega
  | byte | short | int | long =>
    simp only [Holds, cast, bits, Int.bmod_def]
    omega
  | void | float | double | object | array => cases ht

/-- A cast keeps the bits of its type. -/
theorem cast_modEq (ht : t.isIntegral = true) (hbool : t ≠ .boolean) (n : Int) :
    t.cast n ≡ n [ZMOD 2 ^ t.bits] := by
  cases t with
  | boolean => exact absurd rfl hbool
  | char => exact Int.mod_modEq n _
  | byte | short | int | long =>
    unfold Int.ModEq
    exact_mod_cast Int.bmod_emod
  | void | float | double | object | array => cases ht

/-- **The numbers of a type are told apart by their bits.** -/
theorem eq_of_modEq (hbool : t ≠ .boolean) (hn : t.Holds n) (hm : t.Holds m)
    (h : n ≡ m [ZMOD 2 ^ t.bits]) : n = m := by
  unfold Int.ModEq at h
  cases t with
  | boolean => exact absurd rfl hbool
  | byte | char | short | int | long =>
    simp only [Holds, bits] at hn hm h
    omega
  | void | float | double | object | array => exact hn.elim

/-- **A cast is told by its remainder.** -/
theorem eq_cast_of_holds (hbool : t ≠ .boolean) (hm : t.Holds m) (h : m ≡ n [ZMOD 2 ^ t.bits]) :
    m = t.cast n := by
  have ht := isIntegral_of_holds hm
  exact eq_of_modEq hbool hm (holds_cast ht n) (h.trans (cast_modEq ht hbool n).symm)

/-- A number of the type is left alone. -/
theorem cast_of_holds (h : t.Holds n) : t.cast n = n := by
  by_cases hbool : t = .boolean
  · subst hbool
    obtain ⟨hlo, hhi⟩ := h
    rw [cast_boolean]
    split <;> omega
  · exact (eq_cast_of_holds hbool h (.refl n)).symm

/-- Every number of a type that passes as another is one of that. -/
theorem holds_of_passesAs (h : s.PassesAs t) (hn : s.Holds n) : t.Holds n := by
  cases h with
  | same => exact hn
  | int _ _ h => exact h n hn
  | object hs => exact absurd hn (not_holds_of_isReference hs)
  | number => exact hn.elim

end JavaType

/-! ### Numbers on the operand stack -/

/-- How the operand stack holds a whole number of a type. -/
def Value.ofNumber (type : JavaType) (n : Int) : Value :=
  match type with
  | .long => .long (.ofInt n)
  | _ => .int (.ofInt n)

theorem Value.ofNumber_eq (type : JavaType) (n : Int) : Value.ofNumber type n =
    if type.category? = some .long then .long (.ofInt n) else .int (.ofInt n) := by
  cases type <;> rfl

theorem Value.ofNumber_of_category? {s t : JavaType} (h : s.category? = t.category?) (n : Int) :
    Value.ofNumber s n = Value.ofNumber t n := by
  rw [ofNumber_eq, h, ← ofNumber_eq]

theorem Value.ofNumber_of_int {s : JavaType} (h : s.category? = some .int) (n : Int) :
    Value.ofNumber s n = .int (.ofInt n) :=
  Value.ofNumber_of_category? (t := .int) h n

theorem Value.ofNumber_of_long {s : JavaType} (h : s.category? = some .long) (n : Int) :
    Value.ofNumber s n = .long (.ofInt n) :=
  Value.ofNumber_of_category? (t := .long) h n

namespace JavaType

variable {s : JavaType} {n : Int}

/-- The stack holds a number of a small type as an `int`. -/
theorem toInt_ofInt_of_int (h : s.category? = some .int) (hn : s.Holds n) :
    (Int32.ofInt n).toInt = n := by
  obtain ⟨hlo, hhi⟩ := holds_of_passesAs (passesAs_type h) hn
  rw [Int32.toInt_ofInt, Int.bmod_def]
  unfold Int32.size
  omega

theorem toInt_ofInt_of_long (h : s.category? = some .long) (hn : s.Holds n) :
    (Int64.ofInt n).toInt = n := by
  obtain ⟨hlo, hhi⟩ := holds_of_passesAs (passesAs_type h) hn
  rw [Int64.toInt_ofInt, Int.bmod_def]
  unfold Int64.size
  omega

end JavaType

namespace Machine

open JavaType

variable {σ : Type} {M : Machine σ} {s t : JavaType} {n : Int} {st : List Value}
  {l : Nat → Option Value} {w : World σ} {c : List Call}

/-! ### Single steps -/

theorem toInt_eq_bmod_toUInt32 (x : Int32) : x.toInt = Int.bmod x.toUInt32.toNat (2 ^ 32) :=
  BitVec.toInt_eq_toNat_bmod x.toBitVec

/-- The low half of a word, with zeros in front of it. -/
theorem toInt_lowHalf (x : Int32) :
    x.toUInt32.toUInt16.toUInt32.toInt32.toInt = x.toInt % 2 ^ 16 := by
  have hlt := x.toUInt32.toNat_lt
  rw [toInt_eq_bmod_toUInt32, toInt_eq_bmod_toUInt32 x]
  simp only [UInt32.toUInt32_toInt32, UInt16.toNat_toUInt32, UInt32.toNat_toUInt16, Int.bmod_def]
  omega

/-- A conversion instruction that leaves an `int`. -/
theorem carries_emit_int {op : Opcode} {v : Value} (x : Int32) (ht : t.category? = some .int)
    (hti : t.isIntegral = true) (hbranch : branch? op (v :: st) = none)
    (hop : ∀ h, M.operate (.plain op h) ⟨v :: st, l, w, c⟩ = some ⟨.int x :: st, l, w, c⟩)
    (hx : x.toInt = t.cast n) :
    M.Carries (emit op) ⟨v :: st, l, w, c⟩ ⟨.ofNumber t (t.cast n) :: st, l, w, c⟩ := by
  have hvalue : x = .ofInt (t.cast n) := by
    rw [← Int32.toInt_inj, toInt_ofInt_of_int ht (holds_cast hti n), hx]
  rw [Value.ofNumber_of_int ht, ← hvalue]
  exact .emit hbranch hop

/-- **A conversion instruction casts to the type of its result.** -/
theorem carries_conversion {op : Opcode} {cat : Category} (hs : s.category? = some cat)
    (hop : op.conversion? = some (cat, t)) (hn : s.Holds n) (ht : t.isIntegral = true) :
    M.Carries (emit op) ⟨.ofNumber s n :: st, l, w, c⟩
      ⟨.ofNumber t (t.cast n) :: st, l, w, c⟩ := by
  cases op with
  | i2l =>
    cases hop
    have hint := toInt_ofInt_of_int hs hn
    have hvalue : (Int32.ofInt n).toInt64 = .ofInt (JavaType.long.cast n) := by
      obtain ⟨hlo, hhi⟩ := holds_of_passesAs (passesAs_type hs) hn
      have hlong : JavaType.long.Holds n := ⟨by omega, by omega⟩
      rw [← Int64.toInt_inj, Int32.toInt_toInt64, hint, cast_of_holds hlong,
        toInt_ofInt_of_long rfl hlong]
    rw [Value.ofNumber_of_int hs, Value.ofNumber_of_long (s := .long) rfl, ← hvalue]
    exact .emit rfl fun _ => rfl
  | l2i =>
    cases hop
    rw [Value.ofNumber_of_long hs]
    refine carries_emit_int _ rfl rfl rfl (fun _ => rfl) ?_
    rw [Int64.toInt_toInt32, toInt_ofInt_of_long hs hn]
    rfl
  | i2b =>
    cases hop
    rw [Value.ofNumber_of_int hs]
    refine carries_emit_int _ rfl rfl rfl (fun _ => rfl) ?_
    rw [Int8.toInt_toInt32, Int32.toInt_toInt8, toInt_ofInt_of_int hs hn]
    rfl
  | i2s =>
    cases hop
    rw [Value.ofNumber_of_int hs]
    refine carries_emit_int _ rfl rfl rfl (fun _ => rfl) ?_
    rw [Int16.toInt_toInt32, Int32.toInt_toInt16, toInt_ofInt_of_int hs hn]
    rfl
  | i2c =>
    cases hop
    rw [Value.ofNumber_of_int hs]
    refine carries_emit_int _ rfl rfl rfl (fun _ => rfl) ?_
    rw [toInt_lowHalf, toInt_ofInt_of_int hs hn]
    rfl
  | i2f | i2d | l2f | l2d | f2d | d2f =>
    cases hop
    cases ht
  | f2i | f2l | d2i | d2l =>
    -- The source has no whole numbers.
    cases hop
    rcases category?_of_holds hn with hcat | hcat <;> cases hs.symm.trans hcat
  | _ => cases hop

/-- An `int`, replaced by one or zero. -/
theorem carries_fork_truth (v : Int32) :
    M.Carries (fork (pure ()) .ifeq (intConst 1) (intConst 0)) ⟨.int v :: st, l, w, c⟩
      ⟨.int (if v = 0 then 0 else 1) :: st, l, w, c⟩ := by
  by_cases hv : v = 0
  · rw [if_pos hv]
    exact .fork_taken (.pure _) (by rw [hv]; rfl) (regular_intConst 1) (.intConst 0 _)
  · rw [if_neg hv]
    refine .fork_next (.pure _) ?_ (.intConst 1 _) (regular_intConst 0)
    simp only [branch?, beq_eq_false_iff_ne.2 hv]

/-- A number is tested by the `int` that a comparison makes of it. -/
theorem carries_truth {test : Emit Unit} {v : Int32} {value : Value} (hv : v = 0 ↔ n = 0)
    (htest : M.Carries test ⟨value :: st, l, w, c⟩ ⟨.int v :: st, l, w, c⟩) :
    M.Carries (test >>= fun _ => fork (pure ()) .ifeq (intConst 1) (intConst 0))
      ⟨value :: st, l, w, c⟩ ⟨.ofNumber .boolean (JavaType.boolean.cast n) :: st, l, w, c⟩ := by
  have hbool : Value.ofNumber .boolean (JavaType.boolean.cast n) =
      .int (if v = 0 then 0 else 1) := by
    by_cases hn : n = 0
    · rw [if_pos (hv.2 hn), hn]
      rfl
    · rw [if_neg fun h => hn (hv.1 h), cast_boolean, if_neg hn]
      rfl
  rw [hbool]
  exact htest.seq (carries_fork_truth v)

theorem carries_emitTruthy (hn : s.Holds n) :
    M.Carries (emitTruthy s) ⟨.ofNumber s n :: st, l, w, c⟩
      ⟨.ofNumber .boolean (JavaType.boolean.cast n) :: st, l, w, c⟩ := by
  rw [emitTruthy_eq]
  cases s with
  | boolean | byte | char | short | int =>
    refine carries_truth (v := .ofInt n) ?_ (.pure _)
    rw [← Int32.toInt_inj, toInt_ofInt_of_int rfl hn]
    rfl
  | long =>
    have hzero : Int64.ofInt n = 0 ↔ n = 0 := by
      rw [← Int64.toInt_inj, toInt_ofInt_of_long rfl hn]
      rfl
    have hconst : M.Carries (longConst 0) ⟨.long (.ofInt n) :: st, l, w, c⟩
        ⟨.long 0 :: .long (.ofInt n) :: st, l, w, c⟩ :=
      show M.Carries (emit .lconst0) _ _ from .emit rfl fun _ => rfl
    refine carries_truth (v := if Int64.ofInt n < 0 then -1 else if Int64.ofInt n = 0 then 0 else 1)
      ?_ (hconst.seq (.emit rfl fun _ => rfl))
    rw [← hzero]
    split_ifs with hlt heq
    · exact ⟨nofun, fun heq => absurd (heq ▸ hlt) (by decide)⟩
    · exact ⟨fun _ => heq, fun _ => rfl⟩
    · exact ⟨nofun, fun h => absurd h heq⟩
  | void | float | double | object | array => exact hn.elim

/-- **The code of one step casts to the type that it leaves.** -/
theorem carries_emitStep {step : ConversionStep} (h : step.Turns s t) (hn : s.Holds n)
    (ht : t.isIntegral = true) :
    M.Carries (emitStep step) ⟨.ofNumber s n :: st, l, w, c⟩
      ⟨.ofNumber t (t.cast n) :: st, l, w, c⟩ := by
  cases h with
  | primitive hs hop => exact carries_conversion hs hop hn ht
  | truthy => exact carries_emitTruthy hn
  | box | stringify | discard => cases ht
  | unbox hs | checkCast hs =>
    exact absurd hn (not_holds_of_isReference hs)
  | zero => exact hn.elim

/-! ### Whole plans -/

/-- **The code of several steps keeps as many bits as each of their types has.** -/
theorem exists_carries_emitSteps {steps : List ConversionStep} {k : Nat} (h : Leads s steps t)
    (hwide : ∀ step ∈ steps, ∀ {u v : JavaType}, step.Turns u v →
      v.isIntegral = true ∧ v ≠ .boolean ∧ k ≤ v.bits) (hn : s.Holds n) :
    ∃ m, t.Holds m ∧ m ≡ n [ZMOD 2 ^ k] ∧ ∀ st l w c,
      M.Carries (emitSteps steps) ⟨.ofNumber s n :: st, l, w, c⟩
        ⟨.ofNumber t m :: st, l, w, c⟩ := by
  induction h generalizing n with
  | nil => exact ⟨n, hn, .refl n, fun _ _ _ _ => .pure _⟩
  | @cons s u t step rest hstep hrest ih =>
    obtain ⟨hu, hbool, hk⟩ := hwide step List.mem_cons_self hstep
    obtain ⟨m, hm, hmod, hcarries⟩ := ih (fun step' hmem => hwide step'
      (List.mem_cons_of_mem _ hmem)) (holds_cast hu n)
    have hcast : u.cast n ≡ n [ZMOD 2 ^ k] :=
      (cast_modEq hu hbool n).of_dvd (pow_dvd_pow 2 hk)
    exact ⟨m, hm, hmod.trans hcast, fun st l w c =>
      (carries_emitStep hstep hn hu).seq (hcarries st l w c)⟩

end Machine

namespace Conversion

open JavaType

variable {source target : JavaType}

theorem plan_of_isPrimitive (hs : source.isPrimitive = true) (ht : target.isPrimitive = true) :
    plan source target = if source = target then [] else primitiveSteps source target := by
  unfold plan
  simp only [hs, ht, isVoid_of_isPrimitive hs, isVoid_of_isPrimitive ht, Bool.false_eq_true,
    if_false]

/-- The type that stands for a category has all bits of the types in it. -/
theorem bits_le_type (h : target.isIntegral = true) :
    (categoryOf target).type.isIntegral = true ∧ (categoryOf target).type ≠ .boolean ∧
      target.bits ≤ (categoryOf target).type.bits := by
  cases target with
  | boolean | byte | char | short | int | long => exact ⟨rfl, nofun, by decide⟩
  | void | float | double | object | array => cases h

/-- **No step of a plan leaves fewer bits than its target has.** -/
theorem wide_of_mem_plan (hs : source.isPrimitive = true) (ht : target.isIntegral = true)
    (hbool : target ≠ .boolean) {step : ConversionStep} (hstep : step ∈ plan source target)
    {u v : JavaType} (hturns : step.Turns u v) :
    v.isIntegral = true ∧ v ≠ .boolean ∧ target.bits ≤ v.bits := by
  rw [plan_of_isPrimitive hs (isPrimitive_of_isIntegral ht)] at hstep
  split at hstep
  · cases hstep
  rw [primitiveSteps, if_neg hbool, List.mem_map] at hstep
  obtain ⟨op, hop, rfl⟩ := hstep
  cases hturns with
  | primitive hu hconversion =>
    rcases List.mem_append.1 hop with hop | hop
    · have hwiden := conversion?_of_categoryOp? (Option.mem_toList.1 hop)
      obtain ⟨-, rfl⟩ := Prod.mk.inj (Option.some.inj (hwiden.symm.trans hconversion))
      exact bits_le_type ht
    · have hcut := conversion?_of_truncateOp? (Option.mem_toList.1 hop)
      obtain ⟨-, rfl⟩ := Prod.mk.inj (Option.some.inj (hcut.symm.trans hconversion))
      exact ⟨ht, hbool, le_rfl⟩

end Conversion

/-- **The code of a conversion casts to its target.** -/
theorem Machine.carries_convert {σ : Type} {M : Machine σ} {source target : JavaType} {n : Int}
    {st : List Value} {l : Nat → Option Value} {w : World σ} {c : List Call}
    (htarget : target.isIntegral = true) (hn : source.Holds n) :
    M.Carries (convert source target) ⟨.ofNumber source n :: st, l, w, c⟩
      ⟨.ofNumber target (target.cast n) :: st, l, w, c⟩ := by
  have hs := JavaType.isPrimitive_of_isIntegral (JavaType.isIntegral_of_holds hn)
  by_cases hbool : target = .boolean
  · subst hbool
    unfold convert
    rw [plan_of_isPrimitive hs rfl]
    split_ifs with hsame
    · subst hsame
      rw [JavaType.cast_of_holds hn]
      exact .pure _
    · rw [primitiveSteps, if_pos rfl, emitSteps_singleton]
      exact carries_emitTruthy hn
  · obtain ⟨final, hleads, hpass⟩ := exists_leads_plan source target
    obtain ⟨m, hm, hmod, hcarries⟩ := exists_carries_emitSteps (M := M) hleads
      (fun step hstep _ _ => wide_of_mem_plan hs htarget hbool hstep) hn
    have hcast : m = target.cast n :=
      JavaType.eq_cast_of_holds hbool (JavaType.holds_of_passesAs hpass hm) hmod
    rw [← hcast, ← Value.ofNumber_of_category? (category?_eq_of_passesAs hpass)]
    exact hcarries st l w c

namespace Emitter

/-- **Conversions of whole numbers are casts.** Somewhere in a method a number of the source type is
on top of the stack. With room for two more slots there is code for the conversion. Whatever code is
around it and whatever constants come later, once the method is finished the machine gets from the
start of that code to its end, with the cast in place of the number and all else as it was. The cast
is a number of the target type, and has its bits in common with the number. -/
theorem reaches_cast {pool : ConstantPool} {slots : Nat} {before : List Operation} {e : Emitter}
    {source target : JavaType} {n : Int} (hcoh : pool.Coherent)
    (hbefore : Operation.runAll before (ofPool pool slots) = .ok ((), e))
    (htarget : target.isIntegral = true) (hn : source.Holds n) :
    target.Holds (target.cast n) ∧
      (target ≠ .boolean → target.cast n ≡ n [ZMOD 2 ^ target.bits]) ∧
      (source.slots ≤ e.tracker.depth → e.tracker.depth ≤ 65533 →
        ∃ e', convert source target e = .ok ((), e')) ∧
      ∀ {after : List Operation} {e' f : Emitter} {body : MethodBody} {later : ConstantPool},
        convert source target e = .ok ((), e') → Operation.runAll after e' = .ok ((), f) →
        f.finish = .ok body → ConstantPool.Grows f.pool later → later.check = .ok () →
        ∀ {σ : Type} (P : Platform σ) (st : List Value) (l : Nat → Option Value) (w : World σ)
          (c : List Call), Machine.Reaches ⟨P, later, body.code⟩
            ⟨e.assembly.code.size, .ofNumber source n :: st, l, w, c⟩
            ⟨e'.assembly.code.size, .ofNumber target (target.cast n) :: st, l, w, c⟩ := by
  have hready := (Operation.regular_runAll before _ _ _ hbefore (ready_ofPool hcoh slots)).1
  refine ⟨JavaType.holds_cast htarget n, fun hbool => JavaType.cast_modEq htarget hbool n,
    fun hlo hhi => ?_, ?_⟩
  · obtain ⟨_, hshifts⟩ := shifts_convert source target
    obtain ⟨base, hbase⟩ := Nat.exists_eq_add_of_le' hlo
    have hneat := ((Reached.start pool slots).runAll hbefore).neat
    obtain ⟨e', hrun, -⟩ := hshifts e base hneat hbase (by unfold wordMax; omega)
    exact ⟨e', hrun⟩
  · intro after e' f body later hconvert hafter hfinish hgrows hcheck σ P st l w c
    have hcarries : Machine.Carries ⟨P, later, body.code⟩ (convert source target)
        ⟨.ofNumber source n :: st, l, w, c⟩ ⟨.ofNumber target (target.cast n) :: st, l, w, c⟩ :=
      Machine.carries_convert htarget hn
    obtain ⟨hready', -⟩ := hcarries.regular _ _ _ hconvert hready
    obtain ⟨hreadyf, hpre⟩ := Operation.regular_runAll _ _ _ _ hafter hready'
    exact hcarries.reaches ⟨hreadyf, (Assembly.finish_eq_ok hfinish).2.1, hgrows,
      ConstantPool.check_eq_ok.1 hcheck⟩ hconvert hready hpre

/-- A negative `long` that a method loads, converts and returns as a `char`. -/
theorem reaches_cast_long_char :
    ∃ e e' f body, Operation.runAll [.load .long 0] (ofPool .empty 2) = .ok ((), e) ∧
      convert .long .char e = .ok ((), e') ∧
      Operation.runAll [.returnValue .char] e' = .ok ((), f) ∧ f.finish = .ok body ∧
      JavaType.long.Holds (-2) ∧ JavaType.char.cast (-2) = 65534 ∧
      ∀ (P : Platform Unit) (l : Nat → Option Value) (w : World Unit),
        Machine.Reaches ⟨P, f.pool, body.code⟩ ⟨e.assembly.code.size, [.long (-2)], l, w, []⟩
          ⟨e'.assembly.code.size, [.int 65534], l, w, []⟩ := by
  have heval : (Operation.runAll [.load .long 0] (ofPool .empty 2)).toOption.any (fun r =>
      (convert .long .char r.2).toOption.any fun r' =>
        (Operation.runAll [.returnValue .char] r'.2).toOption.any fun q =>
          q.2.finish.toOption.any fun _ => q.2.pool.violation = none) = true := by decide +kernel
  obtain ⟨⟨_, e⟩, hbefore, heval⟩ := Except.exists_ok_of_any heval
  obtain ⟨⟨_, e'⟩, hconvert, heval⟩ := Except.exists_ok_of_any heval
  obtain ⟨⟨_, f⟩, hafter, heval⟩ := Except.exists_ok_of_any heval
  obtain ⟨body, hfinish, heval⟩ := Except.exists_ok_of_any heval
  have hlong : JavaType.long.Holds (-2) := ⟨by decide, by decide⟩
  have hbits : Value.ofNumber .long (-2) = .long (-2) ∧
      Value.ofNumber .char (JavaType.char.cast (-2)) = .int 65534 := by decide +kernel
  have hchar : JavaType.char.isIntegral = true := rfl
  obtain ⟨-, -, -, hreaches⟩ := reaches_cast ConstantPool.coherent_empty hbefore hchar hlong
  refine ⟨e, e', f, body, hbefore, hconvert, hafter, hfinish, hlong, by decide, fun P l w => ?_⟩
  rw [← hbits.1, ← hbits.2]
  exact hreaches hconvert hafter hfinish (.refl _)
    (ConstantPool.check_eq_ok.2 (of_decide_eq_true heval)) P [] l w []

end Emitter

end ClassForge
