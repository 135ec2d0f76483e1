import ClassForge.Proofs.Adapter.Composition
import ClassForge.Proofs.Emission.Effects
import ClassForge.Proofs.Emission.Session
import ClassForge.Proofs.Inspection.EntryDepths
import ClassForge.Proofs.Inspection.LocalRange

/-!
# Local slots that an emitter notes

The tracked maximum of the local slots becomes the declared one. An operation on a local variable
notes the slots of its type. An instruction that implies its slots can also be written as a plain
one, though, and a load or store of `void` notes no slots and accesses one.

* `Operation.Unnoted` — the operations that access slots without noting them;
* `accesses_run` — **PROVED**: what each operation accesses and notes;
* `Emitter.Course` — uses of an emitter in any order, with the instructions that each of them
  appended;
* `Course.maxLocals_lt_localEnd_iff` — **PROVED**: the maximum falls short of the slots that an
  instruction accesses exactly for an unnoted use beyond all that was noted;
* `noted_local_slots` — **PROVED**: so only such a use leads to a body that is rejected for a local
  variable.
-/

namespace ClassForge

open ConstantPool Inspection Relation

/-! ### Operations and local slots -/

namespace Operation

/-- **The operations that access local slots without noting them**: an instruction that implies its
slots, and a load or store of `void`, which has no slots but is written as that of an `int`. -/
def Unnoted : Operation → Prop
  | .emit op => op.localAccess?.isSome = true
  | .load type _ | .store type _ => type = .void
  | _ => False

/-- All others note what they access. -/
theorem accessEnd?_eq_notedEnd? {op : Operation} (h : ¬op.Unnoted) :
    op.accessEnd? = op.notedEnd? := by
  cases op with
  | emit op =>
    have hnone : op.localAccess? = none := by simpa [Unnoted] using h
    show op.impliedEnd? = none
    rw [Opcode.impliedEnd?, hnone]
    rfl
  | load type slot =>
    show some (slot + Emitter.accessWidth type) = some (slot + type.slots)
    rw [Emitter.accessWidth_of_ne_void h]
  | store type slot =>
    show some (slot + Emitter.accessWidth type) = some (slot + type.slots)
    rw [Emitter.accessWidth_of_ne_void h]
  | _ => rfl

end Operation

namespace Emitter

open Emit Instruction

variable {e e' e'' : Emitter} {u : Unit} {access? noted? : Option Nat}

/-- **What an action has to do with local slots**: the instructions that it appends access them up
to `access?`, and it notes them up to `noted?`. -/
structure Accesses (access? noted? : Option Nat) (e e' : Emitter) : Prop where
  appends : ∃ is : List Instruction, (∀ i ∈ is, i.localEnd? = access?) ∧
    e'.assembly.code.toList = e.assembly.code.toList ++ is.flatMap bytes
  noted : e'.tracker.maxLocals = max e.tracker.maxLocals (noted?.getD 0)
  word : noted?.getD 0 ≤ wordMax

/-- No instruction, and nothing is noted. -/
theorem spares_of_same (hcode : e'.assembly.code = e.assembly.code)
    (hmax : e'.tracker.maxLocals = e.tracker.maxLocals) : Accesses access? none e e' where
  appends := ⟨[], List.forall_mem_nil _, by rw [hcode, List.flatMap_nil, List.append_nil]⟩
  noted := hmax.trans (Nat.max_zero _).symm
  word := Nat.zero_le _

theorem Accesses.trans (h : Accesses none none e e') (h' : Accesses none none e' e'') :
    Accesses none none e e'' := by
  obtain ⟨is, his, hcode⟩ := h.appends
  obtain ⟨js, hjs, hcode'⟩ := h'.appends
  refine ⟨⟨is ++ js, List.forall_mem_append.2 ⟨his, hjs⟩, ?_⟩, ?_, Nat.zero_le _⟩
  · rw [hcode', hcode, List.flatMap_append, List.append_assoc]
  · rw [h'.noted, h.noted, Nat.max_assoc, Nat.max_self]

/-! ### Operations -/

/-- **Each operation other than a conversion** accesses and notes the slots that belong to it. -/
theorem accesses_of_isBasic {op : Operation} (hop : op.isBasic = true)
    (h : op.run e = .ok (u, e')) : Accesses op.accessEnd? op.notedEnd? e e' := by
  cases performs_run hop h with
  | quiet hcode hmax hnoted =>
    rw [hnoted]
    exact spares_of_same hcode hmax
  | lays i hi =>
    exact ⟨⟨[i], List.forall_mem_singleton.2 hi.access, by rw [hi.code, List.flatMap_singleton]⟩,
      hi.noted, hi.word⟩

theorem spares_piece (h : Piece e e') : Accesses none none e e' := by
  obtain ⟨op, hop, hrun⟩ := h
  have haccess := accesses_of_isBasic (Operation.isBasic_of_isPiece hop) hrun
  cases op with
  | emit op =>
    have hnone : op.localAccess? = none := Option.isNone_iff_eq_none.1 hop
    rwa [Operation.accessEnd?, Opcode.impliedEnd?, hnone] at haccess
  | intConst | longConst | floatConst | doubleConst | zeroOf | popValue | checkCast | invokeVirtual
  | invokeStatic | branch | newLabel | placeLabel => exact haccess
  | _ => cases hop

/-- **Each operation** accesses and notes the slots that belong to it; a conversion none. -/
theorem accesses_run {op : Operation} (h : op.run e = .ok (u, e')) :
    Accesses op.accessEnd? op.notedEnd? e e' := by
  by_cases hop : op.isBasic = true
  · exact accesses_of_isBasic hop h
  · cases op with
    | convert source target =>
      -- Along the pieces no local slot is accessed or noted.
      have hpieces : ReflTransGen Piece e e' := pieces_convert h
      show Accesses none none e e'
      clear h
      induction hpieces with
      | refl => exact spares_of_same rfl rfl
      | tail _ hlast ih => exact ih.trans (spares_piece hlast)
    | _ => exact absurd rfl hop

/-! ### Uses -/

namespace Use

/-- The end of the local slots that a use notes or takes into use. -/
def notedEnd? (e : Emitter) : Use → Option Nat
  | .operate op => op.notedEnd?
  | .track op => op.notedEnd? e.tracker
  | .intern _ => none

/-- The end of the local slots that the instruction of a use accesses. -/
def accessEnd? : Use → Option Nat
  | .operate op => op.accessEnd?
  | _ => none

/-- The uses that access local slots without noting them. -/
def Unnoted : Use → Prop
  | .operate op => op.Unnoted
  | _ => False

variable {use : Use}

/-- **What a use has to do with local slots.** -/
theorem accesses_apply (h : use.apply e = .ok e') :
    Accesses use.accessEnd? (use.notedEnd? e) e e' := by
  cases use with
  | operate op => exact accesses_run (apply_operate_eq_ok.1 h)
  | track op =>
    obtain ⟨answer, t, hrun, rfl⟩ := apply_track_eq_ok.1 h
    obtain ⟨hmax, hword⟩ := Tracking.maxLocals_apply hrun
    exact ⟨(spares_of_same rfl rfl : Accesses none none e e).appends, hmax, hword⟩
  | intern i =>
    cases h
    exact spares_of_same rfl rfl

/-- A use that is not among them notes what it accesses. -/
theorem notedEnd?_of_access {stop : Nat} (h : ¬use.Unnoted) (haccess : use.accessEnd? = some stop) :
    use.notedEnd? e = some stop := by
  cases use with
  | operate op => exact (op.accessEnd?_eq_notedEnd? h).symm.trans haccess
  | track | intern => cases haccess

theorem touches_apply (h : use.apply e = .ok e') : Touches e e' := by
  cases use with
  | operate op => exact .operate op (apply_operate_eq_ok.1 h)
  | track op =>
    obtain ⟨answer, t, -, rfl⟩ := apply_track_eq_ok.1 h
    exact .track e t
  | intern i =>
    cases h
    exact .intern e i

end Use

/-- A use with what it did. -/
structure LoggedUse where
  use : Use
  /-- The instructions that it appended. -/
  instrs : List Instruction
  /-- The end of the local slots that it noted. -/
  noted? : Option Nat

/-- **Uses one after another**, from one body to another. -/
inductive Course : Emitter → List LoggedUse → Emitter → Prop where
  | nil (e : Emitter) : Course e [] e
  | cons {e e' e'' : Emitter} {x : LoggedUse} {log : List LoggedUse} (h : x.use.apply e = .ok e')
      (hcode : e'.assembly.code.toList = e.assembly.code.toList ++ x.instrs.flatMap bytes)
      (hnoted : x.noted? = x.use.notedEnd? e) (rest : Course e' log e'') : Course e (x :: log) e''

/-- Uses that succeed take a course. -/
theorem exists_course {uses : List Use} (h : Use.applyAll uses e = .ok e') :
    ∃ log, log.map LoggedUse.use = uses ∧ Course e log e' := by
  induction uses generalizing e with
  | nil =>
    cases h
    exact ⟨[], rfl, .nil _⟩
  | cons use uses ih =>
    obtain ⟨e₁, huse, hrest⟩ := Except.bind_eq_ok.1 h
    obtain ⟨is, -, hcode⟩ := (Use.accesses_apply huse).appends
    obtain ⟨log, hlog, hcourse⟩ := ih hrest
    exact ⟨⟨use, is, use.notedEnd? e⟩ :: log, by rw [List.map_cons, hlog],
      .cons huse hcode rfl hcourse⟩

namespace Course

variable {log : List LoggedUse}

/-- The code is what was appended. -/
theorem code_eq (h : Course e log e') : e'.assembly.code.toList =
    e.assembly.code.toList ++ (log.flatMap LoggedUse.instrs).flatMap bytes := by
  induction h with
  | nil => exact (List.append_nil _).symm
  | cons _ hcode _ _ ih =>
    rw [ih, hcode, List.flatMap_cons, List.flatMap_append, List.append_assoc]

/-- The instructions of a use access the slots that belong to it. -/
theorem localEnd?_eq (h : Course e log e') :
    ∀ x ∈ log, ∀ i ∈ x.instrs, i.localEnd? = x.use.accessEnd? := by
  induction h with
  | nil => exact List.forall_mem_nil _
  | cons huse hcode _ _ ih =>
    obtain ⟨is, his, happend⟩ := (Use.accesses_apply huse).appends
    -- Both lists spell the bytes that were appended, so they are the same.
    rw [hcode] at happend
    obtain rfl := eq_of_flatMap_bytes_eq (List.append_cancel_left happend)
    exact List.forall_mem_cons.2 ⟨his, ih⟩

/-- A use notes what it accesses, unless it is an unnoted one. -/
theorem noted?_eq (h : Course e log e') {stop : Nat} :
    ∀ x ∈ log, ¬x.use.Unnoted → x.use.accessEnd? = some stop → x.noted? = some stop := by
  induction h with
  | nil => exact List.forall_mem_nil _
  | cons _ _ hnoted _ ih =>
    refine List.forall_mem_cons.2 ⟨fun hunnoted haccess => ?_, ih⟩
    rw [hnoted]
    exact Use.notedEnd?_of_access hunnoted haccess

/-- **The maximum is the largest end that was noted**, or the one before. -/
theorem maxLocals_lt_iff (h : Course e log e') {stop : Nat} :
    e'.tracker.maxLocals < stop ↔
      e.tracker.maxLocals < stop ∧ ∀ x ∈ log, ∀ n, x.noted? = some n → n < stop := by
  induction h with
  | nil => simp
  | @cons e e' e'' x log huse _ hnoted _ ih =>
    -- Without a noted end the maximum stays, which is below `stop` anyway.
    have hfirst (hpos : 0 < stop) :
        x.noted?.getD 0 < stop ↔ ∀ n, x.noted? = some n → n < stop := by
      cases x.noted? <;> simp [hpos]
    rw [ih, (Use.accesses_apply huse).noted, ← hnoted, List.forall_mem_cons, Nat.max_lt, and_assoc]
    refine and_congr_right fun hlt => and_congr_left' (hfirst ?_)
    exact Nat.zero_lt_of_lt hlt

/-- The maximum is counted in a word. -/
theorem maxLocals_le (h : Course e log e') (hword : e.tracker.maxLocals ≤ wordMax) :
    e'.tracker.maxLocals ≤ wordMax := by
  induction h with
  | nil => exact hword
  | cons huse _ _ _ ih =>
    have haccess := Use.accesses_apply huse
    refine ih ?_
    rw [haccess.noted]
    exact Nat.max_le.2 ⟨hword, haccess.word⟩

/-- **Which instructions the maximum does not cover**: those of unnoted uses whose slots lie beyond
all that was noted. -/
theorem maxLocals_lt_localEnd_iff (h : Course e log e') {x : LoggedUse} (hx : x ∈ log)
    {i : Instruction} (hi : i ∈ x.instrs) {stop : Nat} (hstop : i.localEnd? = some stop) :
    e'.tracker.maxLocals < stop ↔ x.use.Unnoted ∧ e.tracker.maxLocals < stop ∧
      ∀ y ∈ log, ∀ n, y.noted? = some n → n < stop := by
  rw [h.maxLocals_lt_iff]
  refine ⟨fun hlt => ⟨?_, hlt⟩, And.right⟩
  by_contra hunnoted
  have hnoted := h.noted?_eq x hx hunnoted ((h.localEnd?_eq x hx i hi).symm.trans hstop)
  exact Nat.lt_irrefl stop (hlt.2 x hx stop hnoted)

/-! ### Finished bodies -/

theorem touches (h : Course e log e') : ReflTransGen Touches e e' := by
  induction h with
  | nil => exact .refl
  | cons huse _ _ _ ih => exact .head (Use.touches_apply huse) ih

end Course

/-- The code in terms of its instructions. -/
theorem Tiles.bytes_eq {xs : List Placed} {bytes : List UInt8} (h : Tiles xs bytes) :
    bytes = (xs.reverse.map Placed.instr).flatMap Instruction.bytes := by
  induction h with
  | nil => rfl
  | cons _ _ ih =>
    rw [List.reverse_cons, List.map_append, List.flatMap_append, ← ih]
    simp

/-- **A local variable of the finished code was accessed by an instruction that was written**, since
only branches are changed. -/
theorem Orderly.exists_instr_eq {xs : List Placed} {body : MethodBody} {pc : Nat} {i : Instruction}
    (h : Orderly e xs) (hfinish : e.finish = .ok body)
    (hsweep : Sweep body.code 0 pc) (hat : at? body.code pc = some i)
    (hlocal : i.op.localAccess? ≠ none) : ∃ x ∈ xs, x.instr = i := by
  rcases h.composed.exists_of_sweep hfinish hsweep with rfl | ⟨x, hx, rfl⟩
  · have hend := end_le_size_of_at? hat
    have hpos := i.op.encodedLength_pos
    omega
  refine ⟨x, hx, ?_⟩
  rcases h.composed.formed x hx with ⟨hnone, -⟩ | ⟨_, -, hshort⟩
  · exact Option.some.inj ((h.composed.at?_finish hfinish hx hnone).symm.trans hat)
  · obtain ⟨j, hj, hop⟩ := h.composed.exists_at? hfinish x hx
    obtain rfl := Option.some.inj (hj.symm.trans hat)
    rw [hop] at hlocal
    exact absurd (Opcode.shortBranch_facts hshort).2.2.1 hlocal

namespace Course

variable {pool : ConstantPool} {slots : Nat} {log : List LoggedUse} {body : MethodBody}

/-- A local variable of the finished code was accessed by an instruction of the log. -/
theorem exists_mem_instrs (h : Course (ofPool pool slots) log e) (hfinish : e.finish = .ok body)
    {pc : Nat} {i : Instruction} (hsweep : Sweep body.code 0 pc) (hat : at? body.code pc = some i)
    (hlocal : i.op.localAccess? ≠ none) : ∃ x ∈ log, i ∈ x.instrs := by
  obtain ⟨fields, new, -, horderly, -⟩ := exists_appends_of_touches h.touches
  have horder := horderly [] (orderly_ofPool pool slots)
  obtain ⟨x, hx, rfl⟩ := horder.exists_instr_eq hfinish hsweep hat hlocal
  -- The placed instructions and those of the log spell the same code.
  have hinstrs : (new ++ []).reverse.map Placed.instr = log.flatMap LoggedUse.instrs := by
    refine eq_of_flatMap_bytes_eq (horder.composed.tiles.bytes_eq.symm.trans ?_)
    exact h.code_eq
  have hmem : x.instr ∈ log.flatMap LoggedUse.instrs := by
    rw [← hinstrs]
    exact List.mem_map_of_mem (List.mem_reverse.2 hx)
  exact List.mem_flatMap.1 hmem

theorem slots_le (h : Course (ofPool pool slots) log e) : slots ≤ e.tracker.maxLocals := by
  by_contra hlt
  exact Nat.lt_irrefl slots (h.maxLocals_lt_iff.1 (Nat.lt_of_not_le hlt)).1

theorem maxLocals_finish (h : Course (ofPool pool slots) log e) (hslots : slots ≤ wordMax)
    (hfinish : e.finish = .ok body) : body.maxLocals.toNat = e.tracker.maxLocals := by
  obtain ⟨-, -, hbody⟩ := Assembly.finish_eq_ok hfinish
  have hle := h.maxLocals_le hslots
  rw [hbody]
  exact UInt16.toNat_ofNat_of_lt' (Nat.lt_succ_of_le hle)

/-- **A finished body overreaches only by an unnoted use.** -/
theorem exists_unnoted (h : Course (ofPool pool slots) log e) (hslots : slots ≤ wordMax)
    (hfinish : e.finish = .ok body) (hover : body.Overreaches) :
    ∃ x ∈ log, x.use.Unnoted ∧ ∃ i ∈ x.instrs, ∃ stop, i.localEnd? = some stop ∧
      e.tracker.maxLocals < stop := by
  obtain ⟨pc, i, stop, hsweep, hat, hstop, hlt⟩ := hover
  rw [h.maxLocals_finish hslots hfinish] at hlt
  have hlocal : i.op.localAccess? ≠ none := by
    intro hnone
    rw [localEnd?_of_none hnone] at hstop
    cases hstop
  obtain ⟨x, hx, hi⟩ := h.exists_mem_instrs hfinish hsweep hat hlocal
  exact ⟨x, hx, ((h.maxLocals_lt_localEnd_iff hx hi hstop).1 hlt).1, i, hi, stop, hstop, hlt⟩

end Course

/-- The method has the body, and its receiver and parameters fit the slots. -/
structure Hosts (m : MethodImage) (body : MethodBody) (slots : Nat) : Prop where
  body : m.body = some body
  params : ∀ type, MethodType.ofDescriptor? m.descriptor = some type →
    type.argSlots + (if m.access.isStatic then 0 else 1) ≤ slots

/-- **Which local slots go unnoted.**  Take any uses of a fresh body that succeed, the parameters
taking up `slots`. They take a course, and every course there spells the code. The tracked maximum
covers the slots that an instruction accesses, unless the use that appended it is an unnoted one and
the slots lie beyond the parameters and beyond all that was noted. So a finished body that the
inspection rejects for a local variable has an instruction of an unnoted use that is not covered. -/
theorem noted_local_slots {pool : ConstantPool} {slots : Nat} {uses : List Use}
    (h : Use.applyAll uses (ofPool pool slots) = .ok e) :
    (∃ log, log.map LoggedUse.use = uses ∧ Course (ofPool pool slots) log e) ∧
    ∀ log, Course (ofPool pool slots) log e →
      e.assembly.code.toList = (log.flatMap LoggedUse.instrs).flatMap bytes ∧
      (∀ x ∈ log, ∀ i ∈ x.instrs, ∀ stop, i.localEnd? = some stop →
        (e.tracker.maxLocals < stop ↔ x.use.Unnoted ∧ slots < stop ∧
          ∀ y ∈ log, ∀ n, y.noted? = some n → n < stop)) ∧
      (slots ≤ wordMax → ∀ body m, e.finish = .ok body → Hosts m body slots →
        ∀ pool' signature pc index declared, inspectMethod pool' m =
            throw (.body signature (.localOutOfRange pc index declared)) →
          ∃ x ∈ log, x.use.Unnoted ∧ ∃ i ∈ x.instrs, ∃ stop, i.localEnd? = some stop ∧
            e.tracker.maxLocals < stop) := by
  refine ⟨exists_course h, fun log hlog => ⟨hlog.code_eq, fun x hx i hi stop hstop =>
    hlog.maxLocals_lt_localEnd_iff hx hi hstop, ?_⟩⟩
  intro hslots body m hfinish hhosts pool' signature pc index declared hthrow
  obtain ⟨body', hbody, hcause⟩ := inspectMethod_eq_throw_local hthrow rfl
  obtain rfl : body = body' := Option.some.inj (hhosts.body.symm.trans hbody)
  rcases hcause with ⟨type, htype, hlt⟩ | hover
  · -- The parameters are within the slots that the tracker started with.
    rw [hlog.maxLocals_finish hslots hfinish] at hlt
    exact absurd hlt (Nat.not_lt.2 ((hhosts.params type htype).trans hlog.slots_le))
  · exact hlog.exists_unnoted hslots hfinish hover

/-- Two variables are allocated, and what is stored into the second one is copied to the first one
by instructions that imply their slots. -/
def copyUses : List Use :=
  [.track (.allocLocal 2), .operate (.intConst 7), .operate (.store .int 3),
    .operate (.emit .iload3), .operate (.emit .istore2), .operate (.returnValue .void)]

theorem noted_local_slots_copyUses :
    ∃ e log, Use.applyAll copyUses (ofPool .empty 2) = .ok e ∧
      Course (ofPool .empty 2) log e ∧ log.map LoggedUse.use = copyUses ∧
      (log.flatMap LoggedUse.instrs).flatMap bytes = [0x10, 0x07, 0x3e, 0x1d, 0x3d, 0xb1] ∧
      ∀ x ∈ log, ∀ i ∈ x.instrs, ∀ stop, i.localEnd? = some stop →
        (4 < stop ↔ x.use.Unnoted ∧ 2 < stop ∧ ∀ y ∈ log, ∀ n, y.noted? = some n → n < stop) := by
  have hrun : (Use.applyAll copyUses (ofPool .empty 2)).toOption.any (fun e =>
      e.assembly.code.toList == [0x10, 0x07, 0x3e, 0x1d, 0x3d, 0xb1] &&
        e.tracker.maxLocals == 4) = true := by
    decide +kernel
  obtain ⟨e, hok, hfacts⟩ := Except.exists_ok_of_any hrun
  obtain ⟨hcode, hmax⟩ := Bool.and_eq_true_iff.1 hfacts
  obtain ⟨⟨log, huses, hlog⟩, hall⟩ := noted_local_slots hok
  obtain ⟨hspells, hcovers, -⟩ := hall log hlog
  rw [beq_iff_eq.1 hmax] at hcovers
  exact ⟨e, log, hok, hlog, huses, hspells.symm.trans (beq_iff_eq.1 hcode), hcovers⟩

/-- What the inspection finds at fault in a static method without parameters whose body consists of
the operations. -/
def faultOf? (ops : List Operation) : Option BodyFault :=
  (Operation.runAll ops (ofPool .empty 0)).toOption.bind fun r =>
    r.2.finish.toOption.bind fun body =>
      match (inspectMethod r.2.pool (staticAction body)).run with
      | .ok (.error (.body _ fault)) => some fault
      | _ => none

/-- **The declared slots do not cover every local variable**: an instruction that implies its slots,
a load and a store of `void` each lead to a body that the inspection rejects. -/
theorem local_slots_uncovered :
    faultOf? [.emit .iload3, .emit .pop, .returnValue .void] = some (.localOutOfRange 0 3 0) ∧
      faultOf? [.load .void 5, .returnValue .void] = some (.localOutOfRange 0 5 5) ∧
      faultOf? [.intConst 1, .store .void 5, .returnValue .void] =
        some (.localOutOfRange 1 5 5) := by
  decide +kernel

end Emitter

end ClassForge
