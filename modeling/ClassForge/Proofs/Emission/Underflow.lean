import ClassForge.Proofs.Adapter.Composition
import ClassForge.Proofs.Emission.Effects

/-!
# Underflows that an emitter notices

An operation tells the tracker how many slots its instruction pops, and too few of them are a
defect. Casts, type tests and new arrays of references leave the tracker alone, though, and a store
of `void` pops nothing and writes the store of an `int`.

* `Emitter.Trail` — what was appended along a run, conversions taken apart;
* `Trail.depth_lt_pops_iff` — **PROVED**: the tracked depth falls short of the slots that an
  instruction pops exactly for an unchecked operation on an empty stack;
* `Emitter.Underflows` — an operation succeeds on fewer slots than it pops.
-/

namespace ClassForge

open ConstantPool Relation

namespace Emitter

open Emit Instruction

variable {e e' e'' : Emitter}

/-! ### Runs -/

theorem grows_run {op : Operation} (h : op.run e = .ok ((), e')) : Grows e.pool e'.pool := by
  obtain ⟨_, hgrows, -⟩ := op.writes_run e () e' h
  exact hgrows

/-- **What was appended along a run.** Each instruction comes with the operation that appended it
and the tracked depth before; in between the tracker and the constants may be changed. -/
inductive Trail : Emitter → List Appended → Emitter → Prop where
  | nil (e : Emitter) : Trail e [] e
  | quiet {e e' e'' : Emitter} {log : List Appended} (op : Operation) (hop : op.isBasic = true)
      (h : op.run e = .ok ((), e')) (hcode : e'.assembly.code = e.assembly.code)
      (rest : Trail e' log e'') : Trail e log e''
  | append {e e' e'' : Emitter} {log : List Appended} (op : Operation) (i : Instruction)
      (hop : op.isBasic = true) (h : op.run e = .ok ((), e'))
      (hcode : e'.assembly.code.toList = e.assembly.code.toList ++ i.bytes)
      (rest : Trail e' log e'') : Trail e (⟨op, i, e.tracker.depth⟩ :: log) e''
  | track {e e'' : Emitter} {log : List Appended} (t : Tracker)
      (rest : Trail (e.withTracker t) log e'') : Trail e log e''
  | intern {e e'' : Emitter} {log : List Appended} (i : Interning)
      (rest : Trail (e.withPool (i.apply e.pool).2) log e'') : Trail e log e''

namespace Trail

variable {log more : List Appended}

theorem trans (h : Trail e log e') (h' : Trail e' more e'') : Trail e (log ++ more) e'' := by
  induction h with
  | nil => exact h'
  | quiet op hop hrun hcode _ ih => exact .quiet op hop hrun hcode (ih h')
  | append op i hop hrun hcode _ ih => exact .append op i hop hrun hcode (ih h')
  | track t _ ih => exact .track t (ih h')
  | intern i _ ih => exact .intern i (ih h')

/-- The code is what was appended. -/
theorem code_eq (h : Trail e log e') :
    e'.assembly.code.toList = e.assembly.code.toList ++ log.flatMap fun x => x.instr.bytes := by
  induction h with
  | nil => exact (List.append_nil _).symm
  | quiet op hop hrun hcode _ ih => rw [ih, hcode]
  | append op i hop hrun hcode _ ih => rw [ih, hcode, List.flatMap_cons, List.append_assoc]
  | track t _ ih => exact ih
  | intern i _ ih => exact ih

/-- **The tracked depth falls short of the slots that an instruction pops** exactly for an unchecked
operation on an empty stack. -/
theorem depth_lt_pops_iff (h : Trail e log e') :
    ∀ x ∈ log, x.depth < x.pops ↔ x.cause.Unchecked ∧ x.depth = 0 := by
  induction h with
  | nil => exact List.forall_mem_nil _
  | quiet op hop hrun hcode _ ih => exact ih
  | append op i hop hrun hcode _ ih =>
    exact List.forall_mem_cons.2 ⟨((performs_run hop hrun).lays_of_append hcode).depth, ih⟩
  | track t _ ih => exact ih
  | intern i _ ih => exact ih

theorem grows (h : Trail e log e') : Grows e.pool e'.pool := by
  induction h with
  | nil => exact .refl _
  | quiet op _ hrun _ _ ih => exact (grows_run hrun).trans ih
  | append op i _ hrun _ _ ih => exact (grows_run hrun).trans ih
  | track t _ ih => exact ih
  | intern i _ ih => exact (grows_apply _ i).trans ih

/-- **The members that instructions name are those of their operations**, so the slots are counted
by the descriptors that stand in the pool. -/
theorem memberAt (h : Trail e log e') (hcoh : e.pool.Coherent) (hv : e'.pool.violation = none) :
    ∀ x ∈ log, ∀ m, x.cause.member? = some m → e'.pool.memberAt (x.instr.word 0) = .ok m := by
  induction h with
  | nil => exact List.forall_mem_nil _
  | quiet op _ hrun _ _ ih =>
    exact ih ((grows_run hrun).coherent hcoh) hv
  | append op i hop hrun hcode rest ih =>
    refine List.forall_mem_cons.2 ⟨fun m hm => ?_, ih ((grows_run hrun).coherent hcoh) hv⟩
    obtain ⟨hword, hpool⟩ := ((performs_run hop hrun).lays_of_append hcode).member m hm
    have hclean := rest.grows.clean hv
    rw [hpool] at hclean
    have hmember := memberAt_memberRef hcoh hclean
    rw [← hpool, ← hword] at hmember
    exact rest.grows.keeps.memberAt hmember
  | track t _ ih => exact ih hcoh hv
  | intern i _ ih => exact ih ((grows_apply _ i).coherent hcoh) hv

end Trail

/-- What leaves a trail at each step leaves one along a whole run. -/
theorem exists_trail_of_steps {R : Emitter → Emitter → Prop}
    (hR : ∀ e e', R e e' → ∃ log, Trail e log e') (h : ReflTransGen R e e') :
    ∃ log, Trail e log e' := by
  induction h with
  | refl => exact ⟨[], .nil e⟩
  | tail _ hlast ih =>
    obtain ⟨log, hlog⟩ := ih
    obtain ⟨more, hmore⟩ := hR _ _ hlast
    exact ⟨log ++ more, hlog.trans hmore⟩

theorem exists_trail_of_run {op : Operation} (hop : op.isBasic = true)
    (h : op.run e = .ok ((), e')) : ∃ log, Trail e log e' := by
  cases performs_run hop h with
  | quiet hcode => exact ⟨_, .quiet op hop h hcode (.nil e')⟩
  | lays i hi => exact ⟨_, .append op i hop h hi.code (.nil e')⟩

theorem exists_trail_of_piece (h : Piece e e') : ∃ log, Trail e log e' := by
  obtain ⟨op, hop, hrun⟩ := h
  exact exists_trail_of_run (Operation.isBasic_of_isPiece hop) hrun

/-- **Every use of an emitter leaves a trail.** -/
theorem exists_trail_of_touches (h : Touches e e') : ∃ log, Trail e log e' := by
  cases h with
  | operate op hrun =>
    by_cases hop : op.isBasic = true
    · exact exists_trail_of_run hop hrun
    · cases op with
      | convert source target =>
        exact exists_trail_of_steps (fun _ _ => exists_trail_of_piece) (pieces_convert hrun)
      | _ => exact absurd rfl hop
  | intern i => exact ⟨[], .intern i (.nil _)⟩
  | track t => exact ⟨[], .track t (.nil _)⟩

theorem exists_trail (h : ReflTransGen Touches e e') : ∃ log, Trail e log e' :=
  exists_trail_of_steps (fun _ _ => exists_trail_of_touches) h

/-- **Which underflows go unnoticed.**  Take any uses of a fresh emitter that succeed. There is a
trail of what they appended, and every such trail spells the code. The tracked depth before an
instruction is below the number of slots that it pops exactly if the tracked stack is empty and the
operation is a cast, a type test, a new array of references or a store of `void`. Unless a limit of
the pool was exceeded, the member that an instruction names has the descriptor of the type by which
its slots are counted. -/
theorem appended_depths {pool : ConstantPool} {slots : Nat}
    (h : ReflTransGen Touches (ofPool pool slots) e) :
    (∃ log, Trail (ofPool pool slots) log e) ∧
    ∀ log, Trail (ofPool pool slots) log e →
      e.assembly.code.toList = log.flatMap (fun x => x.instr.bytes) ∧
      (∀ x ∈ log, x.depth < x.pops ↔ x.cause.Unchecked ∧ x.depth = 0) ∧
      (pool.Coherent → e.pool.violation = none → ∀ x ∈ log, ∀ m, x.cause.member? = some m →
        e.pool.memberAt (x.instr.word 0) = .ok m) :=
  ⟨exists_trail h, fun _ hlog =>
    ⟨hlog.code_eq, hlog.depth_lt_pops_iff, fun hcoh hv => hlog.memberAt hcoh hv⟩⟩

theorem touches_runAll {ops : List Operation} (h : Operation.runAll ops e = .ok ((), e')) :
    ReflTransGen Touches e e' := by
  induction ops generalizing e with
  | nil =>
    obtain ⟨-, rfl⟩ := pure_eq_ok.1 h
    exact .refl
  | cons op ops ih =>
    obtain ⟨_, e₁, hop, hrest⟩ := bind_eq_ok.1 h
    exact .head (.operate op hop) (ih hrest)

/-- A sum that is stored. -/
def storeSum : List Operation :=
  [.intConst 2, .intConst 3, .emit .iadd, .store .int 1, .returnValue .void]

theorem appended_depths_storeSum :
    ∃ e log, Operation.runAll storeSum (ofPool .empty 1) = .ok ((), e) ∧
      Trail (ofPool .empty 1) log e ∧
      log.flatMap (fun x => x.instr.bytes) = [0x05, 0x06, 0x60, 0x3c, 0xb1] ∧
      ∀ x ∈ log, x.depth < x.pops ↔ x.cause.Unchecked ∧ x.depth = 0 := by
  have hrun : (Operation.runAll storeSum (ofPool .empty 1)).toOption.any
      (fun r => r.2.assembly.code.toList == [0x05, 0x06, 0x60, 0x3c, 0xb1]) = true := by
    decide +kernel
  obtain ⟨⟨_, e⟩, hok, hcode⟩ := Except.exists_ok_of_any hrun
  obtain ⟨⟨log, hlog⟩, hall⟩ := appended_depths (touches_runAll hok)
  obtain ⟨hspells, hdepths, -⟩ := hall log hlog
  exact ⟨e, log, hok, hlog, hspells.symm.trans (beq_iff_eq.1 hcode), hdepths⟩

/-! ### Underflows that go unnoticed -/

/-- The operation succeeds, and an instruction that it appends pops more than the tracked depth. -/
def Underflows (op : Operation) (e : Emitter) : Prop :=
  ∃ e' log, op.run e = .ok ((), e') ∧ Trail e log e' ∧ ∃ x ∈ log, x.depth < x.pops

/-- An unchecked operation that writes an instruction on an empty stack. -/
theorem underflows_of_unchecked {op : Operation} (hop : op.isBasic = true) (hun : op.Unchecked)
    {p : ConstantPool} {t : Tracker} {i : Instruction}
    (h : op.run e = .ok ((), (e.withPool p).written t i)) (hdepth : e.tracker.depth = 0) :
    Underflows op e := by
  have hlays := (performs_run hop h).lays_of_append (Assembly.toList_append e.assembly i)
  exact ⟨_, _, h, .append op i hop h hlays.code (.nil _), _, List.mem_cons_self,
    hlays.depth.2 ⟨hun, hdepth⟩⟩

/-- **Some underflows go unnoticed**: each of these operations succeeds on a fresh emitter, although
its instruction pops a slot from an empty stack. -/
theorem underflow_unnoticed :
    Underflows (.checkCast .text) (ofPool .empty 1) ∧
      Underflows (.instanceOf .text) (ofPool .empty 1) ∧
      Underflows (.newRefArray .text) (ofPool .empty 1) ∧
      Underflows (.store .void 1) (ofPool .empty 1) ∧
      Underflows (.convert .anyObject .text) (ofPool .empty 1) := by
  have hcheckCast : checkCast .text (ofPool .empty 1) = .ok ((), _) :=
    checkCast_eq_ok.2 ⟨_, rfl, rfl⟩
  have hinstanceOf : instanceOf .text (ofPool .empty 1) = .ok ((), _) :=
    instanceOf_eq_ok.2 ⟨_, rfl, rfl⟩
  have hnewRefArray : newRefArray .text (ofPool .empty 1) = .ok ((), _) :=
    newRefArray_eq_ok.2 ⟨_, rfl, rfl⟩
  obtain ⟨i, -, hstore⟩ := exists_store .void (show 1 ≤ 255 by decide)
  have hcast : Underflows (.checkCast .text) (ofPool .empty 1) :=
    underflows_of_unchecked rfl trivial hcheckCast rfl
  refine ⟨hcast, underflows_of_unchecked rfl trivial hinstanceOf rfl,
    underflows_of_unchecked rfl trivial hnewRefArray rfl,
    underflows_of_unchecked (p := .empty) rfl trivial ((hstore _ _ _).2 ⟨Nat.zero_le _, rfl⟩) rfl,
    ?_⟩
  -- The conversion is a lone cast.
  obtain ⟨e, log, hrun, hlog⟩ := hcast
  have hplan : Conversion.plan .anyObject .text = [.checkCast .text] := by decide
  refine ⟨e, log, ?_, hlog⟩
  show emitSteps (Conversion.plan .anyObject .text) _ = _
  rw [hplan]
  exact bind_eq_ok.2 ⟨(), e, hrun, rfl⟩

end Emitter

end ClassForge
