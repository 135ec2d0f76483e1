import ClassForge.Proofs.Emission.Acceptance
import ClassForge.Proofs.Emission.Block
import ClassForge.Proofs.Inspection.EntryDepths
import ClassForge.Proofs.Pool.Resolution

/-!
# Accounting of an emitter

An emitter tracks depths and local slots while it writes, and the inspection works them out again
from the finished code. For a list of operations the two agree.

* `Operation.Fits` — what an operation has to meet where control can get to it;
* `Operation.FitsAll`, `Operation.AllLive` — along a list of operations;
* `Operation.exists_emission` — **PROVED**: an operation that fits is an emission;
* `inspectMethod_of_runAll` — **PROVED**: the inspection accepts what a list of fitting operations
  emits. It finds no more slots than the emitter tracked, and as many where no code is dead.
-/

namespace ClassForge

open ConstantPool Emitter

namespace Operation

/-! ### Operations that fit -/

/-- What an operation has to meet, where control can get to it, for the tracker to move as its
instructions do: returns fit the method, values have a type that a descriptor gives back, local
variables are accessed by the operations for them, and the operations that replace one slot by
another find one. -/
def Fits (ret : JavaType) (depth : Nat) : Operation → Prop
  | .emit op => op.localAccess? = none ∧ Inspection.returnFits op ret = true
  | .returnValue type => Inspection.returnFits (returnOp type) ret = true
  | .load type _ | .store type _ => type ≠ .void
  | .getField _ _ type | .putField _ _ type | .getStatic _ _ type | .putStatic _ _ type =>
    FieldFits type
  | .invokeVirtual _ _ type | .invokeSpecial _ _ type | .invokeStatic _ _ type => CallFits type
  | .invokeInterface _ _ type => CallFits type ∧ type.argSlots + 1 ≤ 255
  | .checkCast _ | .instanceOf _ | .newRefArray _ => 1 ≤ depth
  | .convert source target => Conversion.plan source target = [.checkCast target] → 1 ≤ depth
  | _ => True

/-- Every operation fits when its turn comes, unless it is dead code. -/
def FitsAll (ret : JavaType) : List Operation → Emitter → Prop
  | [], _ => True
  | op :: rest, e =>
    (e.reachable = true → op.Fits ret e.tracker.depth) ∧
      match op.run e with
      | .ok (_, e') => FitsAll ret rest e'
      | .error _ => True

/-- No operation adds to the code where control cannot get to. -/
def AllLive : List Operation → Emitter → Prop
  | [], _ => True
  | op :: rest, e =>
    match op.run e with
    | .ok (_, e') =>
      (e.reachable = true ∨ e'.assembly.code.size = e.assembly.code.size) ∧ AllLive rest e'
    | .error _ => True

/-! ### Deciding -/

instance (type : JavaType) : Decidable (FieldFits type) := inferInstanceAs (Decidable (_ ∧ _))

instance (type : MethodType) : Decidable (CallFits type) := inferInstanceAs (Decidable (_ = _))

instance Fits.decide (ret : JavaType) (depth : Nat) :
    (op : Operation) → Decidable (op.Fits ret depth)
  | .emit _ => inferInstanceAs (Decidable (_ ∧ _))
  | .returnValue _ => inferInstanceAs (Decidable (_ = _))
  | .load _ _ | .store _ _ => inferInstanceAs (Decidable (_ ≠ _))
  | .getField _ _ type | .putField _ _ type | .getStatic _ _ type | .putStatic _ _ type =>
    inferInstanceAs (Decidable (FieldFits type))
  | .invokeVirtual _ _ type | .invokeSpecial _ _ type | .invokeStatic _ _ type =>
    inferInstanceAs (Decidable (CallFits type))
  | .invokeInterface _ _ type => inferInstanceAs (Decidable (CallFits type ∧ _))
  | .checkCast _ | .instanceOf _ | .newRefArray _ => inferInstanceAs (Decidable (_ ≤ _))
  | .convert _ _ => inferInstanceAs (Decidable (_ → _))
  | .nullConst | .intConst _ | .longConst _ | .floatConst _ | .doubleConst _ | .textConst _
  | .zeroOf _ | .loadRef _ | .storeRef _ | .increment _ _ | .popValue _ | .dupValue _
  | .newObject _ | .newLabel | .branch _ _ | .goto _ | .placeLabel _ | .noteLine _ | .noteEnd
  | .checkBalanced => inferInstanceAs (Decidable True)

instance FitsAll.decide (ret : JavaType) :
    (ops : List Operation) → (e : Emitter) → Decidable (FitsAll ret ops e)
  | [], _ => inferInstanceAs (Decidable True)
  | op :: rest, e =>
    match h : op.run e with
    | .ok (_, e') =>
      have := FitsAll.decide ret rest e'
      decidable_of_iff ((e.reachable = true → op.Fits ret e.tracker.depth) ∧ FitsAll ret rest e')
        (by rw [FitsAll, h])
    | .error _ =>
      decidable_of_iff (e.reachable = true → op.Fits ret e.tracker.depth)
        (by rw [FitsAll, h, and_true])

instance AllLive.decide : (ops : List Operation) → (e : Emitter) → Decidable (AllLive ops e)
  | [], _ => inferInstanceAs (Decidable True)
  | op :: rest, e =>
    match h : op.run e with
    | .ok (_, e') =>
      have := AllLive.decide rest e'
      decidable_of_iff
        ((e.reachable = true ∨ e'.assembly.code.size = e.assembly.code.size) ∧ AllLive rest e')
        (by rw [AllLive, h])
    | .error _ => decidable_of_iff True (by rw [AllLive, h])

/-! ### Operations are emissions -/

variable {ret : JavaType} {e e' : Emitter}

/-- **An operation that fits is an emission.** -/
theorem exists_emission (op : Operation) (hcoh : e.pool.Coherent) (h : op.run e = .ok ((), e'))
    (hfits : e.reachable = true → op.Fits ret e.tracker.depth) : Emits ret e e' := by
  cases op with
  | emit op => exact emits_emit h hfits
  | nullConst => exact (straight_nullConst h).emits
  | intConst => exact (straight_intConst hcoh h).emits
  | longConst => exact (straight_longConst hcoh h).emits
  | floatConst => exact (straight_floatConst hcoh h).emits
  | doubleConst => exact (straight_doubleConst hcoh h).emits
  | textConst => exact (straight_textConst hcoh h).emits
  | zeroOf => exact (straight_zeroOf hcoh h).emits
  | load => exact (straight_load h hfits).emits
  | store => exact (straight_store h hfits).emits
  | loadRef => exact (straight_load h fun _ => nofun).emits
  | storeRef => exact (straight_store h fun _ => nofun).emits
  | increment => exact (straight_increment h).emits
  | popValue => exact (straight_popValue h).emits
  | dupValue => exact (straight_dupValue h).emits
  | getField => exact (straight_getField hcoh h hfits).emits
  | putField => exact (straight_putField hcoh h hfits).emits
  | getStatic => exact (straight_getStatic hcoh h hfits).emits
  | putStatic => exact (straight_putStatic hcoh h hfits).emits
  | invokeVirtual => exact (straight_invokeVirtual hcoh h hfits).emits
  | invokeSpecial => exact (straight_invokeSpecial hcoh h hfits).emits
  | invokeStatic => exact (straight_invokeStatic hcoh h hfits).emits
  | invokeInterface => exact (straight_invokeInterface hcoh h hfits).emits
  | newObject => exact (straight_newObject hcoh h).emits
  | checkCast => exact (straight_checkCast hcoh h hfits).emits
  | instanceOf => exact (straight_instanceOf hcoh h hfits).emits
  | newRefArray => exact (straight_newRefArray hcoh h hfits).emits
  | newLabel =>
    obtain ⟨l, e₁, hlabel, hpure⟩ := Emit.bind_eq_ok.1 h
    obtain ⟨-, rfl⟩ := Emit.pure_eq_ok.1 hpure
    exact (straight_newLabel hlabel).emits
  | branch => exact emits_branch h
  | goto l => exact emits_branch (show Emitter.branch .goto l e = _ from h)
  | placeLabel => exact (straight_placeLabel h).emits
  | returnValue type =>
    refine emits_emit h fun hr => ⟨?_, hfits hr⟩
    cases type <;> rfl
  | noteLine => exact (straight_noteLine h).emits
  | noteEnd => exact (straight_noteEnd h).emits
  | convert => exact (straight_convert hcoh h hfits).emits
  | checkBalanced =>
    obtain ⟨-, rfl⟩ := checkBalanced_eq_ok.1 h
    exact (Straight.refl ret e').emits

/-- **Operations that fit are an emission**, and where none of them adds dead code, control can
get to all the code that they emit. -/
theorem exists_emission_of_runAll {ops : List Operation} :
    ∀ {e : Emitter}, e.pool.Coherent → FitsAll ret ops e → runAll ops e = .ok ((), e') →
      ∃ xs, Emission ret e xs e' ∧ (AllLive ops e → ∀ x ∈ xs, x.live = true) := by
  induction ops with
  | nil =>
    intro e _ _ h
    obtain ⟨-, rfl⟩ := Emit.pure_eq_ok.1 h
    exact ⟨[], .refl, fun _ => nofun⟩
  | cons op rest ih =>
    intro e hcoh hfits h
    obtain ⟨_, e₁, hop, hrest⟩ := Emit.bind_eq_ok.1 h
    unfold FitsAll at hfits
    rw [hop] at hfits
    obtain ⟨xs, hem, hlive⟩ := op.exists_emission hcoh hop hfits.1
    obtain ⟨ys, hem', hlive'⟩ := ih (hem.grows.coherent hcoh) hfits.2 hrest
    refine ⟨ys ++ xs, hem.trans hem', fun hall => ?_⟩
    unfold AllLive at hall
    rw [hop] at hall
    refine List.forall_mem_append.2 ⟨hlive' hall.2, ?_⟩
    rcases hall.1 with hr | hsize
    · exact hlive hr
    · rcases hem.eq_nil_or_size_lt with ⟨rfl, -⟩ | hlt
      · exact nofun
      · omega

end Operation

/-! ### Agreement -/

open Operation Inspection in
/-- **The emitter's accounting agrees with the inspection.**  Operations run on any pool that
named operations made, with the slots of the receiver and the parameters in use. If they fit, leave
no way past the end of the code, and exceed no limit, then the inspection accepts the finished body
with the final pool, and finds at most the declared depth and local slots. It finds exactly these
if no operation adds dead code. -/
theorem inspectMethod_of_runAll {interns : List Interning} {m : MethodImage} {type : MethodType}
    {p : Nat} {ops : List Operation} {e : Emitter} {body : MethodBody}
    (htype : MethodType.ofDescriptor? m.descriptor = some type)
    (hparams : type.callWord (!m.access.isStatic) = .ok p)
    (hrun : runAll ops (.ofPool (ofInternings interns) p) = .ok ((), e))
    (hfits : FitsAll type.ret ops (.ofPool (ofInternings interns) p))
    (hend : e.reachable = false) (hfinish : e.finish = .ok body) (hpool : e.pool.check = .ok ()) :
    ∃ summary, inspectMethod e.pool { m with body := some body } = pure (some summary) ∧
      summary.declaredStack = body.maxStack.toNat ∧
      summary.declaredLocals = body.maxLocals.toNat ∧
      summary.maxDepth ≤ summary.declaredStack ∧ summary.localsUsed ≤ summary.declaredLocals ∧
      (AllLive ops (.ofPool (ofInternings interns) p) →
        summary.maxDepth = summary.declaredStack ∧
          summary.localsUsed = summary.declaredLocals) := by
  obtain ⟨xs, hem, hlive⟩ := exists_emission_of_runAll (coherent_ofInternings interns) hfits hrun
  have hcomplete := hem.complete (MethodType.callWord_eq_ok.1 hparams).2 hend hfinish
  have hv : e.pool.violation = none := check_eq_ok.1 hpool
  obtain ⟨summary, hinspect, -, hstack, hlocals, hdepth, hused, hexact⟩ :=
    hcomplete.exists_inspectMethod (m := { m with body := some body }) hv (.refl _) rfl htype
      hparams (Nat.le_refl p)
  obtain ⟨hstack', hlocals', -⟩ := hcomplete.body_eq
  exact ⟨summary, hinspect, hstack.trans hstack'.symm, hlocals.trans hlocals'.symm, hdepth, hused,
    fun hall => (hexact (hlive hall)).imp_right fun hall => hall rfl⟩

/-- What operations emit with an empty pool and no parameters: the emitter and the finished body,
if nothing goes wrong and no way leads past the end of the code. -/
def emitted? (ops : List Operation) : Option (Emitter × MethodBody) :=
  match Operation.runAll ops (.ofPool (ofInternings []) 0) with
  | .error _ => none
  | .ok (_, e) =>
    match e.reachable, e.pool.violation, e.finish with
    | false, none, .ok body => some (e, body)
    | _, _, _ => none

theorem emitted?_eq_some {ops : List Operation} {e : Emitter} {body : MethodBody}
    (h : emitted? ops = some (e, body)) :
    Operation.runAll ops (.ofPool (ofInternings []) 0) = .ok ((), e) ∧ e.reachable = false ∧
      e.finish = .ok body ∧ e.pool.check = .ok () := by
  unfold emitted? at h
  split at h
  · cases h
  · rename_i u e' hrun
    split at h
    · rename_i body' hend hpool hfinish
      cases h
      exact ⟨hrun, hend, hfinish, check_eq_ok.2 hpool⟩
    · cases h

/-- Counts to five in a local variable and returns whether it has counted at all. -/
def countingLoop : List Operation :=
  [.newLabel, .newLabel, .intConst 0, .store .int 0, .placeLabel ⟨0⟩, .load .int 0, .intConst 5,
    .branch .ifIcmpge ⟨1⟩, .increment 0 1, .goto ⟨0⟩, .placeLabel ⟨1⟩, .load .int 0,
    .convert .int .boolean, .returnValue .boolean]

open Operation Inspection in
theorem inspectMethod_countingLoop :
    ∃ e body summary, emitted? countingLoop = some (e, body) ∧
      inspectMethod e.pool ⟨.staticFlag, "loop", (MethodType.returning .boolean).descriptor,
        some body, []⟩ = pure (some summary) ∧
      summary.maxDepth = 2 ∧ summary.localsUsed = 1 := by
  have htype : MethodType.ofDescriptor? (MethodType.returning .boolean).descriptor =
      some (.returning .boolean) := MethodType.ofDescriptor?_descriptor ⟨nofun, trivial⟩
  have hfits : FitsAll .boolean countingLoop (.ofPool (ofInternings []) 0) := by decide +kernel
  have hlive : AllLive countingLoop (.ofPool (ofInternings []) 0) := by decide +kernel
  have heval : (emitted? countingLoop).any
      (fun r => r.2.maxStack == 2 && r.2.maxLocals == 1) = true := by decide +kernel
  obtain ⟨⟨e, body⟩, hsome, hmax⟩ := (Option.any_eq_true _ _).1 heval
  obtain ⟨hrun, hend, hfinish, hpool⟩ := emitted?_eq_some hsome
  rw [Bool.and_eq_true, beq_iff_eq, beq_iff_eq] at hmax
  obtain ⟨summary, hinspect, hstack, hlocals, -, -, hexact⟩ :=
    inspectMethod_of_runAll (m := ⟨.staticFlag, "loop", _, none, []⟩) htype rfl hrun hfits hend
      hfinish hpool
  obtain ⟨hdepth, hused⟩ := hexact hlive
  refine ⟨e, body, summary, hsome, hinspect, ?_, ?_⟩
  · rw [hdepth, hstack, hmax.1]
    rfl
  · rw [hused, hlocals, hmax.2]
    rfl

/-! ### What does not fit -/

open Operation Inspection Instruction

theorem inspectMethod_staticAction_eq (pool : ConstantPool) (body : MethodBody) :
    inspectMethod pool (staticAction body) = (do
      let walk ← forMethod (staticAction body).signature
        (checkBody pool (staticAction body) .action body)
      return some ⟨(staticAction body).signature, body.maxStack.toNat, walk.maxDepth,
        body.maxLocals.toNat, walk.localsUsed⟩) := by
  unfold inspectMethod
  rw [ofDescriptor?_staticAction]
  rfl

/-- A return ends the code. -/
theorem exists_returnVoid {e : Emitter} (h : e.tracker.depth ≤ wordMax) :
    ∃ e', returnValue .void e = .ok ((), e') ∧ e'.reachable = false ∧ e'.pool = e.pool ∧
      e'.assembly = e.assembly.append (.plain .returnVoid rfl) :=
  ⟨_, emit_eq_ok.2 ⟨rfl, ⟨0, 0⟩, rfl, Nat.zero_le _, h, rfl⟩, Bool.and_false _, rfl, rfl⟩

theorem emitted?_eq_some_of_run {ops : List Operation} {e : Emitter} {body : MethodBody}
    (hrun : Operation.runAll ops (.ofPool (ofInternings []) 0) = .ok ((), e))
    (hend : e.reachable = false) (hpool : e.pool.violation = none) (hfinish : e.finish = .ok body) :
    emitted? ops = some (e, body) := by
  simp only [emitted?, hrun, hend, hpool, hfinish]

/-- Code without branches that writes one more instruction and returns. -/
theorem exists_emitted (ops : List Operation) (op : Operation) {e : Emitter}
    {pool : ConstantPool} {t : Tracker} {i : Instruction}
    (hops : runAll ops (ofPool (ofInternings []) 0) = .ok ((), e))
    (hop : op.run e = .ok ((), (e.withPool pool).written t i)) (hpool : pool.violation = none)
    (hdepth : t.depth ≤ wordMax) (hbranches : e.assembly.branches = #[])
    (hsize : e.assembly.code.size + i.op.encodedLength < wordMax) :
    ∃ e' body, emitted? (ops ++ [op, .returnValue .void]) = some (e', body) ∧
      ∃ after, body.code.toList = e.assembly.code.toList ++ (i.bytes ++ after) := by
  obtain ⟨e₂, hreturn, hdead, hpool₂, hassembly⟩ := exists_returnVoid
    (show ((e.withPool pool).written t i).tracker.depth ≤ wordMax from hdepth)
  have hassembly : e₂.assembly = (e.assembly.append i).append (.plain .returnVoid rfl) := hassembly
  have hrun : runAll (ops ++ [op, .returnValue .void]) (ofPool (ofInternings []) 0) =
      .ok ((), e₂) :=
    runAll_append_eq_ok.2 ⟨e, hops, Emit.bind_eq_ok.2 ⟨(), _, hop,
      Emit.bind_eq_ok.2 ⟨(), e₂, hreturn, rfl⟩⟩⟩
  have hsize₂ : e₂.assembly.code.size ≤ wordMax := by
    rw [hassembly, Assembly.size_append, Assembly.size_append]
    exact hsize
  obtain ⟨body, hfinish, hcode⟩ := exists_finish_of_branchless
    (show e₂.assembly.branches = #[] by rw [hassembly]; exact hbranches) hsize₂
  refine ⟨e₂, body, emitted?_eq_some_of_run hrun hdead (by rw [hpool₂]; exact hpool) hfinish,
    [0xb1], ?_⟩
  rw [hcode, hassembly, Assembly.toList_append, Assembly.toList_append, List.append_assoc]
  rfl

/-- **A method is rejected if its first instruction takes something from the stack.** -/
theorem inspectMethod_ne_pure_of_first {pool : ConstantPool} {m : MethodImage} {body : MethodBody}
    {type : MethodType} {i : Instruction} {effect : StackEffect} (hbody : m.body = some body)
    (htype : MethodType.ofDescriptor? m.descriptor = some type) (hat : at? body.code 0 = some i)
    (heffect : i.op.fixedEffect? = some effect) (hpop : 0 < effect.pop)
    (r : Option MethodSummary) : inspectMethod pool m ≠ pure r := by
  refine inspectMethod_ne_pure hbody htype
    (fun starts => ⟨0, 0, .entry, fun j found hadmitted => ?_⟩) r
  obtain rfl := Option.some.inj (hat.symm.trans hadmitted.instruction)
  have hpops := hadmitted.pops
  rw [eq_of_effect? heffect hadmitted.effect] at hpops
  omega

/-- **A method is rejected if a path reaches a return that does not fit its result.** -/
theorem inspectMethod_ne_pure_of_return {pool : ConstantPool} {m : MethodImage} {body : MethodBody}
    {type : MethodType} {pc d : Nat} {i : Instruction} (hbody : m.body = some body)
    (htype : MethodType.ofDescriptor? m.descriptor = some type)
    (hreach : ∀ starts, Reachable ⟨pool, body, type, starts⟩ pc d) (hat : at? body.code pc = some i)
    (hreturn : returnFits i.op type.ret = false) (r : Option MethodSummary) :
    inspectMethod pool m ≠ pure r := by
  refine inspectMethod_ne_pure hbody htype
    (fun starts => ⟨pc, d, hreach starts, fun j found hadmitted => ?_⟩) r
  obtain rfl := Option.some.inj (hat.symm.trans hadmitted.instruction)
  exact Bool.false_ne_true (hreturn.symm.trans hadmitted.returns)

/-- A path goes on past an instruction that need not jump. -/
theorem Inspection.Reachable.next {s : Subject} {pc d : Nat} {op : Opcode} {effect : StackEffect}
    (h : Reachable s pc d) (hat : ∃ i, at? s.body.code pc = some i ∧ i.op = op)
    (heffect : op.fixedEffect? = some effect) (hclass : op.namesClass = false)
    (hpop : effect.pop ≤ d) (hterm : op.isTerminal = false) :
    Reachable s (pc + op.encodedLength) (d - effect.pop + effect.push) := by
  obtain ⟨i, hat, rfl⟩ := hat
  exact .step h (.next hat (effect?_of_fixed s.pool heffect hclass) hpop hterm)

/-- A cast is emitted on an empty stack, and rejected there. -/
theorem inspectMethod_checkCast :
    ∃ e body, emitted? [.checkCast .text, .returnValue .void] = some (e, body) ∧
      ∀ r, inspectMethod e.pool (staticAction body) ≠ pure r := by
  have hcast : Emitter.checkCast .text (ofPool (ofInternings []) 0) = .ok ((), _) :=
    checkCast_eq_ok.2 ⟨_, rfl, rfl⟩
  have hroom : (ofInternings []).HasRoom 2 := hasRoom_empty (by decide)
  obtain ⟨e, body, hsome, after, hcode⟩ := exists_emitted [] (.checkCast .text) rfl hcast
    (HasRoom.classRef (n := 0) hroom (by decide)).clean (Nat.zero_le _) rfl
    (show 0 + 3 < wordMax by decide)
  have hat : at? body.code 0 = _ := at?_length_of_toList_eq hcode
  exact ⟨e, body, hsome,
    inspectMethod_ne_pure_of_first rfl (ofDescriptor?_staticAction body) hat rfl Nat.zero_lt_one⟩

/-- A number of null references is pushed. -/
theorem exists_runAll_nullConst (n : Nat) : ∀ e : Emitter, e.tracker.depth + n ≤ wordMax →
    ∃ e', Operation.runAll (List.replicate n .nullConst) e = .ok ((), e') ∧
      e'.assembly.code.toList = e.assembly.code.toList ++ List.replicate n 0x01 ∧
      e'.assembly.branches = e.assembly.branches ∧ e'.pool = e.pool ∧
      e'.tracker.depth = e.tracker.depth + n := by
  induction n with
  | zero => exact fun e _ => ⟨e, rfl, (List.append_nil _).symm, rfl, rfl, rfl⟩
  | succ n ih =>
    intro e hdepth
    have hword : e.tracker.depth - 0 + 1 ≤ wordMax := by omega
    obtain ⟨e₁, hnull⟩ : ∃ e₁, emit .aconstNull e = .ok ((), e₁) :=
      ⟨_, emit_eq_ok.2 ⟨rfl, ⟨0, 1⟩, rfl, Nat.zero_le _, hword, rfl⟩⟩
    obtain ⟨_, effect, heffect, -, -, he₁⟩ := emit_eq_ok.1 hnull
    cases heffect
    have hdepth₁ : e₁.tracker.depth = e.tracker.depth + 1 := by rw [he₁]; rfl
    obtain ⟨e', hrun, hcode, hbranches, hpool, hdepth'⟩ := ih e₁ (by omega)
    refine ⟨e', Emit.bind_eq_ok.2 ⟨(), e₁, hnull, hrun⟩, ?_, ?_, ?_, by omega⟩
    · rw [hcode, he₁]
      show (e.assembly.append _).code.toList ++ _ = _
      rw [Assembly.toList_append, List.append_assoc]
      rfl
    · rw [hbranches, he₁]
      rfl
    · rw [hpool, he₁]
      rfl

/-- Null references are pushed one after another. -/
theorem reachable_of_nullConst {s : Subject} {n : Nat} {rest : List UInt8}
    (hcode : s.body.code.toList = List.replicate n 0x01 ++ rest) :
    ∀ k ≤ n, Reachable s k k := by
  intro k
  induction k with
  | zero => exact fun _ => .entry
  | succ k ih =>
    intro hk
    have hat : at? s.body.code k = some (.plain .aconstNull rfl) := by
      refine at?_eq_some_iff.2 ⟨List.replicate (n - (k + 1)) 0x01 ++ rest, ?_⟩
      rw [hcode, List.drop_append_of_le_length (by rw [List.length_replicate]; omega),
        List.drop_replicate, show n - k = n - (k + 1) + 1 by omega, List.replicate_succ]
      rfl
    exact (ih (by omega)).next ⟨_, hat, rfl⟩ rfl rfl (Nat.zero_le _) rfl

/-- An interface call whose number of slots does not fit into a byte. -/
theorem effect?_interfaceCall (pool : ConstantPool) (index : UInt16) :
    (interfaceCall index 256).effect? pool = none := by
  rw [effect?_of_isCall (.inr (.inr (.inr rfl)))]
  cases pool.methodType? (interfaceCall index 256).op ((interfaceCall index 256).word 0) with
  | none => rfl
  | some type =>
    show (interfaceCall index 256).callEffect? type = none
    exact if_pos ⟨rfl, (Nat.succ_ne_zero _).symm⟩

/-- A method of 255 parameters. -/
def crowdedType : MethodType := ⟨List.replicate 255 .int, .void⟩

/-- A call of an interface method, on 256 null references. -/
def crowdedCall (type : MethodType) : List Operation :=
  List.replicate 256 .nullConst ++ [.invokeInterface "a/I" "m" type, .returnValue .void]

theorem inspectMethod_crowdedCall {type : MethodType} (hslots : type.argSlots = 255)
    (hret : type.retSlots = 0) (htype : ShortText type.descriptor) :
    ∃ e body, emitted? (crowdedCall type) = some (e, body) ∧
      ∀ r, inspectMethod e.pool (staticAction body) ≠ pure r := by
  obtain ⟨e, hrun, hcode, hbranches, hpool, hdepth⟩ :=
    exists_runAll_nullConst 256 (ofPool (ofInternings []) 0) (by decide)
  replace hdepth : e.tracker.depth = 256 := hdepth
  have hpop : (callEffect type true).pop = 256 := congrArg (· + 1) hslots
  have hword : (callEffect type true).pop ≤ wordMax := by rw [hpop]; decide
  have hpops : (callEffect type true).pop ≤ e.tracker.depth := by rw [hpop, hdepth]
  have hpush : e.tracker.depth - (callEffect type true).pop + type.retSlots ≤ wordMax := by
    rw [hpop, hdepth, hret]
    decide
  have hcall : Emitter.invokeInterface "a/I" "m" type e = .ok ((), _) :=
    invokeInterface_eq_ok.2 ⟨hword, hpops, hpush, rfl⟩
  have hroom : e.pool.HasRoom 6 := by
    rw [hpool]
    exact hasRoom_empty (by decide)
  have hlength : e.assembly.code.size = 256 := by
    rw [← Array.length_toList, hcode, List.length_append, List.length_replicate]
    rfl
  have hsize : e.assembly.code.size + 5 < wordMax := by
    rw [hlength]
    decide
  rw [interfaceMethodRef_eq] at hcall
  obtain ⟨e', body, hsome, after, hbody⟩ := exists_emitted _ (.invokeInterface "a/I" "m" type) hrun
    hcall (HasRoom.memberRef (n := 0) hroom (by decide) (by decide) htype).clean hpush hbranches
    hsize
  refine ⟨e', body, hsome, inspectMethod_ne_pure rfl (ofDescriptor?_staticAction body) fun starts =>
    ⟨256, 256, ?_, fun i effect hadmitted => ?_⟩⟩
  · rw [hcode] at hbody
    exact reachable_of_nullConst hbody 256 (Nat.le_refl _)
  · have hat := at?_length_of_toList_eq hbody
    rw [Array.length_toList, hlength] at hat
    obtain rfl := Option.some.inj (hat.symm.trans hadmitted.instruction)
    have heffect := hadmitted.effect
    rw [hpop, effect?_interfaceCall] at heffect
    cases heffect

/-- **What does not fit is emitted all the same, and rejected**: a return of another type, a cast on
an empty stack, and an interface call whose slots do not fit into a byte. Dead code need not make
the tracked depth any larger, so that the depths can be equal in spite of it. -/
theorem inspectMethod_misfits :
    (∃ e body, emitted? [.intConst 0, .returnValue .int] = some (e, body) ∧
      inspectMethod e.pool (staticAction body) =
        throw (.body (staticAction body).signature (.returnMismatch 1))) ∧
    (∃ e body, emitted? [.checkCast .text, .returnValue .void] = some (e, body) ∧
      ∀ r, inspectMethod e.pool (staticAction body) ≠ pure r) ∧
    (∃ e body, emitted? (crowdedCall crowdedType) = some (e, body) ∧
      ∀ r, inspectMethod e.pool (staticAction body) ≠ pure r) ∧
    ¬AllLive [.intConst 0, .emit .pop, .returnValue .void, .emit .nop]
      (.ofPool (ofInternings []) 0) ∧
    ∃ e body summary,
      emitted? [.intConst 0, .emit .pop, .returnValue .void, .emit .nop] = some (e, body) ∧
      inspectMethod e.pool (staticAction body) = pure (some summary) ∧
      summary.maxDepth = summary.declaredStack := by
  refine ⟨?_, inspectMethod_checkCast,
    inspectMethod_crowdedCall (by decide +kernel) rfl (by decide +kernel), by decide +kernel, ?_⟩
  · have heval : (emitted? [.intConst 0, .returnValue .int]).any (fun r =>
        match (checkBody r.1.pool (staticAction r.2) .action r.2).run with
        | .ok (.error (.returnMismatch 1)) => true
        | _ => false) = true := by decide +kernel
    obtain ⟨⟨e, body⟩, hsome, hfault⟩ := (Option.any_eq_true _ _).1 heval
    refine ⟨e, body, hsome, ?_⟩
    rw [inspectMethod_staticAction_eq]
    split at hfault
    · rename_i hcheck
      rw [show checkBody e.pool (staticAction body) .action body = throw (.returnMismatch 1)
        from hcheck]
      rfl
    · cases hfault
  · have heval : (emitted? [.intConst 0, .emit .pop, .returnValue .void, .emit .nop]).any (fun r =>
        match (checkBody r.1.pool (staticAction r.2) .action r.2).run with
        | .ok (.ok w) => w.maxDepth == r.2.maxStack.toNat
        | _ => false) = true := by decide +kernel
    obtain ⟨⟨e, body⟩, hsome, hdepth⟩ := (Option.any_eq_true _ _).1 heval
    split at hdepth
    · rename_i w hcheck
      refine ⟨e, body, ⟨(staticAction body).signature, body.maxStack.toNat, w.maxDepth,
        body.maxLocals.toNat, w.localsUsed⟩, hsome, ?_, beq_iff_eq.1 hdepth⟩
      rw [inspectMethod_staticAction_eq,
        show checkBody e.pool (staticAction body) .action body = pure w from hcheck]
      rfl
    · cases hdepth

end ClassForge
