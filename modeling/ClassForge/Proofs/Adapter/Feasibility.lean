import ClassForge.Proofs.Adapter.Construction

/-!
# Plans that can be built

A build adds the methods of the plan and encodes the draft. Both succeed if the plan is feasible.

* `compiledBody_eq` — the code of compiled clauses, in parts;
* `exists_compiledBody` — **PROVED**: the rest can be emitted after any event that keeps the frame;
* `build_eq_ok` — **PROVED**: a build comes to an end in two stages;
* `Builds.exists_build` — **PROVED**: it meets no defect and fails for no branch, if adding the
  methods does not;
* `Feasible.exists_build`, `Feasible.exists_build_compiled` — **PROVED**: a feasible plan can be
  built, and whether its compiled code passes the inspection does not matter.
-/

namespace ClassForge

open ConstantPool Emitter

namespace AdapterPlan

variable {p : AdapterPlan} {e e' : Emitter}

/-! ### The code of compiled clauses -/

/-- The action under the condition, which is on the stack, and the end of the method. -/
def guardedAction (p : AdapterPlan) : ClauseEmit Unit := do
  let skip ← Emitter.newLabel
  Emitter.branch .ifeq skip
  p.rule.action.compile p.view
  Emitter.checkBalanced
  Emitter.placeLabel skip
  Emitter.noteEnd
  Emitter.returnValue .void

/-- The condition leaves one slot on the stack. -/
def expectCondition : ClauseEmit Unit := do
  let depth := (← get).tracker.depth
  if depth ≠ 1 then throwThe Defect (.conditionDepth depth)

theorem compiledBody_eq (p : AdapterPlan) : p.compiledBody = (do
    Emitter.noteLine p.rule.line
    p.rule.event.compile p.view
    Emitter.checkBalanced
    p.rule.condition.compile p.view
    expectCondition
    p.guardedAction) := by
  unfold compiledBody expectCondition guardedAction
  simp only [bind_assoc]
  refine bind_congr fun _ => bind_congr fun _ => bind_congr fun _ => bind_congr fun _ =>
    bind_congr fun e => ?_
  split
  · rfl
  · rfl

theorem run_expectCondition_eq_ok :
    expectCondition.run e = .ok (.ok (), e') ↔ e.tracker.depth = 1 ∧ e' = e := by
  unfold expectCondition
  rw [run_bind_eq_ok]
  constructor
  · rintro ⟨s, t, ⟨⟩, hrun⟩
    by_cases hdepth : e.tracker.depth = 1
    · rw [if_neg (not_not.2 hdepth)] at hrun
      cases hrun
      exact ⟨hdepth, rfl⟩
    · rw [if_pos hdepth] at hrun
      cases hrun
  · rintro ⟨hdepth, rfl⟩
    refine ⟨e', e', rfl, ?_⟩
    rw [if_neg (not_not.2 hdepth)]
    rfl

theorem run_emitMethod_eq_ok {access : AccessFlags} {name : String} {type : MethodType}
    {exceptions : List String} {body : ClauseEmit Unit} {slots : Nat} {d d' : ClassDraft}
    (h : (ClassDraft.emitMethod access name type exceptions slots body).run d = .ok (.ok (), d')) :
    ∃ e finished, body.run (ofPool d.pool slots) = .ok (.ok (), e) ∧ e.finish = .ok finished ∧
      d' = (d.withPool e.pool).addMethod access name type (some finished) exceptions := by
  cases hbody : body.run (ofPool d.pool slots) with
  | error defect =>
    dsimp only [ExceptT.run] at h hbody
    simp only [ClassDraft.emitMethod, ExceptT.run, hbody] at h
    cases h
  | ok r =>
    obtain ⟨a, e⟩ := r
    cases a with
    | error cause =>
      dsimp only [ExceptT.run] at h hbody
      simp only [ClassDraft.emitMethod, ExceptT.run, hbody] at h
      cases h
    | ok =>
      rw [run_emitMethod hbody] at h
      cases hfinish : e.finish with
      | error limit =>
        rw [hfinish] at h
        cases h
      | ok finished =>
        rw [hfinish] at h
        cases h
        exact ⟨e, finished, rfl, hfinish, rfl⟩

/-- **What follows the event can be emitted** if there is no other clause, whatever the event wrote
before. -/
theorem exists_compiledBody {fits short : Prop} {pool : ConstantPool} {n r slots : Nat}
    (hline : noteLine p.rule.line (ofPool pool slots) = .ok ((), e))
    (hevent : (p.rule.event.compile p.view).run e = .ok (.ok (), e'))
    (hran : Ran .void fits short [] n r (some 0) (ofPool pool slots) e') (hn : n ≤ 1000)
    (hcondition : p.rule.condition = .always) (haction : p.rule.action = .skip) :
    ∃ f, p.compiledBody.run (ofPool pool slots) = .ok (.ok (), f) ∧
      Ran .void fits short [] (n + 7) (r + 1) none (ofPool pool slots) f := by
  obtain ⟨e₂, hbalanced, h₂⟩ := hran.block Block.checkBalanced
  obtain ⟨e₃, hone, h₃⟩ := h₂.block (Block.intConst 1 (by decide))
  obtain ⟨skip, e₄, hlabel, h₄⟩ := h₃.newLabel
  obtain ⟨e₅, hbranch, h₅⟩ := h₄.branch (show Opcode.ifeq.isShortBranch = true from rfl)
    Nat.le.refl (.inl rfl)
  obtain ⟨e₆, hbalanced', h₆⟩ := h₅.block Block.checkBalanced
  obtain ⟨e₇, hplace, h₇⟩ := h₆.placeLabel (.inl rfl) (by omega)
  obtain ⟨e₈, hend, h₈⟩ := h₇.block (Block.markLine sameSlots_noteEnd)
  have hret : Block .void fits short 1 0 0 none (returnValue .void) :=
    Block.returnValue rfl fun _ => rfl
  obtain ⟨e₉, hreturn, h₉⟩ := h₈.block hret
  refine ⟨e₉, ?_, h₉.mono (by omega) (by omega)⟩
  have hguarded : p.guardedAction.run e₃ = .ok (.ok (), e₉) := by
    unfold guardedAction
    rw [haction]
    exact run_bind_eq_ok.2 ⟨skip, e₄, run_liftM_eq_ok.2 hlabel,
      run_bind_eq_ok.2 ⟨(), e₅, run_liftM_eq_ok.2 hbranch, run_bind_eq_ok.2 ⟨(), e₅, rfl,
      run_bind_eq_ok.2 ⟨(), e₆, run_liftM_eq_ok.2 hbalanced',
      run_bind_eq_ok.2 ⟨(), e₇, run_liftM_eq_ok.2 hplace,
      run_bind_eq_ok.2 ⟨(), e₈, run_liftM_eq_ok.2 hend, run_liftM_eq_ok.2 hreturn⟩⟩⟩⟩⟩⟩
  rw [compiledBody_eq, hcondition]
  exact run_bind_eq_ok.2 ⟨(), e, run_liftM_eq_ok.2 hline, run_bind_eq_ok.2 ⟨(), e', hevent,
    run_bind_eq_ok.2 ⟨(), e₂, run_liftM_eq_ok.2 hbalanced,
    run_bind_eq_ok.2 ⟨(), e₃, run_liftM_eq_ok.2 hone,
    run_bind_eq_ok.2 ⟨(), e₃, run_expectCondition_eq_ok.2 ⟨h₃.lands.2, rfl⟩, hguarded⟩⟩⟩⟩⟩

/-- The code of a rule that has no clauses of its own. -/
theorem codes_compiledBody (hevent : p.rule.event = .skip) (hcondition : p.rule.condition = .always)
    (haction : p.rule.action = .skip) : p.Codes .void 7 1 p.compiledBody := by
  intro pool slots
  have h₀ : Ran .void p.Fits p.Feasible [] 0 0 (some 0) (ofPool pool slots) _ := .refl rfl rfl rfl
  obtain ⟨e, hline, h⟩ := h₀.block (Block.markLine fun t => sameSlots_noteLine t p.rule.line)
  obtain ⟨f, hrun, hran⟩ := exists_compiledBody hline (by rw [hevent]; rfl) h (by decide)
    hcondition haction
  exact ⟨f, hrun, hran.mono (by decide) (by decide)⟩

theorem builds_addStrategy_compiled (hstrategy : p.strategy = .compiled)
    (hevent : p.rule.event = .skip) (hcondition : p.rule.condition = .always)
    (haction : p.rule.action = .skip) : p.Builds 1 8 p.addStrategy := by
  unfold addStrategy
  rw [hstrategy]
  exact builds_addMethod (codes_compiledBody hevent hcondition haction) rfl (by decide)
    (fun _ => callFits_action) (fun _ => by decide) Nat.le.refl
    fun hf => ⟨by decide, by decide, hf.shortExceptions⟩

end AdapterPlan

/-! ### Stages of a build -/

theorem Except.bind_eq_error {ε α β : Type} {x : Except ε α} {f : α → Except ε β} {e : ε} :
    (x >>= f) = .error e ↔ x = .error e ∨ ∃ a, x = .ok a ∧ f a = .error e := by
  cases x with
  | error e' =>
    show Except.error e' = _ ↔ _
    simp
  | ok a =>
    show f a = _ ↔ _
    simp

namespace AdapterPlan

variable {p : AdapterPlan} {k r : Nat} {d : ClassDraft} {bytes : List UInt8}

/-- **A build comes to an end in two stages**: all methods are added, and the draft is encoded. -/
theorem build_eq_ok : p.build = .ok (.ok bytes) ↔
    ∃ d, p.addMethods.run p.fieldsOnly = .ok (.ok (), d) ∧ d.encode = .ok bytes := by
  unfold build
  rw [show p.draft = p.addMethods.run p.fieldsOnly from rfl]
  cases p.addMethods.run p.fieldsOnly with
  | error defect => exact ⟨nofun, nofun⟩
  | ok res =>
    obtain ⟨a, d⟩ := res
    cases a with
    | error cause => exact ⟨nofun, nofun⟩
    | ok u =>
      cases hencode : d.encode with
      | error limit =>
        simp only [hencode]
        constructor
        · rintro ⟨⟩
        · rintro ⟨d', ⟨⟩, hd'⟩
          cases hencode.symm.trans hd'
      | ok bytes' =>
        simp only [hencode]
        constructor
        · rintro ⟨⟩
          exact ⟨d, rfl, hencode⟩
        · rintro ⟨d', ⟨⟩, hd'⟩
          cases hencode.symm.trans hd'
          rfl

/-- A draft fails to be encoded for no branch. -/
theorem not_isBranch_of_encode (hgrows : Grows .empty d.pool) {limit : LimitError}
    (h : d.encode = .error limit) : ¬(Cause.limit limit).IsBranch := by
  have hcount {members : String} {n : Nat} (h : ClassDraft.checkCount members n = .error limit) :
      ¬(Cause.limit limit).IsBranch := by
    unfold ClassDraft.checkCount at h
    split at h
    · cases h
      exact id
    · cases h
  rcases Except.bind_eq_error.1 h with h | ⟨_, -, h⟩
  · rcases Except.bind_eq_error.1 h with h | ⟨_, -, h⟩
    · unfold ConstantPool.check at h
      split at h
      · rename_i hv
        cases h
        rcases hgrows.limits _ hv with hv | hlimit
        · cases hv
        · cases limit with
          | labelUnplaced | branchTooFar => exact hlimit.elim
          | _ => exact id
      · cases h
    · rcases Except.bind_eq_error.1 h with h | ⟨_, -, h⟩
      · exact hcount h
      · rcases Except.bind_eq_error.1 h with h | ⟨_, -, h⟩
        · exact hcount h
        · exact hcount h
  · cases h

/-- A build whose methods can be added meets no defect, and fails for no branch. -/
theorem Builds.exists_build (h : p.Builds k r p.addMethods) :
    ∃ res, p.build = .ok res ∧ ∀ cause, res = .error cause → ¬cause.IsBranch := by
  obtain ⟨⟨a, d⟩, hrun, hbuilt⟩ := h p.fieldsOnly
  have hdraft : p.draft = .ok (a, d) := hrun
  unfold build
  rw [hdraft]
  cases a with
  | error cause =>
    refine ⟨_, rfl, ?_⟩
    rintro _ ⟨⟩
    exact hbuilt.cause cause rfl
  | ok =>
    cases hencode : d.encode with
    | error limit =>
      simp only [hencode]
      refine ⟨_, rfl, ?_⟩
      rintro _ ⟨⟩
      exact not_isBranch_of_encode (grows_fieldsOnly.trans hbuilt.grows) hencode
    | ok bytes =>
      simp only [hencode]
      exact ⟨_, rfl, nofun⟩

/-! ### Feasible plans -/

theorem Represents.sizes {d : ClassDraft} {o : ClassOutline} (h : d.Represents o)
    (hv : d.pool.violation = none) : d.interfaces.length = o.interfaces.length ∧
      d.fields.size = o.fields.length ∧ d.methods.size = o.methods.length := by
  have hres := h.resolves hv
  exact ⟨hres.interfaces.length_eq, hres.fields.length_eq, hres.methods.length_eq⟩

/-- A draft within the limits can be encoded. -/
theorem exists_encode {o : ClassOutline} {n : Nat} (hrep : d.Represents o)
    (hroom : d.pool.HasRoom n) (hinterfaces : o.interfaces.length ≤ wordMax)
    (hfields : o.fields.length ≤ wordMax) (hmethods : o.methods.length ≤ wordMax) :
    ∃ bytes, d.encode = .ok bytes := by
  obtain ⟨hi, hf, hm⟩ := Represents.sizes hrep hroom.clean
  exact ⟨d.encodeUnchecked, ClassImage.encode_eq_ok.2 ⟨hroom.clean, by omega, by omega, by omega,
    rfl⟩⟩

/-- Part of the build of a feasible plan succeeds and leaves room in the pool. -/
theorem Feasible.exists_part {b : Build Unit} (h : p.Feasible) (hfits : p.Fits)
    (hb : p.Builds k r b) {n : Nat} (hn : n + r + 2 * p.rule.layout.length + 11 < wordMax) :
    ∃ d o, b.run p.fieldsOnly = .ok (.ok (), d) ∧ d.pool.HasRoom n ∧ d.Represents o ∧
      o.interfaces.length = 1 ∧ o.fields.length ≤ 501 ∧ o.methods.length = k := by
  obtain ⟨⟨a, d⟩, hrun, hbuilt⟩ := hb p.fieldsOnly
  obtain ⟨hok, hroom⟩ := hbuilt.room h n (hasRoom_fieldsOnly h hn)
  dsimp only at hok
  subst hok
  have hholds : p.Holds (0 + k) d := hbuilt.holds rfl hfits 0 holds_fieldsOnly
  obtain ⟨o, hrep, -, -, hinterfaces, hfields, hmethods, -⟩ := hholds
  exact ⟨d, o, hrun, hroom, hrep, hinterfaces, Nat.le_trans hfields (Nat.succ_le_succ h.count),
    by rw [hmethods, Nat.zero_add]⟩

/-- **A feasible plan can be built.** -/
theorem Feasible.exists_build (h : p.Feasible) (hfits : p.Fits)
    (hstrategy : p.Builds k r p.addStrategy) (hk : k ≤ 100) (hr : r ≤ 1000) :
    ∃ bytes, p.build = .ok (.ok bytes) := by
  have hcount : p.rule.layout.length ≤ 500 := h.count
  obtain ⟨d, o, hrun, hroom, hrep, hinterfaces, hfields, hmethods⟩ :=
    h.exists_part hfits (builds_addMethods hstrategy) (n := 0) (by unfold wordMax; omega)
  obtain ⟨bytes, hbytes⟩ := exists_encode hrep hroom (by unfold wordMax; omega)
    (by unfold wordMax; omega) (by unfold wordMax; omega)
  exact ⟨bytes, build_eq_ok.2 ⟨d, hrun, hbytes⟩⟩

/-- **A feasible plan can be built with any code for its clauses** that keeps the frame. Whether it
fits the method is not asked. -/
theorem Feasible.exists_build_compiled {n : Nat} (h : p.Feasible) (hfits : p.Fits)
    (hstrategy : p.strategy = .compiled) (hn : n ≤ wordMax) (hr : r ≤ 900)
    (hcode : ∀ pool, ∃ e, p.compiledBody.run (ofPool pool 1) = .ok (.ok (), e) ∧
      Ran .void False True [] n r none (ofPool pool 1) e) :
    ∃ bytes, p.build = .ok (.ok bytes) := by
  have hcount : p.rule.layout.length ≤ 500 := h.count
  obtain ⟨d, o, hshared, hroom, hrep, hinterfaces, hfields, hmethods⟩ :=
    h.exists_part hfits builds_addShared (n := 7 + r) (by unfold wordMax; omega)
  obtain ⟨e, hrun, hran⟩ := hcode d.pool
  obtain ⟨finished, hfinished⟩ : ∃ finished, e.finish = .ok finished := by
    rcases hran.finish_cases with ⟨hlong, -⟩ | hfinished
    · exact absurd hn (Nat.not_le.2 hlong)
    · exact hfinished
  have hword : MethodType.action.callWord true = .ok 1 := rfl
  have hlast : p.addStrategy.run d = .ok (.ok (), (d.withPool e.pool).addMethod .privateFlag
      "execute0" .action (some finished) [p.names.executeException]) := by
    unfold addStrategy
    rw [hstrategy]
    refine (run_addMethod hword d).trans ?_
    rw [run_emitMethod hrun, hfinished]
  have hrep' := (hrep.withPool hran.grows).addMethod .privateFlag "execute0" .action
    (some finished) [p.names.executeException]
  obtain ⟨bytes, hbytes⟩ := exists_encode hrep'
    (ClassDraft.hasRoom_addMethod (n := 0) (hran.room trivial 7 hroom) (by decide) (by decide)
      h.shortExceptions)
    (hinterfaces.trans_le (by decide)) (Nat.le_trans hfields (by decide))
    (by rw [List.length_append, hmethods]; show 9 ≤ wordMax; decide)
  refine ⟨bytes, build_eq_ok.2 ⟨_, ?_, hbytes⟩⟩
  rw [addMethods_eq]
  exact run_bind_eq_ok.2 ⟨(), d, hshared, hlast⟩

/-! ### A plan -/

/-- A rule with a binding of each kind, two of them of one name. -/
def samplePlan (strategy : Strategy) : AdapterPlan where
  rule :=
    { name := "sample", file := "rules/sample.btm", line := 3, loader := "app"
      bindings :=
        [{ name := "$0", type := .object "demo/Subject", flags := .recipient },
         { name := "count", type := .long, argIndex := 1, flags := .updated },
         { name := "count", type := .array .int, fieldName := "counts", flags := .bindVar },
         { name := "helper", type := .object "demo/Helper", flags := .helper },
         { name := "other", type := .int, flags := .aliasing },
         { name := "secret", type := .object "demo/Hidden", argIndex := 300 }]
      policy := .concealing ["demo.Hidden"] }
  helper := .ofName "demo.Helper" [⟨[], .publicMember⟩]
  className := "demo/Adapter"
  strategy := strategy
  options := {}

theorem fits_samplePlan (strategy : Strategy) : (samplePlan strategy).Fits :=
  fits_of_valueTypes
    (show ∀ name ∈ (samplePlan .compiled).describedNames, NameFits name by decide)
    (show ∀ b ∈ (samplePlan .compiled).rule.layout,
      b.valueType ≠ .void ∧ b.valueType.WellFormed by decide +kernel)

theorem feasible_samplePlan (strategy : Strategy) : (samplePlan strategy).Feasible where
  constructs := ⟨.plain, rfl⟩
  texts := show ∀ text ∈ (samplePlan .compiled).texts, ShortText text by decide +kernel
  bindings := show ∀ b ∈ (samplePlan .compiled).rule.layout, ∀ text ∈ b.texts, ShortText text by
    decide +kernel
  count := show (samplePlan .compiled).rule.layout.length ≤ 500 by decide

theorem debugSized_samplePlan (strategy : Strategy) :
    DebugSized (samplePlan strategy).debugText := by
  show DebugSized (samplePlan .compiled).debugText
  unfold DebugSized
  decide +kernel

end AdapterPlan

end ClassForge
