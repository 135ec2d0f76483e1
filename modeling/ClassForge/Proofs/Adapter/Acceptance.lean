import ClassForge.Proofs.Adapter.Shape
import ClassForge.Proofs.Emission.Session

/-!
# Inspection of adapters

The inspection accepts adapters of either strategy.

* `AdapterPlan.Adds` — what a part of a build has added, if it succeeds;
* `Clause.Operates` — a clause uses the emitter only in ways that fit;
* `exists_session_compiledBody` — **PROVED**: the code of such clauses is a session;
* `Holds.exists_inspectClass` — **PROVED**: a class whose methods pass is accepted as a whole;
* `inspectClass_ne_pure_of_compiledBody` — **PROVED**: a class is rejected if the code of its
  clauses is, as for a cast on an empty stack or a return that does not fit;
* `build_accepted` — **PROVED**: the build of an adapter meets no defect and fails for no branch if
  its clauses are interpreted, and the inspection accepts whatever is built of clauses that fit, if
  the debug text has less than 2^32 bytes.
-/

namespace ClassForge

open ConstantPool Emitter Inspection

/-! ### Parts of a build that succeed -/

namespace AdapterPlan

variable {p : AdapterPlan} {j k : Nat} {b b' : Build Unit}

/-- A part of a build that adds `k` methods where it succeeds. -/
def Adds (p : AdapterPlan) (k : Nat) (b : Build Unit) : Prop :=
  ∀ j d d', p.Holds j d → b.run d = .ok (.ok (), d') → p.Holds (j + k) d'

theorem Builds.adds {r : Nat} (h : p.Builds k r b) (hfits : p.Fits) : p.Adds k b := by
  intro j d d' hd hrun
  obtain ⟨res, hres, hbuilt⟩ := h d
  rw [hres] at hrun
  cases hrun
  exact hbuilt.holds rfl hfits j hd

theorem Adds.seq (h : p.Adds j b) (h' : p.Adds k b') : p.Adds (j + k) (do b; b') := by
  intro i d d' hd hrun
  obtain ⟨_, d₁, hfirst, hsecond⟩ := run_bind_eq_ok.1 hrun
  rw [← Nat.add_assoc]
  exact h' _ _ _ (h _ _ _ hd hfirst) hsecond

end AdapterPlan

/-! ### Clauses -/

/-- **A clause uses the emitter only in ways that fit**: whenever it succeeds, what it did is what
some uses do. It may take local slots into use, release and note them, and intern constants, and the
operations that it appends fit. Clauses are compiled where the stack is empty, into a method without
a result. -/
def Clause.Operates (c : Clause) (v : AdapterView) : Prop :=
  ∀ e e' : Emitter, e.tracker.depth = 0 → (c.compile v).run e = .ok (.ok (), e') →
    ∃ uses, Use.applyAll uses e = .ok e' ∧ Use.FitsAll .void uses e

theorem Clause.Operates.exists_session {c : Clause} {v : AdapterView} {e e' : Emitter}
    (h : c.Operates v) (hcoh : e.pool.Coherent) (hdepth : e.tracker.depth = 0)
    (hrun : (c.compile v).run e = .ok (.ok (), e')) : ∃ xs, Session .void e xs e' := by
  obtain ⟨uses, huses, hfits⟩ := h e e' hdepth hrun
  exact exists_session_of_applyAll hcoh hfits huses

theorem touches_of_applyAll {uses : List Use} {e e' : Emitter}
    (h : Use.applyAll uses e = .ok e') : Relation.ReflTransGen Touches e e' := by
  induction uses generalizing e with
  | nil =>
    cases h
    exact .refl
  | cons use rest ih =>
    obtain ⟨e₁, huse, hrest⟩ := Except.bind_eq_ok.1 h
    refine .head ?_ (ih hrest)
    cases use with
    | operate op => exact .operate op (Use.apply_operate_eq_ok.1 huse)
    | track op =>
      obtain ⟨answer, t, -, rfl⟩ := Use.apply_track_eq_ok.1 huse
      exact .track e t
    | intern i =>
      cases huse
      exact .intern e i

/-- Uses in order, as an action. -/
def Emitter.Use.runAll (uses : List Use) : Emit Unit := fun e => do
  return ((), ← Use.applyAll uses e)

/-- The clause that uses the emitter in the given ways. -/
def Clause.ofUses (uses : List Use) : Clause := ⟨fun _ => Use.runAll uses⟩

namespace Clause

variable {uses : List Use} {v : AdapterView} {e e' : Emitter}

theorem run_ofUses_eq_ok :
    ((ofUses uses).compile v).run e = .ok (.ok (), e') ↔ Use.applyAll uses e = .ok e' := by
  refine run_liftM_eq_ok.trans ?_
  show (Use.applyAll uses e >>= fun f => Except.ok ((), f)) = _ ↔ _
  cases Use.applyAll uses e with
  | error => exact ⟨nofun, nofun⟩
  | ok f => simp [bind, Except.bind]

theorem operates_ofUses (h : ∀ e : Emitter, e.tracker.depth = 0 → Use.FitsAll .void uses e) :
    (ofUses uses).Operates v := by
  intro e e' hdepth hrun
  exact ⟨uses, run_ofUses_eq_ok.1 hrun, h e hdepth⟩

theorem confined_ofUses (uses : List Use) (v : AdapterView) :
    Confined ((ofUses uses).compile v) :=
  fun _ _ _ hrun => touches_of_applyAll (run_ofUses_eq_ok.1 hrun)

end Clause

namespace AdapterPlan

variable {p : AdapterPlan} {pool : ConstantPool} {slots : Nat} {e e' : Emitter}

/-- All clauses of the rule use the emitter only in ways that fit. -/
structure ClausesOperate (p : AdapterPlan) : Prop where
  event : p.rule.event.Operates p.view
  condition : p.rule.condition.Operates p.view
  action : p.rule.action.Operates p.view

theorem reachable_of_returnValue {type : JavaType} {u : Unit}
    (h : returnValue type e = .ok (u, e')) : e'.reachable = false := by
  obtain ⟨-, effect, -, -, -, rfl⟩ := emit_eq_ok.1 h
  show (e.reachable && !(returnOp type).isTerminal) = false
  cases type <;> exact Bool.and_false _

theorem exists_session_guardedAction (h : p.rule.action.Operates p.view) (hcoh : e.pool.Coherent)
    (hdepth : e.tracker.depth = 1) (hrun : p.guardedAction.run e = .ok (.ok (), e')) :
    (∃ xs, Session .void e xs e') ∧ e'.reachable = false := by
  obtain ⟨skip, e₁, hlabel, hrun⟩ := run_bind_eq_ok.1 hrun
  obtain ⟨_, e₂, hbranch, hrun⟩ := run_bind_eq_ok.1 hrun
  obtain ⟨_, e₃, haction, hrun⟩ := run_bind_eq_ok.1 hrun
  obtain ⟨_, e₄, hbalanced, hrun⟩ := run_bind_eq_ok.1 hrun
  obtain ⟨_, e₅, hplace, hrun⟩ := run_bind_eq_ok.1 hrun
  obtain ⟨_, e₆, hend, hreturn⟩ := run_bind_eq_ok.1 hrun
  rw [run_liftM_eq_ok] at hlabel hbranch hbalanced hplace hend hreturn
  obtain ⟨xs₁, hem₁, -⟩ : Emits .void e e₁ := (straight_newLabel hlabel).emits
  obtain ⟨xs₂, hem₂, -⟩ : Emits .void e₁ e₂ := emits_branch hbranch
  have hses₂ := (hem₁.trans hem₂).session
  -- The branch has taken the condition from the stack, so the action starts with an empty one.
  have hdepth₂ : e₂.tracker.depth = 0 := by
    obtain ⟨-, rfl⟩ := newLabel_eq_ok.1 hlabel
    obtain ⟨-, -, -, rfl⟩ := branch_eq_ok.1 hbranch
    show e.tracker.depth - 1 = 0
    omega
  obtain ⟨xs₃, hses₃⟩ := h.exists_session (hses₂.grows.coherent hcoh) hdepth₂ haction
  obtain ⟨-, rfl⟩ := checkBalanced_eq_ok.1 hbalanced
  obtain ⟨xs₅, hem₅, -⟩ : Emits .void e₄ e₅ := (straight_placeLabel hplace).emits
  obtain ⟨xs₆, hem₆, -⟩ : Emits .void e₅ e₆ := (straight_noteEnd hend).emits
  obtain ⟨xs₇, hem₇, -⟩ : Emits .void e₆ e' := emits_emit hreturn fun _ => ⟨rfl, rfl⟩
  exact ⟨⟨_, (hses₂.trans hses₃).trans ((hem₅.trans hem₆).trans hem₇).session⟩,
    reachable_of_returnValue hreturn⟩

/-- **The code of clauses that use the emitter in ways that fit is a session**, and leaves no way
past its end. -/
theorem exists_session_compiledBody (h : p.ClausesOperate) (hcoh : pool.Coherent)
    (hrun : p.compiledBody.run (ofPool pool slots) = .ok (.ok (), e)) :
    (∃ xs, Session .void (ofPool pool slots) xs e) ∧ e.reachable = false := by
  rw [compiledBody_eq] at hrun
  obtain ⟨_, e₁, hline, hrun⟩ := run_bind_eq_ok.1 hrun
  obtain ⟨_, e₂, hevent, hrun⟩ := run_bind_eq_ok.1 hrun
  obtain ⟨_, e₃, hbalanced, hrun⟩ := run_bind_eq_ok.1 hrun
  obtain ⟨_, e₄, hcondition, hrun⟩ := run_bind_eq_ok.1 hrun
  obtain ⟨_, e₅, hexpect, haction⟩ := run_bind_eq_ok.1 hrun
  rw [run_liftM_eq_ok] at hline hbalanced
  have hdepth₁ : e₁.tracker.depth = 0 := by
    obtain ⟨t, lines, ht, -, hmark⟩ := exists_markLine
      (fun t => sameSlots_noteLine t p.rule.line) (ofPool pool slots)
    cases hmark.symm.trans hline
    exact ht.depth
  obtain ⟨xs₁, hem₁, -⟩ : Emits .void _ e₁ := (straight_noteLine hline).emits
  obtain ⟨xs₂, hses₂⟩ := h.event.exists_session (hem₁.grows.coherent hcoh) hdepth₁ hevent
  have hses₂ := hem₁.session.trans hses₂
  obtain ⟨hdepth₂, rfl⟩ := checkBalanced_eq_ok.1 hbalanced
  obtain ⟨xs₄, hses₄⟩ :=
    h.condition.exists_session (hses₂.grows.coherent hcoh) hdepth₂ hcondition
  have hses₄ := hses₂.trans hses₄
  obtain ⟨hdepth₄, rfl⟩ := run_expectCondition_eq_ok.1 hexpect
  obtain ⟨⟨xs, hses⟩, hdead⟩ :=
    exists_session_guardedAction h.action (hses₄.grows.coherent hcoh) hdepth₄ haction
  exact ⟨⟨_, hses₄.trans hses⟩, hdead⟩

/-! ### The compiled strategy -/

theorem adds_addStrategy_compiled (h : p.ClausesOperate) (hstrategy : p.strategy = .compiled) :
    p.Adds 1 p.addStrategy := by
  intro j d d' hd hrun
  unfold addStrategy at hrun
  rw [hstrategy] at hrun
  have hslots : MethodType.action.callWord true = .ok 1 := rfl
  obtain ⟨e, finished, hbody, hfinish, rfl⟩ :=
    run_emitMethod_eq_ok ((run_addMethod hslots d).symm.trans hrun)
  have hcoh : d.pool.Coherent := by
    obtain ⟨o, hrep, -⟩ := hd
    exact hrep.coherent
  obtain ⟨⟨xs, hses⟩, hdead⟩ := exists_session_compiledBody h hcoh hbody
  refine hd.addMethod hses.grows fun hv => ?_
  have hcompiled : p.strategy ≠ .interpreted := by rw [hstrategy]; nofun
  obtain ⟨q, hle, hcomplete⟩ := hses.exists_complete (show 1 ≤ wordMax by decide) hdead hfinish
  exact hcomplete.passes hle (fun hexact => absurd hexact hcompiled) hv callFits_action hslots rfl
    (show 1 ≤ wordMax by decide)

theorem operates_skip (v : AdapterView) : Clause.skip.Operates v := by
  intro e e' _ hrun
  cases hrun
  exact ⟨[], rfl, trivial⟩

theorem operates_always (v : AdapterView) : Clause.always.Operates v := by
  intro e e' _ hrun
  have hone : Emitter.intConst 1 e = .ok ((), e') := run_liftM_eq_ok.1 hrun
  exact ⟨[.operate (.intConst 1)],
    Except.bind_eq_ok.2 ⟨e', Use.apply_operate_eq_ok.2 hone, rfl⟩, fun _ => trivial,
    fun _ _ => trivial⟩

end AdapterPlan

/-! ### Whole classes -/

/-- Number of methods of an adapter. -/
def Strategy.methodCount : Strategy → Nat
  | .compiled => 9
  | .interpreted => 12

/-- Methods that are accepted one by one are accepted in a row. -/
theorem exists_inspectMethods {exact : Prop} {pool : ConstantPool} {ms : List MethodImage}
    (h : ∀ m ∈ ms, ∃ s, inspectMethod pool m = pure (some s) ∧ s.Within exact) :
    ∀ done, ∃ found, inspectMethods pool ms done = pure (done.reverse ++ found) ∧
      found.length = ms.length ∧ ∀ s ∈ found, s.Within exact := by
  induction ms with
  | nil => exact fun done => ⟨[], by rw [List.append_nil]; rfl, rfl, nofun⟩
  | cons m ms ih =>
    intro done
    obtain ⟨⟨s, hs, hwithin⟩, hms⟩ := List.forall_mem_cons.1 h
    obtain ⟨found, hfound, hlength, hall⟩ := ih hms (s :: done)
    refine ⟨s :: found, ?_, congrArg (· + 1) hlength, List.forall_mem_cons.2 ⟨hwithin, hall⟩⟩
    rw [List.reverse_cons, List.append_assoc, List.singleton_append] at hfound
    rw [inspectMethods, hs, pure_bind]
    exact hfound

theorem Inspect.exists_of_bind_eq_pure {α β : Type} {x : Inspect α} {f : α → Inspect β} {b : β}
    (h : x >>= f = pure b) : ∃ a, x = pure a ∧ f a = pure b := by
  rcases x with defect | (cause | a)
  · cases h
  · cases h
  · exact ⟨a, rfl, h⟩

/-- Methods that are accepted in a row are accepted one by one. -/
theorem exists_inspectMethod_of_mem {pool : ConstantPool} {ms : List MethodImage} {m : MethodImage}
    (hm : m ∈ ms) : ∀ {done found}, inspectMethods pool ms done = pure found →
      ∃ r, inspectMethod pool m = pure r := by
  induction ms with
  | nil => cases hm
  | cons first rest ih =>
    intro done found h
    obtain ⟨r, hfirst, hrest⟩ := Inspect.exists_of_bind_eq_pure h
    rcases List.mem_cons.1 hm with rfl | hm
    · exact ⟨r, hfirst⟩
    · exact ih hm hrest

/-- **A class is rejected if one of its methods is.** -/
theorem inspectClass_ne_pure {bytes : List UInt8} {c : ClassImage} {m : MethodImage}
    (hread : ClassImage.ofBytes bytes = .ok c) (hm : m ∈ c.methods)
    (hreject : ∀ r, inspectMethod c.pool m ≠ pure r) (report : InspectionReport) :
    inspectClass bytes ≠ pure report := by
  intro h
  unfold inspectClass at h
  rw [hread] at h
  obtain ⟨found, hfound, -⟩ := Inspect.exists_of_bind_eq_pure h
  obtain ⟨r, hr⟩ := exists_inspectMethod_of_mem hm hfound
  exact hreject r hr

namespace AdapterPlan

variable {p : AdapterPlan} {k : Nat} {d : ClassDraft} {bytes : List UInt8}

/-- **A class whose methods pass is accepted as a whole.** -/
theorem Holds.exists_inspectClass (h : p.Holds k d) (hdebug : DebugSized p.debugText)
    (hbytes : d.encode = .ok bytes) :
    ∃ report, inspectClass bytes = pure report ∧ report.methods.length = k ∧
      ∀ s ∈ report.methods, s.Within (p.strategy = .interpreted) := by
  obtain ⟨o, hrep, -, hsource, -, -, hcount, hmethods⟩ := h
  have hpass := hmethods (ClassImage.encode_eq_ok.1 hbytes).1
  have hsized : ClassImage.OutlineSized o := by
    refine ⟨fun m hm => (hpass m hm).sized, fun text htext => ?_⟩
    rw [hsource] at htext
    cases htext
    exact hdebug
  obtain ⟨pool, hslots, -, hread⟩ := ClassImage.exists_ofBytes_encode hrep hsized hbytes
  obtain ⟨found, hfound, hlength, hall⟩ := exists_inspectMethods
    (fun m hm => (hpass m hm).accepted pool (extends_of_slots_eq hslots.symm)) []
  refine ⟨⟨ClassImage.ofOutline d.version d.access pool o, found⟩, ?_, hlength.trans hcount, hall⟩
  unfold inspectClass
  rw [hread]
  show (inspectMethods pool o.methods [] >>= _) = _
  rw [hfound, pure_bind]
  rfl

/-! ### Events -/

/-- The plan for a rule with another event. -/
def withEvent (p : AdapterPlan) (event : Clause) : AdapterPlan :=
  { p with rule := { p.rule with event } }

theorem fits_withEvent (strategy : Strategy) (event : Clause) :
    ((samplePlan strategy).withEvent event).Fits :=
  have h := fits_samplePlan strategy
  ⟨h.names, h.fields⟩

/-- The sample can be built with an event that keeps the frame. -/
theorem exists_build_withEvent {uses : List Use} {n r : Nat} (hn : n ≤ 1000) (hr : r ≤ 800)
    (hevent : ∀ pool, ∃ e e', noteLine 3 (ofPool pool 1) = .ok ((), e) ∧
      Use.applyAll uses e = .ok e' ∧
      Ran .void False True [] n r (some 0) (ofPool pool 1) e') :
    ∃ bytes, ((samplePlan .compiled).withEvent (.ofUses uses)).build = .ok (.ok bytes) := by
  have h := feasible_samplePlan .compiled
  have hword : n + 7 ≤ wordMax := Nat.le_trans (Nat.add_le_add_right hn 7) (by decide)
  have hroom : r + 1 ≤ 900 := by omega
  refine Feasible.exists_build_compiled ⟨h.constructs, h.texts, h.bindings, h.count⟩
    (fits_withEvent _ _) rfl hword hroom fun pool => ?_
  obtain ⟨e, e', hline, huses, hran⟩ := hevent pool
  exact exists_compiledBody hline (Clause.run_ofUses_eq_ok.2 huses) hran hn rfl rfl

/-- An event that keeps a number in a local slot of its own, and interns a text. -/
def keepingUses : List Use :=
  [.intern (.utf8 "note"), .track (.allocLocal 1), .operate (.intConst 7),
    .operate (.store .int 1), .track (.releaseLocals 1)]

theorem fitsAll_keepingUses (e : Emitter) : Use.FitsAll .void keepingUses e := by
  simp [keepingUses, Use.FitsAll, Use.Fits, Tracking.LeavesStack, Operation.Fits]

theorem exists_build_keepingUses :
    ∃ bytes, ((samplePlan .compiled).withEvent (.ofUses keepingUses)).build = .ok (.ok bytes) := by
  refine exists_build_withEvent (n := 3) (r := 1) (by decide) (by decide) fun pool =>
    ⟨_, _, rfl, rfl, ?_, ⟨rfl, rfl⟩, grows_utf8 pool "note", False.elim, fun _ k hk => ?_⟩
  · exact ⟨Nat.zero_le _, Nat.le_refl 3, rfl, nofun, nofun, .nil, nofun⟩
  · exact hk.utf8 (by decide)

/-- An event that casts where there is nothing to cast. -/
def castUses : List Use := [.operate (.checkCast .text)]

theorem exists_build_castUses :
    ∃ bytes, ((samplePlan .compiled).withEvent (.ofUses castUses)).build = .ok (.ok bytes) := by
  refine exists_build_withEvent (n := 3) (r := 2) (by decide) (by decide) fun pool => ?_
  have h₀ : Ran .void False True [] 0 0 (some 0) (ofPool pool 1) _ := .refl rfl rfl rfl
  obtain ⟨e, hline, h₁⟩ := h₀.block (Block.markLine fun t => sameSlots_noteLine t 3)
  have hblock : Block .void False True 3 2 0 (some 0) (checkCast .text) :=
    Block.checkCast rfl False.elim fun _ => by decide
  obtain ⟨e', hcast, h₂⟩ := h₁.block hblock
  exact ⟨e, e', hline, Except.bind_eq_ok.2 ⟨e', Use.apply_operate_eq_ok.2 hcast, rfl⟩,
    h₂.mono (by decide) (by decide)⟩

/-- An event that returns a number on one of its two paths. -/
def returnUses : List Use :=
  [.operate .newLabel, .operate (.intConst 0), .operate (.branch .ifeq ⟨0⟩),
    .operate (.intConst 0), .operate (.returnValue .int), .operate (.placeLabel ⟨0⟩)]

theorem exists_build_returnUses :
    ∃ bytes, ((samplePlan .compiled).withEvent (.ofUses returnUses)).build = .ok (.ok bytes) := by
  refine exists_build_withEvent (n := 10) (r := 2) (by decide) (by decide) fun pool => ?_
  have h₀ : Ran .void False True [] 0 0 (some 0) (ofPool pool 1) _ := .refl rfl rfl rfl
  obtain ⟨e, hline, h₁⟩ := h₀.block (Block.markLine fun t => sameSlots_noteLine t 3)
  have hreturn : Block .void False True 4 1 0 none (do intConst 0; returnValue .int) :=
    (Block.intConst 0 (Nat.zero_le _)).seq (Block.returnValue rfl False.elim)
  have hskipping : Block .void False True 10 2 0 (some 0) (skipping (intConst 0) _) :=
    Block.skipping (Block.intConst 0 (Nat.zero_le _)) hreturn (.inr rfl) (by decide)
  obtain ⟨e', hrun, h₂⟩ := h₁.block hskipping
  refine ⟨e, e', hline, ?_, h₂.mono (by decide) (by decide)⟩
  obtain ⟨l, e₁, hlabel, hrun⟩ := Emit.bind_eq_ok.1 hrun
  obtain ⟨_, e₂, htest, hrun⟩ := Emit.bind_eq_ok.1 hrun
  obtain ⟨_, e₃, hbranch, hrun⟩ := Emit.bind_eq_ok.1 hrun
  obtain ⟨_, e₅, hrest, hplace⟩ := Emit.bind_eq_ok.1 hrun
  obtain ⟨_, e₄, hzero, hreturn⟩ := Emit.bind_eq_ok.1 hrest
  obtain rfl : l = ⟨0⟩ := by
    rw [(newLabel_eq_ok.1 hlabel).1, (code_of_noteLine hline).2]
    rfl
  exact Except.bind_eq_ok.2 ⟨e₁, Use.apply_operate_eq_ok.2 (Emit.bind_eq_ok.2 ⟨_, e₁, hlabel, rfl⟩),
    Except.bind_eq_ok.2 ⟨e₂, Use.apply_operate_eq_ok.2 htest,
    Except.bind_eq_ok.2 ⟨e₃, Use.apply_operate_eq_ok.2 hbranch,
    Except.bind_eq_ok.2 ⟨e₄, Use.apply_operate_eq_ok.2 hzero,
    Except.bind_eq_ok.2 ⟨e₅, Use.apply_operate_eq_ok.2 hreturn,
    Except.bind_eq_ok.2 ⟨e', Use.apply_operate_eq_ok.2 hplace, rfl⟩⟩⟩⟩⟩⟩

/-- **What an event writes stands in the finished body**, from the start. -/
theorem exists_event_of_emitted {pool : ConstantPool} {body : MethodBody} {uses : List Use}
    (hevent : p.rule.event = .ofUses uses) (hclauses : p.ClausesConfined)
    (h : Emitted p.compiledBody pool body) :
    ∃ e e' xs, e.assembly.code.size = 0 ∧ Orderly e xs ∧ Use.applyAll uses e = .ok e' ∧
      ∀ f ys, Relation.ReflTransGen Touches f e' → Orderly f ys →
        ∀ x ∈ ys, ∃ i, Instruction.at? body.code x.pc = some i ∧ i.op = x.instr.op := by
  obtain ⟨start, slots, last, -, hrun, hfinish, -⟩ := h
  rw [compiledBody_eq] at hrun
  obtain ⟨_, e, hline, hrun⟩ := run_bind_eq_ok.1 hrun
  obtain ⟨_, e', huses, hrun⟩ := run_bind_eq_ok.1 hrun
  rw [run_liftM_eq_ok] at hline
  rw [hevent] at huses
  obtain ⟨new, -, horder, -⟩ := writes_noteLine _ _ _ _ hline
  refine ⟨e, e', _, ?_, horder [] (orderly_ofPool start slots), Clause.run_ofUses_eq_ok.1 huses,
    fun f ys hf hys x hx => ?_⟩
  · rw [(code_of_noteLine hline).1]
    rfl
  · obtain ⟨fields, later, -, horder', -⟩ :=
      exists_appends_of_touches (hf.trans (confined_afterEvent hclauses e' () last hrun))
    exact (horder' ys hys).composed.exists_at? hfinish x (List.mem_append_right _ hx)

/-- The first instruction of the finished body is the cast. -/
theorem exists_at?_castUses {pool : ConstantPool} {body : MethodBody}
    (hevent : p.rule.event = .ofUses castUses) (hclauses : p.ClausesConfined)
    (h : Emitted p.compiledBody pool body) :
    ∃ i, Instruction.at? body.code 0 = some i ∧ i.op = .checkcast := by
  obtain ⟨e, e', xs, hsize, hxs, huses, hall⟩ := exists_event_of_emitted hevent hclauses h
  obtain ⟨_, huse, hrest⟩ := Except.bind_eq_ok.1 huses
  cases hrest
  have hcast : checkCast .text e = .ok ((), e') := Use.apply_operate_eq_ok.1 huse
  obtain ⟨name, -, he'⟩ := checkCast_eq_ok.1 hcast
  have hys : Orderly e' (e.placedAt _ none :: xs) :=
    hxs.append (by rw [he']; rfl) (by rw [he']; rfl)
      (by rw [he']; exact (List.append_nil _).symm) (.inl ⟨rfl, rfl⟩)
  obtain ⟨i, hat, hop⟩ := hall _ _ .refl hys _ List.mem_cons_self
  rw [show (e.placedAt _ none).pc = 0 from hsize] at hat
  exact ⟨i, hat, hop⟩

/-- The path of the event that does not branch ends with the return of a number. -/
theorem exists_at?_returnUses {pool : ConstantPool} {body : MethodBody}
    (hevent : p.rule.event = .ofUses returnUses) (hclauses : p.ClausesConfined)
    (h : Emitted p.compiledBody pool body) :
    (∃ i, Instruction.at? body.code 5 = some i ∧ i.op = .ireturn) ∧
      ∀ pool type starts, Reachable ⟨pool, body, type, starts⟩ 5 1 := by
  obtain ⟨e, e', xs, hsize, hxs, huses, hall⟩ := exists_event_of_emitted hevent hclauses h
  obtain ⟨e₁, hlabel, huses⟩ := Except.bind_eq_ok.1 huses
  obtain ⟨e₂, htest, huses⟩ := Except.bind_eq_ok.1 huses
  obtain ⟨e₃, hbranch, huses⟩ := Except.bind_eq_ok.1 huses
  obtain ⟨e₄, hzero, huses⟩ := Except.bind_eq_ok.1 huses
  obtain ⟨e₅, hreturn, huses⟩ := Except.bind_eq_ok.1 huses
  obtain ⟨l, _, hnew, hpure⟩ := Emit.bind_eq_ok.1 (Use.apply_operate_eq_ok.1 hlabel)
  cases hpure
  obtain ⟨-, he₁⟩ := newLabel_eq_ok.1 hnew
  replace htest : emit .iconst0 e₁ = .ok ((), e₂) := Use.apply_operate_eq_ok.1 htest
  replace hbranch : branch .ifeq ⟨0⟩ e₂ = .ok ((), e₃) := Use.apply_operate_eq_ok.1 hbranch
  replace hzero : emit .iconst0 e₃ = .ok ((), e₄) := Use.apply_operate_eq_ok.1 hzero
  replace hreturn : emit .ireturn e₄ = .ok ((), e₅) := Use.apply_operate_eq_ok.1 hreturn
  have hsize₁ : e₁.assembly.code.size = 0 := by rw [he₁]; exact hsize
  have h₁ : Orderly e₁ xs := hxs.congr (by rw [he₁]; rfl) (by rw [he₁]; rfl) (by rw [he₁]; rfl)
  obtain ⟨x₁, hpc₁, hop₁, h₂, hsize₂⟩ := h₁.exists_emit htest rfl
  obtain ⟨x₂, hpc₂, hop₂, h₃, hsize₃⟩ := h₂.exists_branch hbranch
  obtain ⟨x₃, hpc₃, hop₃, h₄, hsize₄⟩ := h₃.exists_emit hzero rfl
  obtain ⟨x₄, hpc₄, hop₄, h₅, -⟩ := h₄.exists_emit hreturn rfl
  -- The operand of the branch is open until the body is finished, so only the opcodes are known.
  have hstands := hall e₅ _ (touches_of_applyAll huses) h₅
  simp only [List.forall_mem_cons, hpc₁, hpc₂, hpc₃, hpc₄, hop₁, hop₂, hop₃, hop₄, hsize₄, hsize₃,
    hsize₂, hsize₁] at hstands
  obtain ⟨hat₄, hat₃, hat₂, hat₁, -⟩ := hstands
  refine ⟨hat₄, fun pool type starts => ?_⟩
  have hentry : Reachable ⟨pool, body, type, starts⟩ 0 0 := .entry
  have htested := hentry.next hat₁ rfl rfl (Nat.zero_le 0) rfl
  have hpassed := htested.next hat₂ rfl rfl (Nat.le_refl 1) rfl
  exact hpassed.next hat₃ rfl rfl (Nat.zero_le 0) rfl

theorem find?_execute0 (hstrategy : p.strategy = .compiled) (chosen : SuperConstructor) :
    (p.members chosen).find? (·.isNamed "execute0" .action) =
      some (p.privateMember "execute0" .action p.compiledBody) := by
  simp [members, sharedMembers, strategyMembers, hstrategy, publicMember, privateMember,
    Member.isNamed, Adapter.forwarded]

/-- **A class is rejected if the code of its clauses is.** -/
theorem inspectClass_ne_pure_of_compiledBody (hbuild : p.build = .ok (.ok bytes))
    (hstrategy : p.strategy = .compiled) (hclauses : p.ClausesConfined)
    (hdebug : DebugSized p.debugText)
    (hbad : ∀ (pool pool' : ConstantPool) (m : MethodImage) (body : MethodBody),
      m.body = some body → MethodType.ofDescriptor? m.descriptor = some .action →
      Emitted p.compiledBody pool' body → ∀ r, inspectMethod pool m ≠ pure r)
    (report : InspectionReport) : inspectClass bytes ≠ pure report := by
  obtain ⟨chosen, d, gs, -, hbytes, hrep, hmade, hsized⟩ :=
    exists_draft_of_build hbuild fun _ => hclauses
  obtain ⟨pool, hread, -⟩ := exists_ofBytes_of_draft hrep hbytes hsized hdebug
  obtain ⟨g, hg, hmade⟩ := Member.exists_find?_made hmade (find?_execute0 hstrategy chosen)
  obtain ⟨body, hbody, hemitted⟩ := hmade.body
  have htype : MethodType.ofDescriptor? g.descriptor = some .action := by
    rw [hmade.descriptor]
    exact MethodType.ofDescriptor?_descriptor ⟨nofun, trivial⟩
  exact inspectClass_ne_pure hread (List.mem_of_find?_eq_some hg)
    (hbad _ _ g body hbody htype hemitted) report

/-- **A class whose event starts with a cast is built and rejected.** -/
theorem inspectClass_ne_pure_of_castUses (hbuild : p.build = .ok (.ok bytes))
    (hstrategy : p.strategy = .compiled) (hevent : p.rule.event = .ofUses castUses)
    (hclauses : p.ClausesConfined) (hdebug : DebugSized p.debugText) (report : InspectionReport) :
    inspectClass bytes ≠ pure report := by
  refine inspectClass_ne_pure_of_compiledBody hbuild hstrategy hclauses hdebug
    (fun pool pool' m body hbody htype hemitted => ?_) report
  obtain ⟨i, hat, hop⟩ := exists_at?_castUses hevent hclauses hemitted
  have heffect : i.op.fixedEffect? = some ⟨1, 1⟩ := by rw [hop]; rfl
  exact inspectMethod_ne_pure_of_first hbody htype hat heffect Nat.zero_lt_one

/-- **So is a class whose event returns a number.** -/
theorem inspectClass_ne_pure_of_returnUses (hbuild : p.build = .ok (.ok bytes))
    (hstrategy : p.strategy = .compiled) (hevent : p.rule.event = .ofUses returnUses)
    (hclauses : p.ClausesConfined) (hdebug : DebugSized p.debugText) (report : InspectionReport) :
    inspectClass bytes ≠ pure report := by
  refine inspectClass_ne_pure_of_compiledBody hbuild hstrategy hclauses hdebug
    (fun pool pool' m body hbody htype hemitted => ?_) report
  obtain ⟨⟨i, hat, hop⟩, hreach⟩ := exists_at?_returnUses hevent hclauses hemitted
  have hreturn : returnFits i.op MethodType.action.ret = false := by rw [hop]; rfl
  exact inspectMethod_ne_pure_of_return hbody htype (hreach pool .action) hat hreturn

/-! ### Acceptance -/

/-- **Adapters are accepted.**  If the clauses are interpreted, the build meets no defect and fails
for no branch. Whenever it succeeds, for types and names that descriptors can tell and a debug text
of less than 2^32 bytes, the inspection accepts the class and has a summary of each of its methods:
it finds at most the declared depth and local slots, and exactly these if the clauses are
interpreted. If they are compiled, they have to use the emitter in ways that fit. -/
theorem build_accepted (p : AdapterPlan) :
    (p.strategy = .interpreted →
      ∃ res, p.build = .ok res ∧ ∀ cause, res = .error cause → ¬cause.IsBranch) ∧
    ∀ bytes, p.build = .ok (.ok bytes) → p.Fits → DebugSized p.debugText →
      (p.strategy = .compiled → p.ClausesOperate) →
      ∃ report, inspectClass bytes = pure report ∧
        report.methods.length = p.strategy.methodCount ∧
        ∀ s ∈ report.methods, s.Within (p.strategy = .interpreted) := by
  refine ⟨fun hstrategy => ?_, fun bytes hbuild hfits hdebug hclauses => ?_⟩
  · exact (builds_addMethods (builds_addStrategy_interpreted hstrategy)).exists_build
  · obtain ⟨d, hrun, hbytes⟩ := build_eq_ok.1 hbuild
    rw [addMethods_eq] at hrun
    cases hstrategy : p.strategy with
    | compiled =>
      have hadds := (builds_addShared.adds hfits).seq
        (adds_addStrategy_compiled (hclauses hstrategy) hstrategy)
      have h := (hadds 0 _ d holds_fieldsOnly hrun).exists_inspectClass hdebug hbytes
      rwa [hstrategy] at h
    | interpreted =>
      have hadds := (builds_addShared.adds hfits).seq
        ((builds_addStrategy_interpreted hstrategy).adds hfits)
      have h := (hadds 0 _ d holds_fieldsOnly hrun).exists_inspectClass hdebug hbytes
      rwa [hstrategy] at h

theorem build_accepted_samplePlan :
    (∃ bytes report, (samplePlan .interpreted).build = .ok (.ok bytes) ∧
      inspectClass bytes = pure report ∧ report.methods.length = 12 ∧
      ∀ s ∈ report.methods, s.Within True) ∧
    (∃ bytes report, (samplePlan .compiled).build = .ok (.ok bytes) ∧
      inspectClass bytes = pure report ∧ report.methods.length = 9 ∧
      ∀ s ∈ report.methods, s.Within False) ∧
    ∃ bytes report,
      ((samplePlan .compiled).withEvent (.ofUses keepingUses)).build = .ok (.ok bytes) ∧
      inspectClass bytes = pure report ∧ report.methods.length = 9 ∧
      ∀ s ∈ report.methods, s.Within False := by
  refine ⟨?_, ?_, ?_⟩
  · obtain ⟨bytes, hbuild⟩ := (feasible_samplePlan .interpreted).exists_build
      (fits_samplePlan .interpreted) (builds_addStrategy_interpreted rfl) (by decide) (by decide)
    obtain ⟨report, hreport, hcount, hall⟩ := (build_accepted (samplePlan .interpreted)).2 bytes
      hbuild (fits_samplePlan _) (debugSized_samplePlan _) nofun
    exact ⟨bytes, report, hbuild, hreport, hcount, fun s hs =>
      ⟨(hall s hs).depth, (hall s hs).locals, fun _ => (hall s hs).equal rfl⟩⟩
  · obtain ⟨bytes, hbuild⟩ := (feasible_samplePlan .compiled).exists_build
      (fits_samplePlan .compiled) (builds_addStrategy_compiled rfl rfl rfl rfl) (by decide)
      (by decide)
    obtain ⟨report, hreport, hcount, hall⟩ := (build_accepted (samplePlan .compiled)).2 bytes
      hbuild (fits_samplePlan _) (debugSized_samplePlan _)
      fun _ => ⟨operates_skip _, operates_always _, operates_skip _⟩
    exact ⟨bytes, report, hbuild, hreport, hcount, fun s hs =>
      ⟨(hall s hs).depth, (hall s hs).locals, False.elim⟩⟩
  · obtain ⟨bytes, hbuild⟩ := exists_build_keepingUses
    obtain ⟨report, hreport, hcount, hall⟩ := (build_accepted _).2 bytes hbuild
      (fits_withEvent _ _) (debugSized_samplePlan .compiled)
      fun _ => ⟨Clause.operates_ofUses fun e _ => fitsAll_keepingUses e, operates_always _,
        operates_skip _⟩
    exact ⟨bytes, report, hbuild, hreport, hcount, fun s hs =>
      ⟨(hall s hs).depth, (hall s hs).locals, False.elim⟩⟩

/-- **Three ways to be rejected.**  A class whose debug text has 2^32 bytes cannot be read. And the
emitter takes what the inspection does not: a clause may return a number from a method without a
result, or append a cast where the stack is empty. -/
theorem build_rejected :
    (∃ file bytes, ((samplePlan .interpreted).withFile file).build = .ok (.ok bytes) ∧
      ((samplePlan .interpreted).withFile file).Fits ∧
      inspectClass bytes = throw (.unreadable (.trailing (2 ^ 32)))) ∧
    (∃ bytes, ((samplePlan .compiled).withEvent (.ofUses returnUses)).build = .ok (.ok bytes) ∧
      ((samplePlan .compiled).withEvent (.ofUses returnUses)).Fits ∧
      ∀ report, inspectClass bytes ≠ pure report) ∧
    ∃ bytes, ((samplePlan .compiled).withEvent (.ofUses castUses)).build = .ok (.ok bytes) ∧
      ((samplePlan .compiled).withEvent (.ofUses castUses)).Fits ∧
      ∀ report, inspectClass bytes ≠ pure report := by
  have hclauses (uses : List Use) :
      ((samplePlan .compiled).withEvent (.ofUses uses)).ClausesConfined :=
    ⟨Clause.confined_ofUses _ _, confined_run (.intConst 1), .pure ()⟩
  have hdebug := debugSized_samplePlan .compiled
  refine ⟨?_, ?_, ?_⟩
  · obtain ⟨file, bytes, hbuild, -, hread⟩ := exists_overflowing_build
    refine ⟨file, bytes, hbuild, (fits_samplePlan .interpreted).withFile file, ?_⟩
    unfold inspectClass
    rw [hread]
  · obtain ⟨bytes, hbuild⟩ := exists_build_returnUses
    exact ⟨bytes, hbuild, fits_withEvent _ _,
      inspectClass_ne_pure_of_returnUses hbuild rfl rfl (hclauses _) hdebug⟩
  · obtain ⟨bytes, hbuild⟩ := exists_build_castUses
    exact ⟨bytes, hbuild, fits_withEvent _ _,
      inspectClass_ne_pure_of_castUses hbuild rfl rfl (hclauses _) hdebug⟩

end AdapterPlan

end ClassForge
