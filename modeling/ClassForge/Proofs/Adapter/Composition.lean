import ClassForge.Proofs.Adapter.Accessors
import ClassForge.Proofs.Adapter.Execution
import ClassForge.Proofs.Emission.Composition
import Mathlib.Logic.Relation

/-!
# The composition of an adapter's methods

Every method of an adapter consists of whole instructions, whatever types and names the plan has,
as long as compiled clauses use the body under construction only through its operations.

* `Emitter.Confined` — code that does so;
* `AdapterPlan.confined_compiledBody` — **PROVED**: compiled clauses in a row are such code;
* `writes_constructorBody`, `writes_executeBody`, `writes_setBindingBody` — **PROVED**: the fields
  that these methods store into, in order; no other shared method stores into any;
* `Emitted.sized`, `Emitted.stores` — **PROVED**: so a body of such code can be encoded, and stores
  into these fields;
* `AdapterPlan.composes_members` — **PROVED**: all methods are of this kind.
-/

namespace ClassForge

open ConstantPool Emitter

/-! ### Confined code -/

namespace Emitter

/-- One use of the body under construction: an operation, a constant that is interned, or other
slots that are tracked. -/
inductive Touches : Emitter → Emitter → Prop where
  | operate {e e' : Emitter} (op : Operation) (h : op.run e = .ok ((), e')) : Touches e e'
  | intern (e : Emitter) (i : Interning) : Touches e (e.withPool (i.apply e.pool).2)
  | track (e : Emitter) (t : Tracker) : Touches e (e.withTracker t)

/-- **Code that is confined to operations.** What it does with their answers is arbitrary. -/
def Confined {α : Type} (x : ClauseEmit α) : Prop :=
  ∀ e a e', x.run e = .ok (.ok a, e') → Relation.ReflTransGen Touches e e'

variable {α β : Type} {e e' : Emitter}

theorem Confined.bind {x : ClauseEmit α} {k : α → ClauseEmit β} (hx : Confined x)
    (hk : ∀ a, Confined (k a)) : Confined (x >>= k) := by
  intro e b e'' h
  obtain ⟨a, e', hrun, hrest⟩ := run_bind_eq_ok.1 h
  exact (hx e a e' hrun).trans (hk a e' b e'' hrest)

theorem Confined.pure (a : α) : Confined (pure a : ClauseEmit α) := by
  intro e b e' h
  cases h
  exact .refl

theorem confined_run (op : Operation) : Confined (liftM op.run : ClauseEmit Unit) := by
  intro e _ e' h
  exact .single (.operate op (run_liftM_eq_ok.1 h))

theorem confined_newLabel : Confined (liftM newLabel : ClauseEmit Label) := by
  intro e l e' h
  exact .single (.operate .newLabel (Emit.bind_eq_ok.2 ⟨l, e', run_liftM_eq_ok.1 h, rfl⟩))

theorem Touches.exists_appends (h : Touches e e') : ∃ fields, Appends fields e e' := by
  cases h with
  | operate op hrun => exact ⟨op.stores, op.writes_run e () e' hrun⟩
  | intern i => exact ⟨[], appends_withPool (grows_apply e.pool i)⟩
  | track t => exact ⟨[], appends_of_same (.refl e.pool) rfl rfl rfl⟩

/-- **Any number of uses writes whole instructions.** -/
theorem exists_appends_of_touches (h : Relation.ReflTransGen Touches e e') :
    ∃ fields, Appends fields e e' := by
  induction h with
  | refl => exact ⟨[], .refl e⟩
  | tail _ hlast ih =>
    obtain ⟨fields, hfirst⟩ := ih
    obtain ⟨others, hlast⟩ := hlast.exists_appends
    exact ⟨fields ++ others, hfirst.trans hlast⟩

end Emitter

/-! ### Bodies -/

/-- Every successful run of the code writes whole instructions. -/
def Composes (code : ClauseEmit Unit) : Prop :=
  ∀ e e', code.run e = .ok (.ok (), e') → ∃ fields, Appends fields e e'

theorem composes_of_writes {fields : List MemberRef} {x : Emit Unit} (h : Writes fields x) :
    Composes (liftM x) :=
  fun e e' hrun => ⟨fields, h e () e' (run_liftM_eq_ok.1 hrun)⟩

theorem composes_of_confined {code : ClauseEmit Unit} (h : Confined code) : Composes code :=
  fun e e' hrun => exists_appends_of_touches (h e () e' hrun)

variable {code : ClauseEmit Unit} {pool : ConstantPool} {body : MethodBody}

/-- **A body of whole instructions can be encoded.** -/
theorem Emitted.sized (h : Emitted code pool body) (hcode : Composes code) : body.Sized := by
  obtain ⟨start, slots, e, -, hrun, hfinish, -⟩ := h
  obtain ⟨fields, new, -, horderly, -⟩ := hcode _ _ hrun
  exact (horderly [] (orderly_ofPool start slots)).sized hfinish

/-- **A body stores into the fields that its code names.** -/
theorem Emitted.stores {fields : List MemberRef} {x : Emit Unit}
    (h : Emitted (liftM x) pool body) (hx : Writes fields x) (hv : pool.violation = none) :
    body.Stores pool fields := by
  obtain ⟨start, slots, e, hcoh, hrun, hfinish, hgrows⟩ := h
  obtain ⟨new, -, horderly, hputs⟩ := hx _ _ _ (run_liftM_eq_ok.1 hrun)
  have horder := horderly [] (orderly_ofPool start slots)
  rw [List.append_nil] at horder
  exact horder.stores hfinish ((hputs hcoh (hgrows.clean hv)).extend hgrows.keeps)

theorem Member.keepsPool_of_composes {m : Member} (h : Composes m.code) : m.KeepsPool := by
  intro pool slots e hrun
  obtain ⟨fields, new, hgrows, -⟩ := h _ _ hrun
  exact hgrows

namespace AdapterPlan

variable {p : AdapterPlan} {b : Binding}

/-! ### Methods of every adapter -/

theorem writes_loadRule (className : String) (names : EngineNames) :
    Writes [] (Adapter.loadRule className names) :=
  (writes_load _ 0).seq (writes_getField _ _ _)

/-- The constructor stores the rule. -/
theorem writes_constructorBody (chosen : SuperConstructor) :
    Writes [p.ruleSlot] (Adapter.constructorBody p.className p.helper.name p.names chosen) := by
  have hkeep : Writes [p.ruleSlot] (do
      checkBalanced
      loadRef 0
      loadRef 1
      putField p.className Adapter.ruleField p.names.ruleType
      checkBalanced
      returnValue .void) :=
    writes_checkBalanced.seq <| (writes_load _ 0).seq <| (writes_load _ 1).seq <|
      (writes_putField _ _ _).after (writes_checkBalanced.seq (writes_emit _))
  unfold Adapter.constructorBody
  cases chosen with
  | withRule =>
    exact (writes_load _ 0).seq ((writes_load _ 1).seq ((writes_invokeSpecial _ _ _).seq hkeep))
  | plain => exact (writes_load _ 0).seq ((writes_invokeSpecial _ _ _).seq hkeep)

theorem writes_skipping {fields : List MemberRef} {test x : Emit Unit} (htest : Writes [] test)
    (hx : Writes fields x) : Writes fields (skipping test x) :=
  writes_newLabel.before fun skip => htest.seq <| (writes_branch _ skip).seq <|
    hx.after (writes_placeLabel skip)

theorem writes_traceRun (className : String) (names : EngineNames) :
    Writes [] (Adapter.traceRun className names) := by
  rw [traceRun_eq]
  exact writes_skipping (writes_invokeStatic _ _ _) <| (writes_getStatic _ _ _).seq <|
    (writes_newObject _).seq <| (writes_emit _).seq <| (writes_invokeSpecial _ _ _).seq <|
    (writes_loadRule _ _).seq <| (writes_invokeVirtual _ _ _).seq <|
    (writes_invokeVirtual _ _ _).seq <| (writes_textConst _).seq <|
    (writes_invokeVirtual _ _ _).seq <| (writes_invokeVirtual _ _ _).seq <|
    (writes_invokeVirtual _ _ _).seq writes_checkBalanced

theorem writes_storeObject (p : AdapterPlan) (b : Binding) (convert : Bool) :
    Writes [p.fieldOf b]
      (Adapter.storeObject p.className b.fieldName (p.rule.fieldType b) convert) := by
  cases convert with
  | false => exact writes_putField _ _ _
  | true => exact (writes_convert _ _).seq (writes_putField _ _ _)

/-- **Code for one binding after the other** stores into their fields in order. -/
theorem writes_each {f : PlannedBinding → Emit Unit} {g : Layout → Emit Unit}
    (hnil : g [] = pure ()) (hcons : ∀ b rest, g (b :: rest) = do f b; g rest)
    {fields : Binding → List MemberRef} (h : ∀ b, Writes (fields b) (f (p.planned b)))
    (bs : List Binding) : Writes (bs.flatMap fields) (g (bs.map p.planned)) := by
  induction bs with
  | nil =>
    rw [List.map_nil, hnil]
    exact .pure ()
  | cons b bs ih =>
    rw [List.map_cons, hcons, List.flatMap_cons]
    exact (h b).bind fun _ => ih

/-- The fields of the bindings that pass a test. -/
theorem flatMap_fieldOf (test : Binding → Bool) (bs : List Binding) :
    (bs.flatMap fun b => if test b then [p.fieldOf b] else []) =
      (bs.filter test).map p.fieldOf := by
  induction bs with
  | nil => rfl
  | cons b bs ih =>
    rw [List.flatMap_cons, ih, List.filter_cons]
    split <;> rfl

theorem writes_loadArgument (b : Binding) :
    Writes (if b.loads then [p.fieldOf b] else [])
      (Adapter.loadArgument p.className (p.planned b)) := by
  cases hloads : b.loads with
  | false =>
    rw [loadArgument_of_not_loads hloads]
    exact .pure ()
  | true =>
    rw [loadArgument_of_loads hloads]
    have hpush : Writes [] (pushIncoming b) :=
      .ite (writes_load _ 1) ((writes_load _ 2).seq ((writes_intConst _).seq (writes_emit _)))
    exact (writes_load _ 0).seq (hpush.seq ((writes_storeObject p b _).after writes_checkBalanced))

theorem writes_saveArgument (b : Binding) :
    Writes [] (Adapter.saveArgument p.className (p.planned b)) := by
  cases hsaves : b.saves with
  | false =>
    rw [saveArgument_of_not_saves hsaves]
    exact .pure ()
  | true =>
    rw [saveArgument_of_saves hsaves]
    exact (writes_load _ 2).seq <| (writes_intConst _).seq <| (writes_load _ 0).seq <|
      (writes_getField _ _ _).seq <| (writes_convert _ _).seq <|
      (writes_emit _).seq writes_checkBalanced

/-- **Running an adapter stores into the fields of the bindings that take a value from the
call.** -/
theorem writes_executeBody (trace : Bool) :
    Writes ((p.rule.bindings.filter Binding.loads).map p.fieldOf)
      (Adapter.executeBody p.className p.names trace p.rule.layout) := by
  have hloads := writes_each (g := Adapter.loadArguments p.className) rfl (fun _ _ => rfl)
    writes_loadArgument p.rule.bindings
  have hsaves := writes_each (g := Adapter.saveArguments p.className) rfl (fun _ _ => rfl)
    writes_saveArgument p.rule.bindings
  rw [flatMap_fieldOf, ← layout_eq] at hloads
  rw [List.flatMap_eq_nil_iff.2 fun _ _ => rfl, ← layout_eq] at hsaves
  rw [executeBody_eq]
  exact (writes_traceRun _ _).optional.seq <| hloads.after <|
    ((writes_load _ 0).seq (writes_invokeSpecial _ _ _)).seq <|
    writes_checkBalanced.seq <| hsaves.seq (writes_emit _)

theorem writes_compareName (name : String) : Writes [] (compareName name) :=
  (writes_textConst name).seq ((writes_load _ 1).seq (writes_invokeVirtual _ _ _))

theorem writes_setIfNamed (b : Binding) :
    Writes (if b.isStored then [p.fieldOf b] else [])
      (Adapter.setIfNamed p.className (p.planned b)) := by
  cases hstored : b.isStored with
  | false =>
    rw [setIfNamed_of_not_isStored hstored]
    exact .pure ()
  | true =>
    rw [setIfNamed_of_isStored hstored]
    exact (writes_skipping (writes_compareName _) ((writes_load _ 0).seq ((writes_load _ 2).seq
      (writes_storeObject p b _)))).after writes_checkBalanced

/-- **Setting by name stores into the fields of all stored bindings.** -/
theorem writes_setBindingBody :
    Writes ((p.rule.bindings.filter Binding.isStored).map p.fieldOf)
      (Adapter.setBindingBody p.className p.rule.layout) := by
  have hsets := writes_each (g := Adapter.setAllNamed p.className) rfl (fun _ _ => rfl)
    writes_setIfNamed p.rule.bindings
  rw [flatMap_fieldOf, ← layout_eq] at hsets
  exact hsets.after (writes_emit _)

theorem writes_returnIfNamed (name : String) {value : Emit Unit} (h : Writes [] value) :
    Writes [] (Adapter.returnIfNamed name value) := by
  have hreturn : Writes [] (do value; returnValue .anyObject) := h.seq (writes_emit _)
  have hskip := (writes_skipping (writes_compareName name) hreturn).seq writes_checkBalanced
  simpa only [skipping, compareName, Adapter.returnIfNamed, Adapter.testName, bind_assoc]
    using hskip

theorem writes_getIfNamed (className : String) (b : PlannedBinding) :
    Writes [] (Adapter.getIfNamed className b) := by
  unfold Adapter.getIfNamed
  split
  · exact .pure ()
  · exact writes_returnIfNamed _ (writes_load _ 0)
  · exact writes_returnIfNamed _
      ((writes_load _ 0).seq ((writes_getField _ _ _).seq (writes_convert _ _)))

theorem writes_getBindingBody (className : String) (layout : Layout) :
    Writes [] (Adapter.getBindingBody className layout) := by
  have hgets : Writes [] (Adapter.getFirstNamed className layout) := by
    induction layout with
    | nil => exact .pure ()
    | cons b rest ih => exact (writes_getIfNamed className b).seq ih
  exact hgets.seq ((writes_emit _).seq (writes_emit _))

theorem writes_getNameBody (className : String) (names : EngineNames) :
    Writes [] (Adapter.getNameBody className names) :=
  (writes_loadRule _ _).seq ((writes_invokeVirtual _ _ _).seq (writes_emit _))

theorem writes_loadParameters (params : List JavaType) :
    ∀ slot, Writes [] (Adapter.loadParameters params slot) := by
  induction params with
  | nil => exact fun _ => .pure ()
  | cons type rest ih => exact fun slot => (writes_load type slot).seq (ih _)

theorem writes_forwardBody (className : String) (names : EngineNames) (name : String)
    (type : MethodType) : Writes [] (Adapter.forwardBody className names name type) :=
  (writes_loadRule _ _).seq <| (writes_loadParameters _ _).seq <|
    (writes_invokeVirtual _ _ _).seq (writes_emit _)

/-! ### Strategies -/

theorem writes_dispatchBody (className : String) : Writes [] (dispatchBody className) :=
  writes_newLabel.before fun skip => (writes_load _ 0).seq <| (writes_invokeSpecial _ _ _).seq <|
    (writes_load _ 0).seq <| (writes_invokeSpecial _ _ _).seq <| (writes_branch _ skip).seq <|
    (writes_load _ 0).seq <| (writes_invokeSpecial _ _ _).seq <| (writes_placeLabel skip).seq <|
    writes_emit _

theorem writes_interpretBody (className : String) (names : EngineNames) (m : ClauseMethod) :
    Writes [] (interpretBody className names m) := by
  have hcall {rest : Emit Unit} (hrest : Writes [] rest) : Writes [] (do
      Adapter.loadRule className names
      invokeVirtual names.rule m.getter (.returning (.ofClass m.clauseClass))
      loadRef 0
      invokeVirtual m.clauseClass "interpret" names.interpretType
      rest) :=
    (writes_loadRule _ _).seq <| (writes_invokeVirtual _ _ _).seq <| (writes_load _ 0).seq <|
      (writes_invokeVirtual _ _ _).seq hrest
  unfold interpretBody
  split
  · exact hcall ((writes_checkCast _).seq ((writes_invokeVirtual _ _ _).seq (writes_emit _)))
  · exact hcall ((writes_popValue _).seq (writes_emit _))

/-- The clauses use the body under construction only through its operations. -/
structure ClausesConfined (p : AdapterPlan) : Prop where
  event : Confined (p.rule.event.compile p.view)
  condition : Confined (p.rule.condition.compile p.view)
  action : Confined (p.rule.action.compile p.view)

theorem confined_expectCondition : Confined expectCondition := by
  intro e _ e' h
  obtain ⟨-, rfl⟩ := run_expectCondition_eq_ok.1 h
  exact .refl

/-- What follows the event is confined. -/
theorem confined_afterEvent (h : p.ClausesConfined) : Confined (do
    Emitter.checkBalanced
    p.rule.condition.compile p.view
    expectCondition
    p.guardedAction) := by
  have haction : Confined p.guardedAction :=
    confined_newLabel.bind fun skip => (confined_run (.branch .ifeq skip)).bind fun _ =>
      h.action.bind fun _ => (confined_run .checkBalanced).bind fun _ =>
      (confined_run (.placeLabel skip)).bind fun _ => (confined_run .noteEnd).bind fun _ =>
      confined_run (.returnValue .void)
  exact (confined_run .checkBalanced).bind fun _ => h.condition.bind fun _ =>
    confined_expectCondition.bind fun _ => haction

/-- **Compiled clauses in a row are confined** if each of them is. -/
theorem confined_compiledBody (h : p.ClausesConfined) : Confined p.compiledBody := by
  rw [compiledBody_eq]
  exact (confined_run (.noteLine p.rule.line)).bind fun _ => h.event.bind fun _ =>
    confined_afterEvent h

/-! ### All methods -/

theorem composes_sharedMembers {chosen : SuperConstructor} :
    ∀ m ∈ p.sharedMembers chosen, Composes m.code := by
  intro m hm
  rcases List.mem_append.1 hm with hm | hm
  · simp only [List.mem_cons, List.not_mem_nil, or_false] at hm
    rcases hm with rfl | rfl | rfl | rfl | rfl
    · exact composes_of_writes (writes_constructorBody chosen)
    · exact composes_of_writes (writes_executeBody p.options.trace)
    · exact composes_of_writes writes_setBindingBody
    · exact composes_of_writes (writes_getBindingBody _ _)
    · exact composes_of_writes (writes_getNameBody _ _)
  · obtain ⟨f, -, rfl⟩ := List.mem_map.1 hm
    exact composes_of_writes (writes_forwardBody _ _ _ _)

/-- **All methods consist of whole instructions.** -/
theorem composes_members {chosen : SuperConstructor}
    (h : p.strategy = .compiled → p.ClausesConfined) :
    ∀ m ∈ p.members chosen, Composes m.code := by
  intro m hm
  rcases List.mem_append.1 hm with hm | hm
  · exact composes_sharedMembers m hm
  · unfold strategyMembers at hm
    cases hstrategy : p.strategy with
    | compiled =>
      simp only [hstrategy, List.mem_singleton] at hm
      subst hm
      exact composes_of_confined (confined_compiledBody (h hstrategy))
    | interpreted =>
      simp only [hstrategy, List.mem_cons] at hm
      rcases hm with rfl | hm
      · exact composes_of_writes (writes_dispatchBody _)
      · obtain ⟨c, -, rfl⟩ := List.mem_map.1 hm
        exact composes_of_writes (writes_interpretBody _ _ _)

theorem clausesConfined_samplePlan (strategy : Strategy) :
    (samplePlan strategy).ClausesConfined :=
  ⟨.pure (), confined_run (.intConst 1), .pure ()⟩

end AdapterPlan

end ClassForge
