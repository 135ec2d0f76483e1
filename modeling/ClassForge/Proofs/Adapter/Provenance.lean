import ClassForge.Proofs.Adapter.Feasibility

/-!
# Where the methods of an adapter come from

The methods of an adapter are added one after the other, each from its code.

* `AdapterPlan.members` — the methods with their code, in order;
* `addMethods_eq_addAll` — **PROVED**: building adds exactly these;
* `exists_made_addAll` — **PROVED**: each of them stands in the finished class with the body that
  its code emitted, and the constants of that body are still in the pool;
* `exists_body?` — **PROVED**: so a method can be found by name and type.
-/

namespace ClassForge

open ConstantPool Emitter

/-- A method of an adapter, by the code of its body. -/
structure Member where
  access : AccessFlags
  name : String
  type : MethodType
  exceptions : List String
  code : ClauseEmit Unit

/-- The body was emitted by the code, and the pool still has its constants. -/
def Emitted (code : ClauseEmit Unit) (pool : ConstantPool) (body : MethodBody) : Prop :=
  ∃ start slots e, start.Coherent ∧ code.run (ofPool start slots) = .ok (.ok (), e) ∧
    e.finish = .ok body ∧ Grows e.pool pool

namespace Member

/-- Has the method this name and type? -/
def isNamed (m : Member) (name : String) (type : MethodType) : Bool :=
  m.name == name && m.type.descriptor == type.descriptor

/-- A successful run of the code leaves the constants in place. -/
def KeepsPool (m : Member) : Prop :=
  ∀ pool slots e, m.code.run (ofPool pool slots) = .ok (.ok (), e) → Grows pool e.pool

/-- The method of a class that comes from a member. -/
structure Made (m : Member) (pool : ConstantPool) (g : MethodImage) : Prop where
  access : g.access = m.access
  name : g.name = m.name
  descriptor : g.descriptor = m.type.descriptor
  exceptions : g.exceptions = m.exceptions
  body : ∃ body, g.body = some body ∧ Emitted m.code pool body

theorem Made.extend {m : Member} {pool pool' : ConstantPool} {g : MethodImage}
    (h : m.Made pool g) (hgrows : Grows pool pool') : m.Made pool' g := by
  obtain ⟨body, hbody, start, slots, e, hcoh, hrun, hfinish, hpool⟩ := h.body
  exact ⟨h.access, h.name, h.descriptor, h.exceptions, body, hbody, start, slots, e, hcoh, hrun,
    hfinish, hpool.trans hgrows⟩

end Member

namespace AdapterPlan

variable {p : AdapterPlan}

/-! ### The methods in order -/

/-- Adds methods, one after the other. -/
def addAll : List Member → Build Unit
  | [] => pure ()
  | m :: rest => do
    addMethod m.access m.name m.type m.exceptions m.code
    addAll rest

theorem addAll_append (ms rest : List Member) :
    addAll (ms ++ rest) = (do addAll ms; addAll rest) := by
  induction ms with
  | nil => exact (pure_bind _ _).symm
  | cons m ms ih =>
    show (do addMethod m.access m.name m.type m.exceptions m.code; addAll (ms ++ rest)) = _
    rw [ih, ← bind_assoc]
    rfl

/-- A public method. -/
def publicMember (name : String) (type : MethodType) (exceptions : List String)
    (body : Emit Unit) : Member :=
  ⟨.publicFlag, name, type, exceptions, liftM body⟩

/-- A private method that may throw the engine's exception. -/
def privateMember (p : AdapterPlan) (name : String) (type : MethodType)
    (code : ClauseEmit Unit) : Member :=
  ⟨.privateFlag, name, type, [p.names.executeException], code⟩

/-- The methods that every adapter has. -/
def sharedMembers (p : AdapterPlan) (chosen : SuperConstructor) : List Member :=
  [publicMember "<init>" p.names.constructorType []
      (Adapter.constructorBody p.className p.helper.name p.names chosen),
    publicMember "execute" ⟨[.anyObject, .array .anyObject], .void⟩ [p.names.executeException]
      (Adapter.executeBody p.className p.names p.options.trace p.rule.layout),
    publicMember "setBinding" ⟨[.text, .anyObject], .void⟩ []
      (Adapter.setBindingBody p.className p.rule.layout),
    publicMember "getBinding" ⟨[.text], .anyObject⟩ []
      (Adapter.getBindingBody p.className p.rule.layout),
    publicMember "getName" (.returning .text) [] (Adapter.getNameBody p.className p.names)] ++
  Adapter.forwarded.map fun m =>
    publicMember m.1 m.2 [] (Adapter.forwardBody p.className p.names m.1 m.2)

/-- The methods that run the rule. -/
def strategyMembers (p : AdapterPlan) : List Member :=
  match p.strategy with
  | .compiled => [p.privateMember "execute0" .action p.compiledBody]
  | .interpreted =>
    p.privateMember "execute0" .action (liftM (dispatchBody p.className)) ::
      (clauseMethods p.names).map fun m =>
        p.privateMember m.name (.returning m.ret) (liftM (interpretBody p.className p.names m))

/-- All methods of an adapter, in order. -/
def members (p : AdapterPlan) (chosen : SuperConstructor) : List Member :=
  p.sharedMembers chosen ++ p.strategyMembers

theorem addForwarders_eq (ms : List (String × MethodType)) : p.addForwarders ms =
    addAll (ms.map fun m =>
      publicMember m.1 m.2 [] (Adapter.forwardBody p.className p.names m.1 m.2)) := by
  induction ms with
  | nil => rfl
  | cons m ms ih =>
    obtain ⟨name, type⟩ := m
    show (do addPublic name type [] _; p.addForwarders ms) = _
    rw [ih]
    rfl

theorem addClauseMethods_eq (ms : List ClauseMethod) : p.addClauseMethods ms =
    addAll (ms.map fun m =>
      p.privateMember m.name (.returning m.ret) (liftM (interpretBody p.className p.names m))) := by
  induction ms with
  | nil => rfl
  | cons m ms ih =>
    show (do p.addPrivate m.name _ _; p.addClauseMethods ms) = _
    rw [ih]
    rfl

theorem addStrategy_eq (p : AdapterPlan) : p.addStrategy = addAll p.strategyMembers := by
  unfold addStrategy strategyMembers
  cases p.strategy with
  | compiled => exact (bind_pure_unit).symm
  | interpreted =>
    show (do p.addPrivate _ _ _; p.addClauseMethods (clauseMethods p.names)) = _
    rw [addClauseMethods_eq]
    rfl

/-- **Building adds the methods in order.** -/
theorem addMethods_eq_addAll {chosen : SuperConstructor} (h : p.superConstructor = .ok chosen) :
    p.addMethods = addAll (p.members chosen) := by
  rw [members, sharedMembers, List.append_assoc, addAll_append, addAll_append,
    ← addForwarders_eq, ← addStrategy_eq]
  simp only [addMethods, addConstructor, addExecute, addAccessors, h, Build.ofExcept, pure_bind,
    addAll, bind_assoc, bind_pure_unit, addPublic, publicMember]

/-! ### Bodies -/

/-- What adding a method does to a class. -/
theorem exists_made_addMethod {m : Member} (hkeeps : m.KeepsPool) {d d' : ClassDraft}
    {o : ClassOutline} (hrep : d.Represents o)
    (hrun : (addMethod m.access m.name m.type m.exceptions m.code).run d = .ok (.ok (), d')) :
    ∃ g, d'.Represents { o with methods := o.methods ++ [g] } ∧ m.Made d'.pool g ∧
      Grows d.pool d'.pool := by
  obtain ⟨slots, hslots⟩ : ∃ slots, m.type.callWord true = .ok slots := by
    cases hword : m.type.callWord true with
    | error defect =>
      unfold addMethod at hrun
      rw [hword] at hrun
      cases hrun
    | ok slots => exact ⟨slots, rfl⟩
  rw [run_addMethod hslots] at hrun
  obtain ⟨e, body, hcode, hfinish, rfl⟩ := run_emitMethod_eq_ok hrun
  have hgrows := hkeeps _ _ _ hcode
  have hadd := ClassDraft.grows_addMethod (d.withPool e.pool) m.access m.name m.type (some body)
    m.exceptions
  exact ⟨_, (hrep.withPool hgrows).addMethod m.access m.name m.type (some body) m.exceptions,
    ⟨rfl, rfl, rfl, rfl, body, rfl, d.pool, slots, e, hrep.coherent, hcode, hfinish, hadd⟩,
    hgrows.trans hadd⟩

/-- **Every method stands in the class with the body that its code emitted.** -/
theorem exists_made_addAll {ms : List Member} (hkeeps : ∀ m ∈ ms, m.KeepsPool) :
    ∀ {d d' : ClassDraft} {o : ClassOutline}, d.Represents o →
      (addAll ms).run d = .ok (.ok (), d') →
      ∃ gs, d'.Represents { o with methods := o.methods ++ gs } ∧
        List.Forall₂ (fun m g => m.Made d'.pool g) ms gs ∧ Grows d.pool d'.pool := by
  induction ms with
  | nil =>
    intro d d' o hrep hrun
    cases hrun
    exact ⟨[], by rwa [List.append_nil], .nil, .refl _⟩
  | cons m ms ih =>
    intro d d' o hrep hrun
    obtain ⟨_, d₁, hfirst, hrest⟩ := run_bind_eq_ok.1 hrun
    obtain ⟨g, hrep₁, hmade, hgrows⟩ :=
      exists_made_addMethod (hkeeps m List.mem_cons_self) hrep hfirst
    obtain ⟨gs, hrep', hall, hgrows'⟩ :=
      ih (fun m' hm' => hkeeps m' (List.mem_cons_of_mem m hm')) hrep₁ hrest
    refine ⟨g :: gs, ?_, .cons (hmade.extend hgrows') hall, hgrows.trans hgrows'⟩
    rwa [List.append_assoc] at hrep'

/-! ### Constants stay -/

theorem keepsPool_of_codes {m : Member} {ret : JavaType} {n r : Nat} (h : p.Codes ret n r m.code) :
    m.KeepsPool := by
  intro pool slots e hrun
  obtain ⟨e', hrun', hran⟩ := h pool slots
  rw [hrun] at hrun'
  cases hrun'
  exact hran.grows

theorem keepsPool_sharedMembers {chosen : SuperConstructor} :
    ∀ m ∈ p.sharedMembers chosen, m.KeepsPool := by
  intro m hm
  rcases List.mem_append.1 hm with hm | hm
  · simp only [List.mem_cons, List.not_mem_nil, or_false] at hm
    rcases hm with rfl | rfl | rfl | rfl | rfl
    · exact keepsPool_of_codes (codes_liftM (block_constructorBody chosen))
    · exact keepsPool_of_codes (codes_liftM (block_executeBody p.options.trace))
    · exact keepsPool_of_codes (codes_liftM block_setBindingBody)
    · exact keepsPool_of_codes (codes_liftM block_getBindingBody)
    · exact keepsPool_of_codes (codes_liftM block_getNameBody)
  · obtain ⟨f, hf, rfl⟩ := List.mem_map.1 hm
    have hfits := forwardFits_forwarded f hf
    exact keepsPool_of_codes (codes_liftM
      (block_forwardBody hfits.wellFormed hfits.slots hfits.shortName hfits.shortDescriptor))

end AdapterPlan

/-- The clause uses the pool only to look constants up and to add further ones. -/
def Clause.KeepsPool (c : Clause) (v : AdapterView) : Prop :=
  ∀ e e' : Emitter, (c.compile v).run e = .ok (.ok (), e') → Grows e.pool e'.pool

theorem Clause.keepsPool_skip (v : AdapterView) : Clause.skip.KeepsPool v := by
  intro e e' hrun
  cases hrun
  exact .refl _

theorem Clause.keepsPool_always (v : AdapterView) : Clause.always.KeepsPool v := by
  intro e e' hrun
  have hemit : emit .iconst1 e = .ok ((), e') := run_liftM_eq_ok.1 hrun
  obtain ⟨-, effect, -, -, -, rfl⟩ := emit_eq_ok.1 hemit
  exact .refl _

namespace AdapterPlan

variable {p : AdapterPlan}

/-- All clauses that are compiled into the adapter keep its constants. -/
structure ClausesKeepPool (p : AdapterPlan) : Prop where
  event : p.rule.event.KeepsPool p.view
  condition : p.rule.condition.KeepsPool p.view
  action : p.rule.action.KeepsPool p.view

theorem clausesKeepPool_samplePlan (strategy : Strategy) : (samplePlan strategy).ClausesKeepPool :=
  ⟨Clause.keepsPool_skip _, Clause.keepsPool_always _, Clause.keepsPool_skip _⟩

theorem pool_of_markLine {e e' : Emitter} {u : Unit} {noted : Tracker → Option UInt32 × Tracker}
    (h : markLine noted e = .ok (u, e')) : e'.pool = e.pool := by
  unfold markLine at h
  split at h
  rename_i line? tracker hnoted
  cases line? with
  | none =>
    cases h
    rfl
  | some line =>
    cases h
    rfl

theorem keepsPool_compiledBody (h : p.ClausesKeepPool) :
    (p.privateMember "execute0" .action p.compiledBody).KeepsPool := by
  intro pool slots e hrun
  replace hrun : p.compiledBody.run (ofPool pool slots) = .ok (.ok (), e) := hrun
  rw [compiledBody_eq] at hrun
  obtain ⟨_, e₁, hline, hrun⟩ := run_bind_eq_ok.1 hrun
  obtain ⟨_, e₂, hevent, hrun⟩ := run_bind_eq_ok.1 hrun
  obtain ⟨_, e₃, hbalanced, hrun⟩ := run_bind_eq_ok.1 hrun
  obtain ⟨_, e₄, hcondition, hrun⟩ := run_bind_eq_ok.1 hrun
  obtain ⟨_, e₅, hexpect, hrun⟩ := run_bind_eq_ok.1 hrun
  obtain ⟨skip, e₆, hlabel, hrun⟩ := run_bind_eq_ok.1 hrun
  obtain ⟨_, e₇, hbranch, hrun⟩ := run_bind_eq_ok.1 hrun
  obtain ⟨_, e₈, haction, hrun⟩ := run_bind_eq_ok.1 hrun
  obtain ⟨_, e₉, hbalanced', hrun⟩ := run_bind_eq_ok.1 hrun
  obtain ⟨_, e₁₀, hplace, hrun⟩ := run_bind_eq_ok.1 hrun
  obtain ⟨_, e₁₁, hend, hreturn⟩ := run_bind_eq_ok.1 hrun
  have hline := pool_of_markLine (run_liftM_eq_ok.1 hline)
  obtain ⟨-, rfl⟩ := checkBalanced_eq_ok.1 (run_liftM_eq_ok.1 hbalanced)
  obtain ⟨-, rfl⟩ := run_expectCondition_eq_ok.1 hexpect
  obtain ⟨-, rfl⟩ := newLabel_eq_ok.1 (run_liftM_eq_ok.1 hlabel)
  obtain ⟨hshort, -, -, rfl⟩ := branch_eq_ok.1 (run_liftM_eq_ok.1 hbranch)
  obtain ⟨-, rfl⟩ := checkBalanced_eq_ok.1 (run_liftM_eq_ok.1 hbalanced')
  obtain ⟨-, depth, -, -, rfl⟩ := placeLabel_eq_ok.1 (run_liftM_eq_ok.1 hplace)
  have hend := pool_of_markLine (run_liftM_eq_ok.1 hend)
  obtain ⟨-, effect, -, -, -, rfl⟩ := emit_eq_ok.1 (run_liftM_eq_ok.1 hreturn)
  have hfirst : Grows pool e₃.pool := by
    have hgrows := h.event _ _ hevent
    rwa [hline] at hgrows
  have hlast := h.action _ _ haction
  show Grows pool e₁₁.pool
  rw [hend]
  exact (hfirst.trans (h.condition _ _ hcondition)).trans hlast

theorem keepsPool_members {chosen : SuperConstructor}
    (h : p.strategy = .compiled → p.ClausesKeepPool) :
    ∀ m ∈ p.members chosen, m.KeepsPool := by
  intro m hm
  rcases List.mem_append.1 hm with hm | hm
  · exact keepsPool_sharedMembers m hm
  · unfold strategyMembers at hm
    cases hstrategy : p.strategy with
    | compiled =>
      simp only [hstrategy, List.mem_singleton] at hm
      subst hm
      exact keepsPool_compiledBody (h hstrategy)
    | interpreted =>
      simp only [hstrategy, List.mem_cons] at hm
      rcases hm with rfl | hm
      · exact keepsPool_of_codes (codes_liftM block_dispatchBody)
      · obtain ⟨c, hc, rfl⟩ := List.mem_map.1 hm
        exact keepsPool_of_codes (codes_liftM (block_interpretBody hc))

end AdapterPlan

/-! ### Finding a method -/

/-- Is this the text at the index? -/
def ConstantPool.isText (pool : ConstantPool) (index : UInt16) (text : String) : Bool :=
  match pool.utf8At index with
  | .ok found => found == text
  | .error _ => false

namespace ClassDraft

/-- The body of the first method with the given name and type. -/
def body? (d : ClassDraft) (name : String) (type : MethodType) : Option MethodBody :=
  (d.methods.toList.find? fun m => d.pool.isText m.name name &&
    d.pool.isText m.descriptor type.descriptor).bind (·.body)

theorem Represents.body?_eq {d : ClassDraft} {o : ClassOutline} (h : d.Represents o)
    (hclean : d.pool.violation = none) (name : String) (type : MethodType) :
    d.body? name type = (o.methods.find? fun g =>
      g.name == name && g.descriptor == type.descriptor).bind (·.body) := by
  have hmethods := (h.resolves hclean).methods
  unfold body?
  generalize d.methods.toList = ms, o.methods = gs at hmethods ⊢
  induction hmethods with
  | nil => rfl
  | @cons m g ms gs hm _ ih =>
    have hsame : (d.pool.isText m.name name && d.pool.isText m.descriptor type.descriptor) =
        (g.name == name && g.descriptor == type.descriptor) := by
      simp only [isText, hm.name, hm.descriptor]
    rw [List.find?_cons, List.find?_cons, hsame]
    cases g.name == name && g.descriptor == type.descriptor with
    | true => exact hm.body
    | false => exact ih

end ClassDraft

theorem Member.exists_find?_made {ms : List Member} {gs : List MethodImage} {pool : ConstantPool}
    {m : Member} {name : String} {type : MethodType}
    (h : List.Forall₂ (fun m g => m.Made pool g) ms gs)
    (hfind : ms.find? (·.isNamed name type) = some m) :
    ∃ g, gs.find? (fun g => g.name == name && g.descriptor == type.descriptor) = some g ∧
      m.Made pool g := by
  induction h with
  | nil => cases hfind
  | @cons m' g ms gs hmade _ ih =>
    rw [List.find?_cons] at hfind
    have hsame : m'.isNamed name type = (g.name == name && g.descriptor == type.descriptor) := by
      rw [hmade.name, hmade.descriptor]
      rfl
    rw [hsame] at hfind
    rw [List.find?_cons]
    cases hnamed : g.name == name && g.descriptor == type.descriptor with
    | true =>
      rw [hnamed] at hfind
      cases hfind
      exact ⟨g, rfl, hmade⟩
    | false =>
      rw [hnamed] at hfind
      exact ih hfind

namespace AdapterPlan

variable {p : AdapterPlan}

/-- The class with its fields has no methods yet. -/
theorem exists_represents_fieldsOnly (p : AdapterPlan) :
    ∃ o : ClassOutline, p.fieldsOnly.Represents o ∧ o.methods = [] := by
  obtain ⟨o, hrep, -, -, -, -, hcount, -⟩ := holds_fieldsOnly (p := p)
  exact ⟨o, hrep, List.eq_nil_of_length_eq_zero hcount⟩

/-- The helper of a built class has a constructor to call. -/
theorem exists_superConstructor {d : ClassDraft}
    (h : p.addMethods.run p.fieldsOnly = .ok (.ok (), d)) :
    ∃ chosen, p.superConstructor = .ok chosen := by
  cases hsuper : p.superConstructor with
  | error cause =>
    rw [addMethods, addConstructor, hsuper] at h
    cases h
  | ok chosen => exact ⟨chosen, rfl⟩

/-- **The method of a built class has the body that its code emitted.** -/
theorem exists_body? {d : ClassDraft} {name : String} {type : MethodType}
    {member : SuperConstructor → Member}
    (hrun : p.addMethods.run p.fieldsOnly = .ok (.ok (), d)) (hclean : d.pool.violation = none)
    (hclauses : p.strategy = .compiled → p.ClausesKeepPool)
    (hfind : ∀ chosen, (p.members chosen).find? (·.isNamed name type) = some (member chosen)) :
    ∃ chosen body, d.body? name type = some body ∧ Emitted (member chosen).code d.pool body := by
  obtain ⟨chosen, hchosen⟩ := exists_superConstructor hrun
  rw [addMethods_eq_addAll hchosen] at hrun
  obtain ⟨o, hrep, hempty⟩ := p.exists_represents_fieldsOnly
  obtain ⟨gs, hrep', hall, -⟩ := exists_made_addAll (keepsPool_members hclauses) hrep hrun
  obtain ⟨g, hg, hmade⟩ := Member.exists_find?_made hall (hfind chosen)
  obtain ⟨body, hbody, hemitted⟩ := hmade.body
  refine ⟨chosen, body, ?_, hemitted⟩
  rw [hrep'.body?_eq hclean, hempty, List.nil_append, hg]
  exact hbody

/-! ### The methods that work on bindings -/

theorem find?_execute (chosen : SuperConstructor) :
    (p.members chosen).find? (·.isNamed "execute" ⟨[.anyObject, .array .anyObject], .void⟩) =
      some (publicMember "execute" ⟨[.anyObject, .array .anyObject], .void⟩
        [p.names.executeException]
        (Adapter.executeBody p.className p.names p.options.trace p.rule.layout)) := by
  simp [members, sharedMembers, publicMember, Member.isNamed]

theorem find?_setBinding (chosen : SuperConstructor) :
    (p.members chosen).find? (·.isNamed "setBinding" ⟨[.text, .anyObject], .void⟩) =
      some (publicMember "setBinding" ⟨[.text, .anyObject], .void⟩ []
        (Adapter.setBindingBody p.className p.rule.layout)) := by
  simp [members, sharedMembers, publicMember, Member.isNamed]

theorem find?_getBinding (chosen : SuperConstructor) :
    (p.members chosen).find? (·.isNamed "getBinding" ⟨[.text], .anyObject⟩) =
      some (publicMember "getBinding" ⟨[.text], .anyObject⟩ []
        (Adapter.getBindingBody p.className p.rule.layout)) := by
  simp [members, sharedMembers, publicMember, Member.isNamed]

end AdapterPlan

end ClassForge
