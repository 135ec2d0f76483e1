import ClassForge.Proofs.Adapter.Members
import ClassForge.Proofs.ClassFile.RoundTrip
import ClassForge.Proofs.Emission.Accounting

/-!
# Construction of adapters

An adapter is built method by method, and every method that is added passes the inspection with
any pool that has the constants of the draft.

* `MethodImage.Passes` — the inspection accepts a method, now and with further constants;
* `AdapterPlan.Holds` — the draft stands for a class whose methods all pass;
* `AdapterPlan.Builds` — **the contract** of a part of the build: it meets no defect, fails for no
  branch, keeps `Holds`, and succeeds if the plan is feasible;
* `builds_addMethods` — **PROVED**: all methods of the interpreted strategy are such parts.
-/

namespace ClassForge

open ConstantPool Emitter Inspection

/-! ### Methods that pass -/

/-- The inspection found no more slots than are declared, and as many if it is `exact`. -/
structure MethodSummary.Within (exact : Prop) (s : MethodSummary) : Prop where
  depth : s.maxDepth ≤ s.declaredStack
  locals : s.localsUsed ≤ s.declaredLocals
  equal : exact → s.maxDepth = s.declaredStack ∧ s.localsUsed = s.declaredLocals

/-- The inspection accepts a method, whatever constants come after those of the pool. -/
structure MethodImage.Passes (exact : Prop) (pool : ConstantPool) (m : MethodImage) : Prop where
  sized : m.Sized
  accepted : ∀ pool', Extends pool pool' →
    ∃ s, inspectMethod pool' m = pure (some s) ∧ s.Within exact

theorem MethodImage.Passes.extend {exact : Prop} {pool pool' : ConstantPool} {m : MethodImage}
    (h : m.Passes exact pool) (hext : Extends pool pool') : m.Passes exact pool' :=
  ⟨h.sized, fun pool'' hext' => h.accepted pool'' fun i c hget => hext' i c (hext i c hget)⟩

/-- The tables of a complete body are as long as their counts can tell. -/
theorem Emitter.Complete.sized {ret : JavaType} {slots : Nat} {e : Emitter} {xs : List Placed}
    {body : MethodBody} (h : Complete ret slots e xs body) : body.Sized := by
  obtain ⟨-, -, hhandlers, hsize, -⟩ := h.body_eq
  obtain ⟨-, -, hbody⟩ := Assembly.finish_eq_ok h.finish
  refine ⟨?_, ?_, ?_⟩
  · rw [h.size_code]
    unfold wordMax at hsize
    omega
  · rw [hhandlers]
    exact Nat.zero_le _
  · rw [hbody]
    exact Nat.le_trans (h.marks.ordered hsize).length_le (Nat.le_of_lt_succ (UInt16.toNat_lt _))

/-- **A complete body passes the inspection** as that of a method whose parameters are among the
slots that are reserved. -/
theorem Emitter.Complete.passes {exact : Prop} {type : MethodType} {slots p : Nat} {e : Emitter}
    {xs : List Placed} {body : MethodBody} {access : AccessFlags} {name : String}
    {exceptions : List String} (h : Complete type.ret p e xs body) (hle : slots ≤ p)
    (hexact : exact → slots = p ∧ ∀ x ∈ xs, x.live = true) (hv : e.pool.violation = none)
    (htype : CallFits type) (hslots : type.callWord true = .ok slots)
    (haccess : access.isStatic = false) (hexceptions : exceptions.length ≤ wordMax) :
    MethodImage.Passes exact e.pool ⟨access, name, type.descriptor, some body, exceptions⟩ := by
  refine ⟨⟨fun b hb => ?_, hexceptions⟩, fun pool' hext => ?_⟩
  · cases hb
    exact h.sized
  · have hparams : type.callWord (!access.isStatic) = .ok slots := by rw [haccess]; exact hslots
    obtain ⟨s, hs, -, -, -, hdepth, hlocals, hequal⟩ := h.exists_inspectMethod
      (m := ⟨access, name, type.descriptor, some body, exceptions⟩) hv hext rfl htype hparams hle
    refine ⟨s, hs, hdepth, hlocals, fun hx => ?_⟩
    obtain ⟨heq, hlive⟩ := hexact hx
    exact (hequal hlive).imp_right fun hall => hall heq

/-! ### Drafts -/

namespace ClassDraft

theorem grows_new (version : ClassVersion) (access : AccessFlags) (name superName : String)
    (interfaces : List String) :
    Grows .empty (ClassDraft.new version access name superName interfaces).pool :=
  ((grows_classRef _ name).trans (grows_classRef _ superName)).trans (grows_classRefs _ interfaces)

theorem grows_addField (d : ClassDraft) (access : AccessFlags) (name : String) (type : JavaType) :
    Grows d.pool (d.addField access name type).pool :=
  (grows_utf8 d.pool name).trans (grows_utf8 _ type.descriptor)

theorem grows_addMethod (d : ClassDraft) (access : AccessFlags) (name : String)
    (type : MethodType) (body : Option MethodBody) (exceptions : List String) :
    Grows d.pool (d.addMethod access name type body exceptions).pool :=
  (((((grows_utf8 d.pool name).trans (grows_utf8 _ type.descriptor)).trans
    (grows_nameBody _ d.names body)).trans (grows_nameExceptions _ _ exceptions)).trans
    (grows_classRefs _ exceptions))

theorem grows_setSourceFile (d : ClassDraft) (file : String) :
    Grows d.pool (d.setSourceFile file).pool :=
  (grows_utf8 d.pool AttributeKind.sourceFile.text).trans (grows_utf8 _ file)

theorem grows_setSourceDebug (d : ClassDraft) (text : String) :
    Grows d.pool (d.setSourceDebug text).pool :=
  grows_utf8 d.pool AttributeKind.sourceDebug.text

end ClassDraft

/-! ### Work that fails or meets a defect -/

section Failing

variable {σ α β : Type} {s s' : σ} {a : α}

theorem run_bind (x : ExceptT Cause (StateT σ (Except Defect)) α)
    (f : α → ExceptT Cause (StateT σ (Except Defect)) β) (s : σ) :
    (x >>= f).run s = match x.run s with
      | .error defect => .error defect
      | .ok (.error cause, s') => .ok (.error cause, s')
      | .ok (.ok a, s') => (f a).run s' := by
  show (x.run s >>= fun r => (ExceptT.bindCont f r.1).run r.2) = _
  cases x.run s with
  | error => rfl
  | ok r =>
    obtain ⟨a, s'⟩ := r
    cases a <;> rfl

theorem run_bind_eq_ok {x : ExceptT Cause (StateT σ (Except Defect)) α}
    {f : α → ExceptT Cause (StateT σ (Except Defect)) β} {b : β} :
    (x >>= f).run s = .ok (.ok b, s') ↔
      ∃ a t, x.run s = .ok (.ok a, t) ∧ (f a).run t = .ok (.ok b, s') := by
  rw [run_bind]
  constructor
  · intro h
    split at h
    · cases h
    · cases h
    · rename_i hx
      exact ⟨_, _, hx, h⟩
  · rintro ⟨a, t, hx, hf⟩
    rw [hx]
    exact hf

theorem run_liftM_eq_ok {x : StateT σ (Except Defect) α} :
    (liftM x : ExceptT Cause (StateT σ (Except Defect)) α).run s = .ok (.ok a, s') ↔
      x s = .ok (a, s') := by
  show (x s >>= fun r => Except.ok (Except.ok r.1, r.2)) = _ ↔ _
  cases x s with
  | error d => exact ⟨nofun, nofun⟩
  | ok r =>
    obtain ⟨b, t⟩ := r
    constructor
    · rintro ⟨⟩
      rfl
    · rintro ⟨⟩
      rfl

end Failing

/-! ### Contracts of a build -/

/-- The cause is a branch that has no target, or one too far away. -/
def Cause.IsBranch : Cause → Prop
  | .limit (.labelUnplaced _) | .limit (.branchTooFar _ _) => True
  | _ => False

namespace AdapterPlan

/-- The draft stands for a class of the plan with `k` methods, all of which pass. -/
def Holds (p : AdapterPlan) (k : Nat) (d : ClassDraft) : Prop :=
  ∃ o : ClassOutline, d.Represents o ∧ o.name = p.className ∧ o.sourceDebug = some p.debugText ∧
    o.interfaces.length = 1 ∧ o.fields.length ≤ p.rule.layout.length + 1 ∧ o.methods.length = k ∧
    (d.pool.violation = none →
      ∀ m ∈ o.methods, m.Passes (p.strategy = .interpreted) d.pool)

/-- Part of a build has come to an end. -/
structure Built (p : AdapterPlan) (k r : Nat) (d : ClassDraft)
    (res : Except Cause Unit × ClassDraft) : Prop where
  grows : Grows d.pool res.2.pool
  cause : ∀ c, res.1 = .error c → ¬c.IsBranch
  holds : res.1 = .ok () → p.Fits → ∀ j, p.Holds j d → p.Holds (j + k) res.2
  room : p.Feasible → ∀ j, d.pool.HasRoom (j + r) → res.1 = .ok () ∧ res.2.pool.HasRoom j

/-- **The contract of a part of a build** that adds `k` methods and takes up at most `r` slots of
the pool. -/
def Builds (p : AdapterPlan) (k r : Nat) (b : Build Unit) : Prop :=
  ∀ d, ∃ res, b.run d = .ok res ∧ p.Built k r d res

variable {p : AdapterPlan} {k j r q : Nat} {b b' : Build Unit}

theorem Builds.mono (h : p.Builds k r b) (hle : r ≤ q) : p.Builds k q b := fun d => by
  obtain ⟨res, hrun, hres⟩ := h d
  exact ⟨res, hrun, hres.grows, hres.cause, hres.holds, fun hf j hj =>
    hres.room hf j (hj.mono (Nat.add_le_add_left hle j))⟩

theorem Builds.pure : p.Builds 0 0 (pure ()) := fun d =>
  ⟨(.ok (), d), rfl, .refl _, nofun, fun _ _ _ h => h, fun _ _ h => ⟨rfl, h⟩⟩

/-- **Parts in sequence keep the contract**, and the first failure ends the build. -/
theorem Builds.seq (h : p.Builds k r b) (h' : p.Builds j q b') :
    p.Builds (k + j) (r + q) (do b; b') := fun d => by
  obtain ⟨⟨a, d₁⟩, hrun, hres⟩ := h d
  rw [run_bind, hrun]
  cases a with
  | error cause =>
    refine ⟨_, rfl, hres.grows, hres.cause, nofun, fun hf i hi => ?_⟩
    rw [Nat.add_comm r q, ← Nat.add_assoc] at hi
    exact absurd (hres.room hf _ hi).1 nofun
  | ok =>
    obtain ⟨res, hrun', hres'⟩ := h' d₁
    refine ⟨res, hrun', hres.grows.trans hres'.grows, hres'.cause, fun hok hfits i hi => ?_,
      fun hf i hi => ?_⟩
    · rw [← Nat.add_assoc]
      exact hres'.holds hok hfits _ (hres.holds rfl hfits _ hi)
    · rw [Nat.add_comm r q, ← Nat.add_assoc] at hi
      exact hres'.room hf i (hres.room hf _ hi).2

/-! ### Adding methods -/

theorem callWord_of_argSlots_le {type : MethodType} (h : type.argSlots ≤ 100) :
    type.callWord true = .ok (type.argSlots + 1) := by
  refine Except.bind_eq_ok.2 ⟨_, Defect.checkWord_eq_ok.2 ⟨?_, rfl⟩,
    Defect.checkWord_eq_ok.2 ⟨?_, rfl⟩⟩
  · unfold wordMax
    omega
  · show type.argSlots + 1 ≤ wordMax
    unfold wordMax
    omega

theorem run_addMethod {access : AccessFlags} {name : String} {type : MethodType}
    {exceptions : List String} {body : ClauseEmit Unit} {slots : Nat}
    (hslots : type.callWord true = .ok slots) (d : ClassDraft) :
    (addMethod access name type exceptions body).run d =
      (ClassDraft.emitMethod access name type exceptions slots body).run d := by
  unfold addMethod
  rw [run_bind, hslots]
  rfl

theorem run_emitMethod {access : AccessFlags} {name : String} {type : MethodType}
    {exceptions : List String} {body : ClauseEmit Unit} {slots : Nat} {d : ClassDraft}
    {e : Emitter} (h : body.run (.ofPool d.pool slots) = .ok (.ok (), e)) :
    (ClassDraft.emitMethod access name type exceptions slots body).run d =
      match e.finish with
      | .error limit => .ok (.error (.limit limit), d.withPool e.pool)
      | .ok finished => .ok (.ok (),
        (d.withPool e.pool).addMethod access name type (some finished) exceptions) := by
  dsimp only [ExceptT.run] at h ⊢
  cases hfinish : e.finish with
  | error limit => simp only [ClassDraft.emitMethod, ExceptT.run, h, hfinish]
  | ok finished => simp only [ClassDraft.emitMethod, ExceptT.run, h, hfinish]

/-- A method that passes joins those that do. -/
theorem Holds.addMethod {d : ClassDraft} {pool : ConstantPool} {access : AccessFlags}
    {name : String} {type : MethodType} {body : Option MethodBody} {exceptions : List String}
    (h : p.Holds j d) (hgrows : Grows d.pool pool)
    (hpass : pool.violation = none → MethodImage.Passes (p.strategy = .interpreted) pool
      ⟨access, name, type.descriptor, body, exceptions⟩) :
    p.Holds (j + 1) ((d.withPool pool).addMethod access name type body exceptions) := by
  obtain ⟨o, hrep, hname, hdebug, hinterfaces, hfields, hcount, hmethods⟩ := h
  have hadd := (d.withPool pool).grows_addMethod access name type body exceptions
  refine ⟨_, (hrep.withPool hgrows).addMethod access name type body exceptions, hname, hdebug,
    hinterfaces, hfields, ?_, fun hv m hm => ?_⟩
  · rw [List.length_append, hcount]
    rfl
  · have hv' : pool.violation = none := hadd.clean hv
    rcases List.mem_append.1 hm with hm | hm
    · exact ((hmethods (hgrows.clean hv') m hm).extend hgrows.keeps).extend hadd.keeps
    · rw [List.mem_singleton.1 hm]
      exact (hpass hv').extend hadd.keeps

/-- The code of a method: it meets no defect and ends without a way past its end. -/
def Codes (p : AdapterPlan) (ret : JavaType) (n r : Nat) (code : ClauseEmit Unit) : Prop :=
  ∀ pool slots, ∃ e, code.run (ofPool pool slots) = .ok (.ok (), e) ∧
    Ran ret p.Fits p.Feasible [] n r none (ofPool pool slots) e

theorem codes_liftM {ret : JavaType} {n : Nat} {body : Emit Unit}
    (h : Block ret p.Fits p.Feasible n r 0 none body) : p.Codes ret n r (liftM body) := by
  intro pool slots
  obtain ⟨e, hrun, hran⟩ := h (ofPool pool slots) rfl rfl rfl
  exact ⟨e, run_liftM_eq_ok.2 hrun, hran⟩

/-- **A method can be added if its body has code.** -/
theorem builds_addMethod {access : AccessFlags} {name : String} {type : MethodType}
    {exceptions : List String} {code : ClauseEmit Unit} {n : Nat}
    (hcode : p.Codes type.ret n r code) (haccess : access.isStatic = false)
    (hslots : type.argSlots ≤ 100)
    (htype : p.Fits → CallFits type) (hn : p.Feasible → n ≤ wordMax)
    (hcount : exceptions.length ≤ 1)
    (htexts : p.Feasible → ShortText name ∧ ShortText type.descriptor ∧
      ∀ x ∈ exceptions, ShortText x) :
    p.Builds 1 (r + 7) (addMethod access name type exceptions code) := fun d => by
  have hword := callWord_of_argSlots_le hslots
  obtain ⟨e, hrun, hran⟩ := hcode d.pool (type.argSlots + 1)
  rw [run_addMethod hword, run_emitMethod hrun]
  rcases hran.finish_cases with ⟨hlong, length, hlength⟩ | ⟨finished, hfinished⟩
  · rw [hlength]
    refine ⟨_, rfl, hran.grows, ?_, nofun, fun hf => absurd (hn hf) (Nat.not_le.2 hlong)⟩
    rintro c ⟨⟩
    exact id
  · rw [hfinished]
    have hadd := (d.withPool e.pool).grows_addMethod access name type (some finished) exceptions
    refine ⟨_, rfl, hran.grows.trans hadd, nofun,
      fun _ hfits i hi => ?_, fun hf i hi => ⟨rfl, ?_⟩⟩
    · show p.Holds (i + 1)
        ((d.withPool e.pool).addMethod access name type (some finished) exceptions)
      refine hi.addMethod hran.grows fun hv => ?_
      obtain ⟨o, hrep, -⟩ := hi
      obtain ⟨xs, hem, hlive⟩ := hran.emits hfits hrep.coherent
      have hcomplete := hem.complete (MethodType.callWord_eq_ok.1 hword).2 hran.lands hfinished
      exact hcomplete.passes (Nat.le_refl _) (fun _ => ⟨rfl, hlive rfl⟩) hv (htype hfits) hword
        haccess (Nat.le_trans hcount (by decide))
    · obtain ⟨hname, hdescriptor, hexceptions⟩ := htexts hf
      refine ClassDraft.hasRoom_addMethod (hran.room hf _ (hi.mono ?_)) hname hdescriptor
        hexceptions
      omega

/-! ### Methods of every adapter -/

theorem not_isBranch_of_superConstructor {c : Cause} (h : p.superConstructor = .error c) :
    ¬c.IsBranch := by
  unfold superConstructor at h
  split at h
  · cases h
  · cases h
    exact id
  · cases h
    exact id

theorem builds_addConstructor : p.Builds 1 19 p.addConstructor := by
  cases hchosen : p.superConstructor with
  | error c =>
    intro d
    refine ⟨(.error c, d), ?_, .refl _, ?_, nofun, fun hf => ?_⟩
    · unfold addConstructor
      rw [run_bind, hchosen]
      rfl
    · rintro _ ⟨⟩
      exact not_isBranch_of_superConstructor hchosen
    · obtain ⟨chosen, hok⟩ := hf.constructs
      rw [hok] at hchosen
      cases hchosen
  | ok chosen =>
    have hadd : p.Builds 1 19 (addPublic "<init>" p.names.constructorType []
        (Adapter.constructorBody p.className p.helper.name p.names chosen)) :=
      builds_addMethod (codes_liftM (block_constructorBody chosen)) rfl (by decide : 1 ≤ 100)
        Fits.constructorType (fun _ => by decide) (by decide)
        fun hf => ⟨by decide, hf.texts _ (by simp [texts]), nofun⟩
    intro d
    obtain ⟨res, hrun, hres⟩ := hadd d
    refine ⟨res, ?_, hres⟩
    unfold addConstructor
    rw [run_bind, hchosen]
    exact hrun

theorem Feasible.shortExceptions (h : p.Feasible) :
    ∀ x ∈ [p.names.executeException], ShortText x := by
  intro x hx
  rw [List.mem_singleton.1 hx]
  exact h.texts _ (by simp [AdapterPlan.texts])

/-- The code for the bindings of a feasible plan is not too long. -/
theorem Feasible.mul_length_le (h : p.Feasible) {a c : Nat} (hc : c ≤ 60) (ha : a ≤ 1000) :
    a + c * p.rule.layout.length ≤ wordMax := by
  have hmul : c * p.rule.layout.length ≤ 60 * 500 := Nat.mul_le_mul hc h.count
  unfold wordMax
  omega

theorem builds_addExecute : p.Builds 1 (73 + 29 * p.rule.layout.length) p.addExecute := by
  have htype : CallFits ⟨[.anyObject, .array .anyObject], .void⟩ :=
    callFits_of_wellFormed (by decide)
  refine (builds_addMethod (codes_liftM (block_executeBody p.options.trace)) rfl (by decide)
    (fun _ => htype) (fun hf => hf.mul_length_le (by decide) (by decide)) Nat.le.refl
    fun hf => ⟨by decide, by decide +kernel, hf.shortExceptions⟩).mono ?_
  omega

theorem builds_addAccessors : p.Builds 2 (15 + 43 * p.rule.layout.length) p.addAccessors := by
  have hset : p.Builds 1 (23 * p.rule.layout.length + 7) (addPublic "setBinding"
      ⟨[.text, .anyObject], .void⟩ [] (Adapter.setBindingBody p.className p.rule.layout)) :=
    builds_addMethod (codes_liftM block_setBindingBody) rfl (by decide)
      (fun _ => callFits_of_wellFormed (by decide))
      (fun hf => hf.mul_length_le (by decide) (by decide)) (by decide)
      fun _ => ⟨by decide, by decide +kernel, nofun⟩
  have hget : p.Builds 1 (1 + 20 * p.rule.layout.length + 7) (addPublic "getBinding"
      ⟨[.text], .anyObject⟩ [] (Adapter.getBindingBody p.className p.rule.layout)) :=
    builds_addMethod (codes_liftM block_getBindingBody) rfl (by decide)
      (fun _ => callFits_of_wellFormed (by decide))
      (fun hf => hf.mul_length_le (by decide) (by decide)) (by decide)
      fun _ => ⟨by decide, by decide +kernel, nofun⟩
  exact (hset.seq hget).mono (by omega)

theorem builds_addGetName : p.Builds 1 19
    (addPublic "getName" (.returning .text) [] (Adapter.getNameBody p.className p.names)) :=
  builds_addMethod (codes_liftM block_getNameBody) rfl (by decide)
    (fun _ => callFits_returning wellFormed_text) (fun _ => by decide) (by decide)
    fun _ => ⟨by decide, by decide +kernel, nofun⟩

/-- A method that an adapter forwards to its rule, and that fits into any class. -/
structure ForwardFits (name : String) (type : MethodType) : Prop where
  wellFormed : type.WellFormed
  slots : type.argSlots ≤ 100
  count : type.params.length ≤ 100
  shortName : ShortText name
  shortDescriptor : ShortText type.descriptor

theorem forwardFits_forwarded : ∀ m ∈ Adapter.forwarded, ForwardFits m.1 m.2 := by
  intro m hm
  simp only [Adapter.forwarded, List.mem_cons, List.not_mem_nil, or_false] at hm
  rcases hm with rfl | rfl | rfl <;>
    exact ⟨by decide, by decide, by decide, by decide, by decide +kernel⟩

theorem builds_addForwarders {ms : List (String × MethodType)}
    (h : ∀ m ∈ ms, ForwardFits m.1 m.2) :
    p.Builds ms.length (19 * ms.length) (p.addForwarders ms) := by
  induction ms with
  | nil => exact Builds.pure
  | cons m ms ih =>
    obtain ⟨name, type⟩ := m
    obtain ⟨hm, hms⟩ := List.forall_mem_cons.1 h
    have hadd : p.Builds 1 19 (addPublic name type []
        (Adapter.forwardBody p.className p.names name type)) := by
      refine builds_addMethod (codes_liftM
        (block_forwardBody hm.wellFormed hm.slots hm.shortName hm.shortDescriptor)) rfl hm.slots
        (fun _ => callFits_of_wellFormed hm.wellFormed) (fun _ => ?_) (by decide)
        fun _ => ⟨hm.shortName, hm.shortDescriptor, nofun⟩
      have hcount : type.params.length ≤ 100 := hm.count
      unfold wordMax
      omega
    rw [List.length_cons, Nat.mul_succ, Nat.add_comm, Nat.add_comm (19 * _)]
    exact hadd.seq (ih hms)

/-! ### The interpreted strategy -/

theorem builds_addClauseMethods {ms : List ClauseMethod} (h : ∀ m ∈ ms, m ∈ clauseMethods p.names) :
    p.Builds ms.length (33 * ms.length) (p.addClauseMethods ms) := by
  induction ms with
  | nil => exact Builds.pure
  | cons m ms ih =>
    obtain ⟨hm, hms⟩ := List.forall_mem_cons.1 h
    have hret : m.ret.WellFormed ∧ ShortText m.name ∧
        ShortText (MethodType.returning m.ret).descriptor := by
      simp only [clauseMethods, List.mem_cons, List.not_mem_nil, or_false] at hm
      rcases hm with rfl | rfl | rfl
      · exact ⟨trivial, (by decide : ShortText "bind"), (by decide : ShortText "()V")⟩
      · exact ⟨trivial, (by decide : ShortText "test"), (by decide : ShortText "()Z")⟩
      · exact ⟨trivial, (by decide : ShortText "fire"), (by decide : ShortText "()V")⟩
    have hadd : p.Builds 1 33 (p.addPrivate m.name (.returning m.ret)
        (liftM (interpretBody p.className p.names m))) :=
      builds_addMethod (codes_liftM (block_interpretBody hm)) rfl (Nat.zero_le _)
        (fun _ => callFits_returning hret.1) (fun _ => by decide) Nat.le.refl
        fun hf => ⟨hret.2.1, hret.2.2, hf.shortExceptions⟩
    rw [List.length_cons, Nat.mul_succ, Nat.add_comm, Nat.add_comm (33 * _)]
    exact hadd.seq (ih hms)

theorem builds_addStrategy_interpreted (h : p.strategy = .interpreted) :
    p.Builds 4 124 p.addStrategy := by
  have hexecute : p.Builds 1 25 (p.addPrivate "execute0" .action
      (liftM (dispatchBody p.className))) :=
    builds_addMethod (codes_liftM block_dispatchBody) rfl (by decide) (fun _ => callFits_action)
      (fun _ => by decide) Nat.le.refl fun hf => ⟨by decide, by decide, hf.shortExceptions⟩
  unfold addStrategy
  rw [h]
  exact hexecute.seq (builds_addClauseMethods fun _ hm => hm)

/-! ### The class before its methods -/

variable {d : ClassDraft} {o : ClassOutline}

/-- The class with its header and its fields. -/
def fieldsOnly (p : AdapterPlan) : ClassDraft := p.addFields (p.addHeader p.emptyDraft)

theorem grows_addBindingFields (bs : Layout) :
    ∀ d, Grows d.pool (addBindingFields d bs).pool := by
  induction bs with
  | nil => exact fun d => .refl d.pool
  | cons b bs ih =>
    intro d
    unfold addBindingFields
    split
    · exact (d.grows_addField _ _ _).trans (ih _)
    · exact ih d

theorem exists_represents_addBindingFields (bs : Layout) :
    ∀ {d o}, ClassDraft.Represents d o → ∃ fields : List FieldImage, fields.length ≤ bs.length ∧
      (addBindingFields d bs).Represents { o with fields := o.fields ++ fields } := by
  induction bs with
  | nil => exact fun {d o} h => ⟨[], Nat.le.refl, by rwa [List.append_nil]⟩
  | cons b bs ih =>
    intro d o h
    unfold addBindingFields
    split
    · rename_i name type _ _
      obtain ⟨fields, hlength, hrep⟩ := ih (h.addField .privateFlag name type)
      refine ⟨⟨.privateFlag, name, type.descriptor⟩ :: fields, Nat.succ_le_succ hlength, ?_⟩
      rwa [List.append_assoc] at hrep
    · obtain ⟨fields, hlength, hrep⟩ := ih h
      exact ⟨fields, Nat.le_succ_of_le hlength, hrep⟩

theorem hasRoom_addBindingFields {bs : Layout} {n : Nat}
    (hshort : ∀ b ∈ bs, ∀ text ∈ b.texts, ShortText text) :
    ∀ {d : ClassDraft}, d.pool.HasRoom (n + 2 * bs.length) →
      (addBindingFields d bs).pool.HasRoom n := by
  induction bs with
  | nil => exact fun h => h
  | cons b bs ih =>
    intro d h
    obtain ⟨hb, hbs⟩ := List.forall_mem_cons.1 hshort
    rw [List.length_cons, Nat.mul_succ, ← Nat.add_assoc] at h
    unfold addBindingFields
    split
    · rename_i name type _ hfield
      refine ih hbs (ClassDraft.hasRoom_addField h (hb _ ?_) (hb _ ?_)) <;>
        simp [PlannedBinding.texts, hfield]
    · exact ih hbs (h.mono (by omega))

theorem grows_fieldsOnly : Grows .empty p.fieldsOnly.pool := by
  have hnew : Grows .empty p.emptyDraft.pool := ClassDraft.grows_new _ _ _ _ _
  have hheader : Grows p.emptyDraft.pool (p.addHeader p.emptyDraft).pool :=
    (p.emptyDraft.grows_setSourceFile p.rule.fileName).trans
      ((p.emptyDraft.setSourceFile p.rule.fileName).grows_setSourceDebug p.debugText)
  have hbindings := grows_addBindingFields p.rule.layout (p.addHeader p.emptyDraft)
  unfold fieldsOnly addFields
  exact hnew.trans <| hheader.trans <| hbindings.trans (ClassDraft.grows_addField _ _ _ _)

theorem holds_fieldsOnly : p.Holds 0 p.fieldsOnly := by
  have hheader := ((ClassDraft.represents_new p.options.version
    (AccessFlags.publicFlag.union .superFlag) p.className p.helper.name
    [p.names.helperAdapter]).setSourceFile p.rule.fileName).setSourceDebug p.debugText
  obtain ⟨fields, hlength, hrep⟩ := exists_represents_addBindingFields p.rule.layout hheader
  refine ⟨_, hrep.addField .privateFlag Adapter.ruleField p.names.ruleType, rfl, rfl, rfl, ?_, rfl,
    fun _ => nofun⟩
  simpa using hlength

theorem hasRoom_fieldsOnly (h : p.Feasible) {n : Nat}
    (hn : n + 2 * p.rule.layout.length + 11 < wordMax) : p.fieldsOnly.pool.HasRoom n := by
  have hnew : p.emptyDraft.pool.HasRoom (n + 2 + 2 * p.rule.layout.length + 1 + 2) :=
    ClassDraft.hasRoom_new _ _ (h.texts _ (by simp [texts])) (h.texts _ (by simp [texts]))
      (fun i hi => List.mem_singleton.1 hi ▸ h.texts _ (by simp [texts])) (by simp; omega)
  have hheader : (p.addHeader p.emptyDraft).pool.HasRoom (n + 2 + 2 * p.rule.layout.length) :=
    ClassDraft.hasRoom_setSourceDebug
      (ClassDraft.hasRoom_setSourceFile hnew (h.texts _ (by simp [texts])))
  unfold fieldsOnly addFields
  exact ClassDraft.hasRoom_addField (hasRoom_addBindingFields h.bindings hheader) (by decide)
    (h.texts _ (by simp [texts]))

/-! ### All methods -/

/-- Adds the methods that are the same for both strategies. -/
def addShared (p : AdapterPlan) : Build Unit := do
  p.addConstructor
  p.addExecute
  p.addAccessors
  addPublic "getName" (.returning .text) [] (Adapter.getNameBody p.className p.names)
  p.addForwarders Adapter.forwarded

theorem addMethods_eq (p : AdapterPlan) : p.addMethods = (do p.addShared; p.addStrategy) := by
  simp only [addMethods, addShared, bind_assoc]

theorem builds_addShared : p.Builds 8 (183 + 72 * p.rule.layout.length) p.addShared := by
  have hforward : p.Builds 3 57 (p.addForwarders Adapter.forwarded) :=
    builds_addForwarders forwardFits_forwarded
  exact (builds_addConstructor.seq <| builds_addExecute.seq <| builds_addAccessors.seq <|
    builds_addGetName.seq hforward).mono (by omega)

/-- **All methods can be added if those of the strategy can.** -/
theorem builds_addMethods (h : p.Builds k r p.addStrategy) :
    p.Builds (8 + k) (183 + 72 * p.rule.layout.length + r) p.addMethods := by
  rw [addMethods_eq]
  exact builds_addShared.seq h

end AdapterPlan

end ClassForge
