import ClassForge.Proofs.Adapter.Slots

/-!
# Tracing

An adapter may print the name of its rule before it runs.

* `AdapterPlan.TracesQuietly` — what the methods are relied on that this calls;
* `exists_carries_traceRun` — **PROVED**: tracing changes nothing that was there, and does not run
  the rule.
-/

namespace ClassForge

open ConstantPool Emitter

namespace AdapterPlan

variable {p : AdapterPlan} {σ : Type} {M : Machine σ} {w w' : World σ} {self : Ref}
  {l : Nat → Option Value} {c : List Call}

/-- Calls of the method on an object return such a value, and change nothing that was there. -/
def Yields (P : Platform σ) (m : MemberRef) (good : Option Value → Prop) : Prop :=
  ∀ r args (w : World σ), ∃ v w', P.call m (.ref (some r) :: args) w = some (v, w') ∧ good v ∧
    w.Keeps w'

theorem enter_of_call {P : Platform σ} {m : MemberRef} {values : List Value} {v : Option Value}
    (hforeign : P.library? m = none) (hcall : P.call m values w = some (v, w')) (st : List Value)
    (l : Nat → Option Value) (c : List Call) :
    Activation.enter P m values ⟨st, l, w, c⟩ =
      some ⟨v.toList ++ st, l, w', c ++ [⟨m, values⟩]⟩ := by
  simp only [Activation.enter, hforeign, hcall, Option.map_some]

theorem Yields.exists_carries {owner name : String} {type : MethodType}
    {good : Option Value → Prop}
    (h : Yields M.platform ⟨.method, owner, name, type.descriptor⟩ good)
    (hname : name ∉ Library.names) (htype : CallFits type) (r : Ref) (args : List Value)
    (hcount : args.length = type.params.length) (w : World σ) :
    ∃ v w', good v ∧ w.Keeps w' ∧ ∀ st l c,
      M.Carries (invokeVirtual owner name type) ⟨(.ref (some r) :: args).reverse ++ st, l, w, c⟩
        ⟨v.toList ++ st, l, w',
          c ++ [⟨⟨.method, owner, name, type.descriptor⟩, .ref (some r) :: args⟩]⟩ := by
  obtain ⟨v, w', hcall, hgood, hkeeps⟩ := h r args w
  exact ⟨v, w', hgood, hkeeps, fun st l c => .invokeVirtual htype (congrArg (· + 1) hcount) nofun
    (enter_of_call (M.platform.library?_eq_none hname) hcall st l c)⟩

/-- The field that holds the rule. -/
def ruleSlot (p : AdapterPlan) : MemberRef :=
  ⟨.field, p.className, Adapter.ruleField, p.names.ruleType.descriptor⟩

/-- The method that runs the rule. -/
def ruleMethod (p : AdapterPlan) : MemberRef :=
  ⟨.method, p.className, "execute0", MethodType.action.descriptor⟩

/-- The method that tells whether runs are traced. -/
def gateMethod (p : AdapterPlan) : MemberRef :=
  ⟨.method, p.names.traceGate, p.names.traceGateMethod,
    (MethodType.returning .boolean).descriptor⟩

/-- The methods that tracing calls return, and change nothing that was there. -/
structure TracesQuietly (p : AdapterPlan) (P : Platform σ) : Prop where
  foreign : P.library? p.gateMethod = none
  gate : ∀ w : World σ, ∃ k w', P.call p.gateMethod [] w = some (some (.int k), w') ∧ w.Keeps w'
  out : ∀ w, ∃ r, P.static ⟨.field, "java/lang/System", "out",
    (JavaType.ofClass Adapter.streamClass).descriptor⟩ w = some (.ref (some r))
  builder : Yields P ⟨.method, Adapter.builderClass, "<init>", MethodType.action.descriptor⟩
    fun v => v = none
  name : Yields P ⟨.method, p.names.rule, "getName", (MethodType.returning .text).descriptor⟩
    fun v => ∃ r, v = some (.ref r)
  append : Yields P ⟨.method, Adapter.builderClass, "append", Adapter.appendType.descriptor⟩
    fun v => ∃ r, v = some (.ref (some r))
  text : Yields P ⟨.method, Adapter.builderClass, "toString",
    (MethodType.returning .text).descriptor⟩ fun v => ∃ r, v = some (.ref r)
  print : Yields P ⟨.method, Adapter.streamClass, "println",
    (⟨[.text], .void⟩ : MethodType).descriptor⟩ fun v => v = none

/-- Prints the rule's name. -/
def printName (p : AdapterPlan) : Emit Unit := do
  getStatic "java/lang/System" "out" (.ofClass Adapter.streamClass)
  newObject Adapter.builderClass
  emit .dup
  invokeSpecial Adapter.builderClass "<init>" .action
  Adapter.loadRule p.className p.names
  invokeVirtual p.names.rule "getName" (.returning .text)
  invokeVirtual Adapter.builderClass "append" Adapter.appendType
  textConst " execute()"
  invokeVirtual Adapter.builderClass "append" Adapter.appendType
  invokeVirtual Adapter.builderClass "toString" (.returning .text)
  invokeVirtual Adapter.streamClass "println" ⟨[.text], .void⟩
  checkBalanced

theorem regular_printName : Regular p.printName :=
  (regular_getStatic _ _ _).seq <| (regular_newObject _).seq <| (regular_emit _).seq <|
    (regular_invokeSpecial _ _ _).seq <|
    ((regular_load _ 0).seq (regular_getField _ _ _)).seq <| (regular_invokeVirtual _ _ _).seq <|
    (regular_invokeVirtual _ _ _).seq <| (regular_textConst _).seq <|
    (regular_invokeVirtual _ _ _).seq <| (regular_invokeVirtual _ _ _).seq <|
    (regular_invokeVirtual _ _ _).seq regular_checkBalanced

theorem exists_carries_printName (h : p.TracesQuietly M.platform)
    (hl₀ : l 0 = some (.ref (some self))) (hself : w.objects self ≠ none)
    (hrule : ∃ rule, w.fields self p.ruleSlot = .ref (some rule)) :
    ∃ w' calls, w.Keeps w' ∧ (∀ call ∈ calls, call.method ≠ p.ruleMethod) ∧
      M.Carries p.printName ⟨[], l, w, c⟩ ⟨[], l, w', c ++ calls⟩ := by
  have hreturns : CallFits (.returning .text) := callFits_returning wellFormed_text
  have hjoins : CallFits Adapter.appendType :=
    callFits_taking nofun wellFormed_text wellFormed_builder
  have hprints : CallFits ⟨[.text], .void⟩ := callFits_taking nofun wellFormed_text trivial
  obtain ⟨rule, hrule⟩ := hrule
  -- The stream, and a new object that joins strings.
  obtain ⟨out, hout⟩ := h.out w
  have hcreate := M.platform.create_keeps Adapter.builderClass w
  generalize hnew : M.platform.create Adapter.builderClass w = new at hcreate
  obtain ⟨builder, w₁⟩ := new
  have hobject : M.Carries (newObject Adapter.builderClass) ⟨[.ref (some out)], l, w, c⟩
      ⟨[.ref (some builder), .ref (some out)], l, w₁, c⟩ := by
    have hcarries : M.Carries (newObject Adapter.builderClass) ⟨[.ref (some out)], l, w, c⟩ _ :=
      .newObject
    rwa [hnew] at hcarries
  have hdup : M.Carries (emit .dup) ⟨[.ref (some builder), .ref (some out)], l, w₁, c⟩
      ⟨[.ref (some builder), .ref (some builder), .ref (some out)], l, w₁, c⟩ :=
    .emit rfl fun _ => rfl
  obtain ⟨_, w₂, hinit, rfl, hkeeps₂⟩ := h.builder builder [] w₁
  have hspecial : M.Carries (invokeSpecial Adapter.builderClass "<init>" .action)
      ⟨[.ref (some builder)].reverse ++ [.ref (some builder), .ref (some out)], l, w₁, c⟩ _ :=
    .invokeSpecial callFits_action rfl nofun
      (enter_of_call (M.platform.library?_eq_none (by decide)) hinit _ _ _)
  -- The rule's name.
  have hload : ∀ st c, M.Carries (Adapter.loadRule p.className p.names) ⟨st, l, w₂, c⟩
      ⟨.ref (some rule) :: st, l, w₂, c⟩ := by
    intro st c
    have hget : M.Carries (getField p.className Adapter.ruleField p.names.ruleType)
        ⟨.ref (some self) :: st, l, w₂, c⟩ ⟨w₂.fields self p.ruleSlot :: st, l, w₂, c⟩ := .getField
    rw [(hcreate.trans hkeeps₂).fields self hself, hrule] at hget
    exact (Machine.Carries.loadRef (by decide) hl₀).seq hget
  obtain ⟨_, w₃, ⟨name, rfl⟩, hkeeps₃, hname⟩ :=
    h.name.exists_carries (by decide) hreturns rule [] rfl w₂
  -- The line, joined from the name and a literal.
  obtain ⟨_, w₄, ⟨joined, rfl⟩, hkeeps₄, hjoin⟩ :=
    h.append.exists_carries (by decide) hjoins builder [.ref name] rfl w₃
  have hliteral := M.platform.provide_keeps (.text " execute()") w₄
  generalize htext : M.platform.provide (.text " execute()") w₄ = literal at hliteral
  obtain ⟨suffix, w₅⟩ := literal
  have hsuffix : ∀ st c, M.Carries (textConst " execute()") ⟨st, l, w₄, c⟩
      ⟨.ref (some suffix) :: st, l, w₅, c⟩ := by
    intro st c
    have hcarries : M.Carries (textConst " execute()") ⟨st, l, w₄, c⟩ _ := .textConst _
    rwa [htext] at hcarries
  obtain ⟨_, w₆, ⟨whole, rfl⟩, hkeeps₆, hjoin'⟩ :=
    h.append.exists_carries (by decide) hjoins joined [.ref (some suffix)] rfl w₅
  obtain ⟨_, w₇, ⟨line, rfl⟩, hkeeps₇, hline⟩ :=
    h.text.exists_carries (by decide) hreturns whole [] rfl w₆
  obtain ⟨_, w₈, rfl, hkeeps₈, hprint⟩ :=
    h.print.exists_carries (by decide) hprints out [.ref line] rfl w₇
  have hrun := (Machine.Carries.getStatic hout).seq (hobject.seq (hdup.seq (hspecial.seq
    ((hload _ _).seq ((hname _ _ _).seq ((hjoin _ _ _).seq ((hsuffix _ _).seq
      ((hjoin' _ _ _).seq ((hline _ _ _).seq ((hprint _ _ _).seq (.checkBalanced _)))))))))))
  simp only [List.append_assoc, List.cons_append, List.nil_append] at hrun
  refine ⟨w₈, _, ?_, ?_, hrun⟩
  · exact hcreate.trans (hkeeps₂.trans (hkeeps₃.trans (hkeeps₄.trans (hliteral.trans
      (hkeeps₆.trans (hkeeps₇.trans hkeeps₈))))))
  · intro call hcall heq
    have hnamed : call.method.name = "execute0" := congrArg MemberRef.name heq
    simp only [List.mem_cons, List.not_mem_nil, or_false] at hcall
    rcases hcall with rfl | rfl | rfl | rfl | rfl | rfl <;> simp at hnamed

/-- **Tracing changes nothing that was there**, whether the engine asks for it or not. -/
theorem exists_carries_traceRun (h : p.TracesQuietly M.platform)
    (hl₀ : l 0 = some (.ref (some self))) (hself : w.objects self ≠ none)
    (hrule : ∃ rule, w.fields self p.ruleSlot = .ref (some rule)) :
    ∃ w' calls, w.Keeps w' ∧ (∀ call ∈ calls, call.method ≠ p.ruleMethod) ∧
      M.Carries (Adapter.traceRun p.className p.names) ⟨[], l, w, []⟩ ⟨[], l, w', calls⟩ := by
  obtain ⟨k, w₁, hgate, hkeeps⟩ := h.gate w
  have htest : M.Carries
      (invokeStatic p.names.traceGate p.names.traceGateMethod (.returning .boolean))
      ⟨[].reverse ++ [], l, w, []⟩ _ :=
    .invokeStatic (callFits_returning trivial) rfl (enter_of_call h.foreign hgate [] l [])
  have hother : ∀ call ∈ [(⟨p.gateMethod, []⟩ : Call)], call.method ≠ p.ruleMethod := by
    intro call hcall heq
    obtain rfl := List.mem_singleton.1 hcall
    have hdescriptor : (MethodType.returning .boolean).descriptor = MethodType.action.descriptor :=
      congrArg MemberRef.descriptor heq
    exact absurd hdescriptor (by decide)
  rw [traceRun_eq]
  by_cases hk : k = 0
  · subst hk
    exact ⟨w₁, _, hkeeps, hother, .skip htest regular_printName⟩
  · obtain ⟨rule, hrule⟩ := hrule
    rw [← hkeeps.fields self hself] at hrule
    obtain ⟨w', calls, hkeeps', hcalls, hprint⟩ := exists_carries_printName h hl₀
      (hkeeps.objects.ne_none hself) ⟨rule, hrule⟩
    refine ⟨w', _, hkeeps.trans hkeeps', fun call hcall => ?_, .take hk htest hprint⟩
    rcases List.mem_append.1 hcall with hcall | hcall
    · exact hother call hcall
    · exact hcalls call hcall

theorem tracesQuietly_samplePlan : (samplePlan .compiled).TracesQuietly samplePlatform where
  foreign := samplePlatform.library?_eq_none (by decide)
  gate w := ⟨1, w, rfl, .refl w⟩
  out _ := ⟨1, rfl⟩
  builder _ _ w := ⟨none, w, rfl, rfl, .refl w⟩
  name _ _ w := ⟨_, _, rfl, ⟨_, rfl⟩, samplePlatform.provide_keeps (.text "sample") w⟩
  append r _ w := ⟨_, w, rfl, ⟨r, rfl⟩, .refl w⟩
  text _ _ w := ⟨_, _, rfl, ⟨_, rfl⟩, samplePlatform.provide_keeps (.text "sample execute()") w⟩
  print _ _ w := ⟨none, w, rfl, rfl, .refl w⟩

end AdapterPlan

end ClassForge
