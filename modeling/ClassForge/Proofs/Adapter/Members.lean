import ClassForge.Adapter.Build
import ClassForge.Proofs.Emission.OperationBlocks

/-!
# Members of an adapter are blocks

Every method body of an adapter is a block, whatever the bindings of its rule: emitting it meets no
defect, and its branches are within reach.

* `AdapterPlan.Fits` — the types that the code names can be told from their descriptors;
* `AdapterPlan.Feasible` — the helper has a constructor, its texts fit into constants, and its
  bindings into the class;
* `block_executeBody` and its siblings — **PROVED**: one contract per method body.
-/

namespace ClassForge

open Emitter

/-- A class name that can stand in a descriptor. -/
def NameFits (name : String) : Prop := name.toList ≠ [] ∧ ';' ∉ name.toList

instance (name : String) : Decidable (NameFits name) := inferInstanceAs (Decidable (_ ∧ _))

/-- The texts that a binding brings along. -/
def PlannedBinding.texts (b : PlannedBinding) : List String :=
  b.binding.name :: match b.storage with
    | .field name type _ => name :: type.descriptor :: type.className?.toList
    | _ => []

namespace AdapterPlan

/-- The names of the engine's classes that stand in descriptors. -/
def describedNames (p : AdapterPlan) : List String :=
  [p.names.rule, p.names.helperAdapter, p.names.event, p.names.condition, p.names.action]

/-- The types that generated code names are those of their descriptors. -/
structure Fits (p : AdapterPlan) : Prop where
  names : ∀ name ∈ p.describedNames, NameFits name
  fields : ∀ b ∈ p.rule.layout, ∀ name type generalized, b.storage = .field name type generalized →
    type ≠ .void ∧ type.WellFormed

theorem fits_of_valueTypes {p : AdapterPlan} (hnames : ∀ name ∈ p.describedNames, NameFits name)
    (htypes : ∀ b ∈ p.rule.layout, b.valueType ≠ .void ∧ b.valueType.WellFormed) : p.Fits := by
  refine ⟨hnames, fun b hb name type generalized hfield => ?_⟩
  have htype := htypes b hb
  rwa [PlannedBinding.valueType, hfield] at htype

/-- The texts that come with an adapter, those of its bindings apart. -/
def texts (p : AdapterPlan) : List String :=
  [p.className, p.helper.name, p.rule.fileName, p.names.rule, p.names.helperAdapter,
    p.names.executeException, p.names.event, p.names.condition, p.names.action, p.names.traceGate,
    p.names.traceGateMethod, p.names.ruleType.descriptor, p.names.constructorType.descriptor,
    p.names.interpretType.descriptor, (MethodType.returning (.ofClass p.names.event)).descriptor,
    (MethodType.returning (.ofClass p.names.condition)).descriptor,
    (MethodType.returning (.ofClass p.names.action)).descriptor]

/-- The most bindings that are sure to fit into a class. -/
def bindingLimit : Nat := 500

/-- The helper has a constructor to call, and texts and bindings are within the limits of a class
file. -/
structure Feasible (p : AdapterPlan) : Prop where
  constructs : ∃ chosen, p.superConstructor = .ok chosen
  texts : ∀ text ∈ p.texts, ShortText text
  bindings : ∀ b ∈ p.rule.layout, ∀ text ∈ b.texts, ShortText text
  count : p.rule.layout.length ≤ bindingLimit

variable {p : AdapterPlan} {ret : JavaType} {d : Nat}

theorem Fits.wellFormed_ofClass (h : p.Fits) {name : String} (hname : name ∈ p.describedNames) :
    (JavaType.ofClass name).WellFormed :=
  Emitter.wellFormed_ofClass (h.names name hname).1 (h.names name hname).2

theorem fieldFits_of_wellFormed {type : JavaType} (hvoid : type ≠ .void) (h : type.WellFormed) :
    FieldFits type :=
  ⟨hvoid, JavaType.ofDescriptor?_descriptor h⟩

theorem Fits.ruleType (h : p.Fits) : FieldFits p.names.ruleType :=
  fieldFits_of_wellFormed nofun (h.wellFormed_ofClass (by simp [describedNames]))

/-! ### Loading the rule, and the constructor -/

theorem block_loadRule (hd : d ≤ shallow) :
    Block ret p.Fits p.Feasible 6 6 d (some (d + 1)) (Adapter.loadRule p.className p.names) :=
  (Block.loadRef (by decide) hd).seq (Block.getField hd Fits.ruleType fun h =>
    ⟨h.texts _ (by simp [texts]), by decide, h.texts _ (by simp [texts])⟩)

theorem Fits.constructorType (h : p.Fits) : CallFits p.names.constructorType := by
  refine callFits_of_wellFormed ⟨fun t ht => ?_, trivial⟩
  rw [List.mem_singleton.1 ht]
  exact ⟨nofun, h.wellFormed_ofClass (by simp [describedNames])⟩

theorem callFits_action : CallFits .action := callFits_of_wellFormed ⟨nofun, trivial⟩

theorem callFits_returning {type : JavaType} (h : type.WellFormed) : CallFits (.returning type) :=
  callFits_of_wellFormed ⟨nofun, h⟩

theorem block_constructorBody (chosen : SuperConstructor) :
    Block .void p.Fits p.Feasible 19 12 0 none
      (Adapter.constructorBody p.className p.helper.name p.names chosen) := by
  have hkeep : Block .void p.Fits p.Feasible 10 6 0 none (do
      checkBalanced
      loadRef 0
      loadRef 1
      putField p.className Adapter.ruleField p.names.ruleType
      checkBalanced
      returnValue .void) :=
    Block.checkBalanced.seq <| (Block.loadRef (by decide) (by decide)).seq <|
      (Block.loadRef (by decide) (by decide)).seq <|
      (Block.putField Fits.ruleType fun h =>
        ⟨h.texts _ (by simp [texts]), by decide, h.texts _ (by simp [texts])⟩).seq <|
      Block.checkBalanced.seq (Block.returnValue rfl fun _ => rfl)
  unfold Adapter.constructorBody
  cases chosen with
  | withRule =>
    have hsuper : Block .void p.Fits p.Feasible 3 6 2 (some 0) (invokeSpecial p.helper.name "<init>"
        (SuperConstructor.withRule.type p.names.ruleType)) :=
      Block.invokeSpecial (by decide) rfl Fits.constructorType fun h =>
        ⟨h.texts _ (by simp [texts]), by decide,
          show ShortText p.names.constructorType.descriptor from h.texts _ (by simp [texts])⟩
    exact (Block.loadRef (by decide) (by decide)).seq ((Block.loadRef (by decide) (by decide)).seq
      (hsuper.seq hkeep))
  | plain =>
    have hsuper : Block .void p.Fits p.Feasible 3 6 1 (some 0) (invokeSpecial p.helper.name "<init>"
        (SuperConstructor.plain.type p.names.ruleType)) :=
      Block.invokeSpecial (by decide) rfl (fun _ => callFits_action) fun h =>
        ⟨h.texts _ (by simp [texts]), by decide,
          (by decide : ShortText MethodType.action.descriptor)⟩
    exact ((Block.loadRef (by decide) (by decide)).seq (hsuper.seq hkeep)).mono (by decide)
      (by decide)

/-! ### Entry point -/

theorem wellFormed_text : JavaType.text.WellFormed := ⟨by decide, by decide⟩

theorem wellFormed_anyObject : JavaType.anyObject.WellFormed := ⟨by decide, by decide⟩

theorem traceRun_eq (className : String) (names : EngineNames) :
    Adapter.traceRun className names =
      skipping (invokeStatic names.traceGate names.traceGateMethod (.returning .boolean)) (do
        getStatic "java/lang/System" "out" (.ofClass Adapter.streamClass)
        newObject Adapter.builderClass
        emit .dup
        invokeSpecial Adapter.builderClass "<init>" .action
        Adapter.loadRule className names
        invokeVirtual names.rule "getName" (.returning .text)
        invokeVirtual Adapter.builderClass "append" Adapter.appendType
        textConst " execute()"
        invokeVirtual Adapter.builderClass "append" Adapter.appendType
        invokeVirtual Adapter.builderClass "toString" (.returning .text)
        invokeVirtual Adapter.streamClass "println" ⟨[.text], .void⟩
        checkBalanced) := by
  unfold Adapter.traceRun skipping
  simp only [bind_assoc]

theorem wellFormed_builder : (JavaType.ofClass Adapter.builderClass).WellFormed :=
  Emitter.wellFormed_ofClass (by decide) (by decide)

theorem wellFormed_stream : (JavaType.ofClass Adapter.streamClass).WellFormed :=
  Emitter.wellFormed_ofClass (by decide) (by decide)

theorem callFits_taking {type ret : JavaType} (hvoid : type ≠ .void) (htype : type.WellFormed)
    (hret : ret.WellFormed) : CallFits ⟨[type], ret⟩ := by
  refine callFits_of_wellFormed ⟨fun t ht => ?_, hret⟩
  rw [List.mem_singleton.1 ht]
  exact ⟨hvoid, htype⟩

theorem block_append (hd : d + 2 ≤ shallow) :
    Block ret p.Fits p.Feasible 3 6 (d + 2) (some (d + 1))
      (invokeVirtual Adapter.builderClass "append" Adapter.appendType) :=
  Block.invokeVirtual hd (Nat.add_comm 2 d)
    (fun _ => callFits_taking nofun wellFormed_text wellFormed_builder)
    fun _ => ⟨by decide, by decide, by decide +kernel⟩

theorem block_getRuleName (hd : d + 1 ≤ shallow) :
    Block ret p.Fits p.Feasible 3 6 (d + 1) (some (d + 1))
      (invokeVirtual p.names.rule "getName" (.returning .text)) :=
  Block.invokeVirtual hd (Nat.add_comm 1 d) (fun _ => callFits_returning wellFormed_text) fun h =>
    ⟨h.texts _ (by simp [texts]), by decide, by decide +kernel⟩

theorem block_traceRun :
    Block ret p.Fits p.Feasible 45 60 0 (some 0) (Adapter.traceRun p.className p.names) := by
  have hgate : Block ret p.Fits p.Feasible 3 6 0 (some 1)
      (invokeStatic p.names.traceGate p.names.traceGateMethod (.returning .boolean)) :=
    Block.invokeStatic (by decide) rfl (fun _ => callFits_returning trivial) fun h =>
      ⟨h.texts _ (by simp [texts]), h.texts _ (by simp [texts]), by decide⟩
  have hstream : Block ret p.Fits p.Feasible 3 6 0 (some 1)
      (getStatic "java/lang/System" "out" (.ofClass Adapter.streamClass)) :=
    Block.getStatic (by decide) (fun _ => fieldFits_of_wellFormed nofun wellFormed_stream)
      fun _ => ⟨by decide, by decide, by decide +kernel⟩
  have hinit : Block ret p.Fits p.Feasible 3 6 3 (some 2)
      (invokeSpecial Adapter.builderClass "<init>" .action) :=
    Block.invokeSpecial (by decide) rfl (fun _ => callFits_action)
      fun _ => ⟨by decide, by decide, by decide⟩
  have htoString : Block ret p.Fits p.Feasible 3 6 2 (some 2)
      (invokeVirtual Adapter.builderClass "toString" (.returning .text)) :=
    Block.invokeVirtual (by decide) rfl (fun _ => callFits_returning wellFormed_text)
      fun _ => ⟨by decide, by decide, by decide +kernel⟩
  have hprint : Block ret p.Fits p.Feasible 3 6 2 (some 0)
      (invokeVirtual Adapter.streamClass "println" ⟨[.text], .void⟩) :=
    Block.invokeVirtual (by decide) rfl (fun _ => callFits_taking nofun wellFormed_text trivial)
      fun _ => ⟨by decide, by decide, by decide +kernel⟩
  have hdup : Block ret p.Fits p.Feasible 1 0 2 (some 3) (emit .dup) :=
    Block.emit rfl rfl ⟨rfl, rfl, rfl⟩ (by decide) (by decide) ⟨rfl, by decide⟩
  rw [traceRun_eq]
  refine Block.mono (Block.skipping hgate (hstream.seq <|
    (Block.newObject (by decide) fun _ => by decide).seq <| hdup.seq <| hinit.seq <|
    (block_loadRule (by decide)).seq <| (block_getRuleName (by decide)).seq <|
    (block_append (by decide)).seq <| (Block.textConst (by decide) fun _ => by decide).seq <|
    (block_append (by decide)).seq <| htoString.seq <| hprint.seq Block.checkBalanced)
    (.inl rfl) ?_) ?_ ?_
  · decide
  · decide
  · decide

section Bindings

variable {b : PlannedBinding} {name : String} {type : JavaType} {generalized : Bool}

theorem Fits.field (h : p.Fits) (hb : b ∈ p.rule.layout)
    (hs : b.storage = .field name type generalized) : FieldFits type :=
  fieldFits_of_wellFormed (h.fields b hb _ _ _ hs).1 (h.fields b hb _ _ _ hs).2

theorem Feasible.bindingName (h : p.Feasible) (hb : b ∈ p.rule.layout) : ShortText b.binding.name :=
  h.bindings b hb _ List.mem_cons_self

theorem Feasible.field (h : p.Feasible) (hb : b ∈ p.rule.layout)
    (hs : b.storage = .field name type generalized) :
    ShortText p.className ∧ ShortText name ∧ ShortText type.descriptor :=
  ⟨h.texts _ (by simp [AdapterPlan.texts]),
    h.bindings b hb _ (by simp [PlannedBinding.texts, hs]),
    h.bindings b hb _ (by simp [PlannedBinding.texts, hs])⟩

theorem Feasible.castClass (h : p.Feasible) (hb : b ∈ p.rule.layout)
    (hs : b.storage = .field name type generalized) (c : String)
    (hc : type.className? = some c) : ShortText c :=
  h.bindings b hb _ (by simp [PlannedBinding.texts, hs, hc])

/-- A generalized field holds an object. -/
theorem eq_anyObject_of_generalized (hb : b ∈ p.rule.layout)
    (hs : b.storage = .field name type true) : type = .anyObject := by
  obtain ⟨binding, -, rfl⟩ := List.mem_map.1 hb
  change Storage.plan p.rule.policy binding = _ at hs
  unfold Storage.plan at hs
  split_ifs at hs
  · cases hs
    rfl
  · cases hs

theorem block_storeObject (hb : b ∈ p.rule.layout)
    (hs : b.storage = .field name type generalized) (hd : d + 3 ≤ shallow) :
    Block ret p.Fits p.Feasible 20 15 (d + 2) (some d)
      (Adapter.storeObject p.className name type b.needsConversion) := by
  have hput : Block ret p.Fits p.Feasible 3 6 (d + 1 + type.slots) (some d)
      (putField p.className name type) :=
    Block.putField (fun h => h.field hb hs) fun h => h.field hb hs
  have hconversion : b.needsConversion = !generalized := by
    rw [PlannedBinding.needsConversion, hs]
    rfl
  unfold Adapter.storeObject
  rw [hconversion]
  cases generalized with
  | true =>
    obtain rfl := eq_anyObject_of_generalized hb hs
    exact hput.mono (by decide) (by decide)
  | false =>
    exact (Block.fromObject type (show d + 1 + 2 ≤ shallow by omega) fun h =>
      h.castClass hb hs).seq hput

/-- Sets the field of a binding, or does nothing. -/
theorem block_loadArgument (hb : b ∈ p.rule.layout) :
    Block ret p.Fits p.Feasible 30 16 0 (some 0) (Adapter.loadArgument p.className b) := by
  unfold Adapter.loadArgument
  cases hs : b.storage with
  | none | adapter => exact Block.pure.mono (by decide) (by decide)
  | field name type generalized =>
    have hstore : Block ret p.Fits p.Feasible 20 15 2 (some 0)
        (do Adapter.storeObject p.className name type b.needsConversion; checkBalanced) :=
      (block_storeObject (d := 0) hb hs (by decide)).seq Block.checkBalanced
    have haaload : Block ret p.Fits p.Feasible 1 0 3 (some 2) (emit .aaload) :=
      Block.emit rfl rfl ⟨rfl, rfl, rfl⟩ (by decide) (by decide) ⟨rfl, by decide⟩
    dsimp only
    split_ifs
    · exact ((Block.loadRef (by decide) (by decide)).seq
        ((Block.loadRef (by decide) (by decide)).seq hstore)).mono (by decide) (by decide)
    · exact (Block.loadRef (by decide) (by decide)).seq <|
        (Block.loadRef (by decide) (by decide)).seq <|
        (Block.intConst _ (by decide)).seq <| haaload.seq hstore
    · exact Block.pure.mono (by decide) (by decide)

/-- Copies a binding back, or does nothing. -/
theorem block_saveArgument (hb : b ∈ p.rule.layout) :
    Block ret p.Fits p.Feasible 16 13 0 (some 0) (Adapter.saveArgument p.className b) := by
  unfold Adapter.saveArgument
  cases hs : b.storage with
  | none | adapter => exact Block.pure.mono (by decide) (by decide)
  | field name type generalized =>
    have hget : Block ret p.Fits p.Feasible 3 6 3 (some (2 + type.slots))
        (getField p.className name type) :=
      Block.getField (by decide) (fun h => h.field hb hs) fun h => h.field hb hs
    have haastore : Block ret p.Fits p.Feasible 1 0 3 (some 0) (emit .aastore) :=
      Block.emit rfl rfl ⟨rfl, rfl, rfl⟩ (by decide) (by decide) ⟨rfl, by decide⟩
    dsimp only
    split_ifs
    · exact Block.pure.mono (by decide) (by decide)
    · exact (Block.loadRef (by decide) (by decide)).seq <|
        (Block.intConst _ (by decide)).seq <| (Block.loadRef (by decide) (by decide)).seq <|
        hget.seq <| (Block.toObject type (by decide)).seq <| haastore.seq Block.checkBalanced

end Bindings

/-- **Code for one binding after the other is a block.** -/
theorem block_each {n r : Nat} {f : PlannedBinding → Emit Unit} {g : Layout → Emit Unit}
    (hnil : g [] = pure ()) (hcons : ∀ b rest, g (b :: rest) = do f b; g rest) {l : Layout}
    (h : ∀ b ∈ l, Block ret p.Fits p.Feasible n r 0 (some 0) (f b)) :
    Block ret p.Fits p.Feasible (n * l.length) (r * l.length) 0 (some 0) (g l) := by
  induction l with
  | nil =>
    rw [hnil]
    exact Block.pure
  | cons b rest ih =>
    rw [hcons]
    refine ((h b List.mem_cons_self).seq (ih fun c hc => h c (List.mem_cons_of_mem b hc))).mono
      (Nat.le_of_eq ?_) (Nat.le_of_eq ?_)
    · rw [List.length_cons, Nat.mul_succ, Nat.add_comm]
    · rw [List.length_cons, Nat.mul_succ, Nat.add_comm]

theorem block_executeBody (trace : Bool) :
    Block .void p.Fits p.Feasible (52 + 46 * p.rule.layout.length)
      (66 + 29 * p.rule.layout.length) 0 none
      (Adapter.executeBody p.className p.names trace p.rule.layout) := by
  have hloads : Block .void p.Fits p.Feasible _ _ 0 (some 0)
      (Adapter.loadArguments p.className p.rule.layout) :=
    block_each rfl (fun _ _ => rfl) fun b hb => block_loadArgument hb
  have hsaves : Block .void p.Fits p.Feasible _ _ 0 (some 0)
      (Adapter.saveArguments p.className p.rule.layout) :=
    block_each rfl (fun _ _ => rfl) fun b hb => block_saveArgument hb
  have hrun : Block .void p.Fits p.Feasible 3 6 1 (some 0)
      (invokeSpecial p.className "execute0" .action) :=
    Block.invokeSpecial (by decide) rfl (fun _ => callFits_action) fun h =>
      ⟨h.texts _ (by simp [texts]), by decide, by decide⟩
  have hself : Block .void p.Fits p.Feasible _ _ 0 (some 1) (loadRef 0) :=
    Block.loadRef (by decide) (by decide)
  have hend : Block .void p.Fits p.Feasible _ _ 0 none (returnValue .void) :=
    Block.returnValue rfl fun _ => rfl
  have hbody := hloads.seq <| hself.seq <| hrun.seq <| Block.checkBalanced.seq <| hsaves.seq hend
  unfold Adapter.executeBody
  cases trace with
  | true => exact (block_traceRun.seq hbody).mono (by omega) (by omega)
  | false => exact hbody.mono (by omega) (by omega)

/-! ### Access by name -/

/-- Compares the first parameter with a name. -/
def compareName (name : String) : Emit Unit := do
  textConst name
  loadRef 1
  invokeVirtual JavaType.stringClass "equals" ⟨[.anyObject], .boolean⟩

theorem block_compareName {b : PlannedBinding} (hb : b ∈ p.rule.layout) :
    Block ret p.Fits p.Feasible 9 8 0 (some 1) (compareName b.binding.name) := by
  have hequals : Block ret p.Fits p.Feasible 3 6 2 (some 1)
      (invokeVirtual JavaType.stringClass "equals" ⟨[.anyObject], .boolean⟩) :=
    Block.invokeVirtual (by decide) rfl
      (fun _ => callFits_taking nofun wellFormed_anyObject trivial)
      fun _ => ⟨by decide, by decide, by decide +kernel⟩
  exact (Block.textConst (by decide) fun h => h.bindingName hb).seq <|
    (Block.loadRef (by decide) (by decide)).seq hequals

theorem block_setIfNamed {b : PlannedBinding} (hb : b ∈ p.rule.layout) :
    Block ret p.Fits p.Feasible 38 23 0 (some 0) (Adapter.setIfNamed p.className b) := by
  unfold Adapter.setIfNamed
  cases hs : b.storage with
  | none | adapter => exact Block.pure.mono (by decide) (by decide)
  | field name type generalized =>
    have hstore : Block ret p.Fits p.Feasible 26 15 0 (some 0) (do
        loadRef 0
        loadRef 2
        Adapter.storeObject p.className name type b.needsConversion) :=
      (Block.loadRef (by decide) (by decide)).seq <|
        (Block.loadRef (by decide) (by decide)).seq (block_storeObject hb hs (by decide))
    have hskip := (Block.skipping (block_compareName hb) hstore (.inl rfl) (by decide)).seq
      Block.checkBalanced
    simpa only [skipping, compareName, Adapter.testName, bind_assoc] using hskip

theorem block_setBindingBody :
    Block .void p.Fits p.Feasible (1 + 38 * p.rule.layout.length) (23 * p.rule.layout.length) 0 none
      (Adapter.setBindingBody p.className p.rule.layout) := by
  have hsets : Block .void p.Fits p.Feasible _ _ 0 (some 0)
      (Adapter.setAllNamed p.className p.rule.layout) :=
    block_each rfl (fun _ _ => rfl) fun b hb => block_setIfNamed hb
  exact (hsets.seq (Block.returnValue rfl fun _ => rfl)).mono (by omega) (by omega)

/-- Returns a value under a name. -/
theorem block_returnIfNamed {b : PlannedBinding} {n r : Nat} {value : Emit Unit}
    (hb : b ∈ p.rule.layout) (hvalue : Block .anyObject p.Fits p.Feasible n r 0 (some 1) value)
    (hn : n ≤ 1000) : Block .anyObject p.Fits p.Feasible (n + 13) (r + 8) 0 (some 0)
      (Adapter.returnIfNamed b.binding.name value) := by
  have hreturn : Block .anyObject p.Fits p.Feasible (n + 1) (r + 0) 0 none
      (do value; returnValue .anyObject) :=
    hvalue.seq (Block.returnValue rfl fun _ => rfl)
  have hskip := (Block.skipping (block_compareName hb) hreturn (.inr rfl) (by omega)).seq
    Block.checkBalanced
  refine Block.mono ?_ (show 9 + 3 + (n + 1) + 0 ≤ n + 13 by omega)
    (show 8 + (r + 0) + 0 ≤ r + 8 by omega)
  simpa only [skipping, compareName, Adapter.returnIfNamed, Adapter.testName, bind_assoc]
    using hskip

theorem block_getIfNamed {b : PlannedBinding} (hb : b ∈ p.rule.layout) :
    Block .anyObject p.Fits p.Feasible 22 20 0 (some 0) (Adapter.getIfNamed p.className b) := by
  unfold Adapter.getIfNamed
  cases hs : b.storage with
  | none => exact Block.pure.mono (by decide) (by decide)
  | adapter =>
    exact (block_returnIfNamed hb (Block.loadRef (by decide) (by decide)) (by decide)).mono
      (by decide) (by decide)
  | field name type generalized =>
    have hget : Block .anyObject p.Fits p.Feasible 3 6 1 (some (0 + type.slots))
        (getField p.className name type) :=
      Block.getField (by decide) (fun h => h.field hb hs) fun h => h.field hb hs
    exact block_returnIfNamed hb ((Block.loadRef (by decide) (by decide)).seq
      (hget.seq (Block.toObject type (by decide)))) (by decide)

theorem block_getBindingBody :
    Block .anyObject p.Fits p.Feasible (4 + 22 * p.rule.layout.length)
      (1 + 20 * p.rule.layout.length) 0 none
      (Adapter.getBindingBody p.className p.rule.layout) := by
  have hgets : Block .anyObject p.Fits p.Feasible _ _ 0 (some 0)
      (Adapter.getFirstNamed p.className p.rule.layout) :=
    block_each rfl (fun _ _ => rfl) fun b hb => block_getIfNamed hb
  exact (hgets.seq ((Block.zeroOf .anyObject (by decide)).seq
    (Block.returnValue rfl fun _ => rfl))).mono (by omega) (by omega)

/-! ### Forwarding -/

theorem block_getNameBody :
    Block .text p.Fits p.Feasible 10 12 0 none (Adapter.getNameBody p.className p.names) :=
  (block_loadRule (by decide)).seq <| (block_getRuleName (by decide)).seq <|
    Block.returnValue rfl fun _ => rfl

theorem block_loadParameters {fits short : Prop} {params : List JavaType} :
    ∀ {slot d : Nat}, slot + params.foldr (fun t n => t.slots + n) 0 ≤ 255 →
      d + params.foldr (fun t n => t.slots + n) 0 ≤ shallow → (∀ t ∈ params, t ≠ .void) →
      Block ret fits short (3 * params.length) 0 d
        (some (d + params.foldr (fun t n => t.slots + n) 0))
        (Adapter.loadParameters params slot) := by
  induction params with
  | nil => exact fun _ _ _ => Block.pure
  | cons type rest ih =>
    intro slot d hslot hd htypes
    rw [List.foldr_cons] at hslot hd ⊢
    rw [List.length_cons, Nat.mul_succ, Nat.add_comm, ← Nat.add_assoc d]
    exact (Block.load (by omega) (by omega) fun _ => htypes type List.mem_cons_self).seq
      (ih (by omega) (by omega) fun t ht => htypes t (List.mem_cons_of_mem type ht))

theorem returnFits_returnOp (type : JavaType) :
    Inspection.returnFits (returnOp type) type = true := by
  cases type <;> rfl

theorem block_forwardBody {name : String} {type : MethodType} (htype : type.WellFormed)
    (hslots : type.argSlots ≤ 100) (hname : ShortText name)
    (hdescriptor : ShortText type.descriptor) :
    Block type.ret p.Fits p.Feasible (10 + 3 * type.params.length) 12 0 none
      (Adapter.forwardBody p.className p.names name type) := by
  have hcall : Block type.ret p.Fits p.Feasible 3 6 (1 + type.argSlots) (some (0 + type.retSlots))
      (invokeVirtual p.names.rule name type) :=
    Block.invokeVirtual (by unfold shallow; omega)
      (show type.argSlots + 1 + 0 = 1 + type.argSlots by omega)
      (fun _ => callFits_of_wellFormed htype)
      fun h => ⟨h.texts _ (by simp [texts]), hname, hdescriptor⟩
  have hparams : Block type.ret p.Fits p.Feasible (3 * type.params.length) 0 1
      (some (1 + type.argSlots)) (Adapter.loadParameters type.params 1) :=
    block_loadParameters (by unfold MethodType.argSlots at hslots; omega)
      (by unfold MethodType.argSlots at hslots; unfold shallow; omega)
      fun t ht => (htype.params t ht).1
  exact ((block_loadRule (by decide)).seq <| hparams.seq <| hcall.seq <|
    Block.returnValue (Nat.zero_add _).symm fun _ => returnFits_returnOp _).mono (by omega)
      (by omega)

/-! ### The interpreted strategy -/

/-- A call of a method of the adapter without parameters. -/
theorem block_callSelf {name : String} {type : JavaType} (htype : type.WellFormed)
    (hname : ShortText name) (hdescriptor : ShortText (MethodType.returning type).descriptor) :
    Block ret p.Fits p.Feasible 6 6 0 (some (0 + type.slots))
      (do loadRef 0; invokeSpecial p.className name (.returning type)) := by
  have hcall : Block ret p.Fits p.Feasible 3 6 1 (some (0 + type.slots))
      (invokeSpecial p.className name (.returning type)) :=
    Block.invokeSpecial (by decide) rfl (fun _ => callFits_returning htype)
      fun h => ⟨h.texts _ (by simp [texts]), hname, hdescriptor⟩
  exact (Block.loadRef (by decide) (by decide)).seq hcall

theorem block_dispatchBody :
    Block .void p.Fits p.Feasible 22 18 0 none (dispatchBody p.className) := by
  have hbind : Block .void p.Fits p.Feasible 6 6 0 (some 0)
      (do loadRef 0; invokeSpecial p.className "bind" .action) :=
    block_callSelf trivial (by decide) (by decide)
  have htest : Block .void p.Fits p.Feasible 6 6 0 (some 1)
      (do loadRef 0; invokeSpecial p.className "test" (.returning .boolean)) :=
    block_callSelf trivial (by decide) (by decide)
  have hfire : Block .void p.Fits p.Feasible 6 6 0 (some 0)
      (do loadRef 0; invokeSpecial p.className "fire" .action) :=
    block_callSelf trivial (by decide) (by decide)
  have hend : Block .void p.Fits p.Feasible _ _ 0 none (returnValue .void) :=
    Block.returnValue rfl fun _ => rfl
  have hbody : Block .void p.Fits p.Feasible 22 18 0 none _ :=
    (Block.skipping (hbind.seq htest) hfire (.inl rfl) (by decide)).seq hend
  simpa only [skipping, dispatchBody, bind_assoc] using hbody

theorem block_interpretBody {m : ClauseMethod} (hm : m ∈ clauseMethods p.names) :
    Block m.ret p.Fits p.Feasible 22 26 0 none (interpretBody p.className p.names m) := by
  have hclass : m.clauseClass ∈ p.describedNames ∧ m.clauseClass ∈ p.texts ∧
      (MethodType.returning (.ofClass m.clauseClass)).descriptor ∈ p.texts ∧
      ShortText m.getter := by
    simp only [clauseMethods, List.mem_cons, List.not_mem_nil, or_false] at hm
    rcases hm with rfl | rfl | rfl
    · exact ⟨by simp [describedNames], by simp [texts], by simp [texts],
        (by decide : ShortText "getEvent")⟩
    · exact ⟨by simp [describedNames], by simp [texts], by simp [texts],
        (by decide : ShortText "getCondition")⟩
    · exact ⟨by simp [describedNames], by simp [texts], by simp [texts],
        (by decide : ShortText "getAction")⟩
  obtain ⟨hdescribed, htext, hdescriptor, hgetter⟩ := hclass
  have hclause : Block m.ret p.Fits p.Feasible 3 6 1 (some 1)
      (invokeVirtual p.names.rule m.getter (.returning (.ofClass m.clauseClass))) :=
    Block.invokeVirtual (by decide) rfl
      (fun h => callFits_returning (h.wellFormed_ofClass hdescribed))
      fun h => ⟨h.texts _ (by simp [texts]), hgetter, h.texts _ hdescriptor⟩
  have hinterpret : Block m.ret p.Fits p.Feasible 3 6 2 (some 1)
      (invokeVirtual m.clauseClass "interpret" p.names.interpretType) :=
    Block.invokeVirtual (by decide) rfl
      (fun h => callFits_taking nofun (h.wellFormed_ofClass (by simp [describedNames]))
        wellFormed_anyObject)
      fun h => ⟨h.texts _ htext, by decide, h.texts _ (by simp [texts])⟩
  have hcall {n r : Nat} {rest : Emit Unit}
      (hrest : Block m.ret p.Fits p.Feasible n r 1 none rest) :
      Block m.ret p.Fits p.Feasible (15 + n) (18 + r) 0 none (do
        Adapter.loadRule p.className p.names
        invokeVirtual p.names.rule m.getter (.returning (.ofClass m.clauseClass))
        loadRef 0
        invokeVirtual m.clauseClass "interpret" p.names.interpretType
        rest) :=
    ((block_loadRule (by decide)).seq <| hclause.seq <|
      (Block.loadRef (by decide) (by decide)).seq <| hinterpret.seq hrest).mono (by omega)
        (by omega)
  unfold interpretBody
  obtain ⟨name, getter, clauseClass, tests⟩ := m
  cases tests with
  | true =>
    have hboolean : Block .boolean p.Fits p.Feasible 3 6 1 (some 1)
        (invokeVirtual "java/lang/Boolean" "booleanValue" (.returning .boolean)) :=
      Block.invokeVirtual (by decide) rfl (fun _ => callFits_returning trivial)
        fun _ => ⟨by decide, by decide, by decide⟩
    exact hcall ((Block.checkCast rfl (fun _ => by decide) fun _ => by decide +kernel).seq
      (hboolean.seq (Block.returnValue rfl fun _ => rfl)))
  | false =>
    exact (hcall ((Block.popValue .anyObject (by decide)).seq
      (Block.returnValue rfl fun _ => rfl))).mono (by decide) (by decide)

end AdapterPlan

end ClassForge
