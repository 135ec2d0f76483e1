import ClassForge.Proofs.Adapter.Shape

/-!
# Fields of adapters

An adapter has a field for each stored binding and one of its own, which holds the rule. No two
fields of a class may have the same name and descriptor.

* `AdapterPlan.Shadows` — the field of a binding would be the one that holds the rule;
* `nodup_fields_iff` — **PROVED**: where the fields of bindings have different names, shadowing is
  the only collision;
* `exists_stores_of_build` — **PROVED**: `execute` and `setBinding` store into the fields of
  bindings, and into no others;
* `AdapterPlan.FieldUse` — what follows for the fields of a class and for these two methods;
* `fields_of_build` — **PROVED**: it holds of every class that is built: only a binding that shadows
  the rule's field makes fields collide, and is stored into it;
* `fields_collide` — a plan whose fields collide.
-/

namespace ClassForge

open ConstantPool Emitter

/-- What tells two fields of a class apart. -/
def FieldImage.key (f : FieldImage) : String × String := (f.name, f.descriptor)

/-- The body of the first method with the given name and type. -/
def ClassImage.body? (c : ClassImage) (name : String) (type : MethodType) : Option MethodBody :=
  (c.method? name type.descriptor).bind (·.body)

namespace AdapterPlan

variable {p : AdapterPlan} {bytes : List UInt8} {b : Binding}

/-- The type of the method that runs the rule for a call. -/
def executeType : MethodType := ⟨[.anyObject, .array .anyObject], .void⟩

/-- The type of the method that sets bindings by name. -/
def setBindingType : MethodType := ⟨[.text, .anyObject], .void⟩

/-! ### Collisions -/

/-- The field of the binding has the name and the descriptor of the one that holds the rule. -/
def Shadows (p : AdapterPlan) (b : Binding) : Prop :=
  b.fieldName = "rule" ∧ (p.rule.fieldType b).descriptor = p.names.ruleType.descriptor

instance (p : AdapterPlan) (b : Binding) : Decidable (p.Shadows b) :=
  inferInstanceAs (Decidable (_ ∧ _))

theorem fieldOf_eq_ruleSlot_iff : p.fieldOf b = p.ruleSlot ↔ p.Shadows b := by
  simp only [fieldOf, ruleSlot, MemberRef.mk.injEq, true_and]
  exact Iff.rfl

theorem key_bindingField (b : Binding) :
    (p.bindingField b).key = (b.fieldName, (p.rule.fieldType b).descriptor) := by
  rw [bindingField_eq]
  rfl

/-- What tells the fields of stored bindings apart. -/
theorem map_key_bindingFields :
    ((p.rule.bindings.filter Binding.isStored).map p.bindingField).map FieldImage.key =
      (p.rule.bindings.filter Binding.isStored).map fun b =>
        (b.fieldName, (p.rule.fieldType b).descriptor) := by
  rw [List.map_map]
  exact List.map_congr_left fun b _ => key_bindingField b

theorem ruleKey_mem_iff :
    ("rule", p.names.ruleType.descriptor) ∈
        ((p.rule.bindings.filter Binding.isStored).map p.bindingField).map FieldImage.key ↔
      ∃ b ∈ p.rule.bindings, b.isStored = true ∧ p.Shadows b := by
  simp only [map_key_bindingFields, List.mem_map, List.mem_filter, Prod.mk.injEq, and_assoc,
    Shadows]

/-- **Fields collide only with the rule's**, where those of bindings have different names. -/
theorem nodup_fields_iff
    (hdistinct : ((p.rule.bindings.filter Binding.isStored).map Binding.fieldName).Nodup) :
    (p.outline.fields.map FieldImage.key).Nodup ↔
      ∀ b ∈ p.rule.bindings, b.isStored = true → ¬p.Shadows b := by
  have hkeys : (((p.rule.bindings.filter Binding.isStored).map p.bindingField).map
      FieldImage.key).Nodup := by
    refine List.Nodup.of_map Prod.fst ?_
    rwa [map_key_bindingFields, List.map_map]
  have hfields : p.outline.fields.map FieldImage.key =
      ((p.rule.bindings.filter Binding.isStored).map p.bindingField).map FieldImage.key ++
        [("rule", p.names.ruleType.descriptor)] := List.map_append
  rw [hfields, List.nodup_append_comm, List.singleton_append, List.nodup_cons, ruleKey_mem_iff]
  refine ⟨fun h b hb hstored hshadows => h.1 ⟨b, hb, hstored, hshadows⟩, fun h => ⟨?_, hkeys⟩⟩
  rintro ⟨b, hb, hstored, hshadows⟩
  exact h b hb hstored hshadows

/-! ### Stores -/

theorem ruleSlot_mem_iff {test : Binding → Bool} :
    p.ruleSlot ∈ (p.rule.bindings.filter test).map p.fieldOf ↔
      ∃ b ∈ p.rule.bindings, test b = true ∧ p.Shadows b := by
  simp only [List.mem_map, List.mem_filter, and_assoc, fieldOf_eq_ruleSlot_iff]

/-- A method of a built class stores into the fields that its code names. -/
theorem exists_stores_of_made {ms : List Member} {gs : List MethodImage} {pool : ConstantPool}
    {m : Member} {name : String} {type : MethodType} {x : Emit Unit} {fields : List MemberRef}
    (h : List.Forall₂ (fun m g => m.Made pool g) ms gs)
    (hfind : ms.find? (·.isNamed name type) = some m) (hcode : m.code = liftM x)
    (hx : Writes fields x) (hv : pool.violation = none) :
    ∃ body, (gs.find? fun g => g.name == name && g.descriptor == type.descriptor).bind (·.body) =
      some body ∧ body.Stores pool fields := by
  obtain ⟨g, hg, hmade⟩ := Member.exists_find?_made h hfind
  obtain ⟨body, hbody, hemitted⟩ := hmade.body
  rw [hcode] at hemitted
  refine ⟨body, ?_, hemitted.stores hx hv⟩
  rw [hg]
  exact hbody

/-- **The methods that work on bindings store into the fields of bindings**, and into no others. Who
reads the class finds the same fields and methods, and constants that stand for the same. -/
theorem exists_stores_of_build (hbuild : p.build = .ok (.ok bytes))
    (hclauses : p.strategy = .compiled → p.ClausesConfined) :
    ∃ d execute set, p.draft = .ok (.ok (), d) ∧ d.encode = .ok bytes ∧
      List.Forall₂ (FieldDraft.Depicts d.pool) d.fields.toList p.outline.fields ∧
      d.body? "execute" executeType = some execute ∧
      d.body? "setBinding" setBindingType = some set ∧
      execute.Stores d.pool ((p.rule.bindings.filter Binding.loads).map p.fieldOf) ∧
      set.Stores d.pool ((p.rule.bindings.filter Binding.isStored).map p.fieldOf) ∧
      (DebugSized p.debugText → ∃ c, ClassImage.ofBytes bytes = .ok c ∧
        c.fields = p.outline.fields ∧ c.body? "execute" executeType = some execute ∧
        c.body? "setBinding" setBindingType = some set ∧ Extends d.pool c.pool) := by
  obtain ⟨chosen, d, gs, hdraft, hbytes, hrep, hmade, hsized⟩ :=
    exists_draft_of_build hbuild hclauses
  have hv : d.pool.violation = none := (ClassImage.encode_eq_ok.1 hbytes).1
  obtain ⟨execute, hexecute, hloads⟩ := exists_stores_of_made hmade (find?_execute chosen) rfl
    (writes_executeBody p.options.trace) hv
  obtain ⟨set, hset, hsets⟩ := exists_stores_of_made hmade (find?_setBinding chosen) rfl
    writes_setBindingBody hv
  refine ⟨d, execute, set, hdraft, hbytes, (hrep.resolves hv).fields,
    (hrep.body?_eq hv _ _).trans hexecute, (hrep.body?_eq hv _ _).trans hset, hloads, hsets,
    fun hdebug => ?_⟩
  obtain ⟨pool, hread, hext⟩ := exists_ofBytes_of_draft hrep hbytes hsized hdebug
  exact ⟨_, hread, rfl, hexecute, hset, hext⟩

/-- **What the fields are used for**: they differ in name or descriptor unless that of a stored
binding shadows the rule's. The bodies of `execute` and `setBinding` store into the fields of the
bindings that they set, and they store into the rule's field exactly if one of these is it. -/
structure FieldUse (p : AdapterPlan) (pool : ConstantPool) (fields : List FieldImage)
    (execute set : MethodBody) : Prop where
  distinct : (fields.map FieldImage.key).Nodup ↔
    ∀ b ∈ p.rule.bindings, b.isStored = true → ¬p.Shadows b
  loads : execute.Stores pool ((p.rule.bindings.filter Binding.loads).map p.fieldOf)
  sets : set.Stores pool ((p.rule.bindings.filter Binding.isStored).map p.fieldOf)
  loadsRule : execute.StoresInto pool p.ruleSlot ↔
    ∃ b ∈ p.rule.bindings, b.loads = true ∧ p.Shadows b
  setsRule : set.StoresInto pool p.ruleSlot ↔
    ∃ b ∈ p.rule.bindings, b.isStored = true ∧ p.Shadows b

theorem fieldUse_of_stores {pool : ConstantPool} {execute set : MethodBody}
    (hdistinct : ((p.rule.bindings.filter Binding.isStored).map Binding.fieldName).Nodup)
    (hloads : execute.Stores pool ((p.rule.bindings.filter Binding.loads).map p.fieldOf))
    (hsets : set.Stores pool ((p.rule.bindings.filter Binding.isStored).map p.fieldOf)) :
    p.FieldUse pool p.outline.fields execute set where
  distinct := nodup_fields_iff hdistinct
  loads := hloads
  sets := hsets
  loadsRule := by rw [hloads.storesInto_iff, ruleSlot_mem_iff]
  setsRule := by rw [hsets.storesInto_iff, ruleSlot_mem_iff]

/-- **When fields collide.**  In a class that is built for bindings whose fields have different
names, all fields differ in name or descriptor unless the field of a stored binding is named `rule`
and has the descriptor of the rule's type.  The methods `execute` and `setBinding` store into the
fields of the bindings that they set, and they store into the rule's field exactly if one of these
is it.  This holds of the draft that is encoded, and of what is read if the debug text has less than
2^32 bytes. -/
theorem fields_of_build (hbuild : p.build = .ok (.ok bytes))
    (hclauses : p.strategy = .compiled → p.ClausesConfined)
    (hdistinct : ((p.rule.bindings.filter Binding.isStored).map Binding.fieldName).Nodup) :
    ∃ d fields execute set, p.draft = .ok (.ok (), d) ∧ d.encode = .ok bytes ∧
      List.Forall₂ (FieldDraft.Depicts d.pool) d.fields.toList fields ∧
      d.body? "execute" executeType = some execute ∧
      d.body? "setBinding" setBindingType = some set ∧
      p.FieldUse d.pool fields execute set ∧
      (DebugSized p.debugText → ∃ c, ClassImage.ofBytes bytes = .ok c ∧ c.fields = fields ∧
        c.body? "execute" executeType = some execute ∧
        c.body? "setBinding" setBindingType = some set ∧
        p.FieldUse c.pool c.fields execute set) := by
  obtain ⟨d, execute, set, hdraft, hbytes, hfields, hexecute, hset, hloads, hsets, hread⟩ :=
    exists_stores_of_build hbuild hclauses
  refine ⟨d, p.outline.fields, execute, set, hdraft, hbytes, hfields, hexecute, hset,
    fieldUse_of_stores hdistinct hloads hsets, fun hdebug => ?_⟩
  obtain ⟨c, hc, hsame, hexecute', hset', hext⟩ := hread hdebug
  refine ⟨c, hc, hsame, hexecute', hset', ?_⟩
  rw [hsame]
  exact fieldUse_of_stores hdistinct (hloads.extend hext) (hsets.extend hext)

theorem fields_of_build_samplePlan :
    ∃ bytes c execute set, (samplePlan .compiled).build = .ok (.ok bytes) ∧
      ClassImage.ofBytes bytes = .ok c ∧ c.body? "execute" executeType = some execute ∧
      c.body? "setBinding" setBindingType = some set ∧ (c.fields.map FieldImage.key).Nodup ∧
      set.StoresInto c.pool ⟨.field, "demo/Adapter", "counts", "[I"⟩ ∧
      ¬execute.StoresInto c.pool ⟨.field, "demo/Adapter", "counts", "[I"⟩ ∧
      ¬execute.StoresInto c.pool (samplePlan .compiled).ruleSlot ∧
      ¬set.StoresInto c.pool (samplePlan .compiled).ruleSlot := by
  obtain ⟨bytes, hbuild⟩ := (feasible_samplePlan .compiled).exists_build
    (fits_samplePlan .compiled) (builds_addStrategy_compiled rfl rfl rfl rfl) (by decide)
    (by decide)
  obtain ⟨d, fields, execute, set, -, -, -, -, -, -, hread⟩ := fields_of_build hbuild
    (fun _ => clausesConfined_samplePlan _) (by decide +kernel)
  obtain ⟨c, hread, -, hexecute, hset, huse⟩ := hread (debugSized_samplePlan _)
  have hnone : ∀ b ∈ (samplePlan .compiled).rule.bindings, ¬(samplePlan .compiled).Shadows b := by
    decide +kernel
  refine ⟨bytes, c, execute, set, hbuild, hread, hexecute, hset,
    huse.distinct.2 fun b hb _ => hnone b hb, ?_, ?_, ?_, ?_⟩
  · rw [huse.sets.storesInto_iff]
    decide +kernel
  · rw [huse.loads.storesInto_iff]
    decide +kernel
  · rw [huse.loadsRule]
    rintro ⟨b, hb, -, hshadows⟩
    exact hnone b hb hshadows
  · rw [huse.setsRule]
    rintro ⟨b, hb, -, hshadows⟩
    exact hnone b hb hshadows

/-! ### A collision -/

/-- A rule with one binding, whose name and type are those of the field that holds the rule. -/
def collidingPlan (strategy : Strategy) : AdapterPlan where
  rule :=
    { name := "rule", file := "scripts/test.btm", line := 1, loader := "app"
      bindings := [{ name := "rule", type := .object "org/jboss/byteman/rule/Rule" }] }
  helper := .ofName "demo.Helper" [⟨[], .publicMember⟩]
  className := "demo/Adapter"
  strategy := strategy
  options := { trace := false }

theorem fits_collidingPlan (strategy : Strategy) : (collidingPlan strategy).Fits :=
  fits_of_valueTypes
    (show ∀ name ∈ (collidingPlan .compiled).describedNames, NameFits name by decide)
    (show ∀ b ∈ (collidingPlan .compiled).rule.layout,
      b.valueType ≠ .void ∧ b.valueType.WellFormed by decide +kernel)

theorem feasible_collidingPlan (strategy : Strategy) : (collidingPlan strategy).Feasible where
  constructs := ⟨.plain, rfl⟩
  texts := show ∀ text ∈ (collidingPlan .compiled).texts, ShortText text by decide +kernel
  bindings := show ∀ b ∈ (collidingPlan .compiled).rule.layout, ∀ text ∈ b.texts, ShortText text by
    decide +kernel
  count := show (collidingPlan .compiled).rule.layout.length ≤ 500 by decide

/-- **Fields can collide**: a class is built in which two fields have the same name and descriptor,
and both methods store a binding's value into the field that holds the rule. -/
theorem fields_collide :
    (((collidingPlan .interpreted).rule.bindings.filter Binding.isStored).map
      Binding.fieldName).Nodup ∧
    ∃ bytes c execute set, (collidingPlan .interpreted).build = .ok (.ok bytes) ∧
      ClassImage.ofBytes bytes = .ok c ∧ c.body? "execute" executeType = some execute ∧
      c.body? "setBinding" setBindingType = some set ∧ ¬(c.fields.map FieldImage.key).Nodup ∧
      execute.StoresInto c.pool (collidingPlan .interpreted).ruleSlot ∧
      set.StoresInto c.pool (collidingPlan .interpreted).ruleSlot := by
  have hdistinct : (((collidingPlan .interpreted).rule.bindings.filter Binding.isStored).map
      Binding.fieldName).Nodup := by decide +kernel
  obtain ⟨bytes, hbuild⟩ := (feasible_collidingPlan .interpreted).exists_build
    (fits_collidingPlan .interpreted) (builds_addStrategy_interpreted rfl) (by decide) (by decide)
  have hdebug : DebugSized (collidingPlan .interpreted).debugText := by
    unfold DebugSized
    decide +kernel
  obtain ⟨d, execute, set, -, -, -, -, -, hloads, hsets, hread⟩ :=
    exists_stores_of_build hbuild nofun
  obtain ⟨c, hread, hfields, hexecute, hset, hext⟩ := hread hdebug
  refine ⟨hdistinct, bytes, c, execute, set, hbuild, hread, hexecute, hset, ?_, ?_, ?_⟩
  · rw [hfields, nodup_fields_iff hdistinct]
    decide +kernel
  · rw [(hloads.extend hext).storesInto_iff]
    decide +kernel
  · rw [(hsets.extend hext).storesInto_iff]
    decide +kernel

end AdapterPlan

end ClassForge
