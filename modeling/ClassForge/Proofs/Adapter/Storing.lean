import ClassForge.Proofs.Adapter.Accessors

/-!
# Two ways to write a binding

A clause that is compiled into an adapter stores through `AdapterView.storeBinding`, one that is
interpreted calls the method `setBinding`.  The first way writes the first binding of a name that is
not an alias, and fails if that has no field; the second writes all of them that have one.

* `AdapterPlan.clauseFields`, `AdapterPlan.accessorFields` — the fields that either way writes;
* `clauseFields_subset`, `clauseFields_eq_iff` — **PROVED**: what a clause writes, the accessor
  writes too, and when the converse holds;
* `writes_by_name` — **PROVED**: both ways write exactly these fields.
-/

namespace ClassForge

open ConstantPool Emitter

namespace AdapterPlan

variable {p : AdapterPlan} {σ : Type} {M : Machine σ} {b : Binding} {name : String}

/-! ### The fields -/

/-- The binding that a clause stores into. -/
def storeTarget? (p : AdapterPlan) (name : String) : Option Binding :=
  (p.firstNamed (some name)).filter (·.isStored)

/-- The fields that a clause writes under a name. -/
def clauseFields (p : AdapterPlan) (name : String) : Set MemberRef :=
  {m | ∃ b, p.storeTarget? name = some b ∧ p.fieldOf b = m}

/-- The fields that the accessor writes under a name. -/
def accessorFields (p : AdapterPlan) (name : String) : Set MemberRef :=
  {m | ∃ b ∈ p.rule.bindings, b.isStored = true ∧ b.name = name ∧ p.fieldOf b = m}

theorem storeTarget?_eq_some (h : p.storeTarget? name = some b) :
    p.firstNamed (some name) = some b ∧ b ∈ p.rule.bindings ∧ b.isStored = true ∧
      b.name = name := by
  obtain ⟨hfirst, hstored⟩ := Option.filter_eq_some_iff.1 h
  have hnamed := List.find?_some hfirst
  rw [Bool.and_eq_true, beq_iff_eq] at hnamed
  exact ⟨hfirst, List.mem_of_find?_eq_some hfirst, hstored, (Option.some.inj hnamed.2).symm⟩

/-- **What a clause writes, the accessor writes too.** -/
theorem clauseFields_subset (p : AdapterPlan) (name : String) :
    p.clauseFields name ⊆ p.accessorFields name := by
  rintro m ⟨b, htarget, hm⟩
  obtain ⟨-, hb, hstored, hname⟩ := storeTarget?_eq_some htarget
  exact ⟨b, hb, hstored, hname, hm⟩

/-- **When both write the same fields:** there is nothing to write, or the first binding of the name
has a field that all others of the name share. -/
theorem clauseFields_eq_iff : p.clauseFields name = p.accessorFields name ↔
    p.accessorFields name = ∅ ∨ ∃ b, p.storeTarget? name = some b ∧
      ∀ b' ∈ p.rule.bindings, b'.isStored = true → b'.name = name →
        p.fieldOf b' = p.fieldOf b := by
  constructor
  · intro heq
    cases htarget : p.storeTarget? name with
    | none =>
      refine .inl (heq ▸ Set.eq_empty_of_forall_notMem fun m hm => ?_)
      obtain ⟨b, hb, -⟩ := hm
      rw [htarget] at hb
      cases hb
    | some b =>
      refine .inr ⟨b, rfl, fun b' hb' hstored hname => ?_⟩
      have hmem : p.fieldOf b' ∈ p.clauseFields name := heq ▸ ⟨b', hb', hstored, hname, rfl⟩
      obtain ⟨b'', hb'', hfield⟩ := hmem
      rw [← hfield, Option.some.inj (hb''.symm.trans htarget)]
  · rintro (hempty | ⟨b, htarget, hsame⟩)
    · rw [hempty]
      exact Set.subset_eq_empty (p.clauseFields_subset name) hempty
    · refine Set.Subset.antisymm (p.clauseFields_subset name) ?_
      rintro m ⟨b', hb', hstored, hname, rfl⟩
      exact ⟨b, htarget, (hsame b' hb' hstored hname).symm⟩

/-! ### The code of a clause -/

/-- Stores what `value` pushes into the field of a binding. -/
def storeInto (p : AdapterPlan) (b : Binding) (value : Emit Unit) : Emit Unit := do
  loadRef 0
  value
  putField p.className b.fieldName (p.rule.fieldType b)

theorem storage?_view (name : String) :
    p.view.storage? name = (p.firstNamed (some name)).map fun b => (p.planned b).storage := by
  show (p.rule.layout.find? name).map (·.storage) = _
  rw [find?_layout, Option.map_map]
  rfl

theorem storeBinding_of_target (h : p.storeTarget? name = some b) (value : JavaType → Emit Unit) :
    p.view.storeBinding name (fun type => liftM (value type)) =
      liftM (p.storeInto b (value (p.rule.fieldType b))) := by
  obtain ⟨hfirst, -, hstored, -⟩ := storeTarget?_eq_some h
  have hstorage := storage?_view (p := p) name
  rw [hfirst, Option.map_some, storage_planned_of_isStored hstored] at hstorage
  have hlast : ∀ (x : ClauseEmit Unit) (answer : Unit), (do x; return answer) = x :=
    fun _ _ => bind_pure_unit
  simp only [AdapterView.storeBinding, hstorage, storeInto, liftM_bind, hlast]
  rfl

theorem storeBinding_of_none {α : Type} (h : p.storeTarget? name = none)
    (value : JavaType → ClauseEmit α) :
    p.view.storeBinding name value = throw (AdapterView.unknownBinding name) := by
  have hstorage := storage?_view (p := p) name
  cases hfirst : p.firstNamed (some name) with
  | none =>
    rw [hfirst, Option.map_none] at hstorage
    simp only [AdapterView.storeBinding, hstorage]
  | some b =>
    have hstored : b.isStored = false := by
      unfold storeTarget? at h
      rw [hfirst] at h
      cases hstored : b.isStored with
      | false => rfl
      | true => simp [hstored] at h
    rw [hfirst, Option.map_some] at hstorage
    rcases storage_planned_of_not_isStored (p := p) hstored with hnone | hadapter
    · rw [hnone] at hstorage
      simp only [AdapterView.storeBinding, hstorage]
    · rw [hadapter] at hstorage
      simp only [AdapterView.storeBinding, hstorage]

/-- Running the code writes the field of the binding, and no other one. -/
def WritesOnly (p : AdapterPlan) (b : Binding) : Prop :=
  ∀ (σ : Type) (M : Machine σ) (value : Emit Unit) (st : List Value) (l : Nat → Option Value)
    (w w₁ : World σ) (c c' : List Call) (self : Ref) (v : Value),
    l 0 = some (.ref (some self)) → v.fits (p.rule.fieldType b) = true →
    M.Carries value ⟨.ref (some self) :: st, l, w, c⟩ ⟨v :: .ref (some self) :: st, l, w₁, c'⟩ →
    ∃ w', w'.objects = w₁.objects ∧
      (∀ r m, w'.fields r m = if r = self ∧ m = p.fieldOf b then v else w₁.fields r m) ∧
      M.Carries (p.storeInto b value) ⟨st, l, w, c⟩ ⟨st, l, w', c'⟩

theorem writesOnly_of_target (hfit : p.FieldsFit) (h : p.storeTarget? name = some b) :
    p.WritesOnly b := by
  intro σ M value st l w w₁ c c' self v hl₀ hv hvalue
  obtain ⟨-, hb, hstored, -⟩ := storeTarget?_eq_some h
  obtain ⟨w', hset, hobjects, hfields⟩ := w₁.exists_setField? self (hfit.admits hb hstored hv)
  exact ⟨w', hobjects, hfields,
    (Machine.Carries.loadRef (by decide) hl₀).seq (hvalue.seq (.putField hset))⟩

/-! ### Built classes -/

/-- **What both ways write.**  The accessor of a built class writes the fields of all stored
bindings of a name.  A clause writes one of them, that of the first binding of the name which is not
an alias, and is refused when this has no field.  So the fields are the same exactly if there are
none, or if that first binding has one and every stored binding of the name shares it. -/
theorem writes_by_name (p : AdapterPlan) (name : String) :
    (∀ bytes, p.build = .ok (.ok bytes) → p.FieldsFit →
      (p.strategy = .compiled → p.ClausesKeepPool) →
      ∃ d set, p.draft = .ok (.ok (), d) ∧ d.encode = .ok bytes ∧
        d.body? "setBinding" ⟨[.text, .anyObject], .void⟩ = some set ∧
        p.SetsByName d.pool set) ∧
    (∀ b, p.storeTarget? name = some b → (p.FieldsFit → p.WritesOnly b) ∧
      ∀ value : JavaType → Emit Unit, p.view.storeBinding name (fun type => liftM (value type)) =
        liftM (p.storeInto b (value (p.rule.fieldType b)))) ∧
    (p.storeTarget? name = none → ∀ (α : Type) (value : JavaType → ClauseEmit α),
      p.view.storeBinding name value = throw (AdapterView.unknownBinding name)) ∧
    p.clauseFields name ⊆ p.accessorFields name ∧
    (p.clauseFields name = p.accessorFields name ↔
      p.accessorFields name = ∅ ∨ ∃ b, p.storeTarget? name = some b ∧
        ∀ b' ∈ p.rule.bindings, b'.isStored = true → b'.name = name →
          p.fieldOf b' = p.fieldOf b) := by
  refine ⟨fun bytes hbuild hfit hclauses => ?_, fun b htarget => ?_, fun hnone α => ?_,
    p.clauseFields_subset name, clauseFields_eq_iff⟩
  · obtain ⟨d, hrun, hencode⟩ := build_eq_ok.1 hbuild
    have hclean := (ClassImage.encode_eq_ok.1 hencode).1
    obtain ⟨_, set, hset, hcode⟩ := exists_body? hrun hclean hclauses find?_setBinding
    exact ⟨d, set, hrun, hencode, hset, setsByName_of_emitted hfit hclean hcode⟩
  · exact ⟨fun hfit => writesOnly_of_target hfit htarget, storeBinding_of_target htarget⟩
  · exact storeBinding_of_none hnone

theorem writes_by_name_samplePlan :
    ∃ b d set, (samplePlan .compiled).storeTarget? "count" = some b ∧
      (samplePlan .compiled).WritesOnly b ∧
      (samplePlan .compiled).draft = .ok (.ok (), d) ∧
      d.body? "setBinding" ⟨[.text, .anyObject], .void⟩ = some set ∧
      (samplePlan .compiled).SetsByName d.pool set := by
  obtain ⟨bytes, hbuild⟩ := (feasible_samplePlan .compiled).exists_build
    (fits_samplePlan .compiled) (builds_addStrategy_compiled rfl rfl rfl rfl) (by decide)
    (by decide)
  obtain ⟨hsets, hstores, -⟩ := writes_by_name (samplePlan .compiled) "count"
  obtain ⟨d, set, hdraft, -, hset, hsets⟩ := hsets bytes hbuild (fieldsFit_samplePlan _)
    fun _ => clausesKeepPool_samplePlan _
  have htarget : (samplePlan .compiled).storeTarget? "count" =
      some { name := "count", type := .long, argIndex := 1, flags := .updated } := by decide
  exact ⟨_, d, set, htarget, (hstores _ htarget).1 (fieldsFit_samplePlan _), hdraft, hset, hsets⟩

/-- A rule whose helper binding hides a stored one of the same name. -/
def shadowedPlan : AdapterPlan :=
  { samplePlan .compiled with
    rule := { (samplePlan .compiled).rule with
      bindings :=
        [{ name := "x", type := .object "demo/Helper", flags := .helper },
          { name := "x", type := .int }] } }

/-- With two stored bindings of a name a clause writes one of them, and behind a helper binding it
is refused. -/
theorem clauseFields_ne_accessorFields :
    (samplePlan .compiled).clauseFields "count" ≠ (samplePlan .compiled).accessorFields "count" ∧
    shadowedPlan.accessorFields "x" = {⟨.field, "demo/Adapter", "x", "I"⟩} ∧
    ∀ value : JavaType → ClauseEmit Unit, shadowedPlan.view.storeBinding "x" value =
      throw (AdapterView.unknownBinding "x") := by
  refine ⟨fun heq => ?_, ?_, storeBinding_of_none (by decide)⟩
  · have hsecond : (samplePlan .compiled).fieldOf
        { name := "count", type := .array .int, fieldName := "counts", flags := .bindVar } ∈
        (samplePlan .compiled).clauseFields "count" := by
      rw [heq]
      exact ⟨_, by decide, rfl, rfl, rfl⟩
    obtain ⟨b, htarget, hfield⟩ := hsecond
    have hfirst : (samplePlan .compiled).storeTarget? "count" =
        some { name := "count", type := .long, argIndex := 1, flags := .updated } := by decide
    rw [← Option.some.inj (hfirst.symm.trans htarget)] at hfield
    exact absurd hfield (by decide +kernel)
  · refine Set.Subset.antisymm ?_ ?_
    · rintro m ⟨b, hb, hstored, -, rfl⟩
      have hall : ∀ b ∈ shadowedPlan.rule.bindings, b.isStored = true →
          shadowedPlan.fieldOf b = ⟨.field, "demo/Adapter", "x", "I"⟩ := by decide +kernel
      exact hall b hb hstored
    · rintro m rfl
      exact ⟨{ name := "x", type := .int }, by decide, by decide, rfl, by decide +kernel⟩

end AdapterPlan

end ClassForge
