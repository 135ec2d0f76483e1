import ClassForge.Proofs.Adapter.Slots

/-!
# Access to bindings by name

What the methods `setBinding` and `getBinding` of an adapter do when they run: the first one writes
every binding of a name, the second one reads the first.

* `AdapterPlan.Sets` — every stored binding of the name has its value, and no other field changed;
* `AdapterPlan.firstNamed` — the first binding of a name that is not an alias;
* `exists_completes_setBinding`, `exists_completes_getBinding` — **PROVED**: one contract for each
  method, for all bindings and all objects that pass the casts;
* `accessors_of_build` — **PROVED**: both methods of a built class, and the code by which clauses
  load a binding, which reads the same slot.
-/

namespace ClassForge

open ConstantPool Emitter

/-- The reference is the string, or null in place of one. -/
inductive World.Spells {σ : Type} (w : World σ) : Option Ref → Option String → Prop
  | null : w.Spells none none
  | text {r : Ref} {content : String} (h : w.objects r = some (.text content)) :
    w.Spells (some r) (some content)

theorem World.Spells.retain {σ : Type} {w w' : World σ} {arg : Option Ref} {n : Option String}
    (h : w.Spells arg n) (hkeeps : w.Retains w') : w'.Spells arg n := by
  cases h with
  | null => exact .null
  | text h => exact .text (hkeeps _ _ h)

namespace AdapterPlan

variable {p : AdapterPlan} {σ : Type} {M : Machine σ} {w w₁ w' : World σ} {self : Ref}
  {name arg : Option Ref} {n : Option String} {b : Binding} {bs : List Binding}
  {l : Nat → Option Value}

/-! ### Comparing names -/

/-- The text of the first parameter is compared; null is no name. -/
theorem carries_compareName (text : String) (hlocal : l 1 = some (.ref name))
    (hspells : w.Spells name n) :
    M.Carries (compareName text) ⟨[], l, w, []⟩
      ⟨[.int (if n = some text then 1 else 0)], l, (M.platform.provide (.text text) w).2, []⟩ := by
  have hmember : (⟨.method, JavaType.stringClass, "equals",
      (⟨[.anyObject], .boolean⟩ : MethodType).descriptor⟩ : MemberRef) = Library.equals := by
    decide +kernel
  have hliteral := M.platform.provide_objects (.text text) w
  have hsame : (if name.bind (M.platform.provide (.text text) w).2.objects = some (.text text) then
      (1 : Int32) else 0) = if n = some text then 1 else 0 := by
    cases hspells.retain (M.platform.provide_keeps (.text text) w).objects with
    | null => rfl
    | text h => simp only [Option.bind_some, h, Option.some.injEq, Obj.text.injEq]
  have hcall : M.Carries (invokeVirtual JavaType.stringClass "equals" ⟨[.anyObject], .boolean⟩)
      ⟨[.ref (some (M.platform.provide (.text text) w).1), .ref name].reverse ++ [], l,
        (M.platform.provide (.text text) w).2, []⟩
      ⟨[.int (if n = some text then 1 else 0)], l, (M.platform.provide (.text text) w).2, []⟩ := by
    refine .invokeVirtual (callFits_taking nofun wellFormed_anyObject trivial) rfl nofun ?_
    rw [hmember]
    simp only [Activation.enter, M.platform.library?_equals, Platform.compare, hliteral, hsame,
      Option.map_some]
  exact (Machine.Carries.textConst text).seq
    ((Machine.Carries.loadRef (by decide) hlocal).seq hcall)

theorem regular_compareName (text : String) : Regular (compareName text) :=
  (regular_textConst text).seq ((regular_load _ 1).seq (regular_invokeVirtual _ _ _))

/-! ### Setting -/

/-- The object that a binding takes: the given one if it is stored and has the name. -/
def settingOf (n : Option String) (arg : Option Ref) (b : Binding) : Option (Option Ref) :=
  if b.isStored = true ∧ n = some b.name then some arg else none

/-- Every stored binding of the name has taken the object, and no other field changed. -/
structure Sets (p : AdapterPlan) (P : Platform σ) (adapter : Ref) (n : Option String)
    (arg : Option Ref) (w w' : World σ) : Prop where
  objects : w.Retains w'
  named : ∀ b ∈ p.rule.bindings, b.isStored = true → n = some b.name →
    p.taken? P w b arg = some (w'.fields adapter (p.fieldOf b))
  others : ∀ r m, w.objects r ≠ none →
    (∀ b ∈ p.rule.bindings, b.isStored = true → n = some b.name →
      ¬(r = adapter ∧ m = p.fieldOf b)) →
    w'.fields r m = w.fields r m

theorem settingOf_eq_some {r : Option Ref} (h : settingOf n arg b = some r) :
    b.isStored = true ∧ n = some b.name ∧ r = arg := by
  unfold settingOf at h
  split at h
  · rename_i hb
    exact ⟨hb.1, hb.2, (Option.some.inj h).symm⟩
  · cases h

/-- A field that bindings of the name share takes the same value each time. -/
theorem Sets.of_stores {P : Platform σ} (hfit : p.FieldsFit)
    (h : p.Stores P self (settingOf n arg) p.rule.bindings w w') : p.Sets P self n arg w w' where
  objects := h.objects
  named b hb hstored hn := by
    have hsource : settingOf n arg b = some arg := if_pos ⟨hstored, hn⟩
    obtain ⟨b', ⟨hsource', hfield⟩, hlast⟩ := exists_lastIn hb
      (Q := fun b' => settingOf n arg b' ≠ none ∧ p.fieldOf b' = p.fieldOf b)
      ⟨by rw [hsource]; nofun, rfl⟩
    obtain ⟨r, hr⟩ := Option.ne_none_iff_exists'.1 hsource'
    obtain ⟨hstored', -, rfl⟩ := settingOf_eq_some hr
    have htype := hfit.fieldType_inj hlast.mem hstored' hb hstored hfield
    rw [← hfield] at hlast
    have hvalue := h.stored b' r hr hlast
    rw [taken?_eq, htype, hfield] at hvalue
    rw [taken?_eq, hvalue]
  others r m hr hother := h.others r m hr fun b hb hsource => by
    obtain ⟨r', hr'⟩ := Option.ne_none_iff_exists'.1 hsource
    obtain ⟨hstored, hn, -⟩ := settingOf_eq_some hr'
    exact hother b hb hstored hn

theorem setIfNamed_of_isStored (h : b.isStored = true) :
    Adapter.setIfNamed p.className (p.planned b) = (do
      skipping (compareName b.name) (do
        loadRef 0
        loadRef 2
        Adapter.storeObject p.className b.fieldName (p.rule.fieldType b)
          (!p.rule.policy.hides b.type))
      checkBalanced) := by
  simp only [Adapter.setIfNamed, storage_planned_of_isStored h, needsConversion_of_isStored h,
    skipping, compareName, Adapter.testName, bind_assoc]
  rfl

theorem setIfNamed_of_not_isStored (h : b.isStored = false) :
    Adapter.setIfNamed p.className (p.planned b) = pure () := by
  rcases storage_planned_of_not_isStored (p := p) h with hstorage | hstorage <;>
    simp only [Adapter.setIfNamed, hstorage]

/-- What the code for one binding does. -/
theorem exists_carries_setIfNamed (hfit : p.FieldsFit) (hb : b ∈ p.rule.bindings)
    (hl₀ : l 0 = some (.ref (some self))) (hl₁ : l 1 = some (.ref name))
    (hl₂ : l 2 = some (.ref arg)) (hspells : w.Spells name n)
    (hcast : ∀ r, settingOf n arg b = some r → p.taken? M.platform w b r ≠ none) :
    ∃ w', p.Stores M.platform self (settingOf n arg) [b] w w' ∧
      M.Carries (Adapter.setIfNamed p.className (p.planned b)) ⟨[], l, w, []⟩ ⟨[], l, w', []⟩ := by
  cases hstored : b.isStored with
  | false =>
    have hnone : settingOf n arg b = none := if_neg fun h => by simp [hstored] at h
    rw [setIfNamed_of_not_isStored hstored]
    refine ⟨w, .of_keeps (.refl w) fun b' hb' => ?_, .pure _⟩
    rw [List.mem_singleton.1 hb', hnone]
  | true =>
    rw [setIfNamed_of_isStored hstored]
    have htest := carries_compareName (M := M) b.name hl₁ hspells
    have hkeeps := M.platform.provide_keeps (.text b.name) w
    by_cases hn : n = some b.name
    · rw [if_pos hn] at htest
      have hsource : settingOf n arg b = some arg := if_pos ⟨hstored, hn⟩
      obtain ⟨w', hstores, hstore⟩ := exists_stores_storeObject (M := M) self hfit hb
        hstored hsource (taken?_ne_none_of_retains hkeeps.objects (hcast arg hsource))
      refine ⟨w', hstores.of_keeps_left hkeeps fun b' hb' => ?_,
        (Machine.Carries.take (by decide) htest ((Machine.Carries.loadRef (by decide) hl₀).seq
          ((Machine.Carries.loadRef (by decide) hl₂).seq (hstore _ _ _)))).seq (.checkBalanced _)⟩
      rw [List.mem_singleton.1 hb']
      exact hcast
    · rw [if_neg hn] at htest
      have hnone : settingOf n arg b = none := if_neg fun h => hn h.2
      refine ⟨_, .of_keeps hkeeps fun b' hb' => ?_, (Machine.Carries.skip htest
        ((regular_load _ 0).seq ((regular_load _ 2).seq (regular_storeObject _ _ _ _)))).seq
        (.checkBalanced _)⟩
      rw [List.mem_singleton.1 hb', hnone]

theorem exists_carries_setAllNamed (hfit : p.FieldsFit)
    (hl₀ : l 0 = some (.ref (some self))) (hl₁ : l 1 = some (.ref name))
    (hl₂ : l 2 = some (.ref arg)) (hself : w.objects self ≠ none) (hspells : w.Spells name n)
    (hcasts : ∀ b ∈ p.rule.bindings, b.isStored = true → n = some b.name →
      p.taken? M.platform w b arg ≠ none) :
    ∃ w', p.Sets M.platform self n arg w w' ∧
      M.Carries (Adapter.setAllNamed p.className p.rule.layout) ⟨[], l, w, []⟩
        ⟨[], l, w', []⟩ := by
  have hcasts' : ∀ b ∈ p.rule.bindings, ∀ r, settingOf n arg b = some r →
      p.taken? M.platform w b r ≠ none := by
    intro b hb r hr
    obtain ⟨hstored, hn, rfl⟩ := settingOf_eq_some hr
    exact hcasts b hb hstored hn
  obtain ⟨w', hstores, hcarries⟩ := exists_carries_each (M := M)
    (g := Adapter.setAllNamed p.className) rfl (fun _ _ => rfl) hself hcasts'
    fun b hb w₁ hretains => exists_carries_setIfNamed hfit hb hl₀ hl₁ hl₂ (hspells.retain hretains)
      fun r hr => taken?_ne_none_of_retains hretains (hcasts' b hb r hr)
  exact ⟨w', .of_stores hfit hstores, hcarries⟩

/-! ### Getting -/

/-- The first binding of the name that is not an alias. -/
def firstNamed (p : AdapterPlan) (n : Option String) : Option Binding :=
  p.rule.bindings.find? fun b => !b.isAlias && n == some b.name

/-- The type of what a binding's slot holds. -/
def slotType (p : AdapterPlan) (b : Binding) : JavaType :=
  if b.isHelper then .anyObject else p.rule.fieldType b

/-- What a binding's slot holds: the adapter itself for the helper binding, else the field. -/
def slotValue (p : AdapterPlan) (w : World σ) (adapter : Ref) (b : Binding) : Value :=
  if b.isHelper then .ref (some adapter) else w.fields adapter (p.fieldOf b)

/-- Pushes what a binding's slot holds. -/
def loadSlot (p : AdapterPlan) (b : Binding) : Emit Unit := do
  loadRef 0
  if b.isHelper then pure () else getField p.className b.fieldName (p.rule.fieldType b)

theorem carries_loadSlot {st : List Value} {c : List Call} (b : Binding)
    (hl₀ : l 0 = some (.ref (some self))) :
    M.Carries (p.loadSlot b) ⟨st, l, w, c⟩ ⟨p.slotValue w self b :: st, l, w, c⟩ := by
  refine (Machine.Carries.loadRef (by decide) hl₀).seq ?_
  unfold slotValue
  cases b.isHelper with
  | true => exact .pure _
  | false => exact .getField

theorem regular_loadSlot (b : Binding) : Regular (p.loadSlot b) := by
  refine (regular_load _ 0).seq ?_
  cases b.isHelper with
  | true => exact .pure ()
  | false => exact regular_getField _ _ _

theorem getIfNamed_of_isAlias (h : b.isAlias = true) :
    Adapter.getIfNamed p.className (p.planned b) = pure () := by
  have hstorage : (p.planned b).storage = .none := if_pos h
  simp only [Adapter.getIfNamed, hstorage]

/-- Both kinds of slots are read in the same way. -/
theorem getIfNamed_of_not_isAlias (h : b.isAlias = false) :
    Adapter.getIfNamed p.className (p.planned b) = (do
      skipping (compareName b.name) (do
        p.loadSlot b
        toObject (p.slotType b)
        returnValue .anyObject)
      checkBalanced) := by
  have hsame : toObject .anyObject = pure () := by
    unfold toObject convert
    rw [plan_anyObject_right]
    rfl
  cases hhelper : b.isHelper with
  | true =>
    simp only [Adapter.getIfNamed, storage_planned_of_isHelper h hhelper, Adapter.returnIfNamed,
      skipping, compareName, Adapter.testName, loadSlot, slotType, hhelper, if_true, hsame,
      bind_assoc, pure_bind]
    rfl
  | false =>
    simp only [Adapter.getIfNamed, storage_planned_of_isStored (isStored_of_not h hhelper),
      Adapter.returnIfNamed, skipping, compareName, Adapter.testName, loadSlot, slotType, hhelper,
      Bool.false_eq_true, if_false, bind_assoc]
    rfl

theorem regular_getIfNamed (b : Binding) :
    Regular (Adapter.getIfNamed p.className (p.planned b)) := by
  cases halias : b.isAlias with
  | true =>
    rw [getIfNamed_of_isAlias halias]
    exact .pure ()
  | false =>
    rw [getIfNamed_of_not_isAlias halias]
    exact (regular_skipping (regular_compareName b.name) ((regular_loadSlot b).seq
      ((regular_convert _ _).seq (regular_emit _)))).seq regular_checkBalanced

theorem regular_getFirstNamed (bs : List Binding) :
    Regular (Adapter.getFirstNamed p.className (bs.map p.planned)) := by
  induction bs with
  | nil => exact .pure ()
  | cons b bs ih => exact (regular_getIfNamed b).seq ih

theorem FieldsFit.slotType_ne_void (h : p.FieldsFit) (hb : b ∈ p.rule.bindings)
    (halias : b.isAlias = false) (w : World σ) (self : Ref) :
    p.slotType b ≠ .void ∧ (p.slotValue w self b).fits (p.slotType b) = true := by
  unfold slotType slotValue
  cases hhelper : b.isHelper with
  | true => exact ⟨nofun, rfl⟩
  | false =>
    have hstored : b.isStored = true := isStored_of_not halias hhelper
    exact ⟨(h b hb hstored).1, h.fits_fields hb hstored w self⟩

theorem slotValue_of_keeps (h : w.Keeps w') (hself : w.objects self ≠ none) (b : Binding) :
    p.slotValue w' self b = p.slotValue w self b := by
  unfold slotValue
  rw [h.fields self hself]

/-- A binding of another name is passed over. -/
theorem exists_carries_getIfNamed (hl₁ : l 1 = some (.ref name)) (hspells : w.Spells name n)
    (hother : (!b.isAlias && n == some b.name) = false) :
    ∃ w', w.Keeps w' ∧ M.Carries (Adapter.getIfNamed p.className (p.planned b)) ⟨[], l, w, []⟩
      ⟨[], l, w', []⟩ := by
  cases halias : b.isAlias with
  | true =>
    rw [getIfNamed_of_isAlias halias]
    exact ⟨w, .refl w, .pure _⟩
  | false =>
    have hn : n ≠ some b.name := by
      rw [halias] at hother
      exact fun h => by simp [h] at hother
    have htest := carries_compareName (M := M) b.name hl₁ hspells
    rw [if_neg hn] at htest
    rw [getIfNamed_of_not_isAlias halias]
    exact ⟨_, M.platform.provide_keeps (.text b.name) w, (Machine.Carries.skip htest
      ((regular_loadSlot b).seq ((regular_convert _ _).seq (regular_emit _)))).seq
      (.checkBalanced _)⟩

/-- A binding of the name is returned. -/
theorem exists_returns_getIfNamed (hfit : p.FieldsFit) (hb : b ∈ p.rule.bindings)
    (hl₀ : l 0 = some (.ref (some self))) (hl₁ : l 1 = some (.ref name))
    (hself : w.objects self ≠ none) (hspells : w.Spells name n)
    (hnamed : (!b.isAlias && n == some b.name) = true) :
    ∃ r w', w.Keeps w' ∧ w'.Shows (p.slotType b) (p.slotValue w self b) r ∧
      M.Returns (Adapter.getIfNamed p.className (p.planned b)) ⟨[], l, w, []⟩ (some (.ref r))
        ⟨[.ref r], l, w', []⟩ := by
  rw [Bool.and_eq_true, Bool.not_eq_true', beq_iff_eq] at hnamed
  obtain ⟨halias, hn⟩ := hnamed
  have htest := carries_compareName (M := M) b.name hl₁ hspells
  rw [if_pos hn] at htest
  have hkeeps := M.platform.provide_keeps (.text b.name) w
  obtain ⟨hvoid, hfits⟩ := hfit.slotType_ne_void hb halias (M.platform.provide (.text b.name) w).2
    self
  obtain ⟨r, w', hkeeps', hshows, hconvert⟩ := Machine.exists_carries_toObject (M := M) hvoid hfits
  rw [getIfNamed_of_not_isAlias halias]
  rw [slotValue_of_keeps hkeeps hself] at hshows
  refine ⟨r, w', hkeeps.trans hkeeps', hshows, ?_⟩
  have hload : M.Carries (p.loadSlot b) ⟨[], l, (M.platform.provide (.text b.name) w).2, []⟩ _ :=
    carries_loadSlot b hl₀
  exact (Machine.Returns.take (by decide) htest (hload.seq_returns
    ((hconvert _ _ _).seq_returns (.returnValue rfl)))).seq regular_checkBalanced

/-- **The first match returns, and without one the code goes on.** -/
theorem exists_runs_getFirstNamed (hfit : p.FieldsFit) (hmem : ∀ b ∈ bs, b ∈ p.rule.bindings)
    (hl₀ : l 0 = some (.ref (some self))) (hl₁ : l 1 = some (.ref name)) :
    ∀ {w : World σ}, w.objects self ≠ none → w.Spells name n →
      (bs.find? (fun b => !b.isAlias && n == some b.name) = none → ∃ w', w.Keeps w' ∧
        M.Carries (Adapter.getFirstNamed p.className (bs.map p.planned)) ⟨[], l, w, []⟩
          ⟨[], l, w', []⟩) ∧
      ∀ b, bs.find? (fun b => !b.isAlias && n == some b.name) = some b →
        ∃ r w', w.Keeps w' ∧ w'.Shows (p.slotType b) (p.slotValue w self b) r ∧
          M.Returns (Adapter.getFirstNamed p.className (bs.map p.planned)) ⟨[], l, w, []⟩
            (some (.ref r)) ⟨[.ref r], l, w', []⟩ := by
  induction bs with
  | nil => exact fun {w} _ _ => ⟨fun _ => ⟨w, .refl w, .pure _⟩, nofun⟩
  | cons b bs ih =>
    intro w hself hspells
    rw [List.find?_cons]
    cases hnamed : !b.isAlias && n == some b.name with
    | true =>
      refine ⟨nofun, fun b' hb' => ?_⟩
      cases hb'
      obtain ⟨r, w', hkeeps, hshows, hreturns⟩ := exists_returns_getIfNamed (M := M) hfit
        (hmem b List.mem_cons_self) hl₀ hl₁ hself hspells hnamed
      exact ⟨r, w', hkeeps, hshows, hreturns.seq (regular_getFirstNamed bs)⟩
    | false =>
      obtain ⟨w₁, hkeeps₁, hcarries⟩ :=
        exists_carries_getIfNamed (p := p) (M := M) hl₁ hspells hnamed
      obtain ⟨hnone, hsome⟩ := ih (fun b' hb' => hmem b' (List.mem_cons_of_mem b hb'))
        (hkeeps₁.objects.ne_none hself) (hspells.retain hkeeps₁.objects)
      refine ⟨fun hfind => ?_, fun b' hfind => ?_⟩
      · obtain ⟨w', hkeeps, hrest⟩ := hnone hfind
        exact ⟨w', hkeeps₁.trans hkeeps, hcarries.seq hrest⟩
      · obtain ⟨r, w', hkeeps, hshows, hrest⟩ := hsome b' hfind
        rw [slotValue_of_keeps hkeeps₁ hself] at hshows
        exact ⟨r, w', hkeeps₁.trans hkeeps, hshows, hcarries.seq_returns hrest⟩

/-! ### Whole methods -/

/-- The body, run as a method, sets the bindings of a name. -/
def SetsByName (p : AdapterPlan) (pool : ConstantPool) (body : MethodBody) : Prop :=
  ∀ (σ : Type) (P : Platform σ) (w : World σ) (self : Ref) (name arg : Option Ref)
    (n : Option String), w.objects self ≠ none → w.Spells name n →
    (∀ b ∈ p.rule.bindings, b.isStored = true → n = some b.name → p.taken? P w b arg ≠ none) →
    ∃ w', Machine.Completes ⟨P, pool, body.code⟩ [.ref (some self), .ref name, .ref arg] w none w'
      [] ∧ p.Sets P self n arg w w'

/-- The reference is what a binding's slot holds, as an object; it is null if there is none. -/
def Reads (p : AdapterPlan) (w w' : World σ) (adapter : Ref) :
    Option Binding → Option Ref → Prop
  | some b, r => w'.Shows (p.slotType b) (p.slotValue w adapter b) r
  | none, r => r = none

/-- The body, run as a method, reads the first binding of a name. -/
def GetsByName (p : AdapterPlan) (pool : ConstantPool) (body : MethodBody) : Prop :=
  ∀ (σ : Type) (P : Platform σ) (w : World σ) (self : Ref) (name : Option Ref)
    (n : Option String), w.objects self ≠ none → w.Spells name n →
    ∃ r w', Machine.Completes ⟨P, pool, body.code⟩ [.ref (some self), .ref name] w (some (.ref r))
      w' [] ∧ w.Keeps w' ∧ p.Reads w w' self (p.firstNamed n) r

theorem setsByName_of_emitted {pool : ConstantPool} {body : MethodBody} (hfit : p.FieldsFit)
    (hclean : pool.violation = none)
    (hemitted : Emitted (liftM (Adapter.setBindingBody p.className p.rule.layout)) pool body) :
    p.SetsByName pool body := by
  intro σ P w self name arg n hself hspells hcasts
  obtain ⟨w', hsets, hcarries⟩ := exists_carries_setAllNamed (M := ⟨P, pool, body.code⟩)
    (l := fun k => [Value.ref (some self), .ref name, .ref arg][k]?) hfit rfl rfl rfl hself hspells
    hcasts
  have hreturn : Machine.Returns ⟨P, pool, body.code⟩ (returnValue .void)
      ⟨[], fun k => [Value.ref (some self), .ref name, .ref arg][k]?, w', []⟩ none
      ⟨[], fun k => [Value.ref (some self), .ref name, .ref arg][k]?, w', []⟩ := .returnValue rfl
  exact ⟨w', Machine.completes_of_emitted hemitted hclean (hcarries.seq_returns hreturn), hsets⟩

theorem getsByName_of_emitted {pool : ConstantPool} {body : MethodBody} (hfit : p.FieldsFit)
    (hclean : pool.violation = none)
    (hemitted : Emitted (liftM (Adapter.getBindingBody p.className p.rule.layout)) pool body) :
    p.GetsByName pool body := by
  intro σ P w self name n hself hspells
  obtain ⟨hnone, hsome⟩ := exists_runs_getFirstNamed (M := ⟨P, pool, body.code⟩)
    (l := fun k => [Value.ref (some self), .ref name][k]?) hfit (fun _ hb => hb) rfl rfl hself
    hspells
  unfold firstNamed
  cases hfind : p.rule.bindings.find? (fun b => !b.isAlias && n == some b.name) with
  | none =>
    obtain ⟨w', hkeeps, hcarries⟩ := hnone hfind
    have hnull : Machine.Carries ⟨P, pool, body.code⟩ nullConst
        ⟨[], fun k => [Value.ref (some self), .ref name][k]?, w', []⟩
        ⟨[.null], fun k => [Value.ref (some self), .ref name][k]?, w', []⟩ :=
      .emit rfl fun _ => rfl
    exact ⟨none, w', Machine.completes_of_emitted hemitted hclean (hcarries.seq_returns
      (hnull.seq_returns (.returnValue rfl))), hkeeps, rfl⟩
  | some b =>
    obtain ⟨r, w', hkeeps, hshows, hreturns⟩ := hsome b hfind
    exact ⟨r, w', Machine.completes_of_emitted hemitted hclean (hreturns.seq
      ((regular_emit .aconstNull).seq (regular_emit _))), hkeeps, hshows⟩

/-! ### Loading in clauses -/

/-- Loads the slot of a binding for a clause, or fails if there is none. -/
def loadFound (p : AdapterPlan) (name : String) : Option Binding → ClauseEmit JavaType
  | some b => do
    liftM (p.loadSlot b)
    return (p.planned b).valueType
  | none => throw (AdapterView.unknownBinding name)

theorem find?_layout (name : String) :
    p.rule.layout.find? name = (p.firstNamed (some name)).map p.planned := by
  unfold Layout.find? firstNamed
  rw [layout_eq, List.find?_map]
  congr 2
  funext b
  have hstorage : ((p.planned b).storage != .none) = !b.isAlias := by
    show (Storage.plan p.rule.policy b != .none) = _
    unfold Storage.plan
    cases b.isAlias <;> cases b.isHelper <;> cases p.rule.policy.hides b.type <;> rfl
  show (b.name == name && (p.planned b).storage != .none) = _
  rw [hstorage, Bool.and_comm]
  congr 1
  rw [Bool.eq_iff_iff, beq_iff_eq, beq_iff_eq, Option.some.injEq, eq_comm]

/-- **Clauses load the binding that is read by name.** -/
theorem loadBinding_eq (name : String) :
    p.view.loadBinding name = p.loadFound name (p.firstNamed (some name)) := by
  have hfind : p.view.layout.find? name = (p.firstNamed (some name)).map p.planned :=
    find?_layout name
  cases hfirst : p.firstNamed (some name) with
  | none =>
    rw [hfirst] at hfind
    simp only [AdapterView.loadBinding, hfind, Option.map_none, loadFound]
  | some b =>
    rw [hfirst] at hfind
    have halias : b.isAlias = false := by
      have hnamed := List.find?_some hfirst
      rw [Bool.and_eq_true, Bool.not_eq_true'] at hnamed
      exact hnamed.1
    cases hhelper : b.isHelper with
    | true =>
      simp only [AdapterView.loadBinding, hfind, Option.map_some, loadFound, loadSlot,
        storage_planned_of_isHelper halias hhelper, hhelper, if_true, bind_pure_unit]
    | false =>
      have hstored : b.isStored = true := isStored_of_not halias hhelper
      simp only [AdapterView.loadBinding, hfind, Option.map_some, loadFound, loadSlot,
        storage_planned_of_isStored hstored, hhelper, Bool.false_eq_true, if_false, liftM_bind,
        bind_assoc]
      rfl

/-! ### Built classes -/

/-- **Access to bindings by name.**  The method `setBinding` of a built class writes the field of
every stored binding of a name, each converted to its type, and no other field.  The method
`getBinding` reads the first binding of the name that is not an alias, which is also the one that
clauses load. -/
theorem accessors_of_build {p : AdapterPlan} {bytes : List UInt8}
    (hbuild : p.build = .ok (.ok bytes)) (hfit : p.FieldsFit)
    (hclauses : p.strategy = .compiled → p.ClausesKeepPool) :
    ∃ d set get, p.draft = .ok (.ok (), d) ∧ d.encode = .ok bytes ∧
      d.body? "setBinding" ⟨[.text, .anyObject], .void⟩ = some set ∧ p.SetsByName d.pool set ∧
      d.body? "getBinding" ⟨[.text], .anyObject⟩ = some get ∧ p.GetsByName d.pool get ∧
      (∀ name, p.view.loadBinding name = p.loadFound name (p.firstNamed (some name))) ∧
      ∀ (σ : Type) (M : Machine σ) (st : List Value) (l : Nat → Option Value) (w : World σ)
        (c : List Call) (self : Ref) (b : Binding), l 0 = some (.ref (some self)) →
        M.Carries (p.loadSlot b) ⟨st, l, w, c⟩ ⟨p.slotValue w self b :: st, l, w, c⟩ := by
  obtain ⟨d, hrun, hencode⟩ := build_eq_ok.1 hbuild
  have hclean := (ClassImage.encode_eq_ok.1 hencode).1
  obtain ⟨_, set, hset, hsetCode⟩ := exists_body? hrun hclean hclauses find?_setBinding
  obtain ⟨_, get, hget, hgetCode⟩ := exists_body? hrun hclean hclauses find?_getBinding
  exact ⟨d, set, get, hrun, hencode, hset, setsByName_of_emitted hfit hclean hsetCode, hget,
    getsByName_of_emitted hfit hclean hgetCode, loadBinding_eq,
    fun σ M st l w c self b hl₀ => carries_loadSlot b hl₀⟩

/-- An adapter with a number, an output stream and a name. -/
def namedWorld : World Unit :=
  ((World.start [.other "demo/Adapter", .other "java/io/PrintStream", .text "count"] ()).setField? 0
    ⟨.field, "demo/Adapter", "count", "J"⟩ (.long 5)).getD (.start [] ())

theorem accessors_of_build_samplePlan :
    ∃ d set get w₁ r w₂, (samplePlan .compiled).draft = .ok (.ok (), d) ∧
      d.body? "setBinding" ⟨[.text, .anyObject], .void⟩ = some set ∧
      d.body? "getBinding" ⟨[.text], .anyObject⟩ = some get ∧
      namedWorld.fields 0 ⟨.field, "demo/Adapter", "count", "J"⟩ = .long 5 ∧
      Machine.Completes ⟨samplePlatform, d.pool, set.code⟩
        [.ref (some 0), .ref (some 2), .ref none] namedWorld none w₁ [] ∧
      w₁.fields 0 ⟨.field, "demo/Adapter", "count", "J"⟩ = .long 0 ∧
      w₁.fields 0 ⟨.field, "demo/Adapter", "counts", "[I"⟩ = .null ∧
      Machine.Completes ⟨samplePlatform, d.pool, get.code⟩ [.ref (some 0), .ref (some 2)]
        w₁ (some (.ref r)) w₂ [] ∧
      r.bind w₂.objects = some (.box .long (.long 0)) := by
  obtain ⟨bytes, hbuild⟩ := (feasible_samplePlan .compiled).exists_build
    (fits_samplePlan .compiled) (builds_addStrategy_compiled rfl rfl rfl rfl) (by decide)
    (by decide)
  obtain ⟨d, set, get, hdraft, -, hset, hsets, hget, hgets, -, -⟩ := accessors_of_build hbuild
    (fieldsFit_samplePlan _) fun _ => clausesKeepPool_samplePlan _
  have hcasts : ∀ b ∈ (samplePlan .compiled).rule.bindings, b.isStored = true →
      some "count" = some b.name →
      (samplePlan .compiled).taken? samplePlatform namedWorld b none ≠ none := by
    decide +kernel
  have hself : namedWorld.objects 0 ≠ none := by decide +kernel
  have hname : namedWorld.objects 2 = some (.text "count") := by decide +kernel
  obtain ⟨w₁, hrun, hall⟩ := hsets Unit samplePlatform namedWorld 0 (some 2) none
    (some "count") hself (.text hname) hcasts
  have hcount : some (Value.long 0) = some (w₁.fields 0 ⟨.field, "demo/Adapter", "count", "J"⟩) :=
    hall.named { name := "count", type := .long, argIndex := 1, flags := .updated } (by decide) rfl
      rfl
  have hcounts : some Value.null =
      some (w₁.fields 0 ⟨.field, "demo/Adapter", "counts", "[I"⟩) :=
    hall.named { name := "count", type := .array .int, fieldName := "counts", flags := .bindVar }
      (by decide) rfl rfl
  obtain ⟨r, w₂, hrun', -, hreads⟩ := hgets Unit samplePlatform w₁ 0 (some 2) (some "count")
    (hall.objects.ne_none hself) (.text (hall.objects 2 _ hname))
  have hshows : r.bind w₂.objects =
      some (.box .long (w₁.fields 0 ⟨.field, "demo/Adapter", "count", "J"⟩)) := hreads
  rw [← Option.some.inj hcount] at hshows
  exact ⟨d, set, get, w₁, r, w₂, hdraft, hset, hget, by decide +kernel, hrun,
    (Option.some.inj hcount).symm, (Option.some.inj hcounts).symm, hrun', hshows⟩

end AdapterPlan

end ClassForge
