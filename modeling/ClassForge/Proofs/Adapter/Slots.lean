import ClassForge.Proofs.Adapter.Provenance
import ClassForge.Proofs.Machine.Conversion

/-!
# Slots of bindings

Where the value of a binding lives while an adapter runs, in terms of the binding's own flags and
of the access policy.

* `AdapterPlan.fieldOf` — the field of a stored binding;
* `AdapterPlan.taken?` — what an object becomes when it is stored there;
* `AdapterPlan.Stores` — objects have been stored for some bindings, and nothing else changed;
* `exists_stores_storeObject`, `exists_carries_each` — **PROVED**: the code that stores an object,
  and code for one binding after the other;
* `Machine.completes_of_emitted` — **PROVED**: a method runs as its code does.
-/

namespace ClassForge

open ConstantPool Emitter

/-- Has the binding a field of its own? -/
def Binding.isStored (b : Binding) : Bool := !b.isAlias && !b.isHelper

/-- The type of a stored binding's field: a hidden type is replaced by that of all objects. -/
def Rule.fieldType (r : Rule) (b : Binding) : JavaType :=
  if r.policy.hides b.type then .anyObject else b.type

namespace AdapterPlan

variable (p : AdapterPlan)

/-- The field of a stored binding. -/
def fieldOf (b : Binding) : MemberRef :=
  ⟨.field, p.className, b.fieldName, (p.rule.fieldType b).descriptor⟩

/-- What an object becomes in the field of a binding: itself in a generalized field, else a value of
the declared type; nothing if a cast fails. -/
def taken? {σ : Type} (P : Platform σ) (w : World σ) (b : Binding) (r : Option Ref) :
    Option Value :=
  if p.rule.policy.hides b.type then some (.ref r) else P.fromObject? w b.type r

/-- The types of the fields can be told from their descriptors. -/
def FieldsFit : Prop :=
  ∀ b ∈ p.rule.bindings, b.isStored = true →
    p.rule.fieldType b ≠ .void ∧ (p.rule.fieldType b).WellFormed

/-- A binding with its storage. -/
def planned (b : Binding) : PlannedBinding := ⟨b, Storage.plan p.rule.policy b⟩

variable {p} {σ : Type} {P : Platform σ} {w w' : World σ} {b b' : Binding} {r : Option Ref}
  {v : Value}

theorem layout_eq : p.rule.layout = p.rule.bindings.map p.planned := rfl

theorem isStored_of_not (halias : b.isAlias = false) (hhelper : b.isHelper = false) :
    b.isStored = true := by
  simp only [Binding.isStored, halias, hhelper, Bool.not_false, Bool.and_self]

theorem storage_planned_of_isHelper (halias : b.isAlias = false) (h : b.isHelper = true) :
    (p.planned b).storage = .adapter := by
  show Storage.plan p.rule.policy b = _
  simp only [Storage.plan, halias, h, Bool.false_eq_true, if_false, if_true]

theorem storage_planned_of_isStored (h : b.isStored = true) :
    (p.planned b).storage =
      .field b.fieldName (p.rule.fieldType b) (p.rule.policy.hides b.type) := by
  unfold Binding.isStored at h
  rw [Bool.and_eq_true, Bool.not_eq_true', Bool.not_eq_true'] at h
  show Storage.plan p.rule.policy b = _
  unfold Storage.plan Rule.fieldType
  rw [h.1, h.2]
  cases p.rule.policy.hides b.type <;> rfl

theorem needsConversion_of_isStored (h : b.isStored = true) :
    (p.planned b).needsConversion = !p.rule.policy.hides b.type := by
  rw [PlannedBinding.needsConversion, storage_planned_of_isStored h]
  rfl

theorem storage_planned_of_not_isStored (h : b.isStored = false) :
    (p.planned b).storage = .none ∨ (p.planned b).storage = .adapter := by
  cases halias : b.isAlias with
  | true => exact .inl (if_pos halias)
  | false =>
    cases hhelper : b.isHelper with
    | true => exact .inr (storage_planned_of_isHelper halias hhelper)
    | false =>
      rw [isStored_of_not halias hhelper] at h
      cases h

/-- Storing converts to the type of the field, whether that is generalized or not. -/
theorem taken?_eq : p.taken? P w b r = P.fromObject? w (p.rule.fieldType b) r := by
  unfold taken? Rule.fieldType
  cases p.rule.policy.hides b.type with
  | true => exact (P.fromObject?_anyObject w r).symm
  | false => rfl

theorem taken?_of_retains (h : w.Retains w') (hv : p.taken? P w b r = some v) :
    p.taken? P w' b r = some v := by
  rw [taken?_eq] at hv ⊢
  exact h.fromObject? hv

theorem taken?_ne_none_of_retains (h : w.Retains w') (hcast : p.taken? P w b r ≠ none) :
    p.taken? P w' b r ≠ none := by
  obtain ⟨v, hv⟩ := Option.ne_none_iff_exists'.1 hcast
  rw [taken?_of_retains h hv]
  nofun

/-- A cast that passes has the same result later. -/
theorem taken?_of_later (h : w.Retains w') (hcast : p.taken? P w b r ≠ none)
    (hv : p.taken? P w' b r = some v) : p.taken? P w b r = some v := by
  obtain ⟨v', hv'⟩ := Option.ne_none_iff_exists'.1 hcast
  rw [taken?_of_retains h hv'] at hv
  rw [hv', hv]

/-- The same field holds values of the same type. -/
theorem FieldsFit.fieldType_inj (h : p.FieldsFit) (hb : b ∈ p.rule.bindings)
    (hstored : b.isStored = true) (hb' : b' ∈ p.rule.bindings) (hstored' : b'.isStored = true)
    (hfield : p.fieldOf b = p.fieldOf b') : p.rule.fieldType b = p.rule.fieldType b' := by
  have hdescriptor : (p.rule.fieldType b).descriptor = (p.rule.fieldType b').descriptor :=
    congrArg MemberRef.descriptor hfield
  have htype := JavaType.ofDescriptor?_descriptor (h b hb hstored).2
  rw [hdescriptor, JavaType.ofDescriptor?_descriptor (h b' hb' hstored').2] at htype
  exact (Option.some.inj htype).symm

theorem FieldsFit.admits (h : p.FieldsFit) (hb : b ∈ p.rule.bindings) (hstored : b.isStored = true)
    (hv : v.fits (p.rule.fieldType b) = true) : World.admits (p.fieldOf b) v = true := by
  show (JavaType.ofDescriptor? (p.rule.fieldType b).descriptor).any v.fits = true
  rw [JavaType.ofDescriptor?_descriptor (h b hb hstored).2]
  exact hv

/-- A field holds a value of its type. -/
theorem FieldsFit.fits_fields (h : p.FieldsFit) (hb : b ∈ p.rule.bindings)
    (hstored : b.isStored = true) (w : World σ) (self : Ref) :
    (w.fields self (p.fieldOf b)).fits (p.rule.fieldType b) = true :=
  w.typed self (p.fieldOf b) _ (JavaType.ofDescriptor?_descriptor (h b hb hstored).2)
    (h b hb hstored).1

theorem fieldsFit_samplePlan (strategy : Strategy) : (samplePlan strategy).FieldsFit := by
  have hall : ∀ b ∈ (samplePlan .compiled).rule.bindings, b.isStored = true →
      (samplePlan .compiled).rule.fieldType b ≠ .void ∧
        ((samplePlan .compiled).rule.fieldType b).WellFormed := by decide +kernel
  exact hall

/-- A platform on which tracing is on, and a rule without clauses runs. -/
def samplePlatform : Platform Unit :=
  .plain (fun _ => some (.ref (some 1))) fun m args w =>
    if m.name = "isVerbose" then some (some (.int 1), w)
    else if m.name = "append" then some (args.head?, w)
    else if m.name = "getName" then
      some (some (.ref (some (World.intern (.text "sample") w).1)),
        (World.intern (.text "sample") w).2)
    else if m.name = "toString" then
      some (some (.ref (some (World.intern (.text "sample execute()") w).1)),
        (World.intern (.text "sample execute()") w).2)
    else some (none, w)

/-! ### Storing an object -/

theorem regular_storeObject (className field : String) (type : JavaType) (convert : Bool) :
    Regular (Adapter.storeObject className field type convert) := by
  cases convert with
  | false => exact regular_putField _ _ _
  | true => exact (regular_convert _ _).seq (regular_putField _ _ _)

/-! ### Storing one object after the other -/

/-- The binding stands in the list, and after it none with the property. -/
def LastIn (bs : List Binding) (Q : Binding → Prop) (b : Binding) : Prop :=
  ∃ before after, bs = before ++ b :: after ∧ ∀ b' ∈ after, ¬Q b'

theorem LastIn.mem {bs : List Binding} {Q : Binding → Prop} (h : LastIn bs Q b) : b ∈ bs := by
  obtain ⟨before, after, rfl, -⟩ := h
  exact List.mem_append_right before List.mem_cons_self

theorem LastIn.head_or_tail {bs : List Binding} {Q : Binding → Prop}
    (h : LastIn (b :: bs) Q b') : (b' = b ∧ ∀ b'' ∈ bs, ¬Q b'') ∨ LastIn bs Q b' := by
  obtain ⟨before, after, hbs, hafter⟩ := h
  cases before with
  | nil =>
    cases hbs
    exact .inl ⟨rfl, hafter⟩
  | cons b₀ before =>
    cases hbs
    exact .inr ⟨before, after, rfl, hafter⟩

theorem exists_lastIn {bs : List Binding} {Q : Binding → Prop} (hb : b ∈ bs) (hQ : Q b) :
    ∃ b', Q b' ∧ LastIn bs Q b' := by
  induction bs generalizing b with
  | nil => cases hb
  | cons b₀ bs ih =>
    by_cases hlater : ∃ b' ∈ bs, Q b'
    · obtain ⟨b', hb', hQ'⟩ := hlater
      obtain ⟨b'', hQ'', before, after, rfl, hafter⟩ := ih hb' hQ'
      exact ⟨b'', hQ'', b₀ :: before, after, rfl, hafter⟩
    · rcases List.mem_cons.1 hb with rfl | hb
      · exact ⟨b, hQ, [], bs, rfl, fun b' hb' hQ' => hlater ⟨b', hb', hQ'⟩⟩
      · exact absurd ⟨b, hb, hQ⟩ hlater

/-- Objects have been stored into the fields of bindings, the last one where bindings share a field,
and no other field changed.  A source tells the object for each binding, or that there is none. -/
structure Stores (p : AdapterPlan) (P : Platform σ) (adapter : Ref)
    (source : Binding → Option (Option Ref)) (bs : List Binding) (w w' : World σ) : Prop where
  objects : w.Retains w'
  stored : ∀ b r, source b = some r →
    LastIn bs (fun b' => source b' ≠ none ∧ p.fieldOf b' = p.fieldOf b) b →
    p.taken? P w b r = some (w'.fields adapter (p.fieldOf b))
  others : ∀ r m, w.objects r ≠ none →
    (∀ b ∈ bs, source b ≠ none → ¬(r = adapter ∧ m = p.fieldOf b)) →
    w'.fields r m = w.fields r m

section Stores

variable {self : Ref} {source : Binding → Option (Option Ref)} {bs : List Binding} {w₁ : World σ}

theorem Stores.of_keeps (h : w.Keeps w') (hnone : ∀ b ∈ bs, source b = none) :
    p.Stores P self source bs w w' where
  objects := h.objects
  stored b r hr hlast := by
    rw [hnone b hlast.mem] at hr
    cases hr
  others r m hr _ := h.fields r hr m

/-- Whatever happened to new objects before does not matter. -/
theorem Stores.of_keeps_left (h : w.Keeps w₁)
    (hcasts : ∀ b ∈ bs, ∀ r, source b = some r → p.taken? P w b r ≠ none)
    (h' : p.Stores P self source bs w₁ w') : p.Stores P self source bs w w' where
  objects := h.objects.trans h'.objects
  stored b r hr hlast :=
    taken?_of_later h.objects (hcasts b hlast.mem r hr) (h'.stored b r hr hlast)
  others r m hr hother := (h'.others r m (h.objects.ne_none hr) hother).trans (h.fields r hr m)

theorem Stores.cons (hself : w.objects self ≠ none)
    (hcasts : ∀ b' ∈ bs, ∀ r, source b' = some r → p.taken? P w b' r ≠ none)
    (h : p.Stores P self source [b] w w₁) (h' : p.Stores P self source bs w₁ w') :
    p.Stores P self source (b :: bs) w w' where
  objects := h.objects.trans h'.objects
  stored b' r hr hlast := by
    rcases hlast.head_or_tail with ⟨rfl, hafter⟩ | hlast
    · -- No later binding writes the field again.
      have hkeep : w'.fields self (p.fieldOf b') = w₁.fields self (p.fieldOf b') :=
        h'.others self _ (h.objects.ne_none hself) fun b'' hb'' hsource heq =>
          hafter b'' hb'' ⟨hsource, heq.2.symm⟩
      rw [hkeep]
      exact h.stored b' r hr ⟨[], [], rfl, nofun⟩
    · exact taken?_of_later h.objects (hcasts b' hlast.mem r hr) (h'.stored b' r hr hlast)
  others r m hr hother := by
    rw [h'.others r m (h.objects.ne_none hr) fun b' hb' =>
      hother b' (List.mem_cons_of_mem b hb')]
    refine h.others r m hr fun b' hb' => ?_
    rw [List.mem_singleton.1 hb']
    exact hother b List.mem_cons_self

/-- **The code that stores an object** into the field of a binding converts it and changes nothing
else. -/
theorem exists_stores_storeObject {M : Machine σ} (self : Ref) (hfit : p.FieldsFit)
    (hb : b ∈ p.rule.bindings) (hstored : b.isStored = true) (hr : source b = some r)
    (hcast : p.taken? M.platform w b r ≠ none) :
    ∃ w', p.Stores M.platform self source [b] w w' ∧
      ∀ st l c, M.Carries (Adapter.storeObject p.className b.fieldName (p.rule.fieldType b)
        (!p.rule.policy.hides b.type)) ⟨.ref r :: .ref (some self) :: st, l, w, c⟩
        ⟨st, l, w', c⟩ := by
  obtain ⟨v, hv⟩ := Option.ne_none_iff_exists'.1 hcast
  have hfrom : M.platform.fromObject? w (p.rule.fieldType b) r = some v := taken?_eq ▸ hv
  obtain ⟨w', hset, hobjects, hfields⟩ := w.exists_setField? self
    (hfit.admits hb hstored (Machine.fits_of_fromObject? hfrom))
  refine ⟨w', ⟨fun r' o ho => hobjects ▸ ho, fun b' r' hr' hlast => ?_, fun r' m _ hother => ?_⟩,
    fun st l c => ?_⟩
  · obtain rfl := List.mem_singleton.1 hlast.mem
    rw [Option.some.inj (hr'.symm.trans hr), hv, hfields, if_pos ⟨rfl, rfl⟩]
  · rw [hfields, if_neg (hother b List.mem_cons_self (by rw [hr]; nofun))]
  have hput : M.Carries (putField p.className b.fieldName (p.rule.fieldType b))
      ⟨v :: .ref (some self) :: st, l, w, c⟩ ⟨st, l, w', c⟩ := .putField hset
  cases hhides : p.rule.policy.hides b.type with
  | true =>
    -- A generalized field takes the object as it is.
    obtain rfl : Value.ref r = v := by
      unfold taken? at hv
      rw [if_pos hhides] at hv
      exact Option.some.inj hv
    exact hput
  | false => exact (Machine.Carries.fromObject (hfit b hb hstored).1 hfrom).seq hput

/-- **Code for one binding after the other.** -/
theorem exists_carries_each {M : Machine σ} {l : Nat → Option Value} {c : List Call}
    {f : PlannedBinding → Emit Unit} {g : Layout → Emit Unit} (hnil : g [] = pure ())
    (hcons : ∀ b bs, g (b :: bs) = do f b; g bs) (hself : w.objects self ≠ none)
    (hcasts : ∀ b ∈ bs, ∀ r, source b = some r → p.taken? M.platform w b r ≠ none)
    (hstep : ∀ b ∈ bs, ∀ w₁, w.Retains w₁ → ∃ w₂, p.Stores M.platform self source [b] w₁ w₂ ∧
      M.Carries (f (p.planned b)) ⟨[], l, w₁, c⟩ ⟨[], l, w₂, c⟩) :
    ∃ w', p.Stores M.platform self source bs w w' ∧
      M.Carries (g (bs.map p.planned)) ⟨[], l, w, c⟩ ⟨[], l, w', c⟩ := by
  induction bs generalizing w with
  | nil =>
    refine ⟨w, .of_keeps (.refl w) nofun, ?_⟩
    show M.Carries (g []) _ _
    rw [hnil]
    exact .pure _
  | cons b bs ih =>
    obtain ⟨w₁, hstores, hcarries⟩ := hstep b List.mem_cons_self w fun _ _ h => h
    have hrest := fun b' (hb' : b' ∈ bs) => hcasts b' (List.mem_cons_of_mem b hb')
    obtain ⟨w', hstores', hcarries'⟩ := ih (hstores.objects.ne_none hself)
      (fun b' hb' r hr => taken?_ne_none_of_retains hstores.objects (hrest b' hb' r hr))
      fun b' hb' w₂ h₂ => hstep b' (List.mem_cons_of_mem b hb') w₂ (hstores.objects.trans h₂)
    refine ⟨w', hstores.cons hself hrest hstores', ?_⟩
    show M.Carries (g (p.planned b :: bs.map p.planned)) _ _
    rw [hcons]
    exact hcarries.seq hcarries'

end Stores

end AdapterPlan

/-! ### Whole methods -/

/-- **A method runs as its code does.** -/
theorem Machine.completes_of_emitted {σ : Type} {P : Platform σ} {pool : ConstantPool}
    {body : MethodBody} {x : Emit Unit} {args : List Value} {w : World σ} {value : Option Value}
    {s : Activation σ} (hemitted : Emitted (liftM x) pool body) (hclean : pool.violation = none)
    (hreturns : Machine.Returns ⟨P, pool, body.code⟩ x ⟨[], fun k => args[k]?, w, []⟩ value s) :
    Machine.Completes ⟨P, pool, body.code⟩ args w value s.world s.calls := by
  obtain ⟨start, slots, e, hcoh, hrun, hfinish, hgrows⟩ := hemitted
  have hx : x (ofPool start slots) = .ok ((), e) := run_liftM_eq_ok.1 hrun
  have hready := ready_ofPool hcoh slots
  have hload : Machine.Loads ⟨P, pool, body.code⟩ e :=
    ⟨(hreturns.regular _ _ _ hx hready).1, (Assembly.finish_eq_ok hfinish).2.1, hgrows, hclean⟩
  obtain ⟨pc, hreach, hreturn⟩ := hreturns.returns hload hx hready ⟨.refl _, .refl _⟩
  exact ⟨⟨pc, s⟩, hreach, hreturn, rfl, rfl⟩

end ClassForge
